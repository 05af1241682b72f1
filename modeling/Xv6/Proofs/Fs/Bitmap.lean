import Xv6.Kernel.Bitmap
import Xv6.Proofs.Fs.Layout

/-!
# `Xv6.Proofs.Fs.Bitmap`: `balloc` finds the lowest free block, while it has buffers

`balloc` addresses the bitmap by two counters and `bfree` by division and remainder; they meet
in `bitAt`. The outer loop of `balloc` is an induction on the bitmap blocks that are left. After
`j` of them the bits below `j * BPB` are all set, and the buffers of those `j` bitmap blocks are
still held, since the source releases a bitmap block only where it finds a free bit
(`ballocLoop_spec`).

So the block with the lowest clear bit is returned if there are buffers for the bitmap blocks
before its own, for its own, which the log refers to, and for the block that `bzero` clears.
With a clear bit in the thirtieth bitmap block or later, and none before, `bget` panics.
-/

set_option autoImplicit false

namespace Xv6.Proofs.Fs

open Lib Lib.Action Kernel
open Kernel.Bitmap (Bufs Stop)

variable {sb : Superblock} {d : Disk} {b : Nat} {held pinned : List Nat} {err : Stop → Prop}

/-- `b` is the lowest block number below the size whose bit is clear. -/
structure Lowest (sb : Superblock) (d : Disk) (b : Nat) : Prop where
  lt : b < sb.size
  clear : bitAt sb d b = false
  below : ∀ c < b, bitAt sb d c = true

/-- No bit below the size is clear. -/
def AllSet (sb : Superblock) (d : Disk) : Prop := ∀ c < sb.size, bitAt sb d c = true

/-- The bits of the bitmap blocks themselves are set. -/
def OwnSet (sb : Superblock) (d : Disk) : Prop :=
  ∀ c < sb.size, BBLOCK sb c < sb.size → bitAt sb d (BBLOCK sb c) = true

/-- The blocks of the first `j` bitmap blocks, the last one first. -/
def leaked (sb : Superblock) : Nat → List Nat
  | 0 => []
  | j + 1 => (j + sb.bmapstart) :: leaked sb j

/-- The contents after `b` was allocated. -/
def allocated (sb : Superblock) (d : Disk) (b : Nat) : Disk :=
  Function.update (Function.update d (BBLOCK sb b) (setBit (d (BBLOCK sb b)) b)) b
    (Bytes.zero BSIZE)

theorem length_leaked (j : Nat) : (leaked sb j).length = j := by
  induction j with
  | zero => rfl
  | succ j ih => rw [leaked, List.length_cons, ih]

theorem mem_leaked {x j : Nat} : x ∈ leaked sb j ↔ ∃ i < j, x = i + sb.bmapstart := by
  induction j with
  | zero => simp [leaked]
  | succ j ih =>
    rw [leaked, List.mem_cons, ih]
    constructor
    · rintro (rfl | ⟨i, hi, rfl⟩)
      · exact ⟨j, by omega, rfl⟩
      · exact ⟨i, by omega, rfl⟩
    · rintro ⟨i, hi, rfl⟩
      rcases Nat.lt_succ_iff_lt_or_eq.mp hi with hlt | rfl
      · exact .inr ⟨i, hlt, rfl⟩
      · exact .inl rfl

theorem exists_lowest (h : ¬ AllSet sb d) : ∃ b, Lowest sb d b := by
  have hsome : ∃ c, c < sb.size ∧ bitAt sb d c = false := by
    by_contra hnone
    refine h fun c hc => ?_
    by_contra hbit
    exact hnone ⟨c, hc, by simpa using hbit⟩
  obtain ⟨hlt, hclear⟩ := Nat.find_spec hsome
  refine ⟨Nat.find hsome, hlt, hclear, fun c hc => ?_⟩
  by_contra hbit
  exact Nat.find_min hsome hc ⟨hc.trans hlt, by simpa using hbit⟩

theorem Lowest.unique {c : Nat} (h : Lowest sb d b) (h' : Lowest sb d c) : b = c := by
  rcases Nat.lt_trichotomy b c with hlt | heq | hgt
  · exact absurd (h'.below b hlt) (by rw [h.clear]; decide)
  · exact heq
  · exact absurd (h.below c hgt) (by rw [h'.clear]; decide)

/-- A block that may be allocated is no bitmap block. -/
theorem Lowest.ne_bitmap (h : Lowest sb d b) (hown : OwnSet sb d) {c : Nat} (hc : c < sb.size) :
    b ≠ BBLOCK sb c := by
  intro heq
  have hset := hown c hc (by rw [← heq]; exact h.lt)
  rw [← heq, h.clear] at hset
  cases hset

/-! ### The buffers -/

section
variable {post : Block → Bufs → Prop}

theorem wp_bread_ok (hheld : b ∉ held)
    (hroom : b ∈ pinned ∨ Bufs.referenced ⟨d, held, pinned⟩ < NBUF)
    (hpost : post (d b) ⟨d, b :: held, pinned⟩) :
    wp (Bitmap.bread b) post err ⟨d, held, pinned⟩ := by
  have hfull : ¬ (b ∉ pinned ∧ NBUF ≤ Bufs.referenced ⟨d, held, pinned⟩) := fun h =>
    hroom.elim h.1 fun hlt => absurd h.2 (Nat.not_le.mpr hlt)
  simp only [Bitmap.bread, wp_bind, wp_read, wp_when, wp_modify, wp_pure, id]
  exact ⟨fun h => absurd h hheld, fun _ => ⟨fun h => absurd h hfull, fun _ => hpost⟩⟩

theorem wp_bread_full (hheld : b ∉ held) (hpin : b ∉ pinned)
    (hfull : NBUF ≤ Bufs.referenced ⟨d, held, pinned⟩) (herr : err .noBuffers) :
    wp (Bitmap.bread b) post err ⟨d, held, pinned⟩ := by
  simp only [Bitmap.bread, wp_bind, wp_read, wp_when, wp_modify, wp_pure, wp_fail, id]
  exact ⟨fun h => absurd h hheld, fun _ => ⟨fun _ => herr, fun h => absurd ⟨hpin, hfull⟩ h⟩⟩

end

section
variable {post : Unit → Bufs → Prop} {blk : Block}

theorem wp_logWrite_pin (hroom : pinned.length < LOGBLOCKS) (hb : b ∉ pinned)
    (hpost : post () ⟨Function.update d b blk, held, b :: pinned⟩) :
    wp (Bitmap.logWrite b blk) post err ⟨d, held, pinned⟩ := by
  simp only [Bitmap.logWrite, wp_bind, wp_read, wp_when, wp_modify, id, if_neg hb]
  exact ⟨fun h => absurd h (Nat.not_le.mpr hroom), fun _ => hpost⟩

/-- A block that the log has already. -/
theorem wp_logWrite_again (hroom : pinned.length < LOGBLOCKS) (hb : b ∈ pinned)
    (hpost : post () ⟨Function.update d b blk, held, pinned⟩) :
    wp (Bitmap.logWrite b blk) post err ⟨d, held, pinned⟩ := by
  simp only [Bitmap.logWrite, wp_bind, wp_read, wp_when, wp_modify, id, if_pos hb]
  exact ⟨fun h => absurd h (Nat.not_le.mpr hroom), fun _ => hpost⟩

theorem wp_brelse (hpost : post () ⟨d, held, pinned⟩) :
    wp (Bitmap.brelse b) post err ⟨d, b :: held, pinned⟩ := by
  rw [Bitmap.brelse, wp_modify, List.erase_cons_head]
  exact hpost

end

/-! ### `balloc` -/

theorem div_BPB {j bi : Nat} (hbi : bi < BPB) : (j * BPB + bi) / BPB = j := by
  have hbpb : BPB = 8192 := rfl
  rw [hbpb] at hbi ⊢
  omega

theorem mod_BPB {j bi : Nat} (hbi : bi < BPB) : (j * BPB + bi) % BPB = bi := by
  have hbpb : BPB = 8192 := rfl
  rw [hbpb] at hbi ⊢
  omega

theorem BBLOCK_add {j bi : Nat} (hbi : bi < BPB) :
    BBLOCK sb (j * BPB + bi) = j + sb.bmapstart := by
  rw [BBLOCK, div_BPB hbi]

theorem BBLOCK_mul (j : Nat) : BBLOCK sb (j * BPB) = j + sb.bmapstart := by
  have h := @BBLOCK_add sb j 0 (by decide)
  rwa [Nat.add_zero] at h

/-- The counters of `balloc` and the division and remainder address the same bit. -/
theorem bitIn_eq {j bi : Nat} (hbi : bi < BPB) :
    Bitmap.bitIn (d (j + sb.bmapstart)) bi = bitAt sb d (j * BPB + bi) := by
  unfold Bitmap.bitIn bitAt
  rw [mod_BPB hbi, BBLOCK_add hbi]

theorem orBit_eq {j bi : Nat} (hbi : bi < BPB) (bp : Block) :
    Bitmap.orBit bp bi = setBit bp (j * BPB + bi) := by
  unfold Bitmap.orBit setBit
  rw [mod_BPB hbi]

/-- `balloc` found the lowest clear bit, and has held the bitmap blocks before it since. -/
structure Found (sb : Superblock) (d : Disk) (b : Nat) (t : Bufs) : Prop where
  lowest : Lowest sb d b
  room : b / BPB + 2 ≤ NBUF
  state : t = ⟨allocated sb d b, leaked sb (b / BPB), [b, BBLOCK sb b]⟩

/-- `balloc` may fail: there is no clear bit, or the lowest one is too far. -/
def MayFail (sb : Superblock) (d : Disk) : Prop :=
  AllSet sb d ∨ ∃ b, Lowest sb d b ∧ NBUF < b / BPB + 2

theorem notMem_leaked (j : Nat) : j + sb.bmapstart ∉ leaked sb j := fun hmem => by
  obtain ⟨i, hi, heq⟩ := mem_leaked.mp hmem
  omega

/-- A free block is none of the bitmap blocks before its own. -/
theorem Lowest.notMem_leaked (h : Lowest sb d b) (hown : OwnSet sb d) :
    b ∉ leaked sb (b / BPB) := fun hmem => by
  obtain ⟨i, hi, heq⟩ := mem_leaked.mp hmem
  have hlt : i * BPB < sb.size := Nat.lt_of_le_of_lt
    ((Nat.mul_le_mul_right BPB hi.le).trans (Nat.div_mul_le_self b BPB)) h.lt
  exact h.ne_bitmap hown hlt (by rw [BBLOCK_mul]; exact heq)

/-- The end of `balloc`, which has found a clear bit. -/
def ballocFound (sb : Superblock) (b bi : Nat) (bp : Block) : Bitmap.BufM Nat := do
  Bitmap.logWrite (BBLOCK sb b) (Bitmap.orBit bp bi)
  Bitmap.brelse (BBLOCK sb b)
  Bitmap.bzero (b + bi)
  Pure.pure (b + bi)

theorem ballocFound_spec (hown : OwnSet sb d) {j bi : Nat} (hbi : bi < BPB)
    (hlow : Lowest sb d (j * BPB + bi)) :
    wp (ballocFound sb (j * BPB) bi (d (j + sb.bmapstart))) (Found sb d) (fun _ => MayFail sb d)
      ⟨d, (j + sb.bmapstart) :: leaked sb j, []⟩ := by
  have hne := hlow.ne_bitmap hown hlow.lt
  have hfree := hlow.notMem_leaked hown
  rw [BBLOCK_add hbi] at hne
  rw [div_BPB hbi] at hfree
  rw [ballocFound, BBLOCK_mul, orBit_eq hbi (d (j + sb.bmapstart)), wp_bind]
  refine wp_logWrite_pin (show 0 < LOGBLOCKS by decide) List.not_mem_nil ?_
  rw [wp_bind]
  refine wp_brelse ?_
  rw [wp_bind, Bitmap.bzero, wp_bind]
  -- The bitmap blocks before this one, and this one, are referred to.
  have hcount : ∀ d', Bufs.referenced ⟨d', leaked sb j, [j + sb.bmapstart]⟩ = j + 1 := fun d' => by
    simp [Bufs.referenced, length_leaked, Fs.notMem_leaked]
  by_cases hroom : j + 2 ≤ NBUF
  · refine wp_bread_ok hfree (.inr (by rw [hcount]; exact hroom)) ?_
    rw [wp_bind]
    refine wp_logWrite_pin (show 1 < LOGBLOCKS by decide) (by simpa using hne) ?_
    refine wp_brelse (wp_pure.mpr ⟨hlow, by rw [div_BPB hbi]; exact hroom, ?_⟩)
    rw [div_BPB hbi, allocated, BBLOCK_add hbi]
  · refine wp_bread_full hfree (by simpa using hne) (by rw [hcount]; omega) ?_
    exact .inr ⟨_, hlow, by rw [div_BPB hbi]; omega⟩

/-- From the bitmap block `j` on, with `n` of them left, when all bits before are set. -/
theorem ballocLoop_spec (hown : OwnSet sb d) (n j : Nat) (hn : sb.size ≤ (j + n) * BPB)
    (hset : ∀ c < sb.size, c < j * BPB → bitAt sb d c = true) :
    wp (Bitmap.ballocLoop sb n (j * BPB)) (Found sb d) (fun _ => MayFail sb d)
      ⟨d, leaked sb j, []⟩ := by
  induction n generalizing j with
  | zero =>
    refine wp_fail.mpr (.inl fun c hc => hset c hc (Nat.lt_of_lt_of_le hc ?_))
    rwa [Nat.add_zero] at hn
  | succ n ih =>
    have hcount : Bufs.referenced ⟨d, leaked sb j, []⟩ = j := by
      simp [Bufs.referenced, length_leaked]
    rw [Bitmap.ballocLoop, wp_bind, BBLOCK_mul]
    by_cases hfull : NBUF ≤ j
    · refine wp_bread_full (notMem_leaked j) List.not_mem_nil (by rw [hcount]; exact hfull) ?_
      by_cases hall : AllSet sb d
      · exact .inl hall
      · -- The lowest clear bit is in this bitmap block or later.
        obtain ⟨b, hb⟩ := exists_lowest hall
        have hge : j * BPB ≤ b := by
          by_contra hlt
          have hbit := hset b hb.lt (Nat.not_le.mp hlt)
          rw [hb.clear] at hbit
          cases hbit
        have hdiv : j ≤ b / BPB := (Nat.le_div_iff_mul_le (by decide)).mpr hge
        exact .inr ⟨b, hb, by omega⟩
    · refine wp_bread_ok (notMem_leaked j) (.inr (by rw [hcount]; omega)) ?_
      cases hf : Bitmap.firstClear sb.size (j * BPB) (d (j + sb.bmapstart)) with
      | some bi =>
        obtain ⟨hclear, hmem, hbelow⟩ := List.find?_range_eq_some.mp hf
        rw [List.mem_range] at hmem
        have hbi : bi < BPB := by omega
        rw [bitIn_eq hbi, Bool.not_eq_true'] at hclear
        have hlow : Lowest sb d (j * BPB + bi) := by
          refine ⟨by omega, hclear, fun c hc => ?_⟩
          by_cases hcj : c < j * BPB
          · exact hset c (by omega) hcj
          · obtain ⟨k, rfl⟩ := Nat.exists_eq_add_of_le (Nat.not_lt.mp hcj)
            have hk := hbelow k (by omega)
            rw [bitIn_eq (by omega)] at hk
            simpa using hk
        have hfound := ballocFound_spec hown hbi hlow
        rw [ballocFound, BBLOCK_mul] at hfound
        exact hfound
      | none =>
        have hnone := List.find?_eq_none.mp hf
        have hstep : j * BPB + BPB = (j + 1) * BPB := (Nat.succ_mul j BPB).symm
        have hrest := ih (j + 1) (by rwa [show j + 1 + n = j + (n + 1) by omega]) fun c hc hlt => by
          by_cases hcj : c < j * BPB
          · exact hset c hc hcj
          · obtain ⟨k, rfl⟩ := Nat.exists_eq_add_of_le (Nat.not_lt.mp hcj)
            have hk := hnone k (List.mem_range.mpr (by omega))
            rw [bitIn_eq (by omega)] at hk
            simpa using hk
        rw [← hstep] at hrest
        exact hrest

/-- `balloc` from a cache without references. -/
theorem balloc_found (hown : OwnSet sb d) :
    wp (Bitmap.balloc sb) (Found sb d) (fun _ => MayFail sb d) ⟨d, [], []⟩ := by
  have hbpb : BPB = 8192 := rfl
  have hspec := ballocLoop_spec hown ((sb.size + BPB - 1) / BPB) 0 (by rw [hbpb]; omega)
    (fun c _ hc => by omega)
  rw [Nat.zero_mul] at hspec
  exact hspec

/-- Too far a clear bit is not found. -/
theorem balloc_far (hown : OwnSet sb d) (hlow : Lowest sb d b) (hfar : NBUF < b / BPB + 2) :
    ∃ e, Bitmap.balloc sb ⟨d, [], []⟩ = .error e := by
  cases hrun : Bitmap.balloc sb ⟨d, [], []⟩ with
  | error e => exact ⟨e, rfl⟩
  | ok r =>
    have hfound : Found sb d r.1 r.2 := wp_ok (balloc_found hown) hrun
    have hroom := hfound.room
    rw [hfound.lowest.unique hlow] at hroom
    omega

/-! ### What a caller sees -/

/-- `c` has a bit in the bitmap, which has whole blocks. -/
def InBitmap (sb : Superblock) (c : Nat) : Prop := c / BPB * BPB < sb.size

/-- The bit of `b`, and no other, is set, and `b`, and no other block but its bitmap block,
changes: it is zeroed. -/
structure Sets (sb : Superblock) (d : Disk) (b : Nat) (d' : Disk) : Prop where
  bits : ∀ c, InBitmap sb c → bitAt sb d' c = if c = b then true else bitAt sb d c
  zeroed : d' b = Bytes.zero BSIZE
  others : ∀ x, x ≠ b → x ≠ BBLOCK sb b → d' x = d x

/-- The bit of `b`, and no other, is cleared, and no block but its bitmap block changes. -/
structure Clears (sb : Superblock) (d : Disk) (b : Nat) (d' : Disk) : Prop where
  bits : ∀ c, bitAt sb d' c = if c = b then false else bitAt sb d c
  others : ∀ x, x ≠ BBLOCK sb b → d' x = d x

theorem inBitmap_of_lt {c : Nat} (hc : c < sb.size) : InBitmap sb c :=
  Nat.lt_of_le_of_lt (Nat.div_mul_le_self c BPB) hc

theorem Lowest.sets (h : Lowest sb d b) (hown : OwnSet sb d) : Sets sb d b (allocated sb d b) := by
  refine ⟨fun c hc => ?_, Function.update_self _ _ _, fun x hx hblock => ?_⟩
  · have hne := h.ne_bitmap hown hc
    rw [BBLOCK_mul] at hne
    rw [allocated, bitAt_congr (Function.update_of_ne hne.symm _ _), bitAt_setBit]
  · rw [allocated, Function.update_of_ne hx, Function.update_of_ne hblock]

/-- `bfree` with the buffer of its bitmap block at hand. -/
theorem bfree_clears (hheld : BBLOCK sb b ∉ held)
    (hroom : BBLOCK sb b ∈ pinned ∨ Bufs.referenced ⟨d, held, pinned⟩ < NBUF)
    (hlog : pinned.length < LOGBLOCKS) (hbit : bitAt sb d b = true) :
    wp (Bitmap.bfree sb b) (fun _ t => Clears sb d b t.disk) (fun _ => False)
      ⟨d, held, pinned⟩ := by
  have hclears : Clears sb d b (Function.update d (BBLOCK sb b) (clearBit (d (BBLOCK sb b)) b)) :=
    ⟨fun c => bitAt_clearBit b c, fun x hx => Function.update_of_ne hx _ _⟩
  rw [Bitmap.bfree, wp_bind]
  refine wp_bread_ok hheld hroom ?_
  have hin : Bitmap.bitIn (d (BBLOCK sb b)) (b % BPB) = true := hbit
  simp only [hin, if_true]
  rw [wp_bind]
  by_cases hpin : BBLOCK sb b ∈ pinned
  · exact wp_logWrite_again hlog hpin (wp_brelse hclears)
  · exact wp_logWrite_pin hlog hpin (wp_brelse hclears)

/-- The bitmap is addressed consistently, by calls in a cache without references. -/
structure BitmapRight (sb : Superblock) (d : Disk) : Prop where
  alloc : wp (Bitmap.balloc sb) (fun b t => Lowest sb d b ∧ Sets sb d b t.disk)
    (fun _ => AllSet sb d) ⟨d, [], []⟩
  allSet : AllSet sb d → wp (Bitmap.balloc sb) (fun _ _ => False) (fun _ => True) ⟨d, [], []⟩
  free : ∀ b < sb.size, bitAt sb d b = true →
    wp (Bitmap.bfree sb b) (fun _ t => Clears sb d b t.disk) (fun _ => False) ⟨d, [], []⟩
  undo : wp (Bitmap.balloc sb >>= fun b => Bitmap.bfree sb b)
    (fun _ t => ∀ c, InBitmap sb c → bitAt sb t.disk c = bitAt sb d c) (fun _ => AllSet sb d)
    ⟨d, [], []⟩
  distinct : ∀ b c, BBLOCK sb c = BBLOCK sb b → c % BPB / 8 = b % BPB / 8 →
    c % BPB % 8 = b % BPB % 8 → c = b

/-- A file system with `n` bitmap blocks, from block 2 on. -/
def manySb (n : Nat) : Superblock := ⟨0, n * BPB, 0, 0, 0, 0, 0, 2⟩

/-- A disk whose first `k` bitmap blocks are full, and the others empty. -/
def filledTo (k : Nat) : Disk := fun x => if x < k + 2 then fun _ => 255 else Bytes.zero BSIZE

theorem bitAt_filledTo (n k c : Nat) : bitAt (manySb n) (filledTo k) c = decide (c / BPB < k) := by
  have hbyte : c % BPB / 8 < BSIZE := by
    have hbpb : BPB = 8192 := rfl
    have hbsize : BSIZE = 1024 := rfl
    rw [hbpb, hbsize]
    omega
  have hones : ∀ i < 8, (255 : UInt8).toNat.testBit i = true := by decide
  have hblock : BBLOCK (manySb n) c = c / BPB + 2 := rfl
  unfold bitAt
  rw [hblock, filledTo]
  by_cases hk : c / BPB < k
  · rw [if_pos (by omega), Bytes.get, dif_pos hbyte, hones _ (Nat.mod_lt _ (by decide))]
    exact (decide_eq_true hk).symm
  · rw [if_neg (by omega), Bytes.get_zero, decide_eq_false hk]
    exact Nat.zero_testBit _

theorem ownSet_filledTo {n k : Nat} (hk : 0 < k) (hn : n + 2 ≤ BPB) :
    OwnSet (manySb n) (filledTo k) := by
  intro c hc _
  have hlt : c / BPB < n := (Nat.div_lt_iff_lt_mul (by decide)).mpr hc
  have hblock : BBLOCK (manySb n) c = c / BPB + 2 := rfl
  rw [bitAt_filledTo, hblock, Nat.div_eq_of_lt (by omega)]
  exact decide_eq_true hk

end Xv6.Proofs.Fs
