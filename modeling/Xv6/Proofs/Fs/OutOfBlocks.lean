import Xv6.Proofs.Fs.ByteFiles

/-!
# `Xv6.Proofs.Fs.OutOfBlocks`: a write that needs more blocks than there are

`balloc` stops the kernel when no block is free, so it never returns 0, and neither does `bmap`.
The tests of `bmap`, `writei`, `dirlink` and `create` for that 0 have nothing to catch.

A call of `writei` that returned would have filled every empty place on the way to its blocks
(`Fills`), and the free blocks would be fewer by as many. When there were too few, the call
cannot return (`writei_out_of_blocks`). The pieces of the range are copied one after the other,
and the lack may come at any of them, so the lemma of the loop is about the first `k` bytes.
-/

set_option autoImplicit false

namespace Xv6.Proofs.Fs

open Lib Lib.Action Kernel

variable {sb : Superblock} {s t : FsState} {loose : Nat → Prop} {ip : Ino} {i off left n k : Nat}
  {P Q : Finset Nat}

/-- The kernel has stopped in `balloc`. -/
def NoBlock (e : Panic) : Prop := e = .ballocOutOfBlocks

theorem throws_balloc : Throws NoBlock (balloc sb) := by
  refine Throws.bind Throws.read fun _ => ?_
  split
  · exact Throws.bind Throws.modify fun _ => Throws.bind Throws.modify fun _ => Throws.pure
  · exact Throws.fail rfl

theorem throws_bmap {bn : Nat} (hbn : bn < MAXFILE) : Throws NoBlock (bmap sb ip bn) := by
  have hslot : ∀ j, Throws NoBlock (bmapSlot sb ip j) := fun j =>
    Throws.bind Throws.read fun _ => Throws.ite (Throws.bind throws_balloc fun _ =>
      Throws.ite Throws.pure (Throws.bind Throws.modify fun _ => Throws.pure)) Throws.pure
  unfold bmap
  split
  · exact hslot bn
  split
  · refine Throws.bind (hslot NDIRECT) fun _ => Throws.ite Throws.pure ?_
    refine Throws.bind Throws.read fun _ => Throws.ite ?_ Throws.pure
    refine Throws.bind throws_balloc fun _ => Throws.ite Throws.pure ?_
    exact Throws.bind Throws.read fun _ => Throws.bind Throws.modify fun _ => Throws.pure
  · have hmax : MAXFILE = NDIRECT + NINDIRECT := rfl
    omega

/-- Too few for all are too few for the rest, once the first places are filled. -/
theorem Fills.short_rest (h : Fills sb s t i (lacking sb s i P)) (hs : Inv sb s loose)
    (ht : Inv sb t loose) (hshort : Short sb s i (P ∪ Q)) : Short sb t i Q := by
  have hcard := h.card hs ht
  unfold Short at *
  rw [h.card_union] at hshort
  omega

/-- The loop of `writei` does not get past a block that it cannot have. -/
theorem writeiLoop_short (hl : Layout sb) {copyin : CopyIn} (fuel : Nat) (h : Inv sb s loose)
    (hip : Loaded s ip) (tot : Nat) (hmax : off + left ≤ MAXFILE * BSIZE) (hfuel : left ≤ fuel)
    (hk : k ≤ left)
    (hcopy : ∀ tot' m, tot ≤ tot' → tot' + m < tot + k → (copyin tot' m).2 = true)
    (hshort : Short sb s (s.itable ip).inum (waysTo off k)) :
    wp (writeiLoop sb ip copyin fuel off left tot) (fun _ _ => False) NoBlock s := by
  induction fuel generalizing s off left tot k with
  | zero =>
    obtain rfl : k = 0 := by omega
    exact absurd hshort (Nat.not_lt_zero _)
  | succ fuel ih =>
    have hkpos : 0 < k := by
      refine Nat.pos_of_ne_zero ?_
      rintro rfl
      exact absurd hshort (Nat.not_lt_zero _)
    have hbs : 0 < BSIZE := by decide
    have hmod : off % BSIZE < BSIZE := Nat.mod_lt _ hbs
    have hbn : off / BSIZE < MAXFILE := by
      rw [Nat.div_lt_iff_lt_mul hbs]
      omega
    obtain ⟨m, hm⟩ : ∃ m, m = min left (BSIZE - off % BSIZE) := ⟨_, rfl⟩
    rw [waysTo_split hkpos rfl] at hshort
    refine writeiLoop_piece_fills hl h hip (by omega) hm (wp_mono (wp_both
      (bmap_fills hl h hip hbn) ((throws_bmap hbn).run s)) (fun _ _ hb => hb.1) fun _ he => he.2) ?_
    intro u hpiece hstore
    have hrest := hstore.short_rest h hpiece.inv hshort
    -- the lack is in a later piece, so this one is copied
    have hlt : m < k := by
      by_contra hge
      rw [show k - min k (BSIZE - off % BSIZE) = 0 by omega] at hrest
      exact absurd hrest (Nat.not_lt_zero _)
    rw [show min k (BSIZE - off % BSIZE) = m by omega, ← hpiece.inum] at hrest
    rw [if_pos (hcopy tot m (Nat.le_refl _) (by omega))]
    exact ih hpiece.inv hpiece.loaded (tot + m) (by omega) (by omega) (by omega)
      (fun tot' m' hlo hhi => hcopy tot' m' (by omega) (by omega)) hrest

/-- A call of `writei` that needs more blocks than there are stops the kernel, whatever piece the
lack comes at, and `bmap` returns 0 to nobody. -/
theorem writei_out_of_blocks (hl : Layout sb) (h : Inv sb s loose) (hip : Loaded s ip)
    (copyin : CopyIn) (hoff : off ≤ (s.itable ip).size.toNat) (hmax : off + n ≤ MAXFILE * BSIZE)
    (hk : k ≤ n) (hcopy : ∀ tot m, tot + m < k → (copyin tot m).2 = true)
    (hshort : Short sb s (s.itable ip).inum (waysTo off k)) :
    writei sb ip copyin off n s = .error .ballocOutOfBlocks ∧
      ∀ bn b t, bmap sb ip bn s = .ok (b, t) → b ≠ 0 := by
  have hbig : MAXFILE * BSIZE < 2 ^ 32 := by decide
  have hstops : wp (writei sb ip copyin off n) (fun _ _ => False) NoBlock s := by
    rw [writei, wp_bind, wp_inode, if_neg, if_neg (by omega), wp_bind]
    · refine wp_post (writeiLoop_short hl n h hip 0 hmax (Nat.le_refl n) hk ?_ hshort)
        fun _ _ hfalse => hfalse.elim
      exact fun tot m _ hlt => hcopy tot m (by omega)
    · rw [Nat.mod_eq_of_lt (by omega)]
      omega
  refine ⟨?_, fun bn b t hrun => (wp_ok (bmap_spec hl h hip bn) hrun).2.2.1⟩
  cases hrun : writei sb ip copyin off n s with
  | ok r => exact (wp_ok hstops hrun).elim
  | error e => rw [wp_error hstops hrun]

/-! ### A full disk -/

/-- A disk of `mkfs` that ends where the data area would start. -/
def fullDisk : Superblock := { Mkfs.superblock with size := Mkfs.nmeta }

theorem fullDisk_layout : Layout fullDisk := ⟨mkfs_layout.inodes, by decide, by decide⟩

theorem fullDisk_inv : Inv fullDisk bareState fun _ => False := by
  obtain ⟨howned, hsound, -⟩ := bareState_owned
  have hheld : ∀ p, held fullDisk (view fullDisk bareState) bareState.disk p = 0 :=
    bare_held fun i hi => bareState_view hi
  refine ⟨hsound.uniq, hsound.dev, hsound.cached, ⟨?_, hsound.metadata⟩⟩
  refine ⟨by decide, fun p hp => absurd (hheld p) hp, fun p q _ hp => absurd (hheld p) hp,
    fun b hlo hhi => ?_, fun _ _ => id⟩
  exact absurd (Nat.lt_of_le_of_lt hlo hhi) (by decide)

/-- No block of the full disk is free, and the first byte of a file needs one. -/
theorem fullDisk_short : Short fullDisk bareState (bareState.itable slot0).inum (waysTo 0 1) := by
  have hnone : freeBlocks fullDisk bareState.disk = ∅ := by
    refine Finset.filter_eq_empty_iff.mpr fun b hb hbit => ?_
    have hset := fullDisk_inv.owned.metadata b (Finset.mem_range.mp hb)
    rw [hbit] at hset
    cases hset
  have hheld : ∀ p, blockAt fullDisk bareState p = 0 := bare_held fun i hi => bareState_view hi
  have hlack : 0 ∈ lacking fullDisk bareState (bareState.itable slot0).inum (waysTo 0 1) :=
    Finset.mem_filter.mpr ⟨by decide, hheld _⟩
  unfold Short
  rw [hnone]
  exact Finset.card_pos.mpr ⟨0, hlack⟩

/-- The first byte of a file on the full disk. -/
theorem writei_out_of_blocks_full :
    writei fullDisk slot0 (kernelSrc [1]) 0 1 bareState = .error .ballocOutOfBlocks :=
  (writei_out_of_blocks fullDisk_layout fullDisk_inv bareState_loaded _ (Nat.zero_le _)
    (by decide) (Nat.le_refl 1) (fun _ _ _ => rfl) fullDisk_short).1

/-- A directory on the full disk takes no entry, and `dirlink` does not return -1. -/
theorem dirlink_full_panics :
    dirlink fullDisk slot0 [97] ROOTINO bareState = .error .ballocOutOfBlocks := by
  have hstops : wp (dirlink fullDisk slot0 [97] ROOTINO) (fun _ _ => False) NoBlock bareState := by
    unfold NoBlock
    decide +kernel
  cases hrun : dirlink fullDisk slot0 [97] ROOTINO bareState with
  | ok r => exact (wp_ok hstops hrun).elim
  | error e => rw [wp_error hstops hrun]

end Xv6.Proofs.Fs
