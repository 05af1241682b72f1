import Xv6.Lib.Owner
import Xv6.Proofs.Fs.Layout

/-!
# `Xv6.Proofs.Fs.Owned`: who owns a block

The places of an inode are its `NDIRECT + 1` addresses and, when it has an indirect block,
the `NINDIRECT` entries of that block. `held sb v d (i, k)` is the block number at place `k`
of inode `i`, where `v` gives the current inodes and `d` the current blocks. It is zero for
an inode that is not allocated.

`Owned sb v d loose` is the ownership invariant: the places hold disjoint blocks of the data
area, and a data block's bit is set exactly when it is held or loose. The bits of the
metadata blocks are set, so `balloc` never hands one out. The lemmas of the namespace `Owned`
are the moves of `Lib.Owns` as the file system makes them, on bytes.

`fileBlock x d bn` is block `bn` of the file that a dinode `x` describes, zero where there is
no block. Each move comes with what it leaves of the files.
-/

set_option autoImplicit false

namespace Xv6.Proofs.Fs

open Lib Kernel

/-! ### Places -/

/-- Number of places of an inode. -/
def NPLACE : Nat := NDIRECT + 1 + NINDIRECT

/-- The block number at place `k` of an inode: its addresses, then the entries of its
indirect block. -/
def placeOf (x : Dinode) (d : Disk) (k : Nat) : Nat :=
  if k < NDIRECT + 1 then x.addr k
  else if k < NPLACE ∧ x.addr NDIRECT ≠ 0 then
    (d (x.addr NDIRECT)).getWord 4 (4 * (k - (NDIRECT + 1)))
  else 0

/-- Inode `i` is allocated, and lies in the inode area. -/
def Alloc (sb : Superblock) (v : Nat → Dinode) (i : Nat) : Prop :=
  InArea sb i ∧ (v i).type ≠ .none

instance (sb : Superblock) (i : Nat) : Decidable (InArea sb i) :=
  inferInstanceAs (Decidable (_ < _))

instance (sb : Superblock) (v : Nat → Dinode) (i : Nat) : Decidable (Alloc sb v i) :=
  inferInstanceAs (Decidable (_ ∧ _))

/-- The block number at a place of the file system. -/
def held (sb : Superblock) (v : Nat → Dinode) (d : Disk) (p : Nat × Nat) : Nat :=
  if Alloc sb v p.1 then placeOf (v p.1) d p.2 else 0

/-- The place of block `bn` of a file. -/
def filePlace (bn : Nat) : Nat := if bn < NDIRECT then bn else bn + 1

/-- Block `bn` of the file of a dinode. -/
def fileBlock (x : Dinode) (d : Disk) (bn : Nat) : Block :=
  if placeOf x d (filePlace bn) = 0 then Bytes.zero BSIZE else d (placeOf x d (filePlace bn))

/-- Every address of `x` is missing or the one of `y`. -/
def Sub (x y : Dinode) : Prop := ∀ k, x.addr k = 0 ∨ x.addr k = y.addr k

theorem Sub.refl (x : Dinode) : Sub x x := fun _ => Or.inr rfl

variable {b : Nat}

theorem filePlace_inj {a : Nat} (h : filePlace a = filePlace b) : a = b := by
  unfold filePlace at h
  split at h <;> split at h <;> omega

theorem filePlace_ne (bn : Nat) : filePlace bn ≠ NDIRECT := by
  unfold filePlace
  split <;> omega

variable {k : Nat}

theorem placeOf_addr (x : Dinode) (d : Disk) (hk : k < NDIRECT + 1) :
    placeOf x d k = x.addr k := if_pos hk

theorem placeOf_indirect (x : Dinode) (d : Disk) : placeOf x d NDIRECT = x.addr NDIRECT :=
  placeOf_addr x d (Nat.lt_succ_self _)

variable {j : Nat}

/-- The entries of an indirect block, as places. -/
theorem placeOf_entry (x : Dinode) (d : Disk) (hj : j < NINDIRECT) (hx : x.addr NDIRECT ≠ 0) :
    placeOf x d (NDIRECT + 1 + j) = (d (x.addr NDIRECT)).getWord 4 (4 * j) := by
  unfold placeOf NPLACE
  rw [if_neg (by omega), if_pos ⟨by omega, hx⟩, Nat.add_sub_cancel_left]

variable {x : Dinode} {d : Disk}

/-- The places are read from the dinode and its indirect block. -/
theorem placeOf_congr {d' : Disk}
    (h : x.addr NDIRECT ≠ 0 → d' (x.addr NDIRECT) = d (x.addr NDIRECT)) (k : Nat) :
    placeOf x d' k = placeOf x d k := by
  unfold placeOf
  by_cases hx : x.addr NDIRECT = 0
  · simp [hx]
  · rw [h hx]

theorem Sub.place {y : Dinode} (h : Sub x y) (d : Disk) (k : Nat) :
    placeOf x d k = 0 ∨ placeOf x d k = placeOf y d k := by
  unfold placeOf
  split
  · exact h k
  · rcases h NDIRECT with hz | he
    · left
      simp [hz]
    · right
      rw [he]

/-- The places after an address slot has recorded a block that is all zero: an entry of a new
indirect block is none. -/
theorem placeOf_setAddr (hk : k < NDIRECT + 1) (hx : x.addr k = 0) (hb : b < 2 ^ 32)
    (hzero : d b = Bytes.zero BSIZE) (m : Nat) :
    placeOf (x.setAddr k b) d m = if m = k then b else placeOf x d m := by
  by_cases hm : m < NDIRECT + 1
  · rw [placeOf_addr _ _ hm, addr_setAddr _ _ hk hb, placeOf_addr _ _ hm]
  · have hmk : m ≠ k := by omega
    unfold placeOf
    rw [if_neg hm, if_neg hm, if_neg hmk, addr_setAddr _ _ hk hb]
    by_cases hkn : NDIRECT = k
    · subst hkn
      rw [if_pos rfl, hzero, Bytes.getWord_zero, ite_self, hx]
      simp
    · rw [if_neg hkn]

/-- The places after an entry of the indirect block has recorded a block. -/
theorem placeOf_setEntry (hx : x.addr NDIRECT ≠ 0) (hj : j < NINDIRECT) (hb : b < 256 ^ 4)
    (m : Nat) :
    placeOf x (Function.update d (x.addr NDIRECT)
        ((d (x.addr NDIRECT)).setWord 4 (4 * j) b)) m
      = if m = NDIRECT + 1 + j then b else placeOf x d m := by
  by_cases hm : m < NDIRECT + 1
  · rw [placeOf_addr _ _ hm, placeOf_addr _ _ hm, if_neg (by omega)]
  · by_cases hmj : m = NDIRECT + 1 + j
    · have hfit : 4 * j + 4 ≤ BSIZE := by
        have hnd : NINDIRECT = 256 := rfl
        have hbs : BSIZE = 1024 := rfl
        omega
      rw [hmj, if_pos rfl, placeOf_entry _ _ hj hx, Function.update_self,
        Bytes.getWord_setWord_of_lt hfit hb]
    · unfold placeOf
      rw [if_neg hm, if_neg hm, if_neg hmj, Function.update_self,
        Bytes.getWord_setWord_disjoint (by omega)]

variable {sb : Superblock} {v v' : Nat → Dinode} {d d' : Disk} {loose : Nat → Prop}

variable {i : Nat}

theorem held_of_alloc (hi : Alloc sb v i) (k : Nat) :
    held sb v d (i, k) = placeOf (v i) d k := if_pos hi

theorem held_of_not_alloc (hi : ¬ Alloc sb v i) (k : Nat) :
    held sb v d (i, k) = 0 := if_neg hi

theorem alloc_congr (h : v' i = v i) : Alloc sb v' i ↔ Alloc sb v i := by
  unfold Alloc
  rw [h]

/-- The held blocks depend on the inodes of the inode area and on their indirect blocks. -/
theorem held_congr (hv : ∀ i, InArea sb i → v' i = v i)
    (hd : ∀ i, Alloc sb v i → (v i).addr NDIRECT ≠ 0 →
      d' ((v i).addr NDIRECT) = d ((v i).addr NDIRECT)) (p : Nat × Nat) :
    held sb v' d' p = held sb v d p := by
  obtain ⟨i, k⟩ := p
  by_cases hi : Alloc sb v i
  · have heq := hv i hi.1
    rw [held_of_alloc hi, held_of_alloc ((alloc_congr heq).mpr hi), heq]
    exact placeOf_congr (hd i hi) k
  · have hi' : ¬ Alloc sb v' i := fun h => hi ((alloc_congr (hv i h.1)).mp h)
    rw [held_of_not_alloc hi, held_of_not_alloc hi']

/-! ### The invariant and its moves -/

/-- The ownership invariant. -/
structure Owned (sb : Superblock) (v : Nat → Dinode) (d : Disk) (loose : Nat → Prop) :
    Prop where
  owns : Owns (dataStart sb) sb.size (held sb v d) (fun b => bitAt sb d b = true) loose
  metadata : ∀ b, b < dataStart sb → bitAt sb d b = true

variable {c : Nat}

namespace Owned

theorem loose_congr (h : Owned sb v d loose) (loose' : Nat → Prop)
    (hl : ∀ b, loose' b ↔ loose b) : Owned sb v d loose' :=
  ⟨h.owns.congr (fun _ => rfl) (fun _ _ _ => Iff.rfl) hl, h.metadata⟩

theorem indirect_area (h : Owned sb v d loose) (hi : Alloc sb v i) (hx : (v i).addr NDIRECT ≠ 0) :
    dataStart sb ≤ (v i).addr NDIRECT ∧ (v i).addr NDIRECT < sb.size := by
  have := h.owns.area (i, NDIRECT)
  rw [held_of_alloc hi, placeOf_indirect] at this
  exact this hx

/-- A store outside the bitmap and the indirect blocks keeps the invariant. -/
theorem update (h : Owned sb v d loose) (hv : ∀ i, InArea sb i → v' i = v i)
    (hbit : ∀ b, b < sb.size → BBLOCK sb b ≠ c)
    (hind : ∀ i, Alloc sb v i → (v i).addr NDIRECT ≠ 0 → (v i).addr NDIRECT ≠ c) (blk : Block)
    (hl : Layout sb) : Owned sb v' (Function.update d c blk) loose := by
  have hb : ∀ b, b < sb.size → bitAt sb (Function.update d c blk) b = bitAt sb d b :=
    fun b hb => bitAt_congr (Function.update_of_ne (hbit b hb) _ _)
  constructor
  · refine h.owns.congr (held_congr hv ?_) (fun b _ hhi => by rw [hb b hhi]) fun _ => Iff.rfl
    intro i hi hx
    exact Function.update_of_ne (hind i hi hx) _ _
  · intro b hlt
    rw [hb b (Nat.lt_of_lt_of_le hlt hl.data)]
    exact h.metadata b hlt

/-- A store to the inode area keeps the invariant. -/
theorem update_inodes (h : Owned sb v d loose) (hl : Layout sb)
    (hv : ∀ i, InArea sb i → v' i = v i) (hc : c < sb.bmapstart) (blk : Block) :
    Owned sb v' (Function.update d c blk) loose := by
  refine h.update hv ?_ ?_ blk hl
  · intro b _ he
    have := le_BBLOCK sb b
    omega
  · intro i hi hx he
    have := (h.indirect_area hi hx).1
    unfold dataStart at this
    omega

/-- A place other than an indirect address is no indirect block. -/
theorem ne_indirect (h : Owned sb v d loose) (hi : Alloc sb v i) (hk : k ≠ NDIRECT)
    (hx : placeOf (v i) d k ≠ 0) (hj : Alloc sb v j) :
    (v j).addr NDIRECT ≠ placeOf (v i) d k := by
  intro he
  have hp := h.owns.once (i, k) (j, NDIRECT)
  rw [held_of_alloc hi, held_of_alloc hj, placeOf_indirect] at hp
  have := hp he.symm hx
  simp only [Prod.mk.injEq] at this
  exact hk this.2

/-- A store to a data block of a file keeps the invariant. -/
theorem update_data (h : Owned sb v d loose) (hl : Layout sb) (hi : Alloc sb v i)
    (hk : k ≠ NDIRECT) (hx : placeOf (v i) d k ≠ 0) (blk : Block) :
    Owned sb v (Function.update d (placeOf (v i) d k) blk) loose := by
  refine h.update (fun _ _ => rfl) ?_ ?_ blk hl
  · intro b hb he
    have := BBLOCK_lt sb hb
    have harea := h.owns.area (i, k)
    rw [held_of_alloc hi] at harea
    have := (harea hx).1
    omega
  · intro j hj _
    exact h.ne_indirect hi hk hx hj

/-- A block whose bit is clear lies in the data area, and no inode holds it. -/
theorem free_block (h : Owned sb v d loose) (hbit : bitAt sb d b = false) :
    dataStart sb ≤ b ∧ ∀ p, held sb v d p ≠ b := by
  have hlo : dataStart sb ≤ b := by
    by_contra hlt
    have := h.metadata b (by omega)
    rw [hbit] at this
    exact absurd this (by decide)
  refine ⟨hlo, fun p => h.owns.ne_of_not_used (by simp [hbit]) p ?_⟩
  have := h.owns.pos
  omega

/-- `balloc`: the bit is set, the block is cleared, and the block is loose. -/
theorem reserve (h : Owned sb v d loose) (hl : Layout sb) (hb : b < sb.size)
    (hbit : bitAt sb d b = false) :
    Owned sb v (Function.update (Function.update d (BBLOCK sb b)
      (setBit (d (BBLOCK sb b)) b)) b (Bytes.zero BSIZE)) (fun c => c = b ∨ loose c) := by
  obtain ⟨hlo, hfree⟩ := h.free_block hbit
  have hbb := BBLOCK_lt sb hb
  -- The bits after the two stores.
  have hbits : ∀ c, c < sb.size → bitAt sb (Function.update (Function.update d (BBLOCK sb b)
      (setBit (d (BBLOCK sb b)) b)) b (Bytes.zero BSIZE)) c
      = if c = b then true else bitAt sb d c := by
    intro c hc
    have hne : BBLOCK sb c ≠ b := by
      have := BBLOCK_lt sb hc
      omega
    rw [bitAt_congr (Function.update_of_ne hne _ _), bitAt_setBit]
  constructor
  · refine (h.owns.reserve (b := b) (by simp [hbit]) hlo).congr (held_congr (fun _ _ => rfl) ?_)
      ?_ fun _ => Iff.rfl
    · intro i hi hx
      have hne : (v i).addr NDIRECT ≠ b := by
        have := hfree (i, NDIRECT)
        rwa [held_of_alloc hi, placeOf_indirect] at this
      have hnb : (v i).addr NDIRECT ≠ BBLOCK sb b := by
        have := (h.indirect_area hi hx).1
        omega
      rw [Function.update_of_ne hne, Function.update_of_ne hnb]
    · intro c _ hc
      rw [hbits c hc]
      by_cases hcb : c = b
      · simp [hcb]
      · simp [hcb]
  · intro c hc
    rw [hbits c (Nat.lt_of_lt_of_le hc hl.data), if_neg (by omega)]
    exact h.metadata c hc

/-- `bfree`: the bit of a loose block is cleared. -/
theorem release (h : Owned sb v d loose) (hloose : loose b) (hlo : dataStart sb ≤ b)
    (hb : b < sb.size) :
    Owned sb v (Function.update d (BBLOCK sb b) (clearBit (d (BBLOCK sb b)) b))
      (fun c => c ≠ b ∧ loose c) := by
  have hbb := BBLOCK_lt sb hb
  constructor
  · refine (h.owns.release hloose).congr (held_congr (fun _ _ => rfl) ?_) ?_ fun _ => Iff.rfl
    · intro i hi hx
      have hnb : (v i).addr NDIRECT ≠ BBLOCK sb b := by
        have := (h.indirect_area hi hx).1
        omega
      rw [Function.update_of_ne hnb]
    · intro c _ _
      rw [bitAt_clearBit]
      by_cases hcb : c = b
      · simp [hcb]
      · simp [hcb]
  · intro c hc
    rw [bitAt_clearBit, if_neg (by omega)]
    exact h.metadata c hc

/-- The used bit of a loose block is set. -/
theorem bit_of_loose (h : Owned sb v d loose) (hloose : loose b) (hlo : dataStart sb ≤ b)
    (hb : b < sb.size) : bitAt sb d b = true :=
  (h.owns.used_iff b hlo hb).mpr (Or.inl hloose)

/-- Inodes lose addresses: the blocks they held become loose. -/
theorem abandon (h : Owned sb v d loose)
    (hheld : ∀ p, held sb v' d p = 0 ∨ held sb v' d p = held sb v d p) :
    Owned sb v' d (fun c => loose c ∨
      c ≠ 0 ∧ (∃ p, held sb v d p = c) ∧ ∀ p, held sb v' d p ≠ c) :=
  ⟨h.owns.abandon hheld, h.metadata⟩

/-- An address slot records a loose block. A new indirect block is all zero. -/
theorem adopt_addr (h : Owned sb v d loose) (hl : Layout sb) (hi : Alloc sb v i)
    (hk : k < NDIRECT + 1) (hx : (v i).addr k = 0) (hloose : loose b) (hlo : dataStart sb ≤ b)
    (hb : b < sb.size) (hzero : d b = Bytes.zero BSIZE) :
    Owned sb (Function.update v i ((v i).setAddr k b)) d (fun c => c ≠ b ∧ loose c) := by
  have hb32 : b < 2 ^ 32 := Nat.lt_trans hb hl.size
  have hplace : held sb v d (i, k) = 0 := by rw [held_of_alloc hi, placeOf_addr _ _ hk, hx]
  refine ⟨(h.owns.adopt hplace hloose hlo hb).congr ?_ (fun _ _ _ => Iff.rfl)
    fun _ => Iff.rfl, h.metadata⟩
  rintro ⟨j, m⟩
  by_cases hji : j = i
  · subst hji
    have hi' : Alloc sb (Function.update v j ((v j).setAddr k b)) j := by
      refine ⟨hi.1, ?_⟩
      rw [Function.update_self]
      exact hi.2
    rw [held_of_alloc hi', Function.update_self, placeOf_setAddr hk hx hb32 hzero]
    by_cases hmk : m = k
    · rw [if_pos hmk, hmk, Function.update_self]
    · rw [if_neg hmk, Function.update_of_ne (by simpa using hmk), held_of_alloc hi]
  · have hne : (j, m) ≠ (i, k) := by simp [hji]
    rw [Function.update_of_ne hne]
    have heq : Function.update v i ((v i).setAddr k b) j = v j := Function.update_of_ne hji _ _
    by_cases hj : Alloc sb v j
    · rw [held_of_alloc hj, held_of_alloc ((alloc_congr heq).mpr hj), heq]
    · rw [held_of_not_alloc hj, held_of_not_alloc fun h => hj ((alloc_congr heq).mp h)]

/-- An entry of an indirect block records a loose block. -/
theorem adopt_entry (h : Owned sb v d loose) (hl : Layout sb) (hi : Alloc sb v i)
    (hx : (v i).addr NDIRECT ≠ 0) (hj : j < NINDIRECT)
    (hz : (d ((v i).addr NDIRECT)).getWord 4 (4 * j) = 0) (hloose : loose b)
    (hlo : dataStart sb ≤ b) (hb : b < sb.size) :
    Owned sb v (Function.update d ((v i).addr NDIRECT)
      ((d ((v i).addr NDIRECT)).setWord 4 (4 * j) b)) (fun c => c ≠ b ∧ loose c) := by
  obtain ⟨hilo, hihi⟩ := h.indirect_area hi hx
  have hplace : held sb v d (i, NDIRECT + 1 + j) = 0 := by
    rw [held_of_alloc hi, placeOf_entry _ _ hj hx, hz]
  have hbits : ∀ c, c < sb.size → bitAt sb (Function.update d ((v i).addr NDIRECT)
      ((d ((v i).addr NDIRECT)).setWord 4 (4 * j) b)) c = bitAt sb d c := by
    intro c hc
    have := BBLOCK_lt sb hc
    exact bitAt_congr (Function.update_of_ne (by omega) _ _)
  constructor
  · refine (h.owns.adopt hplace hloose hlo hb).congr ?_
      (fun c _ hc => by rw [hbits c hc]) fun _ => Iff.rfl
    rintro ⟨n, m⟩
    by_cases hn : Alloc sb v n
    · rw [held_of_alloc hn]
      by_cases hni : n = i
      · subst hni
        rw [placeOf_setEntry hx hj (Nat.lt_trans hb hl.size)]
        by_cases hmj : m = NDIRECT + 1 + j
        · rw [if_pos hmj, hmj, Function.update_self]
        · have hne : (n, m) ≠ (n, NDIRECT + 1 + j) := by simpa using hmj
          rw [if_neg hmj, Function.update_of_ne hne, held_of_alloc hn]
      · -- Another inode has another indirect block.
        have hne : (n, m) ≠ (i, NDIRECT + 1 + j) := by simp [hni]
        rw [Function.update_of_ne hne, held_of_alloc hn]
        apply placeOf_congr
        intro hxn
        apply Function.update_of_ne
        intro he
        have hp := h.owns.once (n, NDIRECT) (i, NDIRECT)
        rw [held_of_alloc hn, held_of_alloc hi, placeOf_indirect, placeOf_indirect] at hp
        have := hp he hxn
        simp only [Prod.mk.injEq] at this
        exact hni this.1
    · have hne : (n, m) ≠ (i, NDIRECT + 1 + j) := by
        intro he
        simp only [Prod.mk.injEq] at he
        rw [he.1] at hn
        exact hn hi
      rw [Function.update_of_ne hne, held_of_not_alloc hn, held_of_not_alloc hn]
  · intro c hc
    rw [hbits c (Nat.lt_of_lt_of_le hc hl.data)]
    exact h.metadata c hc

end Owned

/-! ### What the moves leave of the files -/

/-- A file is read from the blocks its inode holds: a store elsewhere leaves it alone. -/
theorem fileBlock_update (hi : Alloc sb v i) (hx : Sub x (v i))
    (hc : ∀ k, held sb v d (i, k) ≠ 0 → held sb v d (i, k) ≠ c) (blk : Block) (bn : Nat) :
    fileBlock x (Function.update d c blk) bn = fileBlock x d bn := by
  have hne : ∀ k, placeOf x d k ≠ 0 → placeOf x d k ≠ c := by
    intro k hk
    have hp : placeOf x d k = held sb v d (i, k) := by
      rw [held_of_alloc hi]
      exact (hx.place d k).resolve_left hk
    rw [hp] at hk ⊢
    exact hc k hk
  have hplace : ∀ k, placeOf x (Function.update d c blk) k = placeOf x d k := by
    apply placeOf_congr
    intro hxi
    have := hne NDIRECT (by rwa [placeOf_indirect])
    rw [placeOf_indirect] at this
    exact Function.update_of_ne this _ _
  unfold fileBlock
  rw [hplace]
  split
  · rfl
  · rename_i hk
    rw [Function.update_of_ne (hne _ hk)]

/-- A new block that is all zero shows in no file. -/
theorem fileBlock_setAddr (hk : k < NDIRECT + 1) (hx : x.addr k = 0) (hb : b < 2 ^ 32)
    (hzero : d b = Bytes.zero BSIZE) (bn : Nat) :
    fileBlock (x.setAddr k b) d bn = fileBlock x d bn := by
  unfold fileBlock
  rw [placeOf_setAddr hk hx hb hzero]
  by_cases he : filePlace bn = k
  · rw [if_pos he, hzero, he, placeOf_addr _ _ hk, hx]
    simp
  · rw [if_neg he]

/-- A file block other than the one at `c` is not stored at `c`. -/
theorem Owned.place_ne (h : Owned sb v d loose) {m : Nat} (hi : Alloc sb v i) (hj : Alloc sb v j)
    (hx : placeOf (v i) d k ≠ 0) (hne : (i, k) ≠ (j, m)) :
    placeOf (v i) d k ≠ placeOf (v j) d m := by
  intro he
  have hp := h.owns.once (i, k) (j, m)
  rw [held_of_alloc hi, held_of_alloc hj] at hp
  exact hne (hp he hx)

/-- A new block that is all zero shows in no file, when an indirect block records it. -/
theorem Owned.fileBlock_entry (h : Owned sb v d loose) (hi : Alloc sb v i)
    (hind : (v i).addr NDIRECT ≠ 0) (hj : j < NINDIRECT)
    (hz : (d ((v i).addr NDIRECT)).getWord 4 (4 * j) = 0) (hb : b < 2 ^ 32)
    (hfree : b ≠ (v i).addr NDIRECT) (hzero : d b = Bytes.zero BSIZE) (hx : Sub x (v i))
    (bn : Nat) :
    fileBlock x (Function.update d ((v i).addr NDIRECT)
      ((d ((v i).addr NDIRECT)).setWord 4 (4 * j) b)) bn = fileBlock x d bn := by
  obtain ⟨c, hc⟩ : ∃ c, c = (v i).addr NDIRECT := ⟨_, rfl⟩
  obtain ⟨d', hd'⟩ : ∃ d', d' = Function.update d c ((d c).setWord 4 (4 * j) b) := ⟨_, rfl⟩
  rw [← hc] at hind hz hfree ⊢
  rw [← hd']
  have hdb : d' b = Bytes.zero BSIZE := by rw [hd', Function.update_of_ne hfree, hzero]
  -- The blocks of the file are not the indirect block.
  have hdata : ∀ k, k ≠ NDIRECT → placeOf x d k ≠ 0 → d' (placeOf x d k) = d (placeOf x d k) := by
    intro k hk hxk
    have hp : placeOf x d k = placeOf (v i) d k := (hx.place d k).resolve_left hxk
    rw [hp] at hxk ⊢
    rw [hd']
    apply Function.update_of_ne
    rw [hc, ← placeOf_indirect (v i) d]
    exact h.place_ne hi hi hxk (by simpa using hk)
  have hsame : ∀ k, k ≠ NDIRECT → placeOf x d' k = placeOf x d k →
      (if placeOf x d' k = 0 then Bytes.zero BSIZE else d' (placeOf x d' k))
        = if placeOf x d k = 0 then Bytes.zero BSIZE else d (placeOf x d k) := by
    intro k hk he
    rw [he]
    split
    · rfl
    · rename_i hxk
      exact hdata k hk hxk
  unfold fileBlock
  by_cases hk : filePlace bn < NDIRECT + 1
  · exact hsame _ (filePlace_ne bn) (by rw [placeOf_addr _ _ hk, placeOf_addr _ _ hk])
  · rcases hx NDIRECT with hx0 | hxc
    · exact hsame _ (filePlace_ne bn) (by unfold placeOf; simp [hk, hx0])
    · rw [← hc] at hxc
      by_cases hkj : filePlace bn = NDIRECT + 1 + j
      · -- The new entry: a hole before, a zero block after.
        have hfit : 4 * j + 4 ≤ BSIZE := by
          have hnd : NINDIRECT = 256 := rfl
          have hbs : BSIZE = 1024 := rfl
          omega
        rw [hkj, placeOf_entry _ _ hj (by rw [hxc]; exact hind), placeOf_entry _ _ hj
          (by rw [hxc]; exact hind), hxc, hz, if_pos rfl]
        rw [hd', Function.update_self, Bytes.getWord_setWord_of_lt hfit hb, ← hd', hdb, ite_self]
      · apply hsame _ (filePlace_ne bn)
        unfold placeOf
        rw [if_neg hk, if_neg hk, hxc, hd', Function.update_self,
          Bytes.getWord_setWord_disjoint (by omega)]

/-- A store to one block of a file changes that block of the file. -/
theorem Owned.fileBlock_data (h : Owned sb v d loose) {n : Nat} (hi : Alloc sb v i)
    (hx : placeOf (v i) d (filePlace n) ≠ 0) (blk : Block) (bn : Nat) :
    fileBlock (v i) (Function.update d (placeOf (v i) d (filePlace n)) blk) bn
      = if bn = n then blk else fileBlock (v i) d bn := by
  have hplace : ∀ k, placeOf (v i) (Function.update d (placeOf (v i) d (filePlace n)) blk) k
      = placeOf (v i) d k := by
    apply placeOf_congr
    intro _
    exact Function.update_of_ne (h.ne_indirect hi (filePlace_ne n) hx hi) _ _
  unfold fileBlock
  rw [hplace]
  by_cases hbn : bn = n
  · subst hbn
    rw [if_neg hx, if_pos rfl, Function.update_self]
  · rw [if_neg hbn]
    split
    · rfl
    · rename_i hk
      have hne : (i, filePlace bn) ≠ (i, filePlace n) := by
        simp only [ne_eq, Prod.mk.injEq, true_and]
        exact fun he => hbn (filePlace_inj he)
      exact Function.update_of_ne (h.place_ne hi hi hk hne) _ _

end Xv6.Proofs.Fs
