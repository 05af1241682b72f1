import Xv6.Kernel.Fs
import Mathlib.Tactic.IntervalCases

/-!
# `Xv6.Proofs.Fs.Layout`: what a write to one structure on disk leaves of the others

The superblock cuts the disk into the inode area, the bitmap and the data area. `Layout sb`
says that the areas follow one another, as in an image of `mkfs` (`mkfs_layout`).

Inside an area, `dinodeAt_writeDinode` and `bitAt_setBit` say what a store of one dinode or
one bit leaves: the new value there, the old value at every other inode or block. Across the
areas, `dinodeAt_congr` and `bitAt_congr` say that a store to a block of one area leaves the
structures of the others.
-/

set_option autoImplicit false

namespace Xv6.Proofs.Fs

open Lib Kernel

/-! ### Dinodes in an inode block -/

theorem toShort_lt (t : InodeType) : t.toShort < 65536 := by
  cases t with
  | other k =>
    have := k.isLt
    simp only [InodeType.toShort]
    omega
  | _ => decide

@[simp] theorem ofShort_toShort (t : InodeType) : InodeType.ofShort t.toShort = t := by
  cases t with
  | other k =>
    have hk := k.isLt
    have hmod : (k.val + 4) % 65536 = k.val + 4 := Nat.mod_eq_of_lt (by omega)
    simp only [InodeType.toShort, InodeType.ofShort, hmod]
    congr 1
    exact Fin.ext (Nat.mod_eq_of_lt hk)
  | _ => rfl

theorem shortWord_lt (x : Int16) : shortWord x < 65536 := UInt16.toNat_lt _

@[simp] theorem ofNat_shortWord (x : Int16) : Int16.ofNat (shortWord x) = x := by
  apply Int16.toBitVec.inj
  simp [shortWord]

@[simp] theorem ofNat_toNat_uint32 (x : UInt32) : UInt32.ofNat x.toNat = x := by simp

theorem addr_lt (d : Dinode) (i : Nat) : d.addr i < 2 ^ 32 := by
  unfold Dinode.addr
  split
  · exact UInt32.toNat_lt _
  · decide

theorem addr_fin (d : Dinode) (j : Fin (NDIRECT + 1)) : d.addr j.val = (d.addrs j).toNat := by
  simp [Dinode.addr, j.isLt]

/-- A block number fits in an address slot. -/
theorem addr_setAddr (d : Dinode) {i b : Nat} (j : Nat) (hi : i < NDIRECT + 1)
    (hb : b < 2 ^ 32) : (d.setAddr i b).addr j = if j = i then b else d.addr j := by
  unfold Dinode.addr Dinode.setAddr
  by_cases hj : j < NDIRECT + 1
  · by_cases he : j = i
    · simpa [he, hi] using hb
    · simp [hj, he]
  · have hne : j ≠ i := by omega
    simp [hj, hne]

@[simp] theorem setAddr_type (d : Dinode) (i b : Nat) : (d.setAddr i b).type = d.type := rfl

@[simp] theorem fresh_addr (type : InodeType) (i : Nat) : (Dinode.fresh type).addr i = 0 := by
  simp [Dinode.addr, Dinode.fresh]

theorem readDinode_writeDinode (b : Block) {k : Nat} (d : Dinode) (hk : k < IPB) :
    readDinode (writeDinode b k d) k = d := by
  have hk16 : k < 16 := hk
  have hsize : DINODESIZE * k = 64 * k := rfl
  have hbsize : BSIZE = 1024 := rfl
  have hfit : DINODESIZE * k + 64 ≤ BSIZE := by omega
  have hn : NDIRECT + 1 = 13 := rfl
  have htype := toShort_lt d.type
  -- Each field is read past the stores of the later ones.
  have hdisj : ∀ {w off : Nat}, off + w ≤ DINODESIZE * k + 12 →
      (writeDinode b k d).getWord w off = ((((((b.setWord 2 (DINODESIZE * k) d.type.toShort).setWord
        2 (DINODESIZE * k + 2) (shortWord d.major)).setWord 2 (DINODESIZE * k + 4)
        (shortWord d.minor)).setWord 2 (DINODESIZE * k + 6) (shortWord d.nlink)).setWord 4
        (DINODESIZE * k + 8) d.size.toNat)).getWord w off := by
    intro w off hoff
    exact Bytes.getWord_setWords_disjoint (Or.inl hoff)
  have haddr : ∀ j : Fin (NDIRECT + 1),
      (writeDinode b k d).getWord 4 (DINODESIZE * k + 12 + 4 * j.val) = (d.addrs j).toNat := by
    intro j
    rw [← addr_fin]
    exact Bytes.getWord_setWords (by omega) j.isLt (addr_lt d j.val)
  have h8 : (writeDinode b k d).getWord 4 (DINODESIZE * k + 8) = d.size.toNat := by
    rw [hdisj (by omega)]
    exact Bytes.getWord_setWord_of_lt (by omega) (UInt32.toNat_lt _)
  have h6 : (writeDinode b k d).getWord 2 (DINODESIZE * k + 6) = shortWord d.nlink := by
    rw [hdisj (by omega), Bytes.getWord_setWord_disjoint (by omega)]
    exact Bytes.getWord_setWord_of_lt (by omega) (shortWord_lt _)
  have h4 : (writeDinode b k d).getWord 2 (DINODESIZE * k + 4) = shortWord d.minor := by
    rw [hdisj (by omega), Bytes.getWord_setWord_disjoint (by omega),
      Bytes.getWord_setWord_disjoint (by omega)]
    exact Bytes.getWord_setWord_of_lt (by omega) (shortWord_lt _)
  have h2 : (writeDinode b k d).getWord 2 (DINODESIZE * k + 2) = shortWord d.major := by
    rw [hdisj (by omega), Bytes.getWord_setWord_disjoint (by omega),
      Bytes.getWord_setWord_disjoint (by omega), Bytes.getWord_setWord_disjoint (by omega)]
    exact Bytes.getWord_setWord_of_lt (by omega) (shortWord_lt _)
  have h0 : (writeDinode b k d).getWord 2 (DINODESIZE * k) = d.type.toShort := by
    rw [hdisj (by omega), Bytes.getWord_setWord_disjoint (by omega),
      Bytes.getWord_setWord_disjoint (by omega), Bytes.getWord_setWord_disjoint (by omega),
      Bytes.getWord_setWord_disjoint (by omega)]
    exact Bytes.getWord_setWord_of_lt (by omega) htype
  simp only [readDinode, h0, h2, h4, h6, h8, haddr, ofShort_toShort, ofNat_shortWord,
    ofNat_toNat_uint32]

theorem readDinode_writeDinode_ne (b : Block) {j k : Nat} (d : Dinode) (hjk : j ≠ k) :
    readDinode (writeDinode b k d) j = readDinode b j := by
  have hj : DINODESIZE * j = 64 * j := rfl
  have hk : DINODESIZE * k = 64 * k := rfl
  have hn : NDIRECT + 1 = 13 := rfl
  -- The 64 bytes of the two dinodes are disjoint.
  have hword : ∀ {w off : Nat}, DINODESIZE * j ≤ off → off + w ≤ DINODESIZE * j + 64 →
      (writeDinode b k d).getWord w off = b.getWord w off := by
    intro w off hlo hhi
    unfold writeDinode
    rw [Bytes.getWord_setWords_disjoint (by omega), Bytes.getWord_setWord_disjoint (by omega),
      Bytes.getWord_setWord_disjoint (by omega), Bytes.getWord_setWord_disjoint (by omega),
      Bytes.getWord_setWord_disjoint (by omega), Bytes.getWord_setWord_disjoint (by omega)]
  have haddr : ∀ i : Fin (NDIRECT + 1),
      (writeDinode b k d).getWord 4 (DINODESIZE * j + 12 + 4 * i.val)
        = b.getWord 4 (DINODESIZE * j + 12 + 4 * i.val) := by
    intro i
    have := i.isLt
    exact hword (by omega) (by omega)
  simp only [readDinode, hword (Nat.le_refl _) (by omega : _ + 2 ≤ _),
    hword (by omega : _ ≤ DINODESIZE * j + 2) (by omega : _ + 2 ≤ _),
    hword (by omega : _ ≤ DINODESIZE * j + 4) (by omega : _ + 2 ≤ _),
    hword (by omega : _ ≤ DINODESIZE * j + 6) (by omega : _ + 2 ≤ _),
    hword (by omega : _ ≤ DINODESIZE * j + 8) (by omega : _ + 4 ≤ _), haddr]

theorem length_toBytes (de : Dirent) : de.toBytes.length = DIRENTSIZE := by
  simp only [Dirent.toBytes, strncpy, List.length_append, List.length_cons, List.length_nil,
    List.length_take, List.length_replicate, DIRENTSIZE]
  omega

/-- An entry reads back, its name padded to `DIRSIZ` bytes. -/
theorem Dirent.ofBytes_toBytes {de : Dirent} (hinum : de.inum < 65536) :
    Dirent.ofBytes de.toBytes = ⟨de.inum, strncpy DIRSIZ de.name⟩ := by
  have hlow : (UInt8.ofNat de.inum).toNat = de.inum % 256 := UInt8.toNat_ofNat'
  have hhigh : (UInt8.ofNat (de.inum / 256)).toNat = de.inum / 256 % 256 := UInt8.toNat_ofNat'
  show Dirent.mk ((UInt8.ofNat de.inum).toNat + 256 * (UInt8.ofNat (de.inum / 256)).toNat) _ = _
  rw [hlow, hhigh]
  congr 1
  omega

/-! ### The areas of the disk -/

/-- Number of blocks of the bitmap. -/
def nbitmap (sb : Superblock) : Nat := sb.size / BPB + 1

/-- First block of the data area. -/
def dataStart (sb : Superblock) : Nat := sb.bmapstart + nbitmap sb

/-- Inode `i` lies in the inode area. -/
def InArea (sb : Superblock) (i : Nat) : Prop := IBLOCK sb i < sb.bmapstart

/-- The areas of a file system follow one another, and every inode that `ialloc` tries lies
in the inode area. -/
structure Layout (sb : Superblock) : Prop where
  inodes : ∀ i, i < sb.ninodes → InArea sb i
  data : dataStart sb ≤ sb.size
  size : sb.size < 2 ^ 32

/-- The layout of `mkfs`. -/
theorem mkfs_layout : Layout Mkfs.superblock where
  inodes i hi := by
    have hi : i < 200 := hi
    show i / 16 + 32 < 45
    omega
  data := by decide
  size := by decide

variable {sb : Superblock} {d d' : Disk}

/-- A dinode is read from the blocks before the bitmap only. -/
theorem dinodeAt_congr {i : Nat} (hi : InArea sb i) (h : ∀ b, b < sb.bmapstart → d' b = d b) :
    dinodeAt sb d' i = dinodeAt sb d i := by
  rw [dinodeAt, dinodeAt, h _ hi]

/-- A stored dinode reads back, and every other dinode is as before. -/
theorem dinodeAt_writeDinode (n i : Nat) (x : Dinode) :
    dinodeAt sb (Function.update d (IBLOCK sb n) (writeDinode (d (IBLOCK sb n)) (n % IPB) x)) i
      = if i = n then x else dinodeAt sb d i := by
  have hipb : IPB = 16 := rfl
  unfold dinodeAt
  by_cases hin : i = n
  · subst hin
    rw [Function.update_self, if_pos rfl]
    exact readDinode_writeDinode _ _ (Nat.mod_lt _ (by decide))
  · rw [if_neg hin]
    by_cases hb : IBLOCK sb i = IBLOCK sb n
    · -- Two inodes of one block have different indices in it.
      have hne : i % IPB ≠ n % IPB := by
        simp only [IBLOCK, hipb] at hb ⊢
        omega
      rw [hb, Function.update_self, readDinode_writeDinode_ne _ _ hne]
    · rw [Function.update_of_ne hb]

theorem BBLOCK_lt (sb : Superblock) {b : Nat} (hb : b < sb.size) :
    BBLOCK sb b < dataStart sb := by
  have hpos : 0 < BPB := by decide
  have := Nat.div_le_div_right (c := BPB) (Nat.le_of_lt hb)
  unfold BBLOCK dataStart nbitmap
  omega

theorem le_BBLOCK (sb : Superblock) (b : Nat) : sb.bmapstart ≤ BBLOCK sb b :=
  Nat.le_add_left _ _

/-- A bit is read from the blocks of the bitmap only. -/
theorem bitAt_congr {b : Nat} (h : d' (BBLOCK sb b) = d (BBLOCK sb b)) :
    bitAt sb d' b = bitAt sb d b := by
  rw [bitAt, bitAt, h]

/-- The byte and the bit in it determine the block. -/
theorem bit_ext {b c : Nat} (hb : BBLOCK sb c = BBLOCK sb b)
    (hbyte : c % BPB / 8 = b % BPB / 8) (hbit : c % BPB % 8 = b % BPB % 8) : c = b := by
  have hbpb : BPB = 8192 := rfl
  simp only [BBLOCK, hbpb] at hb hbyte hbit
  omega

/-- A store to one byte of a bitmap block changes at most one bit, if it agrees with the old
byte elsewhere. -/
theorem bitAt_setByte (b c : Nat) (x : UInt8) (v : Bool)
    (hx : ∀ k, k < 8 → x.toNat.testBit k = if k = b % BPB % 8 then v
      else ((d (BBLOCK sb b)).get (b % BPB / 8)).toNat.testBit k) :
    bitAt sb (Function.update d (BBLOCK sb b) ((d (BBLOCK sb b)).setBytes (b % BPB / 8) [x])) c
      = if c = b then v else bitAt sb d c := by
  have hlt : c % BPB / 8 < BSIZE := by
    have : c % BPB < BPB := Nat.mod_lt _ (by decide)
    have hbpb : BPB = 8192 := rfl
    have hbsize : BSIZE = 1024 := rfl
    omega
  have hbit8 : c % BPB % 8 < 8 := Nat.mod_lt _ (by decide)
  unfold bitAt
  by_cases hbb : BBLOCK sb c = BBLOCK sb b
  · rw [hbb, Function.update_self, Bytes.get_setBytes]
    by_cases hbyte : c % BPB / 8 = b % BPB / 8
    · rw [if_pos (by simp only [List.length_singleton]; omega), hbyte, Nat.sub_self,
        List.getD_cons_zero, hx _ hbit8]
      by_cases hbit : c % BPB % 8 = b % BPB % 8
      · rw [if_pos hbit, if_pos (bit_ext hbb hbyte hbit)]
      · have hne : c ≠ b := fun he => hbit (by rw [he])
        rw [if_neg hbit, if_neg hne]
    · have hne : c ≠ b := fun he => hbyte (by rw [he])
      rw [if_neg (by simp only [List.length_singleton]; omega), if_neg hne]
  · have hne : c ≠ b := fun he => hbb (by rw [he])
    rw [Function.update_of_ne hbb, if_neg hne]

/-- A set bit reads back, and every other bit is as before. -/
theorem bitAt_setBit (b c : Nat) :
    bitAt sb (Function.update d (BBLOCK sb b) (setBit (d (BBLOCK sb b)) b)) c
      = if c = b then true else bitAt sb d c := by
  apply bitAt_setByte
  intro k hk
  have hm : b % BPB % 8 < 8 := Nat.mod_lt _ (by decide)
  have hbyte : ((d (BBLOCK sb b)).get (b % BPB / 8)).toNat < 2 ^ 8 := UInt8.toNat_lt _
  have hmask : 1 <<< (b % BPB % 8) < 2 ^ 8 := by
    rw [Nat.one_shiftLeft]
    exact Nat.pow_lt_pow_right (by decide) hm
  rw [UInt8.toNat_ofNat_of_lt' (Nat.or_lt_two_pow hbyte hmask), Nat.testBit_or,
    Nat.one_shiftLeft, Nat.testBit_two_pow]
  by_cases hkm : k = b % BPB % 8
  · simp [hkm]
  · simp [hkm, Ne.symm hkm]

/-- A cleared bit reads back, and every other bit is as before. -/
theorem bitAt_clearBit (b c : Nat) :
    bitAt sb (Function.update d (BBLOCK sb b) (clearBit (d (BBLOCK sb b)) b)) c
      = if c = b then false else bitAt sb d c := by
  apply bitAt_setByte
  intro k hk
  have hbyte : ((d (BBLOCK sb b)).get (b % BPB / 8)).toNat < 2 ^ 8 := UInt8.toNat_lt _
  have h255 : (255 : Nat) = 2 ^ 8 - 1 := rfl
  rw [UInt8.toNat_ofNat_of_lt' (Nat.lt_of_le_of_lt Nat.and_le_left hbyte), Nat.testBit_and,
    Nat.testBit_xor, h255, Nat.testBit_two_pow_sub_one, Nat.one_shiftLeft, Nat.testBit_two_pow]
  by_cases hkm : k = b % BPB % 8
  · simp [hkm]
    exact fun _ => Nat.mod_lt _ (by decide)
  · simp [hkm, hk, Ne.symm hkm]

end Xv6.Proofs.Fs
