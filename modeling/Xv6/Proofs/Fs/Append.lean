import Xv6.Proofs.Fs.Contents
import Xv6.Proofs.Fs.Image

/-!
# `Xv6.Proofs.Fs.Append`: what `iappend` of `mkfs` adds to an image

`mkfs` writes the bitmap once, at its end. The proofs look at the image as if the bitmap were
there all along: `image s` is the disk with the bitmap of the blocks handed out so far. Then
`freeblock++` is the `balloc` of the kernel, and the ownership lemmas of `Owned` apply to
`mkfs` too.

`Writing buf s v n c` is the invariant inside `iappend`: the inodes `v` own their blocks,
every block not handed out is zero, the blocks before the inode area are as at the start,
and inode `i` stores the bytes `c i` (`Stored`). A file has
exactly the blocks that begin below `n i`. Between the step that finds a block for the next
byte and the step that stores bytes in it, that is one block more than the bytes need.

A block number past the end of the image can be handed out, but the next `rsect` of it ends
the program, so it never reaches the invariant.
-/

set_option autoImplicit false

namespace Xv6.Proofs.Fs

open Lib Lib.Action Kernel

/-! ### Stored bytes -/

/-- The file of a dinode holds the bytes `l` and zeros after them, and has exactly the blocks
that begin below `n`. -/
structure Stored (x : Dinode) (d : Disk) (n : Nat) (l : List UInt8) : Prop where
  mapped : ∀ bn, bn < MAXFILE → (placeOf x d (filePlace bn) ≠ 0 ↔ bn * BSIZE < n)
  bytes : ∀ p, (fileBlock x d (p / BSIZE)).get (p % BSIZE) = l.getD p 0

variable {sb : Superblock} {v v' : Nat → Dinode} {d d' : Disk} {loose : Nat → Prop}
  {x y : Dinode} {l : List UInt8} {i n : Nat}

theorem Stored.congr (h : Stored x d n l) (hplace : ∀ k, placeOf y d' k = placeOf x d k)
    (hblock : ∀ bn, fileBlock y d' bn = fileBlock x d bn) : Stored y d' n l := by
  constructor
  · intro bn hbn
    rw [hplace]
    exact h.mapped bn hbn
  · intro p
    rw [hblock]
    exact h.bytes p

/-- The places and the blocks of a dinode depend on its addresses only. -/
theorem placeOf_addrs (h : y.addrs = x.addrs) (d : Disk) (k : Nat) :
    placeOf y d k = placeOf x d k := by
  unfold placeOf Dinode.addr
  rw [h]

theorem fileBlock_addrs (h : y.addrs = x.addrs) (d : Disk) (bn : Nat) :
    fileBlock y d bn = fileBlock x d bn := by
  unfold fileBlock
  rw [placeOf_addrs h]

/-- A store to a block that the inode does not hold leaves its file alone. -/
theorem Stored.update (h : Stored (v i) d n l) (hi : Alloc sb v i) {c : Nat}
    (hc : ∀ k, held sb v d (i, k) ≠ 0 → held sb v d (i, k) ≠ c) (blk : Block) :
    Stored (v i) (Function.update d c blk) n l := by
  refine h.congr (placeOf_congr ?_) (fileBlock_update hi (Sub.refl _) hc blk)
  intro hx
  have := hc NDIRECT
  rw [held_of_alloc hi, placeOf_indirect] at this
  exact Function.update_of_ne (this hx) _ _

/-- The invariant does not see the inodes but for the blocks they hold. -/
theorem Owned.reinode (h : Owned sb v d loose) (hheld : ∀ p, held sb v' d p = held sb v d p) :
    Owned sb v' d loose :=
  ⟨h.owns.congr hheld (fun _ _ _ => Iff.rfl) fun _ => Iff.rfl, h.metadata⟩

/-! ### The image -/

/-- The image with the bitmap that `mkfs` would write now. -/
def image (s : Mkfs.State) : Disk :=
  Function.update s.disk Mkfs.superblock.bmapstart (Mkfs.usedBits s.freeblock)

/-- The invariant of `iappend`. -/
structure Writing (buf : Block) (s : Mkfs.State) (v : Nat → Dinode) (n : Nat → Nat)
    (c : Nat → List UInt8) : Prop where
  sectors : s.sectors = FSSIZE
  first : Mkfs.nmeta ≤ s.freeblock
  last : s.freeblock ≤ FSSIZE
  clear : ∀ b, s.freeblock ≤ b → s.disk b = Bytes.zero BSIZE
  low : ∀ b, b < Mkfs.superblock.inodestart → s.disk b = (Mkfs.start buf).disk b
  owned : Owned Mkfs.superblock v (image s) fun _ => False
  stored : ∀ i, Alloc Mkfs.superblock v i → Stored (v i) (image s) (n i) (c i)

variable {buf : Block} {s t : Mkfs.State} {c : Nat → List UInt8} {sz : Nat → Nat} {inum : Nat}

theorem mkfs_dataStart : dataStart Mkfs.superblock = Mkfs.nmeta := by decide

/-- The blocks of the image, but for the bitmap. -/
theorem image_of_ne {b : Nat} (hb : b ≠ Mkfs.superblock.bmapstart) : image s b = s.disk b :=
  Function.update_of_ne hb _ _

/-- A block of the data area is handed out. -/
theorem Writing.held_lt (h : Writing buf s v sz c) {p : Nat × Nat}
    (hp : held Mkfs.superblock v (image s) p ≠ 0) :
    Mkfs.nmeta ≤ held Mkfs.superblock v (image s) p ∧
      held Mkfs.superblock v (image s) p < s.freeblock := by
  obtain ⟨hlo, hhi⟩ := h.owned.owns.area p hp
  rw [mkfs_dataStart] at hlo
  have hused := h.owned.owns.used_of_held hp
  have hsize : Mkfs.superblock.size = 2000 := rfl
  have hbpb : BPB = 8192 := rfl
  have hlast := h.last
  have hfs : FSSIZE = 2000 := rfl
  have hbit : bitAt Mkfs.superblock (image s) (held Mkfs.superblock v (image s) p)
      = decide (held Mkfs.superblock v (image s) p < s.freeblock) :=
    bitAt_usedBits Mkfs.superblock s.disk (by omega) (by omega)
  rw [hbit] at hused
  exact ⟨hlo, of_decide_eq_true hused⟩

@[simp] theorem wp_wsect {sec : Nat} {buf : Block} {post : Unit → Mkfs.State → Prop}
    {err : Mkfs.Stop → Prop} : wp (Mkfs.wsect sec buf) post err s ↔
      post () { s with disk := Function.update s.disk sec buf,
                       sectors := max s.sectors (sec + 1) } :=
  Iff.rfl

theorem wp_rsect {sec : Nat} {post : Block → Mkfs.State → Prop} {err : Mkfs.Stop → Prop} :
    wp (Mkfs.rsect sec) post err s
      ↔ if sec < s.sectors then post (s.disk sec) s else err .die := by
  rw [Mkfs.rsect, wp_bind, wp_read]
  split
  · exact wp_read
  · exact wp_fail

@[simp] theorem wp_takeBlock {post : Nat → Mkfs.State → Prop} {err : Mkfs.Stop → Prop} :
    wp Mkfs.takeBlock post err s
      ↔ post s.freeblock { s with freeblock := s.freeblock + 1 } :=
  Iff.rfl

/-- The image after a store to a block that is not the bitmap. -/
theorem image_write {sec : Nat} (hsec : sec ≠ Mkfs.superblock.bmapstart) (buf : Block)
    (m : Nat) : image { s with disk := Function.update s.disk sec buf, sectors := m }
      = Function.update (image s) sec buf :=
  Function.update_comm hsec _ _ _

/-- The image after `freeblock++` is the one after `balloc`. -/
theorem image_take (hb : s.freeblock < FSSIZE) :
    image { s with freeblock := s.freeblock + 1 }
      = Function.update (image s) (BBLOCK Mkfs.superblock s.freeblock)
          (setBit (image s (BBLOCK Mkfs.superblock s.freeblock)) s.freeblock) := by
  have hfs : FSSIZE = 2000 := rfl
  have hbpb : BPB = 8192 := rfl
  have hblock : BBLOCK Mkfs.superblock s.freeblock = Mkfs.superblock.bmapstart := by
    rw [BBLOCK, Nat.div_eq_of_lt (by omega), Nat.zero_add]
  have hself : image s Mkfs.superblock.bmapstart = Mkfs.usedBits s.freeblock :=
    Function.update_self ..
  rw [hblock, hself, ← usedBits_succ]
  exact (Function.update_idem ..).symm

/-! ### A new block -/

/-- A file gets a block that is all zero, by one of its addresses. -/
theorem Stored.setAddr (h : Stored x d n l) {k b m : Nat} (hk : k < NDIRECT + 1)
    (hx : x.addr k = 0) (hb : b < 2 ^ 32) (hb0 : b ≠ 0) (hzero : d b = Bytes.zero BSIZE)
    (hm : ∀ bn, bn < MAXFILE → (bn * BSIZE < m ↔ filePlace bn = k ∨ bn * BSIZE < n)) :
    Stored (x.setAddr k b) d m l := by
  constructor
  · intro bn hbn
    rw [placeOf_setAddr hk hx hb hzero, hm bn hbn]
    by_cases he : filePlace bn = k
    · simp [he, hb0]
    · simp [he, h.mapped bn hbn]
  · intro p
    rw [fileBlock_setAddr hk hx hb hzero]
    exact h.bytes p

/-- `freeblock++`: the block is marked, all zero, and nobody has it. -/
theorem Writing.take (h : Writing buf s v sz c) (hb : s.freeblock < FSSIZE)
    (ht : t = { s with freeblock := s.freeblock + 1 }) :
    Owned Mkfs.superblock v (image t) (fun b => b = s.freeblock) ∧
      (∀ i, Alloc Mkfs.superblock v i → Stored (v i) (image t) (sz i) (c i)) ∧
      (∀ b, s.freeblock ≤ b → image t b = Bytes.zero BSIZE) ∧
      ∀ p, held Mkfs.superblock v (image t) p ≠ s.freeblock := by
  have hfs : FSSIZE = 2000 := rfl
  have hsize : Mkfs.superblock.size = 2000 := rfl
  have hnm : Mkfs.nmeta = 46 := rfl
  have hbm : Mkfs.superblock.bmapstart = 45 := rfl
  have hfirst := h.first
  have hclear : ∀ b, s.freeblock ≤ b → image t b = Bytes.zero BSIZE := by
    intro b hle
    rw [image_of_ne (by omega), ht]
    exact h.clear b hle
  have hbit : bitAt Mkfs.superblock (image s) s.freeblock = false := by
    have hbpb : BPB = 8192 := rfl
    have : bitAt Mkfs.superblock (image s) s.freeblock = decide (s.freeblock < s.freeblock) :=
      bitAt_usedBits Mkfs.superblock s.disk (by omega) (by omega)
    simpa using this
  have hblock := BBLOCK_lt Mkfs.superblock (b := s.freeblock) (by omega)
  rw [mkfs_dataStart] at hblock
  have himage : image t = Function.update (image s) (BBLOCK Mkfs.superblock s.freeblock)
      (setBit (image s (BBLOCK Mkfs.superblock s.freeblock)) s.freeblock) := by
    rw [ht]
    exact image_take hb
  -- Clearing the block, as `balloc` does, changes nothing.
  have hzero : Function.update (image t) s.freeblock (Bytes.zero BSIZE) = image t := by
    rw [← hclear s.freeblock (Nat.le_refl _), Function.update_eq_self]
  have howned := h.owned.reserve mkfs_layout (by omega) hbit
  rw [← himage, hzero] at howned
  have howned := howned.loose_congr (fun b => b = s.freeblock) fun _ => by simp
  refine ⟨howned, ?_, hclear, ?_⟩
  · intro i hi
    rw [himage]
    refine (h.stored i hi).update hi ?_ _
    intro k hk he
    have := (h.held_lt hk).1
    omega
  · intro p hp
    exact howned.owns.apart p (by omega) hp

/-- What a part of `iappend` changes besides the blocks: the dinode it works on gets
addresses, and at most `m` blocks are handed out. -/
structure Grown (s t : Mkfs.State) (x y : Dinode) (m : Nat) : Prop where
  freeinode : t.freeinode = s.freeinode
  blocks : t.freeblock ≤ s.freeblock + m
  dinodes : ∀ i, InArea Mkfs.superblock i →
    dinodeAt Mkfs.superblock (image t) i = dinodeAt Mkfs.superblock (image s) i
  head : ∃ addrs, y = { x with addrs := addrs }

theorem Grown.refl (s : Mkfs.State) (x : Dinode) (m : Nat) : Grown s s x x m :=
  ⟨rfl, Nat.le_add_right _ _, fun _ _ => rfl, ⟨x.addrs, rfl⟩⟩

theorem Grown.mono {m m' : Nat} (h : Grown s t x y m) (hm : m ≤ m') : Grown s t x y m' :=
  { h with blocks := Nat.le_trans h.blocks (Nat.add_le_add_left hm _) }

theorem Grown.trans {u : Mkfs.State} {z : Dinode} {m m' : Nat} (h : Grown s t x y m)
    (h' : Grown t u y z m') : Grown s u x z (m + m') := by
  obtain ⟨a, ha⟩ := h.head
  obtain ⟨b, hb⟩ := h'.head
  refine ⟨h'.freeinode.trans h.freeinode, ?_,
    fun i hi => (h'.dinodes i hi).trans (h.dinodes i hi), b, by rw [hb, ha]⟩
  have := h.blocks
  have := h'.blocks
  omega

theorem takeAddr_spec (h : Writing buf s v sz c) (hi : Alloc Mkfs.superblock v inum) {k m : Nat}
    (hk : k < NDIRECT + 1)
    (hm : ∀ bn, bn < MAXFILE → (bn * BSIZE < m ↔ filePlace bn = k ∨ bn * BSIZE < sz inum)) :
    wp (Mkfs.takeAddr (v inum) k) (fun y t =>
      s.freeblock = FSSIZE ∧ t.sectors = FSSIZE ∧ y.addr k = FSSIZE ∨
      Writing buf t (Function.update v inum y) (Function.update sz inum m) c ∧
        Grown s t (v inum) y 1 ∧ y.addr k ≠ 0) (fun _ => False) s := by
  rw [Mkfs.takeAddr]
  split
  · rename_i hx
    rw [wp_bind, wp_takeBlock, wp_pure]
    by_cases hb : s.freeblock < FSSIZE
    · right
      have hfs : FSSIZE = 2000 := rfl
      have hnm : Mkfs.nmeta = 46 := rfl
      have hfirst := h.first
      obtain ⟨t, ht⟩ : ∃ t, t = { s with freeblock := s.freeblock + 1 } := ⟨_, rfl⟩
      obtain ⟨howned, hstored, hclear, _⟩ := h.take hb ht
      rw [← ht]
      have hfb : t.freeblock = s.freeblock + 1 := by rw [ht]
      have hb32 : s.freeblock < 2 ^ 32 := by omega
      have hzero := hclear s.freeblock (Nat.le_refl _)
      have howned' := howned.adopt_addr mkfs_layout hi hk hx rfl
        (by rw [mkfs_dataStart]; exact hfirst) hb hzero
      refine ⟨⟨?_, ?_, ?_, ?_, ?_, ?_, ?_⟩, ⟨?_, ?_, ?_, ?_⟩, ?_⟩
      · rw [ht]
        exact h.sectors
      · omega
      · omega
      · intro b hle
        rw [ht]
        exact h.clear b (by omega)
      · rw [ht]
        exact h.low
      · exact howned'.loose_congr _ fun b => by simp
      · intro i hia
        by_cases hii : i = inum
        · subst hii
          rw [Function.update_self, Function.update_self]
          exact (hstored i hi).setAddr hk hx hb32 (by omega) hzero hm
        · rw [Function.update_of_ne hii, Function.update_of_ne hii]
          exact hstored i ((alloc_congr (Function.update_of_ne hii _ _)).mp hia)
      · rw [ht]
      · omega
      · intro i hia
        have hbb := le_BBLOCK Mkfs.superblock s.freeblock
        rw [ht, image_take hb]
        exact dinodeAt_update_of_le hbb hia _
      · exact ⟨_, rfl⟩
      · rw [addr_setAddr _ _ hk hb32, if_pos rfl]
        omega
    · left
      have hlast := h.last
      have heq : s.freeblock = FSSIZE := by omega
      refine ⟨heq, h.sectors, ?_⟩
      rw [addr_setAddr _ _ hk (by rw [heq]; decide), if_pos rfl, heq]
  · rename_i hx
    rw [wp_pure]
    right
    have hsame : Function.update v inum (v inum) = v := Function.update_eq_self ..
    rw [hsame]
    refine ⟨{ h with stored := ?_ }, Grown.refl s _ 1, hx⟩
    intro i hia
    by_cases hii : i = inum
    · subst hii
      rw [Function.update_self]
      -- The block is there already, so it is one of the blocks below the size.
      refine ⟨fun bn hbn => ?_, (h.stored i hi).bytes⟩
      rw [(h.stored i hi).mapped bn hbn, hm bn hbn]
      refine ⟨Or.inr, fun hor => hor.elim (fun he => ?_) id⟩
      rw [← (h.stored i hi).mapped bn hbn, he, placeOf_addr _ _ hk]
      exact hx
    · rw [Function.update_of_ne hii]
      exact h.stored i hia

/-- A file gets a block that is all zero, by an entry of its indirect block. -/
theorem Stored.setEntry (h : Stored (v i) d n l) (ho : Owned sb v d loose) (hi : Alloc sb v i)
    {j b m : Nat} (hind : (v i).addr NDIRECT ≠ 0) (hj : j < NINDIRECT)
    (hz : (d ((v i).addr NDIRECT)).getWord 4 (4 * j) = 0) (hb : b < 2 ^ 32) (hb0 : b ≠ 0)
    (hfree : b ≠ (v i).addr NDIRECT) (hzero : d b = Bytes.zero BSIZE)
    (hm : ∀ bn, bn < MAXFILE →
      (bn * BSIZE < m ↔ filePlace bn = NDIRECT + 1 + j ∨ bn * BSIZE < n)) :
    Stored (v i) (Function.update d ((v i).addr NDIRECT)
      ((d ((v i).addr NDIRECT)).setWord 4 (4 * j) b)) m l := by
  constructor
  · intro bn hbn
    rw [placeOf_setEntry hind hj hb, hm bn hbn]
    by_cases he : filePlace bn = NDIRECT + 1 + j
    · simp [he, hb0]
    · simp [he, h.mapped bn hbn]
  · intro p
    rw [ho.fileBlock_entry hi hind hj hz hb hfree hzero (Sub.refl _)]
    exact h.bytes p

/-- `freeblock++` into an entry of the indirect block. -/
theorem Writing.entry (h : Writing buf s v sz c) (hi : Alloc Mkfs.superblock v inum)
    (hind : (v inum).addr NDIRECT ≠ 0) {j m : Nat} (hj : j < NINDIRECT)
    (hz : (s.disk ((v inum).addr NDIRECT)).getWord 4 (4 * j) = 0) (hb : s.freeblock < FSSIZE)
    (hm : ∀ bn, bn < MAXFILE →
      (bn * BSIZE < m ↔ filePlace bn = NDIRECT + 1 + j ∨ bn * BSIZE < sz inum))
    (ht : t = { s with
      disk := Function.update s.disk ((v inum).addr NDIRECT)
        ((s.disk ((v inum).addr NDIRECT)).setWord 4 (4 * j) s.freeblock)
      sectors := max s.sectors ((v inum).addr NDIRECT + 1)
      freeblock := s.freeblock + 1 }) :
    Writing buf t v (Function.update sz inum m) c ∧ Grown s t (v inum) (v inum) 1 ∧
      s.freeblock = placeOf (v inum) (image t) (NDIRECT + 1 + j) := by
  have hfs : FSSIZE = 2000 := rfl
  have hnm : Mkfs.nmeta = 46 := rfl
  have hbm : Mkfs.superblock.bmapstart = 45 := rfl
  have hfirst := h.first
  obtain ⟨a, ha⟩ : ∃ a, a = (v inum).addr NDIRECT := ⟨_, rfl⟩
  obtain ⟨u, hu⟩ : ∃ u, u = { s with freeblock := s.freeblock + 1 } := ⟨_, rfl⟩
  obtain ⟨howned, hstored, hclear, hfree⟩ := h.take hb hu
  have hlo : Mkfs.nmeta ≤ a ∧ a < s.freeblock := by
    have hheld : held Mkfs.superblock v (image s) (inum, NDIRECT) = a := by
      rw [held_of_alloc hi, placeOf_indirect, ha]
    rw [← hheld]
    exact h.held_lt (by rw [hheld, ha]; exact hind)
  have hua : image u a = s.disk a := by
    rw [image_of_ne (by omega), hu]
  have himage : image t = Function.update (image u) a
      ((image u a).setWord 4 (4 * j) s.freeblock) := by
    rw [hua, ht, hu, ← ha]
    exact image_write (s := { s with freeblock := s.freeblock + 1 }) (by omega) _ _
  have hfb : t.freeblock = s.freeblock + 1 := by rw [ht]
  have hdisk : ∀ b, b ≠ a → t.disk b = s.disk b := by
    intro b hne
    rw [ht, ← ha]
    exact Function.update_of_ne hne _ _
  rw [← ha] at hz
  have hz' : (image u ((v inum).addr NDIRECT)).getWord 4 (4 * j) = 0 := by rw [← ha, hua, hz]
  have hzero := hclear s.freeblock (Nat.le_refl _)
  have hb32 : s.freeblock < 2 ^ 32 := by omega
  have howned' := howned.adopt_entry mkfs_layout hi hind hj hz' rfl
    (by rw [mkfs_dataStart]; exact hfirst) hb
  rw [← ha, ← himage] at howned'
  refine ⟨⟨?_, ?_, ?_, ?_, ?_, ?_, ?_⟩, ⟨?_, ?_, ?_, ⟨_, rfl⟩⟩, ?_⟩
  · have hsec := h.sectors
    rw [ht, ← ha]
    show max s.sectors (a + 1) = FSSIZE
    omega
  · omega
  · omega
  · intro b hle
    rw [hdisk b (by omega)]
    exact h.clear b (by omega)
  · intro b hlt
    have hlt : b < 32 := hlt
    rw [hdisk b (by omega)]
    exact h.low b hlt
  · exact howned'.loose_congr _ fun b => by simp
  · intro i hia
    by_cases hii : i = inum
    · subst hii
      rw [Function.update_self, himage, ha]
      exact (hstored i hi).setEntry howned hi hind hj hz' hb32 (by omega) (by omega) hzero hm
    · -- The indirect block of this inode is no block of another.
      rw [Function.update_of_ne hii, himage]
      refine (hstored i hia).update hia ?_ _
      intro k hk he
      have hp := howned.owns.once (i, k) (inum, NDIRECT)
      rw [held_of_alloc hi, placeOf_indirect, ← ha] at hp
      exact hii (congrArg Prod.fst (hp he hk))
  · rw [ht]
  · omega
  · intro i hia
    have hbb := le_BBLOCK Mkfs.superblock s.freeblock
    rw [himage, dinodeAt_update_of_le (by omega) hia, hu, image_take hb]
    exact dinodeAt_update_of_le hbb hia _
  · rw [himage, ha, placeOf_setEntry hind hj hb32, if_pos rfl]

/-- The block for byte `off` of a file, where `off` is the end of the file. -/
theorem iappendBlock_spec (h : Writing buf s v sz c) (hi : Alloc Mkfs.superblock v inum)
    (hoff : sz inum / BSIZE < MAXFILE) :
    wp (Mkfs.iappendBlock (v inum) (sz inum / BSIZE)) (fun r t =>
      FSSIZE < s.freeblock + 2 ∧ t.sectors = FSSIZE ∧ FSSIZE ≤ r.2 ∨
      Writing buf t (Function.update v inum r.1) (Function.update sz inum (sz inum + 1)) c ∧
        Grown s t (v inum) r.1 2 ∧ r.2 ≠ 0 ∧
        r.2 = placeOf r.1 (image t) (filePlace (sz inum / BSIZE)))
      (fun _ => FSSIZE < s.freeblock + 2) s := by
  have hbs : BSIZE = 1024 := rfl
  have hnd : NDIRECT = 12 := rfl
  have hmf : MAXFILE = 268 := rfl
  have hni : NINDIRECT = 256 := rfl
  -- One block more than the size needs is the block of the next byte.
  have hnext : ∀ bn, bn * BSIZE < sz inum + 1 ↔ bn = sz inum / BSIZE ∨ bn * BSIZE < sz inum := by
    intro bn
    rw [hbs]
    omega
  rw [Mkfs.iappendBlock]
  split
  · rename_i hdirect
    have hplace : ∀ bn, filePlace bn = sz inum / BSIZE ↔ bn = sz inum / BSIZE := by
      intro bn
      unfold filePlace
      split
      · rfl
      · omega
    rw [wp_bind]
    refine wp_mono (takeAddr_spec (m := sz inum + 1) h hi (Nat.lt_succ_of_lt hdirect) ?_) ?_
      fun _ he => he.elim
    · intro bn _
      rw [hplace, hnext]
    · intro y t ht
      rw [wp_pure]
      rcases ht with ⟨hfull, hsec, hy⟩ | ⟨hw, hg, hy⟩
      · exact Or.inl ⟨by omega, hsec, by omega⟩
      · refine Or.inr ⟨hw, hg.mono (by decide), hy, ?_⟩
        · have hp : filePlace (sz inum / BSIZE) = sz inum / BSIZE := (hplace _).mpr rfl
          rw [hp, placeOf_addr _ _ (Nat.lt_succ_of_lt hdirect)]
  · rename_i hentry
    obtain ⟨j, hj⟩ : ∃ j, j = sz inum / BSIZE - NDIRECT := ⟨_, rfl⟩
    have hjn : j < NINDIRECT := by omega
    have hplace : ∀ bn, filePlace bn = NDIRECT + 1 + j ↔ bn = sz inum / BSIZE := by
      intro bn
      unfold filePlace
      split
      · omega
      · omega
    have hpj : filePlace (sz inum / BSIZE) = NDIRECT + 1 + j := (hplace _).mpr rfl
    rw [← hj, wp_bind]
    refine wp_mono (takeAddr_spec (m := sz inum) h hi (Nat.lt_succ_self NDIRECT) ?_) ?_
      fun _ he => he.elim
    · intro bn _
      simp [filePlace_ne]
    · intro y t ht
      rw [wp_bind, wp_rsect]
      rcases ht with ⟨hfull, hsec, hy⟩ | ⟨hw, hg, hy⟩
      · -- The indirect block would lie past the end of the image.
        rw [if_neg (by omega)]
        omega
      · have hsame : Function.update sz inum (sz inum) = sz := Function.update_eq_self ..
        rw [hsame] at hw
        obtain ⟨v', hv'⟩ : ∃ v', v' = Function.update v inum y := ⟨_, rfl⟩
        have hvi : v' inum = y := by rw [hv', Function.update_self]
        obtain ⟨a, ha⟩ := hg.head
        have hi' : Alloc Mkfs.superblock v' inum := by
          refine ⟨hi.1, ?_⟩
          rw [hvi, ha]
          exact hi.2
        rw [← hv'] at hw
        rw [← hvi] at hy
        have hlt : Mkfs.nmeta ≤ (v' inum).addr NDIRECT ∧ (v' inum).addr NDIRECT < t.freeblock := by
          have hheld : held Mkfs.superblock v' (image t) (inum, NDIRECT)
              = (v' inum).addr NDIRECT := by
            rw [held_of_alloc hi', placeOf_indirect]
          rw [← hheld]
          exact hw.held_lt (by rw [hheld]; exact hy)
        have hlast := hw.last
        have hsec := hw.sectors
        have hnm : Mkfs.nmeta = 46 := rfl
        have hbm : Mkfs.superblock.bmapstart = 45 := rfl
        rw [if_pos (by rw [← hvi]; omega)]
        dsimp only
        have hdisk : image t (y.addr NDIRECT) = t.disk (y.addr NDIRECT) :=
          image_of_ne (by rw [← hvi]; omega)
        have hblocks := hg.blocks
        split
        · rename_i hz
          rw [wp_bind, wp_takeBlock, wp_bind, wp_wsect, wp_pure]
          by_cases hb : t.freeblock < FSSIZE
          · right
            rw [← hvi] at hz ⊢
            obtain ⟨hw', hg', hp⟩ := hw.entry hi' hy hjn hz hb (m := sz inum + 1)
              (fun bn _ => by rw [hplace, hnext]) rfl
            refine ⟨?_, ?_, ?_, ?_⟩
            · have hvv : Function.update v inum (v' inum) = v' := by rw [hvi, hv']
              rw [hvv]
              exact hw'
            · rw [hvi] at hg' ⊢
              exact hg.trans hg'
            · show t.freeblock ≠ 0
              have := hw.first
              omega
            · rw [hpj]
              exact hp
          · left
            refine ⟨by omega, ?_, ?_⟩
            · show max t.sectors (y.addr NDIRECT + 1) = FSSIZE
              rw [← hvi]
              omega
            · show FSSIZE ≤ t.freeblock
              omega
        · rename_i hz
          rw [wp_pure]
          right
          refine ⟨?_, hg.mono (by decide), hz, ?_⟩
          · -- The entry is there already.
            rw [← hv']
            refine { hw with stored := ?_ }
            intro i hia
            by_cases hii : i = inum
            · subst hii
              rw [Function.update_self]
              refine ⟨fun bn hbn => ?_, (hw.stored i hi').bytes⟩
              rw [(hw.stored i hi').mapped bn hbn, hnext]
              refine ⟨Or.inr, fun hor => hor.elim (fun he => ?_) id⟩
              rw [← (hw.stored i hi').mapped bn hbn, he, hpj, placeOf_entry _ _ hjn hy, hvi,
                hdisk]
              exact hz
            · rw [Function.update_of_ne hii]
              exact hw.stored i hia
          · rw [hpj, placeOf_entry _ _ hjn (by rw [← hvi]; exact hy), hdisk]

/-! ### The bytes of a piece -/

/-- The bytes of a file with a piece stored at its end. -/
theorem getD_append_piece (l src : List UInt8) (p : Nat) :
    (l ++ src).getD p 0 = if l.length ≤ p ∧ p < l.length + src.length
      then src.getD (p - l.length) 0 else l.getD p 0 := by
  by_cases hp : p < l.length
  · rw [List.getD_append _ _ _ _ hp, if_neg (by omega)]
  · rw [List.getD_append_right _ _ _ _ (by omega)]
    by_cases hq : p < l.length + src.length
    · rw [if_pos ⟨by omega, hq⟩]
    · rw [if_neg (by omega), List.getD_eq_default _ _ (by omega),
        List.getD_eq_default _ _ (by omega)]

/-- A piece that fits in the block of the end of the file is stored there. -/
theorem Writing.store (h : Writing buf s v sz c) (hi : Alloc Mkfs.superblock v inum)
    {src : List UInt8} (hsz : sz inum = (c inum).length + 1) (hpos : 0 < src.length)
    (hfit : (c inum).length % BSIZE + src.length ≤ BSIZE) {b : Nat}
    (hb : b = placeOf (v inum) (image s) (filePlace ((c inum).length / BSIZE))) (hb0 : b ≠ 0)
    (ht : t = { s with
      disk := Function.update s.disk b
        ((s.disk b).setBytes ((c inum).length % BSIZE) src)
      sectors := max s.sectors (b + 1) }) :
    Writing buf t v (Function.update sz inum ((c inum).length + src.length))
      (Function.update c inum (c inum ++ src)) ∧ Grown s t (v inum) (v inum) 0 := by
  have hbs : BSIZE = 1024 := rfl
  have hnm : Mkfs.nmeta = 46 := rfl
  have hbm : Mkfs.superblock.bmapstart = 45 := rfl
  obtain ⟨off, hoff⟩ : ∃ off, off = (c inum).length := ⟨_, rfl⟩
  rw [← hoff] at hsz hfit hb ht ⊢
  have hheld : held Mkfs.superblock v (image s) (inum, filePlace (off / BSIZE)) = b := by
    rw [held_of_alloc hi, hb]
  have hlo : Mkfs.nmeta ≤ b ∧ b < s.freeblock := by
    rw [← hheld]
    exact h.held_lt (by rw [hheld]; exact hb0)
  have hlast := h.last
  have hdisk : image s b = s.disk b := image_of_ne (by omega)
  obtain ⟨blk, hblk⟩ : ∃ blk, blk = (s.disk b).setBytes (off % BSIZE) src := ⟨_, rfl⟩
  rw [← hblk] at ht
  have himage : image t = Function.update (image s) b blk := by
    rw [ht]
    exact image_write (by omega) _ _
  have hx : placeOf (v inum) (image s) (filePlace (off / BSIZE)) ≠ 0 := by
    rw [← hb]
    exact hb0
  have hfb : t.freeblock = s.freeblock := by rw [ht]
  have hplace : ∀ k, placeOf (v inum) (image t) k = placeOf (v inum) (image s) k := by
    apply placeOf_congr
    intro _
    rw [himage, hb]
    exact Function.update_of_ne (h.owned.ne_indirect hi (filePlace_ne _) hx hi) _ _
  refine ⟨⟨?_, ?_, ?_, ?_, ?_, ?_, ?_⟩, ⟨?_, ?_, ?_, ⟨_, rfl⟩⟩⟩
  · have hsec := h.sectors
    rw [ht]
    show max s.sectors (b + 1) = FSSIZE
    omega
  · rw [hfb]
    exact h.first
  · omega
  · intro b' hle
    rw [ht]
    show Function.update s.disk b blk b' = _
    rw [Function.update_of_ne (by omega)]
    exact h.clear b' (by omega)
  · intro b' hlt
    have hlt : b' < 32 := hlt
    rw [ht]
    show Function.update s.disk b blk b' = _
    rw [Function.update_of_ne (by omega)]
    exact h.low b' hlt
  · rw [himage, hb]
    exact h.owned.update_data mkfs_layout hi (filePlace_ne _) hx blk
  · intro i hia
    by_cases hii : i = inum
    · subst hii
      rw [Function.update_self, Function.update_self]
      constructor
      · intro bn hbn
        rw [hplace, (h.stored i hi).mapped bn hbn, hsz, hbs]
        have := Nat.mod_add_div off BSIZE
        rw [hbs] at this hfit
        omega
      · -- The stored bytes are those of `AFile.write` at the end of the file.
        intro p
        obtain ⟨f, hf⟩ : ∃ f : AFile, f = { AFile.empty .file with
          data := fun p => (c i).getD p 0 } := ⟨_, rfl⟩
        have hfd : ∀ p, f.data p = (c i).getD p 0 := by
          intro p
          rw [hf]
        have hold : ∀ p, p / BSIZE = off / BSIZE → (s.disk b).get (p % BSIZE) = f.data p := by
          intro p hp
          have hbyte := (h.stored i hi).bytes p
          unfold fileBlock at hbyte
          rw [hp, ← hb, if_neg hb0, hdisk] at hbyte
          rw [hbyte, hfd]
        have hwrite := write_piece f hfit rfl hold
        have hdata := congrFun (congrArg AFile.data hwrite) p
        have hnew := h.owned.fileBlock_data hi hx blk (p / BSIZE)
        rw [← hb, ← himage] at hnew
        rw [hnew, getD_append_piece, ← hoff, ← hfd]
        refine Eq.trans ?_ hdata
        show _ = if p / BSIZE = off / BSIZE then _ else _
        rw [hfd, ← (h.stored i hi).bytes p, ← hblk]
        split
        · rfl
        · rfl
    · rw [Function.update_of_ne hii, Function.update_of_ne hii, himage]
      refine (h.stored i hia).update hia ?_ _
      intro k hk he
      have hp := h.owned.owns.once (i, k) (inum, filePlace (off / BSIZE))
      rw [hheld] at hp
      exact hii (congrArg Prod.fst (hp he hk))
  · rw [ht]
  · omega
  · intro i hia
    rw [himage]
    exact dinodeAt_update_of_le (by omega) hia _

/-! ### The loop -/

/-- The pieces in which `n` bytes are stored at `off`. -/
def pieces (off n : Nat) : Nat := if n = 0 then 0 else (off % BSIZE + n + BSIZE - 1) / BSIZE

/-- The first piece goes up to the end of its block. -/
theorem pieces_step {off n : Nat} (hn : 0 < n) :
    pieces off n = 1 + pieces (off + min n (BSIZE - off % BSIZE))
      (n - min n (BSIZE - off % BSIZE)) := by
  have hbs : BSIZE = 1024 := rfl
  unfold pieces
  rw [if_neg (by omega)]
  split
  · rw [hbs] at *
    omega
  · rw [hbs] at *
    omega

theorem iappendLoop_nil (h : Writing buf s v sz c) (hsz : sz inum = (c inum).length) (m : Nat) :
    Writing buf s (Function.update v inum (v inum)) (Function.update sz inum (c inum).length)
      (Function.update c inum (c inum ++ [])) ∧ Grown s s (v inum) (v inum) m := by
  rw [List.append_nil, Function.update_eq_self, Function.update_eq_self, ← hsz,
    Function.update_eq_self]
  exact ⟨h, Grown.refl s _ m⟩

theorem iappendLoop_spec (fuel : Nat) (h : Writing buf s v sz c) (hi : Alloc Mkfs.superblock v inum)
    (hsz : sz inum = (c inum).length) (hmax : (c inum).length ≤ MAXFILE * BSIZE)
    {p : List UInt8} (hfuel : p.length ≤ fuel) :
    wp (Mkfs.iappendLoop fuel (v inum) (c inum).length p) (fun r t =>
      Writing buf t (Function.update v inum r.1) (Function.update sz inum r.2)
        (Function.update c inum (c inum ++ p)) ∧
      Grown s t (v inum) r.1 (2 * pieces (c inum).length p.length) ∧
      r.2 = (c inum).length + p.length ∧ r.2 ≤ MAXFILE * BSIZE)
      (fun _ => FSSIZE < s.freeblock + 2 * pieces (c inum).length p.length ∨
        MAXFILE * BSIZE < (c inum).length + p.length) s := by
  have hbs : BSIZE = 1024 := rfl
  have hmf : MAXFILE = 268 := rfl
  induction fuel generalizing s v sz c p with
  | zero =>
    have hp : p = [] := List.eq_nil_of_length_eq_zero (Nat.le_zero.mp hfuel)
    obtain ⟨hw, hg⟩ := iappendLoop_nil h hsz (2 * pieces (c inum).length p.length)
    rw [hp] at hg ⊢
    exact ⟨hw, hg, rfl, hmax⟩
  | succ fuel ih =>
    unfold Mkfs.iappendLoop
    split
    · rename_i hp
      obtain ⟨hw, hg⟩ := iappendLoop_nil h hsz (2 * pieces (c inum).length p.length)
      rw [hp] at hg ⊢
      exact ⟨hw, hg, rfl, hmax⟩
    · rename_i hp
      have hlen : 0 < p.length := List.length_pos_iff.mpr hp
      obtain ⟨off, hoff⟩ : ∃ off, off = (c inum).length := ⟨_, rfl⟩
      obtain ⟨n1, hn1⟩ : ∃ n1, n1 = min p.length (BSIZE - off % BSIZE) := ⟨_, rfl⟩
      have hpieces : pieces off p.length = _ := pieces_step hlen
      rw [← hn1] at hpieces
      have hmod : off % BSIZE < BSIZE := Nat.mod_lt _ (by decide)
      rw [← hoff] at hsz hmax ⊢
      split
      · rename_i hfbn
        have hcut : min p.length ((off / BSIZE + 1) * BSIZE - off) = n1 := by
          have := Nat.mod_add_div off BSIZE
          rw [hbs] at *
          omega
        have hpos : off - off / BSIZE * BSIZE = off % BSIZE := by
          rw [hbs]
          omega
        rw [hcut, hpos, wp_bind]
        have hblock := iappendBlock_spec h hi (by rw [hsz]; exact hfbn)
        rw [hsz] at hblock
        refine wp_mono hblock ?_ ?_
        · rintro ⟨y, x⟩ t ht
          dsimp only at ht ⊢
          rw [wp_bind, wp_rsect]
          rcases ht with ⟨hfull, hsec, hxlo⟩ | ⟨hw, hg, hx0, hx⟩
          · rw [if_neg (by omega)]
            left
            omega
          · obtain ⟨v', hv'⟩ : ∃ v', v' = Function.update v inum y := ⟨_, rfl⟩
            have hvi : v' inum = y := by rw [hv', Function.update_self]
            have hi' : Alloc Mkfs.superblock v' inum := by
              obtain ⟨a, ha⟩ := hg.head
              refine ⟨hi.1, ?_⟩
              rw [hvi, ha]
              exact hi.2
            rw [← hv'] at hw
            rw [← hvi] at hx hg ⊢
            have hxlt : Mkfs.nmeta ≤ x ∧ x < t.freeblock := by
              have hheld : held Mkfs.superblock v' (image t) (inum, filePlace (off / BSIZE))
                  = x := by
                rw [held_of_alloc hi', hx]
              rw [← hheld]
              exact hw.held_lt (by rw [hheld]; exact hx0)
            have hlast := hw.last
            have hblocks := hg.blocks
            rw [if_pos (by rw [hw.sectors]; omega), wp_bind, wp_wsect]
            -- The piece is stored, and the rest follows by induction.
            obtain ⟨u, hu⟩ : ∃ u : Mkfs.State, u = { t with
              disk := Function.update t.disk x
                ((t.disk x).setBytes (off % BSIZE) (p.take n1))
              sectors := max t.sectors (x + 1) } := ⟨_, rfl⟩
            have htake : (p.take n1).length = n1 := List.length_take_of_le (by omega)
            have hstore := hw.store (b := x) (t := u) hi' (by rw [Function.update_self, hoff])
              (by omega : 0 < (p.take n1).length) (by rw [← hoff]; omega)
              (by rw [← hoff]; exact hx) hx0 (by rw [← hoff]; exact hu)
            rw [← hu]
            obtain ⟨hw', hg'⟩ := hstore
            rw [Function.update_idem, htake, ← hoff] at hw'
            obtain ⟨c', hc'⟩ : ∃ c', c' = Function.update c inum (c inum ++ p.take n1) :=
              ⟨_, rfl⟩
            have hci : c' inum = c inum ++ p.take n1 := by rw [hc', Function.update_self]
            have hclen : (c' inum).length = off + n1 := by
              rw [hci, List.length_append, htake, hoff]
            rw [← hc'] at hw'
            have hrest := ih (p := p.drop n1) hw' hi' (by rw [Function.update_self, hclen])
              (by rw [hclen, hbs, hmf] at *; omega) (by rw [List.length_drop]; omega)
            rw [hclen, List.length_drop] at hrest
            have hfb : u.freeblock = t.freeblock := by rw [hu]
            refine wp_mono hrest ?_ ?_
            · rintro ⟨z, m⟩ w ⟨hww, hgw, hm, hmle⟩
              dsimp only at hww hgw hm hmle ⊢
              rw [hci, hc', Function.update_idem, Function.update_idem, hv',
                Function.update_idem, List.append_assoc, List.take_append_drop] at hww
              refine ⟨hww, ((hg.trans hg').trans hgw).mono ?_, ?_, hmle⟩
              · omega
              · omega
            · rintro e (he | he)
              · left
                omega
              · right
                omega
        · intro e he
          left
          omega
      · rename_i hfbn
        right
        rw [hbs, hmf] at hfbn ⊢
        omega

end Xv6.Proofs.Fs
