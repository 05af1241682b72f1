import Xv6.Proofs.Fs.Append

/-!
# `Xv6.Proofs.Fs.Mkfs`: the image of a list of host files

`Image buf s sz c` says what the image is worth between two calls of `mkfs`: inode `i` stores the
bytes `c i` and has the fields that `mkfs` gives it, with size `sz i`. `contents fs` are the
bytes for the host files `fs`: the entries of the root directory, and the bytes of each file.
`main_spec` follows the loop over the files, one file more at each step.

The errors are bounded as well: `mkfs` gives up only when the files do not fit (`Fits`). The
bound on the blocks is a coarse one, two for each piece of a write.
-/

set_option autoImplicit false

namespace Xv6.Proofs.Fs

open Lib Lib.Action Kernel

variable {buf : Block} {s t : Mkfs.State} {v : Nat → Dinode} {sz : Nat → Nat} {c : Nat → List UInt8}
  {inum : Nat} {y : Dinode} {fs : List Mkfs.HostFile}

/-! ### Dinodes -/

/-- A dinode is stored whose blocks are those of the inode it replaces. -/
theorem Writing.winode (h : Writing buf s v sz c) (hin : InArea Mkfs.superblock inum)
    (hheld : ∀ p, held Mkfs.superblock (Function.update v inum y) (image s) p
      = held Mkfs.superblock v (image s) p)
    (hstored : y.type ≠ .none → Stored y (image s) (sz inum) (c inum))
    {blk : Block} {m : Nat} (hm : m = FSSIZE)
    (ht : t = { s with
      disk := Function.update s.disk (IBLOCK Mkfs.superblock inum) blk
      sectors := m }) :
    Writing buf t (Function.update v inum y) sz c := by
  have hbm : Mkfs.superblock.bmapstart = 45 := rfl
  have hnm : Mkfs.nmeta = 46 := rfl
  have hin' : IBLOCK Mkfs.superblock inum < 45 := hin
  have hfirst := h.first
  have himage : image t = Function.update (image s) (IBLOCK Mkfs.superblock inum) blk := by
    rw [ht]
    exact image_write (by omega) _ _
  have howned := h.owned.reinode hheld
  refine ⟨?_, ?_, ?_, ?_, ?_, ?_, ?_⟩
  · rw [ht]
    exact hm
  · rw [ht]
    exact hfirst
  · rw [ht]
    exact h.last
  · intro b hle
    rw [ht] at hle ⊢
    have hle : s.freeblock ≤ b := hle
    show Function.update s.disk _ blk b = _
    rw [Function.update_of_ne (by omega)]
    exact h.clear b hle
  · intro b hlt
    have hlt : b < 32 := hlt
    have hlo : 32 ≤ IBLOCK Mkfs.superblock inum := Nat.le_add_left 32 _
    rw [ht]
    show Function.update s.disk _ blk b = _
    rw [Function.update_of_ne (by omega)]
    exact h.low b hlt
  · rw [himage]
    exact howned.update_inodes mkfs_layout (fun _ _ => rfl) hin blk
  · intro i hi
    have hstored' : Stored (Function.update v inum y i) (image s) (sz i) (c i) := by
      by_cases hii : i = inum
      · subst hii
        rw [Function.update_self]
        refine hstored ?_
        have := hi.2
        rwa [Function.update_self] at this
      · rw [Function.update_of_ne hii]
        exact h.stored i ((alloc_congr (Function.update_of_ne hii _ _)).mp hi)
    rw [himage]
    refine hstored'.update hi ?_ _
    intro k hk he
    rw [hheld] at hk he
    have := (h.held_lt hk).1
    omega

/-- The dinodes after `winode`. -/
theorem dinodeAt_winode (hin : InArea Mkfs.superblock inum)
    (ht : t = { s with
      disk := Function.update s.disk (IBLOCK Mkfs.superblock inum)
        (writeDinode (s.disk (IBLOCK Mkfs.superblock inum)) (inum % IPB) y)
      sectors := max s.sectors (IBLOCK Mkfs.superblock inum + 1) }) :
    dinodeAt Mkfs.superblock (image t)
      = Function.update (dinodeAt Mkfs.superblock (image s)) inum y := by
  have hbm : Mkfs.superblock.bmapstart = 45 := rfl
  have hin' : IBLOCK Mkfs.superblock inum < 45 := hin
  have hdisk : image s (IBLOCK Mkfs.superblock inum) = s.disk (IBLOCK Mkfs.superblock inum) :=
    image_of_ne (by omega)
  funext i
  rw [ht, image_write (by omega), ← hdisk, dinodeAt_writeDinode, Function.update_apply]

/-- `winode` reads the inode block, so it needs the block to be there. -/
theorem wp_winode (hsec : s.sectors = FSSIZE) (hin : InArea Mkfs.superblock inum)
    {post : Unit → Mkfs.State → Prop} {err : Mkfs.Stop → Prop} :
    wp (Mkfs.winode inum y) post err s ↔ post () { s with
      disk := Function.update s.disk (IBLOCK Mkfs.superblock inum)
        (writeDinode (s.disk (IBLOCK Mkfs.superblock inum)) (inum % IPB) y)
      sectors := max s.sectors (IBLOCK Mkfs.superblock inum + 1) } := by
  have hin' : IBLOCK Mkfs.superblock inum < 45 := hin
  have hfs : FSSIZE = 2000 := rfl
  rw [Mkfs.winode, wp_bind, wp_rsect, if_pos (by omega), wp_wsect]

theorem wp_rinode (hsec : s.sectors = FSSIZE) (hin : InArea Mkfs.superblock inum)
    {post : Dinode → Mkfs.State → Prop} {err : Mkfs.Stop → Prop} :
    wp (Mkfs.rinode inum) post err s
      ↔ post (dinodeAt Mkfs.superblock (image s) inum) s := by
  have hin' : IBLOCK Mkfs.superblock inum < 45 := hin
  have hbm : Mkfs.superblock.bmapstart = 45 := rfl
  have hfs : FSSIZE = 2000 := rfl
  rw [Mkfs.rinode, wp_bind, wp_rsect, if_pos (by omega), wp_pure, dinodeAt,
    image_of_ne (by omega)]

/-- An inode with the same addresses holds the same blocks. -/
theorem held_addrs {sb : Superblock} {d : Disk} (htype : y.type ≠ .none)
    (hi : Alloc sb v inum) (haddrs : y.addrs = (v inum).addrs) (p : Nat × Nat) :
    held sb (Function.update v inum y) d p = held sb v d p := by
  obtain ⟨i, k⟩ := p
  by_cases hii : i = inum
  · subst hii
    have hi' : Alloc sb (Function.update v i y) i := by
      refine ⟨hi.1, ?_⟩
      rw [Function.update_self]
      exact htype
    rw [held_of_alloc hi', held_of_alloc hi, Function.update_self, placeOf_addrs haddrs]
  · have heq : Function.update v inum y i = v i := Function.update_of_ne hii _ _
    unfold held
    simp only [alloc_congr heq, heq]

/-- The invariant sees the inodes of the inode area only. -/
theorem Writing.inodes (h : Writing buf s v sz c) {v' : Nat → Dinode}
    (hv : ∀ i, InArea Mkfs.superblock i → v' i = v i) : Writing buf s v' sz c := by
  refine { h with owned := ?_, stored := ?_ }
  · exact h.owned.reinode (held_congr hv fun _ _ _ => rfl)
  · intro i hi
    rw [hv i hi.1]
    exact h.stored i ((alloc_congr (hv i hi.1)).mp hi)

/-- `winode` of a dinode with other fields and the same blocks, when the other inodes are
those on the image. -/
theorem Writing.publish (h : Writing buf s v sz c) (hi : Alloc Mkfs.superblock v inum)
    (hother : ∀ i, InArea Mkfs.superblock i → i ≠ inum →
      dinodeAt Mkfs.superblock (image s) i = v i)
    (haddrs : y.addrs = (v inum).addrs) (htype : y.type ≠ .none)
    (ht : t = { s with
      disk := Function.update s.disk (IBLOCK Mkfs.superblock inum)
        (writeDinode (s.disk (IBLOCK Mkfs.superblock inum)) (inum % IPB) y)
      sectors := max s.sectors (IBLOCK Mkfs.superblock inum + 1) }) :
    Writing buf t (dinodeAt Mkfs.superblock (image t)) sz c := by
  have hsec : max s.sectors (IBLOCK Mkfs.superblock inum + 1) = FSSIZE := by
    have hin' : IBLOCK Mkfs.superblock inum < 45 := hi.1
    have hfs : FSSIZE = 2000 := rfl
    have := h.sectors
    omega
  have hw := h.winode hi.1 (held_addrs htype hi haddrs)
    (fun _ => (h.stored inum hi).congr (placeOf_addrs haddrs _) (fileBlock_addrs haddrs _)) hsec ht
  refine hw.inodes ?_
  intro i hia
  rw [dinodeAt_winode hi.1 ht, Function.update_apply, Function.update_apply]
  split
  · rfl
  · rename_i hii
    exact hother i hia hii

/-! ### The image between two calls -/

/-- The type of inode `i` when the inodes from 1 up to `m` are handed out. -/
def kindOf (m i : Nat) : InodeType :=
  if i = 0 ∨ m ≤ i then .none else if i = ROOTINO then .dir else .file

/-- The fields that `mkfs` gives to a dinode. -/
structure Head (x : Dinode) (n : Nat) : Prop where
  major : x.major = 0
  minor : x.minor = 0
  nlink : x.nlink = 1
  size : x.size.toNat = n

/-- The image stores the bytes `c`, in files of sizes `sz`. -/
structure Image (buf : Block) (s : Mkfs.State) (sz : Nat → Nat) (c : Nat → List UInt8) : Prop where
  writing : Writing buf s (dinodeAt Mkfs.superblock (image s)) (fun i => (c i).length) c
  type : ∀ i, InArea Mkfs.superblock i →
    (dinodeAt Mkfs.superblock (image s) i).type = kindOf s.freeinode i
  head : ∀ i, 1 ≤ i → i < s.freeinode → InArea Mkfs.superblock i →
    Head (dinodeAt Mkfs.superblock (image s) i) (sz i)
  small : ∀ i, (c i).length ≤ MAXFILE * BSIZE
  unused : ∀ i, s.freeinode ≤ i → c i = []

/-- The image stores the bytes `c`, in files of their lengths. -/
abbrev Stores (buf : Block) (s : Mkfs.State) (c : Nat → List UInt8) : Prop :=
  Image buf s (fun i => (c i).length) c

theorem kindOf_used {m i : Nat} (hi : 1 ≤ i) (him : i < m) : kindOf m i ≠ .none := by
  unfold kindOf
  rw [if_neg (by omega)]
  split <;> decide

theorem Image.alloc (h : Image buf s sz c) {i : Nat} (hi : 1 ≤ i) (him : i < s.freeinode)
    (hin : InArea Mkfs.superblock i) :
    Alloc Mkfs.superblock (dinodeAt Mkfs.superblock (image s)) i := by
  refine ⟨hin, ?_⟩
  rw [h.type i hin]
  exact kindOf_used hi him

/-- `winode` of a dinode with other fields and the same blocks. -/
theorem Image.restamp (h : Image buf s sz c) (hi : 1 ≤ inum) (him : inum < s.freeinode)
    (hin : InArea Mkfs.superblock inum)
    (haddrs : y.addrs = (dinodeAt Mkfs.superblock (image s) inum).addrs)
    (htype : y.type = (dinodeAt Mkfs.superblock (image s) inum).type) {n : Nat}
    (hy : Head y n)
    (ht : t = { s with
      disk := Function.update s.disk (IBLOCK Mkfs.superblock inum)
        (writeDinode (s.disk (IBLOCK Mkfs.superblock inum)) (inum % IPB) y)
      sectors := max s.sectors (IBLOCK Mkfs.superblock inum + 1) }) :
    Image buf t (Function.update sz inum n) c := by
  have halloc := h.alloc hi him hin
  have hdin := dinodeAt_winode hin ht
  have hfree : t.freeinode = s.freeinode := by rw [ht]
  have hne : y.type ≠ .none := by
    rw [htype]
    exact halloc.2
  refine ⟨h.writing.publish halloc (fun _ _ _ => rfl) haddrs hne ht, ?_, ?_, h.small, ?_⟩
  · intro i hia
    rw [hdin, hfree, Function.update_apply]
    split
    · rename_i hii
      rw [htype, hii]
      exact h.type inum hin
    · exact h.type i hia
  · intro i hi1 hlt hia
    rw [hdin, Function.update_apply, Function.update_apply]
    split
    · exact hy
    · rw [hfree] at hlt
      exact h.head i hi1 hlt hia
  · rw [hfree]
    exact h.unused

/-! ### `iappend` and `mkfs_ialloc` -/

/-- `iappend` adds bytes to one file. -/
theorem iappend_spec (h : Stores buf s c) (hi : 1 ≤ inum) (him : inum < s.freeinode)
    (hin : InArea Mkfs.superblock inum) (p : List UInt8) :
    wp (Mkfs.iappend inum p) (fun _ t =>
      Stores buf t (Function.update c inum (c inum ++ p)) ∧ t.freeinode = s.freeinode ∧
      t.freeblock ≤ s.freeblock + 2 * pieces (c inum).length p.length)
      (fun _ => FSSIZE < s.freeblock + 2 * pieces (c inum).length p.length ∨
        MAXFILE * BSIZE < (c inum).length + p.length) s := by
  have halloc := h.alloc hi him hin
  have hhead := h.head inum hi him hin
  have htype := h.type inum hin
  have hloop := iappendLoop_spec p.length h.writing halloc rfl (h.small inum) (Nat.le_refl _)
  rw [Mkfs.iappend, wp_bind, wp_rinode h.writing.sectors hin, hhead.size, wp_bind]
  refine wp_post hloop ?_
  rintro ⟨y, m⟩ t ⟨hw, hg, hm, hmle⟩
  dsimp only at hw hg hm hmle ⊢
  obtain ⟨addrs, haddrs⟩ := hg.head
  rw [wp_winode hw.sectors hin]
  obtain ⟨u, hu⟩ : ∃ u : Mkfs.State, u = { t with
    disk := Function.update t.disk (IBLOCK Mkfs.superblock inum)
      (writeDinode (t.disk (IBLOCK Mkfs.superblock inum)) (inum % IPB)
        { y with size := UInt32.ofNat m })
    sectors := max t.sectors (IBLOCK Mkfs.superblock inum + 1) } := ⟨_, rfl⟩
  rw [← hu]
  have hytype : y.type = kindOf s.freeinode inum := by
    rw [haddrs]
    exact htype
  have hi' : Alloc Mkfs.superblock
      (Function.update (dinodeAt Mkfs.superblock (image s)) inum y) inum := by
    refine ⟨hin, ?_⟩
    rw [Function.update_self, hytype]
    exact kindOf_used hi him
  have hlen : (fun i => (Function.update c inum (c inum ++ p) i).length)
      = Function.update (fun i => (c i).length) inum m := by
    funext i
    rw [Function.update_apply, Function.update_apply]
    split
    · rw [List.length_append, hm]
    · rfl
  have hfree : u.freeinode = s.freeinode := by
    rw [hu]
    exact hg.freeinode
  have hdin := dinodeAt_winode hin hu
  refine ⟨⟨?_, ?_, ?_, ?_, ?_⟩, hfree, ?_⟩
  · rw [hlen]
    refine hw.publish hi' ?_ ?_ ?_ hu
    · intro i hia hii
      rw [hg.dinodes i hia, Function.update_of_ne hii]
    · rw [Function.update_self]
    · show y.type ≠ .none
      rw [hytype]
      exact kindOf_used hi him
  · intro i hia
    rw [hdin, hfree, Function.update_apply]
    split
    · rename_i hii
      rw [hii]
      exact hytype
    · rw [hg.dinodes i hia]
      exact h.type i hia
  · intro i hi1 hlt hia
    have hleni : (Function.update c inum (c inum ++ p) i).length
        = Function.update (fun i => (c i).length) inum m i := congrFun hlen i
    rw [hdin, hleni, Function.update_apply, Function.update_apply]
    split
    · have hmf : MAXFILE * BSIZE = 274432 := rfl
      rw [haddrs]
      refine ⟨hhead.major, hhead.minor, hhead.nlink, ?_⟩
      show (UInt32.ofNat m).toNat = m
      exact UInt32.toNat_ofNat_of_lt' (by show m < 2 ^ 32; omega)
    · rw [hg.dinodes i hia]
      exact h.head i hi1 (by rw [← hfree]; exact hlt) hia
  · intro i
    have := h.small i
    rw [Function.update_apply]
    split
    · rw [List.length_append, ← hm]
      exact hmle
    · exact this
  · intro i hle
    rw [hfree] at hle
    rw [Function.update_of_ne (by omega)]
    exact h.unused i hle
  · have := hg.blocks
    rw [hu]
    exact this

/-- A file without blocks stores nothing. -/
theorem Stored.of_no_blocks {x : Dinode} (hx : ∀ k, x.addr k = 0) (d : Disk) :
    Stored x d 0 [] := by
  have hplace : ∀ k, placeOf x d k = 0 := by
    intro k
    unfold placeOf
    simp [hx]
  constructor
  · intro bn _
    simp [hplace]
  · intro p
    unfold fileBlock
    simp [hplace]

/-- A new inode without blocks holds none. -/
theorem held_fresh {sb : Superblock} {d : Disk} (hy : ∀ k, y.addr k = 0)
    (hi : ¬ Alloc sb v inum) (p : Nat × Nat) :
    held sb (Function.update v inum y) d p = held sb v d p := by
  obtain ⟨i, k⟩ := p
  by_cases hii : i = inum
  · subst hii
    rw [held_of_not_alloc hi]
    unfold held placeOf
    simp [hy]
  · have heq : Function.update v inum y i = v i := Function.update_of_ne hii _ _
    unfold held
    simp only [alloc_congr heq, heq]

/-- `mkfs_ialloc` hands out the next inode, as a file without contents. -/
theorem mkfs_ialloc_spec (h : Stores buf s c)
    (hin : InArea Mkfs.superblock s.freeinode) {type : InodeType}
    (htype : type = kindOf (s.freeinode + 1) s.freeinode) :
    wp (Mkfs.ialloc type) (fun i t => i = s.freeinode ∧ Stores buf t c ∧
      t.freeinode = s.freeinode + 1 ∧ t.freeblock = s.freeblock) (fun _ => False) s := by
  obtain ⟨inum, hinum⟩ : ∃ inum, inum = s.freeinode := ⟨_, rfl⟩
  obtain ⟨y, hy⟩ : ∃ y : Dinode, y = { Dinode.fresh type with nlink := 1 } := ⟨_, rfl⟩
  have hyaddr : ∀ k, y.addr k = 0 := by
    intro k
    rw [hy]
    exact fresh_addr type k
  obtain ⟨u, hu⟩ : ∃ u : Mkfs.State, u = { s with freeinode := inum + 1 } := ⟨_, rfl⟩
  have himage : image u = image s := by rw [hu]; rfl
  have hsec : u.sectors = FSSIZE := by
    rw [hu]
    exact h.writing.sectors
  rw [Mkfs.ialloc, wp_bind, wp_read, wp_bind, wp_modify, wp_bind, ← hinum, ← hy, ← hu]
  rw [← hinum] at hin htype
  rw [wp_winode hsec hin, wp_pure]
  obtain ⟨t, ht⟩ : ∃ t : Mkfs.State, t = { u with
    disk := Function.update u.disk (IBLOCK Mkfs.superblock inum)
      (writeDinode (u.disk (IBLOCK Mkfs.superblock inum)) (inum % IPB) y)
    sectors := max u.sectors (IBLOCK Mkfs.superblock inum + 1) } := ⟨_, rfl⟩
  rw [← ht]
  have hfree : t.freeinode = inum + 1 := by rw [ht, hu]
  have hdin := dinodeAt_winode hin ht
  rw [himage] at hdin
  have hnone : (dinodeAt Mkfs.superblock (image s) inum).type = .none := by
    rw [h.type inum hin, ← hinum]
    unfold kindOf
    rw [if_pos (by omega)]
  have hempty : c inum = [] := h.unused inum (by omega)
  have hu' : Writing buf u (dinodeAt Mkfs.superblock (image s)) (fun i => (c i).length) c := by
    have hw := h.writing
    rw [hu]
    exact ⟨hw.sectors, hw.first, hw.last, hw.clear, hw.low, hw.owned, hw.stored⟩
  refine ⟨rfl, ⟨?_, ?_, ?_, h.small, ?_⟩, hfree, by rw [ht, hu]⟩
  · rw [hdin]
    refine hu'.winode hin (held_fresh hyaddr fun ha => ha.2 hnone) ?_ ?_ ht
    · intro _
      rw [hempty]
      exact Stored.of_no_blocks hyaddr _
    · have hin' : IBLOCK Mkfs.superblock inum < 45 := hin
      have hfs : FSSIZE = 2000 := rfl
      omega
  · intro i hia
    rw [hdin, hfree, Function.update_apply]
    split
    · rename_i hii
      rw [hii, hy]
      exact htype
    · rename_i hii
      rw [h.type i hia, ← hinum]
      unfold kindOf
      congr 1
      exact propext ⟨fun _ => by omega, fun _ => by omega⟩
  · intro i hi1 hlt hia
    rw [hdin, Function.update_apply]
    split
    · rename_i hii
      rw [hii, hempty, hy]
      exact ⟨rfl, rfl, rfl, rfl⟩
    · rename_i hii
      exact h.head i hi1 (by omega) hia
  · intro i hle
    exact h.unused i (by omega)

/-! ### The files -/

/-- The bytes of the directory entry of host file number `k`. -/
def entryBytes (k : Nat) (f : Mkfs.HostFile) : List UInt8 :=
  Dirent.toBytes ⟨k + 2, Mkfs.shortName f.arg⟩

/-- The bytes of the root directory. -/
def rootBytes (fs : List Mkfs.HostFile) : List UInt8 :=
  Dirent.toBytes ⟨ROOTINO, [46]⟩ ++ Dirent.toBytes ⟨ROOTINO, [46, 46]⟩ ++
    (fs.mapIdx entryBytes).flatten

/-- The bytes of each inode: the root directory, then the host files. -/
def contents (fs : List Mkfs.HostFile) (i : Nat) : List UInt8 :=
  if i = ROOTINO then rootBytes fs
  else if i < 2 then [] else (fs.map fun f => f.reads.flatten).getD (i - 2) []

theorem rootBytes_append (fs : List Mkfs.HostFile) (f : Mkfs.HostFile) :
    rootBytes (fs ++ [f]) = rootBytes fs ++ entryBytes fs.length f := by
  unfold rootBytes
  rw [List.mapIdx_append, List.flatten_append, ← List.append_assoc]
  simp

theorem contents_append (fs : List Mkfs.HostFile) (f : Mkfs.HostFile) :
    contents (fs ++ [f]) = Function.update (Function.update (contents fs) ROOTINO
      (contents fs ROOTINO ++ entryBytes fs.length f)) (fs.length + 2) f.reads.flatten := by
  have hroot : ROOTINO = 1 := rfl
  funext i
  rw [Function.update_apply, Function.update_apply]
  unfold contents
  rw [if_pos rfl]
  by_cases hi : i = ROOTINO
  · rw [if_pos hi, if_neg (by omega), if_pos hi, rootBytes_append]
  · rw [if_neg hi, if_neg hi, if_neg hi]
    by_cases h2 : i < 2
    · rw [if_pos h2, if_neg (by omega), if_pos h2]
    · rw [if_neg h2, if_neg h2, List.map_append]
      by_cases hlt : i - 2 < fs.length
      · rw [if_neg (by omega), List.getD_append _ _ _ _ (by simpa using hlt)]
      · rw [List.getD_append_right _ _ _ _ (by simpa using hlt), List.length_map]
        by_cases he : i = fs.length + 2
        · rw [if_pos he, he]
          simp
        · rw [if_neg he, List.getD_eq_default _ _ (by simp; omega),
            List.getD_eq_default _ _ (by simp; omega)]

theorem contents_unused {i : Nat} (hi : fs.length + 2 ≤ i) : contents fs i = [] := by
  have hroot : ROOTINO = 1 := rfl
  unfold contents
  rw [if_neg (by omega), if_neg (by omega), List.getD_eq_default _ _ (by simp; omega)]

theorem length_rootBytes (fs : List Mkfs.HostFile) :
    (rootBytes fs).length = DIRENTSIZE * (fs.length + 2) := by
  have hde : DIRENTSIZE = 16 := rfl
  induction fs using List.reverseRecOn with
  | nil => rfl
  | append_singleton fs f ih =>
    rw [rootBytes_append, List.length_append, ih, entryBytes, length_toBytes,
      List.length_append, List.length_singleton, hde]
    omega

/-- The empty image: the first blocks are marked, and no inode is in use. -/
theorem start_stores (buf : Block) : Stores buf (Mkfs.start buf) fun _ => [] := by
  have hsize : Mkfs.superblock.size = 2000 := rfl
  have hnm : Mkfs.nmeta = 46 := rfl
  have hbm : Mkfs.superblock.bmapstart = 45 := rfl
  have hbpb : BPB = 8192 := rfl
  have hfs : FSSIZE = 2000 := rfl
  have hfree : ∀ i, InArea Mkfs.superblock i →
      (dinodeAt Mkfs.superblock (image (Mkfs.start buf)) i).type = .none := by
    intro i hi
    have hi' : IBLOCK Mkfs.superblock i < 45 := hi
    have hlo : 32 ≤ IBLOCK Mkfs.superblock i := Nat.le_add_left 32 _
    have hzero : image (Mkfs.start buf) (IBLOCK Mkfs.superblock i) = Bytes.zero BSIZE := by
      rw [image_of_ne (by omega)]
      show Function.update (fun _ => Bytes.zero BSIZE) 1 buf (IBLOCK Mkfs.superblock i) = _
      rw [Function.update_of_ne (by omega)]
    unfold dinodeAt readDinode
    rw [hzero, Bytes.getWord_zero]
    rfl
  have hheld : ∀ p, held Mkfs.superblock
      (dinodeAt Mkfs.superblock (image (Mkfs.start buf))) (image (Mkfs.start buf)) p = 0 := by
    intro p
    exact if_neg fun ha => ha.2 (hfree p.1 ha.1)
  have hbit : ∀ b, b < 2000 →
      bitAt Mkfs.superblock (image (Mkfs.start buf)) b = decide (b < Mkfs.nmeta) := by
    intro b hb
    exact bitAt_usedBits Mkfs.superblock _ (by decide : Mkfs.nmeta ≤ BPB) (by omega)
  refine ⟨⟨rfl, Nat.le_refl _, (by decide : Mkfs.nmeta ≤ FSSIZE), ?_, fun _ _ => rfl,
    ⟨⟨?_, ?_, ?_, ?_, ?_⟩, ?_⟩, ?_⟩, ?_, ?_, ?_, ?_⟩
  · intro b hle
    have hle : 46 ≤ b := hle
    show Function.update (fun _ => Bytes.zero BSIZE) 1 buf b = _
    rw [Function.update_of_ne (by omega)]
  · rw [mkfs_dataStart]
    decide
  · intro p hp
    exact absurd (hheld p) hp
  · intro p q _ hp
    exact absurd (hheld p) hp
  · intro b hlo hhi
    rw [mkfs_dataStart] at hlo
    rw [hbit b (by omega)]
    constructor
    · intro hb
      have := of_decide_eq_true hb
      omega
    · rintro (hf | ⟨p, hp⟩)
      · exact hf.elim
      · rw [hheld p] at hp
        omega
  · exact fun _ _ hf => hf
  · intro b hb
    rw [mkfs_dataStart] at hb
    rw [hbit b (by omega)]
    exact decide_eq_true hb
  · intro i hi
    exact absurd (hfree i hi.1) hi.2
  · intro i hi
    rw [hfree i hi]
    unfold kindOf
    have : (Mkfs.start buf).freeinode = 1 := rfl
    rw [if_pos (by omega)]
  · intro i hi hlt
    have : (Mkfs.start buf).freeinode = 1 := rfl
    omega
  · intro i
    exact Nat.zero_le _
  · intro i _
    rfl

/-- Blocks that are enough for `n` bytes, wherever they go. -/
def room (n : Nat) : Nat := 2 * (n / BSIZE + 2)

theorem pieces_le_room (off n : Nat) : 2 * pieces off n ≤ room n := by
  have hbs : BSIZE = 1024 := rfl
  unfold pieces room
  split
  · omega
  · rw [hbs]
    omega

/-- `iappend`, with a bound on its blocks that does not depend on the offset. -/
theorem iappend_room (h : Stores buf s c) (hi : 1 ≤ inum) (him : inum < s.freeinode)
    (hin : InArea Mkfs.superblock inum) (p : List UInt8) :
    wp (Mkfs.iappend inum p) (fun _ t =>
      Stores buf t (Function.update c inum (c inum ++ p)) ∧ t.freeinode = s.freeinode ∧
      t.freeblock ≤ s.freeblock + room p.length)
      (fun _ => FSSIZE < s.freeblock + room p.length ∨
        MAXFILE * BSIZE < (c inum).length + p.length) s := by
  have hroom := pieces_le_room (c inum).length p.length
  refine wp_mono (iappend_spec h hi him hin p) ?_ ?_
  · rintro _ t ⟨hs, hf, hb⟩
    exact ⟨hs, hf, by omega⟩
  · rintro _ (he | he)
    · exact Or.inl (by omega)
    · exact Or.inr he

/-- Blocks that are enough for the reads of a file. -/
def readsRoom (reads : List (List UInt8)) : Nat := (reads.map fun r => room r.length).sum

/-- The loop that copies a host file. -/
theorem copyFile_spec (reads : List (List UInt8)) (h : Stores buf s c) (hi : 1 ≤ inum)
    (him : inum < s.freeinode) (hin : InArea Mkfs.superblock inum) :
    wp (Action.forEach (Mkfs.iappend inum) reads) (fun _ t =>
      Stores buf t (Function.update c inum (c inum ++ reads.flatten)) ∧
      t.freeinode = s.freeinode ∧ t.freeblock ≤ s.freeblock + readsRoom reads)
      (fun _ => FSSIZE < s.freeblock + readsRoom reads ∨
        MAXFILE * BSIZE < (c inum).length + reads.flatten.length) s := by
  induction reads generalizing s c with
  | nil =>
    refine ⟨?_, rfl, Nat.le_add_right _ _⟩
    rw [List.flatten_nil, List.append_nil, Function.update_eq_self]
    exact h
  | cons r reads ih =>
    have hsum : readsRoom (r :: reads) = room r.length + readsRoom reads := by
      unfold readsRoom
      rw [List.map_cons, List.sum_cons]
    rw [Action.forEach, wp_bind, hsum, List.flatten_cons, List.length_append]
    refine wp_mono (iappend_room h hi him hin r) ?_ ?_
    · rintro _ t ⟨hs, hf, hb⟩
      refine wp_mono (ih hs (by rw [hf]; exact him)) ?_ ?_
      · rintro _ u ⟨hs', hf', hb'⟩
        rw [Function.update_self, Function.update_idem, List.append_assoc] at hs'
        exact ⟨hs', hf'.trans hf, by omega⟩
      · rw [Function.update_self, List.length_append]
        rintro _ (he | he)
        · left
          omega
        · right
          omega
    · rintro _ (he | he)
      · left
        omega
      · right
        omega

/-! ### `main` -/

theorem inArea_of_lt {i : Nat} (hi : i < NINODES) : InArea Mkfs.superblock i :=
  mkfs_layout.inodes i hi

/-- Blocks that are enough for a host file and its directory entry. -/
def fileRoom (f : Mkfs.HostFile) : Nat := room DIRENTSIZE + readsRoom f.reads

/-- `mkfs` accepts the file. -/
def Accepted (f : Mkfs.HostFile) : Prop :=
  47 ∉ Mkfs.baseName f.arg ∧ f.reads.flatten.length ≤ MAXFILE * BSIZE

/-- The root directory with its first two entries. -/
theorem makeRoot_spec (buf : Block) :
    wp Mkfs.makeRoot (fun _ t => Stores buf t (contents []) ∧ t.freeinode = 2 ∧
      t.freeblock ≤ Mkfs.nmeta + 2 * room DIRENTSIZE) (fun _ => False) (Mkfs.start buf) := by
  have hroot : ROOTINO = 1 := rfl
  have hde : DIRENTSIZE = 16 := rfl
  have hfs : FSSIZE = 2000 := rfl
  have hnm : Mkfs.nmeta = 46 := rfl
  have hroom : room 16 = 4 := by decide
  have hmax : MAXFILE * BSIZE = 274432 := rfl
  have hin : InArea Mkfs.superblock ROOTINO := inArea_of_lt (by decide)
  rw [Mkfs.makeRoot, wp_bind]
  refine wp_mono (mkfs_ialloc_spec (start_stores buf) hin rfl) ?_ fun _ he => he
  rintro r t ⟨hr, hs, hf, hb⟩
  have hf : t.freeinode = 2 := hf
  have hb : t.freeblock = Mkfs.nmeta := hb
  have hr : r = ROOTINO := hr
  rw [hr, if_pos rfl, wp_bind]
  refine wp_mono (iappend_room hs (by decide : 1 ≤ ROOTINO) (by omega) hin _) ?_ ?_
  · rintro _ u ⟨hs', hf', hb'⟩
    rw [length_toBytes, hde] at hb'
    refine wp_mono (iappend_room hs' (by decide : 1 ≤ ROOTINO) (by omega) hin _) ?_ ?_
    · rintro _ w ⟨hs'', hf'', hb''⟩
      rw [length_toBytes, hde] at hb''
      rw [Function.update_self, Function.update_idem] at hs''
      refine ⟨?_, by omega, by rw [hde]; omega⟩
      have hc : contents [] = Function.update (fun _ => []) ROOTINO
          ([] ++ Dirent.toBytes ⟨ROOTINO, [46]⟩ ++ Dirent.toBytes ⟨ROOTINO, [46, 46]⟩) := by
        funext i
        rw [Function.update_apply]
        unfold contents rootBytes
        simp
      rw [hc]
      exact hs''
    · rw [Function.update_self, List.nil_append, length_toBytes, length_toBytes, hde]
      rintro _ (he | he)
      · omega
      · omega
  · rw [length_toBytes, hde]
    rintro _ (he | he)
    · omega
    · have he : MAXFILE * BSIZE < 0 + 16 := he
      omega

/-- One host file more. -/
theorem addFile_spec (h : Stores buf s (contents fs)) (hfree : s.freeinode = fs.length + 2)
    (hlen : fs.length + 2 < NINODES) (f : Mkfs.HostFile) :
    wp (Mkfs.addFile f) (fun _ t => Stores buf t (contents (fs ++ [f])) ∧
      t.freeinode = fs.length + 3 ∧ t.freeblock ≤ s.freeblock + fileRoom f)
      (fun _ => ¬ Accepted f ∨ FSSIZE < s.freeblock + fileRoom f) s := by
  have hroot : ROOTINO = 1 := rfl
  have hn : NINODES = 200 := rfl
  have hde : DIRENTSIZE = 16 := rfl
  have hmax : MAXFILE * BSIZE = 274432 := rfl
  unfold fileRoom
  rw [Mkfs.addFile]
  split
  · rename_i hslash
    left
    exact fun ha => ha.1 hslash
  · have hin : InArea Mkfs.superblock s.freeinode := inArea_of_lt (by omega)
    have hkind : InodeType.file = kindOf (s.freeinode + 1) s.freeinode := by
      unfold kindOf
      rw [if_neg (by omega), if_neg (by omega)]
    rw [wp_bind]
    refine wp_mono (mkfs_ialloc_spec h hin hkind) ?_ fun _ he => he.elim
    rintro i t ⟨hi, hs, hf, hb⟩
    rw [hi, hfree]
    -- The entry of the directory.
    rw [wp_bind]
    refine wp_mono (iappend_room hs (by decide : 1 ≤ ROOTINO) (by omega)
      (inArea_of_lt (by decide)) _) ?_ ?_
    · rintro _ u ⟨hs', hf', hb'⟩
      rw [length_toBytes] at hb'
      -- The bytes of the file.
      have hne : fs.length + 2 ≠ ROOTINO := by omega
      refine wp_mono (copyFile_spec f.reads hs' (Nat.le_add_left 1 _)
        (by omega : fs.length + 2 < u.freeinode) (inArea_of_lt hlen)) ?_ ?_
      · rintro _ w ⟨hs'', hf'', hb''⟩
        rw [Function.update_of_ne hne, contents_unused (Nat.le_refl _), List.nil_append] at hs''
        refine ⟨?_, by omega, by omega⟩
        rw [contents_append]
        exact hs''
      · rw [Function.update_of_ne hne, contents_unused (Nat.le_refl _)]
        rintro _ (he | he)
        · right
          omega
        · left
          intro ha
          have hle := ha.2
          rw [List.length_nil] at he
          omega
    · rintro _ (he | he)
      · rw [length_toBytes] at he
        right
        omega
      · -- The directory is far from the largest file.
        have hc : contents fs ROOTINO = rootBytes fs := if_pos rfl
        rw [hc, length_rootBytes, length_toBytes, hde] at he
        omega

/-- The loop over the host files. -/
theorem addFiles_spec (rest : List Mkfs.HostFile) (h : Stores buf s (contents fs))
    (hfree : s.freeinode = fs.length + 2) (hlen : fs.length + rest.length ≤ NINODES - 2) :
    wp (Action.forEach Mkfs.addFile rest) (fun _ t => Stores buf t (contents (fs ++ rest)) ∧
      t.freeinode = (fs ++ rest).length + 2 ∧
      t.freeblock ≤ s.freeblock + (rest.map fileRoom).sum)
      (fun _ => ¬ (∀ f ∈ rest, Accepted f) ∨
        FSSIZE < s.freeblock + (rest.map fileRoom).sum) s := by
  have hn : NINODES = 200 := rfl
  induction rest generalizing s fs with
  | nil =>
    rw [List.append_nil]
    exact ⟨h, hfree, Nat.le_add_right _ _⟩
  | cons f rest ih =>
    rw [List.length_cons] at hlen
    rw [Action.forEach, wp_bind, List.map_cons, List.sum_cons]
    refine wp_mono (addFile_spec h hfree (by omega) f) ?_ ?_
    · rintro _ t ⟨hs, hf, hb⟩
      have happ : fs ++ f :: rest = (fs ++ [f]) ++ rest := by simp
      have hlen' : (fs ++ [f]).length = fs.length + 1 := by simp
      refine wp_mono (ih hs (by omega) (by omega)) ?_ ?_
      · rintro _ u ⟨hs', hf', hb'⟩
        rw [happ]
        exact ⟨hs', hf', by omega⟩
      · rintro _ (he | he)
        · left
          exact fun ha => he fun g hg => ha g (List.mem_cons_of_mem _ hg)
        · right
          omega
    · rintro _ (he | he)
      · left
        exact fun ha => he (ha f List.mem_cons_self)
      · right
        omega

/-- The sizes of the files: that of the root directory is rounded up. -/
def fileSize (fs : List Mkfs.HostFile) (i : Nat) : Nat :=
  if i = ROOTINO then ((contents fs i).length / BSIZE + 1) * BSIZE else (contents fs i).length

/-- `mkfs` has the room for all files. -/
def Fits (fs : List Mkfs.HostFile) : Prop :=
  (∀ f ∈ fs, Accepted f) ∧
    Mkfs.nmeta + 2 * room DIRENTSIZE + (fs.map fileRoom).sum ≤ FSSIZE

/-- `balloc` of `mkfs` writes the bitmap that the image has been read with. -/
theorem Image.seal (h : Image buf s sz c)
    (ht : t = { s with
      disk := Function.update s.disk Mkfs.superblock.bmapstart (Mkfs.usedBits s.freeblock)
      sectors := max s.sectors (Mkfs.superblock.bmapstart + 1) }) :
    Image buf t sz c ∧ t.disk = image t := by
  have hbm : Mkfs.superblock.bmapstart = 45 := rfl
  have hnm : Mkfs.nmeta = 46 := rfl
  have hfs : FSSIZE = 2000 := rfl
  have hfirst := h.writing.first
  have hdisk : t.disk = image s := by
    rw [ht]
    rfl
  have himage : image t = image s := by
    unfold image
    rw [ht]
    exact Function.update_idem ..
  have hfree : t.freeinode = s.freeinode := by rw [ht]
  have hfb : t.freeblock = s.freeblock := by rw [ht]
  have hw : Writing buf t (dinodeAt Mkfs.superblock (image s)) (fun i => (c i).length) c := by
    refine ⟨?_, ?_, ?_, ?_, ?_, ?_, ?_⟩
    · have := h.writing.sectors
      rw [ht]
      show max s.sectors _ = FSSIZE
      omega
    · rw [hfb]
      exact hfirst
    · rw [hfb]
      exact h.writing.last
    · intro b hle
      rw [hdisk, image_of_ne (by omega)]
      exact h.writing.clear b (by omega)
    · intro b hlt
      have hlt : b < 32 := hlt
      rw [hdisk, image_of_ne (by omega)]
      exact h.writing.low b hlt
    · rw [himage]
      exact h.writing.owned
    · rw [himage]
      exact h.writing.stored
  refine ⟨⟨?_, ?_, ?_, h.small, ?_⟩, by rw [hdisk, himage]⟩
  · rw [himage]
    exact hw
  · rw [himage, hfree]
    exact h.type
  · rw [himage, hfree]
    exact h.head
  · rw [hfree]
    exact h.unused

/-- What `mkfs` leaves for at most `NINODES - 2` files. -/
theorem main_spec (buf : Block) (hlen : fs.length ≤ NINODES - 2) :
    wp (Mkfs.main fs) (fun _ t => Image buf t (fileSize fs) (contents fs) ∧
      t.freeinode = fs.length + 2 ∧ t.disk = image t) (fun _ => ¬ Fits fs) (Mkfs.start buf) := by
  have hbs : BSIZE = 1024 := rfl
  have hin : InArea Mkfs.superblock ROOTINO := inArea_of_lt (by decide)
  rw [Mkfs.main, wp_bind]
  refine wp_mono (makeRoot_spec buf) ?_ fun _ he => he.elim
  rintro _ s ⟨hs, hf, hb⟩
  rw [wp_bind]
  refine wp_mono (addFiles_spec fs hs hf (by simpa using hlen)) ?_ ?_
  · rintro _ t ⟨hs', hf', hb'⟩
    rw [List.nil_append] at hs' hf'
    have him : ROOTINO < t.freeinode := by
      rw [hf']
      exact Nat.le_add_left 2 _
    have hhead := hs'.head ROOTINO (by decide) him hin
    obtain ⟨y, hy⟩ : ∃ y : Dinode, y = { dinodeAt Mkfs.superblock (image t) ROOTINO with
      size := UInt32.ofNat (fileSize fs ROOTINO) } := ⟨_, rfl⟩
    have hround : fileSize fs ROOTINO = ((contents fs ROOTINO).length / BSIZE + 1) * BSIZE :=
      if_pos rfl
    have hsize : y.size.toNat = fileSize fs ROOTINO := by
      have hroot : contents fs ROOTINO = rootBytes fs := if_pos rfl
      have hn : NINODES = 200 := rfl
      have hde : DIRENTSIZE = 16 := rfl
      rw [hy]
      apply UInt32.toNat_ofNat_of_lt'
      show _ < 2 ^ 32
      rw [hround, hroot, length_rootBytes, hbs, hde]
      omega
    have hyhead : Head y (fileSize fs ROOTINO) := by
      refine ⟨?_, ?_, ?_, hsize⟩
      · rw [hy]
        exact hhead.major
      · rw [hy]
        exact hhead.minor
      · rw [hy]
        exact hhead.nlink
    rw [wp_bind, Mkfs.fixRootSize, wp_bind, wp_rinode hs'.writing.sectors hin,
      wp_winode hs'.writing.sectors hin, hhead.size, ← hround, ← hy]
    obtain ⟨u, hu⟩ : ∃ u : Mkfs.State, u = { t with
      disk := Function.update t.disk (IBLOCK Mkfs.superblock ROOTINO)
        (writeDinode (t.disk (IBLOCK Mkfs.superblock ROOTINO)) (ROOTINO % IPB) y)
      sectors := max t.sectors (IBLOCK Mkfs.superblock ROOTINO + 1) } := ⟨_, rfl⟩
    have himg := hs'.restamp (by decide) him hin (by rw [hy]) (by rw [hy]) hyhead hu
    have hsizes : Function.update (fun i => (contents fs i).length) ROOTINO
        (fileSize fs ROOTINO) = fileSize fs := by
      funext i
      rw [Function.update_apply]
      split
      · rename_i hi
        rw [hi]
      · rename_i hi
        exact (if_neg hi).symm
    rw [hsizes] at himg
    have hlast := himg.writing.last
    have hfs : FSSIZE = 2000 := rfl
    rw [← hu, wp_bind, wp_read, Mkfs.balloc, if_pos (by rw [hbs]; omega), wp_wsect]
    obtain ⟨hsealed, hdisk⟩ := himg.seal rfl
    refine ⟨hsealed, ?_, hdisk⟩
    show u.freeinode = _
    rw [hu]
    exact hf'
  · rintro _ (he | he)
    · exact fun hfit => he hfit.1
    · intro hfit
      have := hfit.2
      omega

/-- What a successful run of `mkfs` leaves. -/
theorem main_image {m : Mkfs.State} (hlen : fs.length ≤ NINODES - 2)
    (hrun : Mkfs.main fs (Mkfs.start buf) = .ok ((), m)) :
    Image buf m (fileSize fs) (contents fs) ∧ m.freeinode = fs.length + 2 ∧ m.disk = image m :=
  wp_ok (main_spec buf hlen) hrun

/-- `mkfs` succeeds when the files fit. -/
theorem main_returns (buf : Block) (hlen : fs.length ≤ NINODES - 2) (hfit : Fits fs) :
    ∃ m, Mkfs.main fs (Mkfs.start buf) = .ok ((), m) := by
  obtain ⟨_, m, hrun, _⟩ := wp_returns (main_spec buf hlen) fun _ he => he hfit
  exact ⟨m, hrun⟩

end Xv6.Proofs.Fs
