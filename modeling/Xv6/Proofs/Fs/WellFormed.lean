import Xv6.Proofs.Fs.Mkfs

/-!
# `Xv6.Proofs.Fs.WellFormed`: when an image of `mkfs` is well formed

The last step of `mkfs` rounds the size of the root directory up to the next multiple of
`BSIZE`, also when it is one already. Then the directory has one block less than its size
says. This and the number of inodes are all that can be wrong with an image:
`image_wellFormed_iff`.

The inode numbers are counted apart from the rest of the image. With too many files the
dinodes run into the bitmap and into the data blocks, and nothing else can be said of it.
-/

set_option autoImplicit false

namespace Xv6.Proofs.Fs

open Lib Lib.Action Kernel

variable {buf : Block} {s t : Mkfs.State} {fs : List Mkfs.HostFile}

/-! ### The number of inodes -/

theorem keeps_rsect (sec : Nat) : Keeps Mkfs.State.freeinode (Mkfs.rsect sec) :=
  Keeps.bind Keeps.read fun _ => Keeps.ite Keeps.read Keeps.fail

theorem keeps_wsect (sec : Nat) (buf : Block) : Keeps Mkfs.State.freeinode (Mkfs.wsect sec buf) :=
  Keeps.modify fun _ => rfl

theorem keeps_winode (inum : Nat) (din : Dinode) :
    Keeps Mkfs.State.freeinode (Mkfs.winode inum din) :=
  Keeps.bind (keeps_rsect _) fun _ => keeps_wsect _ _

theorem keeps_rinode (inum : Nat) : Keeps Mkfs.State.freeinode (Mkfs.rinode inum) :=
  Keeps.bind (keeps_rsect _) fun _ => Keeps.pure

theorem keeps_takeBlock : Keeps Mkfs.State.freeinode Mkfs.takeBlock :=
  Keeps.bind Keeps.read fun _ => Keeps.bind (Keeps.modify fun _ => rfl) fun _ => Keeps.pure

theorem keeps_takeAddr (din : Dinode) (i : Nat) :
    Keeps Mkfs.State.freeinode (Mkfs.takeAddr din i) :=
  Keeps.ite (Keeps.bind keeps_takeBlock fun _ => Keeps.pure) Keeps.pure

theorem keeps_iappendBlock (din : Dinode) (fbn : Nat) :
    Keeps Mkfs.State.freeinode (Mkfs.iappendBlock din fbn) := by
  refine Keeps.ite ?_ ?_
  · exact Keeps.bind (keeps_takeAddr _ _) fun _ => Keeps.pure
  · refine Keeps.bind (keeps_takeAddr _ _) fun _ => Keeps.bind (keeps_rsect _) fun _ => ?_
    exact Keeps.ite (Keeps.bind keeps_takeBlock fun _ => Keeps.bind (keeps_wsect _ _)
      fun _ => Keeps.pure) Keeps.pure

theorem keeps_iappendLoop (fuel : Nat) (din : Dinode) (off : Nat) (p : List UInt8) :
    Keeps Mkfs.State.freeinode (Mkfs.iappendLoop fuel din off p) := by
  induction fuel generalizing din off p with
  | zero => exact Keeps.pure
  | succ fuel ih =>
    refine Keeps.ite Keeps.pure (Keeps.ite ?_ Keeps.fail)
    refine Keeps.bind (keeps_iappendBlock _ _) fun r => ?_
    exact Keeps.bind (keeps_rsect _) fun _ => Keeps.bind (keeps_wsect _ _) fun _ => ih _ _ _

theorem keeps_iappend (inum : Nat) (p : List UInt8) :
    Keeps Mkfs.State.freeinode (Mkfs.iappend inum p) :=
  Keeps.bind (keeps_rinode _) fun _ => Keeps.bind (keeps_iappendLoop _ _ _ _)
    fun _ => keeps_winode _ _

theorem ialloc_freeinode (type : InodeType) (s : Mkfs.State) :
    wp (Mkfs.ialloc type) (fun _ t => t.freeinode = s.freeinode + 1) (fun _ => True) s := by
  rw [Mkfs.ialloc, wp_bind, wp_read, wp_bind, wp_modify, wp_bind]
  exact wp_post (keeps_winode _ _ _) fun _ _ ht => ht

/-- Each host file takes one inode. -/
theorem addFiles_freeinode (rest : List Mkfs.HostFile) (s : Mkfs.State) :
    wp (Action.forEach Mkfs.addFile rest) (fun _ t => t.freeinode = s.freeinode + rest.length)
      (fun _ => True) s := by
  induction rest generalizing s with
  | nil => rfl
  | cons f rest ih =>
    have hfile : wp (Mkfs.addFile f) (fun _ t => t.freeinode = s.freeinode + 1)
        (fun _ => True) s := by
      rw [Mkfs.addFile]
      split
      · trivial
      · rw [wp_bind]
        refine wp_post (ialloc_freeinode _ s) ?_
        intro i t ht
        rw [wp_bind]
        refine wp_post (keeps_iappend _ _ t) ?_
        intro _ u hu
        refine wp_post (Keeps.forEach (keeps_iappend i) f.reads u) ?_
        intro _ w hw
        omega
    rw [Action.forEach, wp_bind, List.length_cons]
    refine wp_post hfile ?_
    intro _ t ht
    refine wp_post (ih t) ?_
    intro _ u hu
    omega

theorem main_freeinode (buf : Block) (fs : List Mkfs.HostFile) :
    wp (Mkfs.main fs) (fun _ t => t.freeinode = fs.length + 2) (fun _ => True)
      (Mkfs.start buf) := by
  rw [Mkfs.main, wp_bind]
  refine wp_mono (makeRoot_spec buf) ?_ fun _ _ => trivial
  rintro _ s ⟨_, hf, _⟩
  rw [wp_bind]
  refine wp_post (addFiles_freeinode fs s) ?_
  intro _ t ht
  have hfix : Keeps Mkfs.State.freeinode Mkfs.fixRootSize :=
    Keeps.bind (keeps_rinode _) fun _ => keeps_winode _ _
  have hballoc : ∀ used, Keeps Mkfs.State.freeinode (Mkfs.balloc used) := fun _ =>
    Keeps.ite (keeps_wsect _ _) Keeps.fail
  rw [wp_bind]
  refine wp_post (hfix t) ?_
  intro _ u hu
  rw [wp_bind, wp_read]
  refine wp_post (hballoc _ u) ?_
  intro _ w hw
  omega

/-! ### Well-formed images -/

/-- The image of a run of `mkfs` is well formed. -/
structure WellFormed (fs : List Mkfs.HostFile) (s : Mkfs.State) : Prop where
  inodes : ∀ i, 1 ≤ i → i < s.freeinode → i < Mkfs.superblock.ninodes ∧
    InArea Mkfs.superblock i ∧
    (dinodeAt Mkfs.superblock s.disk i).type = kindOf s.freeinode i ∧
    Head (dinodeAt Mkfs.superblock s.disk i) (fileSize fs i)
  blocks : s.freeblock ≤ FSSIZE
  bitmap : ∀ b, b < BPB → bitAt Mkfs.superblock s.disk b = decide (b < s.freeblock)
  area : ∀ i k, 1 ≤ i → i < s.freeinode →
    placeOf (dinodeAt Mkfs.superblock s.disk i) s.disk k ≠ 0 →
    Mkfs.nmeta ≤ placeOf (dinodeAt Mkfs.superblock s.disk i) s.disk k ∧
      placeOf (dinodeAt Mkfs.superblock s.disk i) s.disk k < s.freeblock
  once : ∀ i k j m, 1 ≤ i → i < s.freeinode → 1 ≤ j → j < s.freeinode →
    placeOf (dinodeAt Mkfs.superblock s.disk i) s.disk k
      = placeOf (dinodeAt Mkfs.superblock s.disk j) s.disk m →
    placeOf (dinodeAt Mkfs.superblock s.disk i) s.disk k ≠ 0 → i = j ∧ k = m
  mapped : ∀ i, 1 ≤ i → i < s.freeinode → ∀ bn,
    bn < ((dinodeAt Mkfs.superblock s.disk i).size.toNat + BSIZE - 1) / BSIZE →
    placeOf (dinodeAt Mkfs.superblock s.disk i) s.disk (filePlace bn) ≠ 0

theorem fileSize_root (fs : List Mkfs.HostFile) :
    fileSize fs ROOTINO = ((fs.length + 2) / 64 + 1) * BSIZE := by
  have hbs : BSIZE = 1024 := rfl
  have hde : DIRENTSIZE = 16 := rfl
  have hroot : contents fs ROOTINO = rootBytes fs := if_pos rfl
  have hround : fileSize fs ROOTINO = ((contents fs ROOTINO).length / BSIZE + 1) * BSIZE :=
    if_pos rfl
  rw [hround, hroot, length_rootBytes, hbs, hde]
  omega

/-- When the entries do not fill their last block, the image is well formed. -/
theorem Image.wellFormed (h : Image buf s (fileSize fs) (contents fs)) (hdisk : s.disk = image s)
    (hfree : s.freeinode = fs.length + 2) (hlen : fs.length ≤ NINODES - 2)
    (hmod : (fs.length + 2) % 64 ≠ 0) : WellFormed fs s := by
  have hn : NINODES = 200 := rfl
  have hbs : BSIZE = 1024 := rfl
  have hde : DIRENTSIZE = 16 := rfl
  have hmf : MAXFILE = 268 := rfl
  have hlast := h.writing.last
  have hfs : FSSIZE = 2000 := rfl
  have hbpb : BPB = 8192 := rfl
  have hlt : ∀ i, i < s.freeinode → i < NINODES := by
    intro i hi
    omega
  have hheld : ∀ i k, 1 ≤ i → i < s.freeinode →
      held Mkfs.superblock (dinodeAt Mkfs.superblock (image s)) (image s) (i, k)
        = placeOf (dinodeAt Mkfs.superblock s.disk i) s.disk k := by
    intro i k hi him
    rw [held_of_alloc (h.alloc hi him (inArea_of_lt (hlt i him))), hdisk]
  refine ⟨?_, hlast, ?_, ?_, ?_, ?_⟩
  · intro i hi him
    have hin := inArea_of_lt (hlt i him)
    rw [hdisk]
    exact ⟨hlt i him, hin, h.type i hin, h.head i hi him hin⟩
  · intro b hb
    rw [hdisk]
    exact bitAt_usedBits Mkfs.superblock s.disk (by omega) hb
  · intro i k hi him hk
    rw [← hheld i k hi him] at hk ⊢
    exact h.writing.held_lt hk
  · intro i k j m hi him hj hjm he hk
    rw [← hheld i k hi him] at he hk
    rw [← hheld j m hj hjm] at he
    exact Prod.mk.inj (h.writing.owned.owns.once (i, k) (j, m) he hk)
  · intro i hi him bn hbn
    have hin := inArea_of_lt (hlt i him)
    have halloc := h.alloc hi him hin
    have hsmall := h.small i
    have hsize := (h.head i hi him hin).size
    rw [hdisk] at hbn ⊢
    rw [hsize] at hbn
    -- The rounded size of the directory ends in the block of its last entry.
    have hbelow : bn * BSIZE < (contents fs i).length := by
      by_cases hroot : i = ROOTINO
      · have hcont : contents fs ROOTINO = rootBytes fs := if_pos rfl
        rw [hroot, hcont, length_rootBytes, hde, hbs]
        rw [hroot, fileSize_root, hbs] at hbn
        omega
      · have hsz : fileSize fs i = (contents fs i).length := if_neg hroot
        rw [hsz] at hbn
        rw [hbs] at hbn ⊢
        omega
    refine ((h.writing.stored i halloc).mapped bn ?_).mpr hbelow
    rw [hbs] at hbelow hsmall
    omega

/-- When the entries fill their last block, the directory has a block too few. -/
theorem Image.not_mapped (h : Image buf s (fileSize fs) (contents fs)) (hdisk : s.disk = image s)
    (hfree : s.freeinode = fs.length + 2) (hlen : fs.length ≤ NINODES - 2)
    (hmod : (fs.length + 2) % 64 = 0) : ¬ WellFormed fs s := by
  intro hwf
  have hn : NINODES = 200 := rfl
  have hbs : BSIZE = 1024 := rfl
  have hde : DIRENTSIZE = 16 := rfl
  have hmf : MAXFILE = 268 := rfl
  have hr : ROOTINO = 1 := rfl
  have hin : InArea Mkfs.superblock ROOTINO := inArea_of_lt (by decide)
  have him : ROOTINO < s.freeinode := by omega
  have hsize := (h.head ROOTINO (by decide) him hin).size
  have hcont : contents fs ROOTINO = rootBytes fs := if_pos rfl
  have hmap := hwf.mapped ROOTINO (by decide) him ((fs.length + 2) / 64)
  rw [hdisk, hsize, fileSize_root] at hmap
  have hbelow := ((h.writing.stored ROOTINO (h.alloc (by decide) him hin)).mapped
    ((fs.length + 2) / 64) (by omega)).mp (hmap (by rw [hbs]; omega))
  rw [hcont, length_rootBytes, hde, hbs] at hbelow
  omega

/-- An image that `mkfs` has made is well formed exactly when there are at most
`NINODES - 2` files, and the entries of the root directory do not fill its last block. -/
theorem image_wellFormed_iff {buf : Block} {fs : List Mkfs.HostFile} {s : Mkfs.State}
    (hrun : Mkfs.main fs (Mkfs.start buf) = .ok ((), s)) :
    WellFormed fs s ↔ fs.length ≤ NINODES - 2 ∧ (fs.length + 2) % (BSIZE / DIRENTSIZE) ≠ 0 := by
  have hn : NINODES = 200 := rfl
  have hsb : Mkfs.superblock.ninodes = 200 := rfl
  have h64 : BSIZE / DIRENTSIZE = 64 := rfl
  rw [h64]
  by_cases hlen : fs.length ≤ NINODES - 2
  · obtain ⟨himg, hfree, hdisk⟩ := main_image hlen hrun
    by_cases hmod : (fs.length + 2) % 64 = 0
    · exact ⟨fun hwf => absurd hwf (himg.not_mapped hdisk hfree hlen hmod),
        fun hc => absurd hmod hc.2⟩
    · exact ⟨fun _ => ⟨hlen, hmod⟩, fun _ => himg.wellFormed hdisk hfree hlen hmod⟩
  · -- The last inode number is not below `ninodes`.
    have hfree : s.freeinode = fs.length + 2 := wp_ok (main_freeinode buf fs) hrun
    refine ⟨fun hwf => ?_, fun hc => absurd hc.1 hlen⟩
    have := (hwf.inodes (fs.length + 1) (by omega) (by omega)).1
    omega

/-- A host file without contents. -/
def emptyFile : Mkfs.HostFile := ⟨[97], []⟩

theorem emptyFiles_fit {n : Nat} (hn : n ≤ 100) : Fits (List.replicate n emptyFile) := by
  have hroom : fileRoom emptyFile = 4 := by decide
  have hbase : Mkfs.nmeta + 2 * room DIRENTSIZE = 54 := by decide
  have hfs : FSSIZE = 2000 := rfl
  constructor
  · intro f hf
    rw [List.eq_of_mem_replicate hf]
    exact ⟨by decide, by decide⟩
  · rw [List.map_replicate, List.sum_replicate_nat, hroom, hbase]
    omega

/-- One empty file makes a well-formed image. -/
theorem image_wellFormed_one : ∃ s,
    Mkfs.main (List.replicate 1 emptyFile) (Mkfs.start (Bytes.zero BSIZE)) = .ok ((), s) ∧
      WellFormed (List.replicate 1 emptyFile) s := by
  have hlen : (List.replicate 1 emptyFile).length = 1 := rfl
  obtain ⟨s, hrun⟩ := main_returns (Bytes.zero BSIZE) (by rw [hlen]; decide)
    (emptyFiles_fit (by decide))
  exact ⟨s, hrun, (image_wellFormed_iff hrun).mpr (by rw [hlen]; decide)⟩

/-- With 62 empty files the entries fill one block, and the directory of two blocks has only
that one. -/
theorem image_rootHole : ∃ s,
    Mkfs.main (List.replicate 62 emptyFile) (Mkfs.start (Bytes.zero BSIZE)) = .ok ((), s) ∧
      ¬ WellFormed (List.replicate 62 emptyFile) s := by
  have hlen : (List.replicate 62 emptyFile).length = 62 := List.length_replicate
  have hle : (List.replicate 62 emptyFile).length ≤ NINODES - 2 := by
    rw [hlen]
    decide
  obtain ⟨s, hrun⟩ := main_returns (Bytes.zero BSIZE) hle (emptyFiles_fit (by decide))
  obtain ⟨himg, hfree, hdisk⟩ := main_image hle hrun
  exact ⟨s, hrun, himg.not_mapped hdisk hfree hle (by rw [hlen])⟩

end Xv6.Proofs.Fs
