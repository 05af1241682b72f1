import Xv6.Proofs.Fs.Owned

/-!
# `Xv6.Proofs.Fs.View`: the current inodes, the files they describe, and the invariant

The current inode `i` is the in-memory copy, if a slot of the inode table holds a valid one,
and the dinode on the disk otherwise: `view sb s i`. `files sb s i` is what it stands for, a
type, a link count, a size and a sequence of bytes (`AFile`). The block numbers do not enter
it, and neither does the question whether an empty block is allocated.

`Inv sb s loose` is the invariant of the layer: no inode is in two slots, a valid copy has
the type of its dinode, and the current inodes own their blocks (`Owned`). It allows a copy
that is ahead of its dinode. `Synced` says how far ahead a copy may be between two calls: the
dinode describes the same file, and holds a part of the copy's blocks.

Every function of the layer changes the state in small steps of two kinds. A step on the
blocks keeps the inode table (`blocks_step`), and a step on the table changes the in-memory
dinode of one slot and keeps the blocks (`table_step`). Both say what becomes of the
invariant, of the files and of `Synced`.
-/

set_option autoImplicit false

namespace Xv6.Proofs.Fs

open Lib Kernel

/-! ### Current inodes -/

/-- Slot `k` holds a valid copy of its inode. -/
def Loaded (s : FsState) (k : Ino) : Prop := 0 < (s.itable k).ref ∧ (s.itable k).valid = true

instance (s : FsState) (k : Ino) : Decidable (Loaded s k) :=
  inferInstanceAs (Decidable (_ ∧ _))

/-- The current inode `i`. -/
def view (sb : Superblock) (s : FsState) (i : Nat) : Dinode :=
  match (List.finRange NINODE).find? fun k => Loaded s k ∧ (s.itable k).inum = i with
  | some k => (s.itable k).toDinode
  | none => dinodeAt sb s.disk i

/-- No inode is in two slots. -/
def Unique (s : FsState) : Prop := ∀ k l, 0 < (s.itable k).ref → 0 < (s.itable l).ref →
  (s.itable k).inum = (s.itable l).inum → k = l

/-- A slot of the inode table that is not in use. -/
def freeSlot : Inode :=
  { Dinode.fresh .none with dev := 0, inum := 0, ref := 0, locked := false, valid := false }

variable {sb : Superblock} {s t u : FsState} {loose loose' : Nat → Prop} {ip : Ino}

theorem view_loaded (sb : Superblock) (hu : Unique s) {k : Ino} (hk : Loaded s k) :
    view sb s (s.itable k).inum = (s.itable k).toDinode := by
  unfold view
  split
  · rename_i l hl
    have hfound := List.find?_some hl
    simp only [decide_eq_true_eq] at hfound
    rw [hu l k hfound.1.1 hk.1 hfound.2]
  · rename_i hnone
    have := List.find?_eq_none.mp hnone k (List.mem_finRange k)
    simp [hk] at this

theorem view_unloaded {i : Nat} (h : ∀ k, Loaded s k → (s.itable k).inum ≠ i) :
    view sb s i = dinodeAt sb s.disk i := by
  unfold view
  split
  · rename_i k hk
    have hfound := List.find?_some hk
    simp only [decide_eq_true_eq] at hfound
    exact absurd hfound.2 (h k hfound.1)
  · rfl

/-- An inode is the copy of a slot, or a dinode. -/
theorem view_cases (s : FsState) (i : Nat) :
    (∃ k, Loaded s k ∧ (s.itable k).inum = i) ∨
      (∀ k, Loaded s k → (s.itable k).inum ≠ i) := by
  by_cases h : ∃ k, Loaded s k ∧ (s.itable k).inum = i
  · exact Or.inl h
  · exact Or.inr fun k hk hi => h ⟨k, hk, hi⟩

/-! ### Files -/

/-- What an inode stands for. -/
@[ext] structure AFile where
  type : InodeType
  major : Int16
  minor : Int16
  nlink : Int16
  size : UInt32
  data : Nat → UInt8

/-- A file without contents. -/
def AFile.empty (type : InodeType) : AFile :=
  { type, major := 0, minor := 0, nlink := 0, size := 0, data := fun _ => 0 }

/-- The file that a dinode describes. A free inode describes none. -/
def absFile (x : Dinode) (d : Disk) : AFile :=
  if x.type = .none then .empty .none
  else
    { type := x.type, major := x.major, minor := x.minor, nlink := x.nlink, size := x.size,
      data := fun p => (fileBlock x d (p / BSIZE)).get (p % BSIZE) }

/-- The file of inode `i`. -/
def files (sb : Superblock) (s : FsState) (i : Nat) : AFile := absFile (view sb s i) s.disk

@[simp] theorem absFile_type (x : Dinode) (d : Disk) : (absFile x d).type = x.type := by
  unfold absFile
  split
  · rename_i h
    rw [h]
    rfl
  · rfl

theorem absFile_of_alloc {x : Dinode} (h : x.type ≠ .none) (d : Disk) :
    absFile x d = ⟨x.type, x.major, x.minor, x.nlink, x.size,
      fun p => (fileBlock x d (p / BSIZE)).get (p % BSIZE)⟩ :=
  if_neg h

/-- The file of a dinode depends on its blocks only. -/
theorem absFile_congr {x : Dinode} {d d' : Disk}
    (h : x.type ≠ .none → ∀ bn, fileBlock x d' bn = fileBlock x d bn) :
    absFile x d' = absFile x d := by
  unfold absFile
  split
  · rfl
  · rename_i hx
    simp only [h hx]

/-! ### The invariant -/

/-- The invariant of the inode layer. -/
structure Inv (sb : Superblock) (s : FsState) (loose : Nat → Prop) : Prop where
  uniq : Unique s
  dev : ∀ k, 0 < (s.itable k).ref → (s.itable k).dev = ROOTDEV
  cached : ∀ k, Loaded s k → InArea sb (s.itable k).inum ∧ (s.itable k).type ≠ .none ∧
    (dinodeAt sb s.disk (s.itable k).inum).type = (s.itable k).type
  owned : Owned sb (view sb s) s.disk loose

/-- The dinode of slot `k` describes the same file as the copy, and holds a part of the
copy's blocks. -/
def SyncedAt (sb : Superblock) (s : FsState) (k : Ino) : Prop :=
  Sub (dinodeAt sb s.disk (s.itable k).inum) (s.itable k).toDinode ∧
    absFile (dinodeAt sb s.disk (s.itable k).inum) s.disk
      = absFile (s.itable k).toDinode s.disk

/-- Every valid copy is in step with its dinode. -/
def Synced (sb : Superblock) (s : FsState) : Prop := ∀ k, Loaded s k → SyncedAt sb s k

/-- Every valid copy is in step with its dinode, except that of slot `ip`. -/
def SyncedOff (sb : Superblock) (s : FsState) (ip : Ino) : Prop :=
  ∀ k, k ≠ ip → Loaded s k → SyncedAt sb s k

theorem Synced.off (h : Synced sb s) (ip : Ino) : SyncedOff sb s ip := fun k _ hk => h k hk

theorem Inv.view_eq (h : Inv sb s loose) {k : Ino} (hk : Loaded s k) :
    view sb s (s.itable k).inum = (s.itable k).toDinode := view_loaded sb h.uniq hk

theorem Inv.alloc (h : Inv sb s loose) {k : Ino} (hk : Loaded s k) :
    Alloc sb (view sb s) (s.itable k).inum := by
  obtain ⟨harea, htype, _⟩ := h.cached k hk
  refine ⟨harea, ?_⟩
  rw [h.view_eq hk]
  exact htype

theorem Inv.files_eq (h : Inv sb s loose) {k : Ino} (hk : Loaded s k) :
    files sb s (s.itable k).inum = absFile (s.itable k).toDinode s.disk := by
  rw [files, h.view_eq hk]

/-! ### Steps on the blocks -/

/-- The blocks of the inodes in `P` hold the same files. -/
def DataKept (sb : Superblock) (s : FsState) (d' : Disk) (P : Nat → Prop) : Prop :=
  ∀ i, P i → Alloc sb (view sb s) i → ∀ x, Sub x (view sb s i) → ∀ bn,
    fileBlock x d' bn = fileBlock x s.disk bn

/-- A step that keeps the inode table and the dinodes keeps the current inodes. -/
theorem view_blocks {d' : Disk} {i : Nat}
    (h : (∀ k, Loaded s k → (s.itable k).inum ≠ i) → dinodeAt sb d' i = dinodeAt sb s.disk i) :
    view sb { s with disk := d' } i = view sb s i := by
  unfold view
  show (match (List.finRange NINODE).find? fun k => Loaded s k ∧ (s.itable k).inum = i with
    | some k => (s.itable k).toDinode
    | none => dinodeAt sb d' i) = _
  split
  · rfl
  · rename_i hnone
    apply h
    intro k hk hi
    have := List.find?_eq_none.mp hnone k (List.mem_finRange k)
    simp [hk, hi] at this

/-- A slot stays in step when its dinode and the blocks of its file stay. -/
theorem SyncedAt.blocks {d' : Disk} {P : Nat → Prop} {k : Ino} (hk : Loaded s k)
    (h : Inv sb s loose) (hs : SyncedAt sb s k) (hP : P (s.itable k).inum)
    (heq : dinodeAt sb d' (s.itable k).inum = dinodeAt sb s.disk (s.itable k).inum)
    (hdata : DataKept sb s d' P) : SyncedAt sb { s with disk := d' } k := by
  obtain ⟨hsub, hfile⟩ := hs
  have halloc := h.alloc hk
  have hview := h.view_eq hk
  refine ⟨?_, ?_⟩
  · show Sub (dinodeAt sb d' (s.itable k).inum) (s.itable k).toDinode
    rw [heq]
    exact hsub
  · show absFile (dinodeAt sb d' (s.itable k).inum) d' = absFile (s.itable k).toDinode d'
    rw [heq, absFile_congr fun _ => hdata _ hP halloc _ (by rw [hview]; exact hsub),
      absFile_congr fun _ => hdata _ hP halloc _ (by rw [hview]; exact Sub.refl _)]
    exact hfile

/-- A step on the blocks that keeps the dinodes, and the files of the inodes in `P`. -/
theorem blocks_step_on {d' : Disk} {P : Nat → Prop} (h : Inv sb s loose)
    (hdin : ∀ i, InArea sb i → dinodeAt sb d' i = dinodeAt sb s.disk i)
    (hdata : DataKept sb s d' P) (hown : Owned sb (view sb s) d' loose') :
    Inv sb { s with disk := d' } loose' ∧
      (∀ i, P i → InArea sb i → files sb { s with disk := d' } i = files sb s i) ∧
      ∀ k, P (s.itable k).inum → Loaded s k → SyncedAt sb s k →
        SyncedAt sb { s with disk := d' } k := by
  have hview : ∀ i, InArea sb i → view sb { s with disk := d' } i = view sb s i :=
    fun i hi => view_blocks fun _ => hdin i hi
  refine ⟨⟨h.uniq, h.dev, ?_, ?_⟩, ?_, ?_⟩
  · intro k hk
    obtain ⟨harea, htype, heq⟩ := h.cached k hk
    refine ⟨harea, htype, ?_⟩
    show (dinodeAt sb d' (s.itable k).inum).type = _
    rw [hdin _ harea]
    exact heq
  · exact ⟨hown.owns.congr (held_congr hview fun _ _ _ => rfl) (fun _ _ _ => Iff.rfl)
      fun _ => Iff.rfl, hown.metadata⟩
  · intro i hP hi
    show absFile (view sb { s with disk := d' } i) d' = absFile (view sb s i) s.disk
    rw [hview i hi]
    exact absFile_congr fun hx => hdata i hP ⟨hi, hx⟩ _ (Sub.refl _)
  · intro k hP hk hs
    exact hs.blocks hk h hP (hdin _ (h.cached k hk).1) hdata

/-- A step on the blocks that keeps the dinodes and the files. -/
theorem blocks_step {d' : Disk} (h : Inv sb s loose)
    (hdin : ∀ i, InArea sb i → dinodeAt sb d' i = dinodeAt sb s.disk i)
    (hdata : DataKept sb s d' fun _ => True) (hown : Owned sb (view sb s) d' loose') :
    Inv sb { s with disk := d' } loose' ∧
      (∀ i, InArea sb i → files sb { s with disk := d' } i = files sb s i) ∧
      ∀ k, Loaded s k → SyncedAt sb s k → SyncedAt sb { s with disk := d' } k := by
  obtain ⟨hinv, hfiles, hsync⟩ := blocks_step_on h hdin hdata hown
  exact ⟨hinv, fun i hi => hfiles i trivial hi, fun k hk => hsync k trivial hk⟩

/-! ### Steps on the inode table -/

/-- The state with another in-memory dinode in slot `ip`. -/
def withDinode (s : FsState) (ip : Ino) (y : Dinode) : FsState :=
  { s with itable := Function.update s.itable ip { s.itable ip with toDinode := y } }

theorem wp_withDinode {f : Inode → Inode} {y : Dinode} {post : Unit → FsState → Prop}
    {err : Panic → Prop} (hf : f (s.itable ip) = { s.itable ip with toDinode := y }) :
    Action.wp (setInode ip f) post err s ↔ post () (withDinode s ip y) := by
  rw [wp_setInode, hf]
  rfl

@[simp] theorem withDinode_self (s : FsState) (ip : Ino) (y : Dinode) :
    (withDinode s ip y).itable ip = { s.itable ip with toDinode := y } :=
  Function.update_self ..

theorem withDinode_of_ne (s : FsState) {ip k : Ino} (y : Dinode) (h : k ≠ ip) :
    (withDinode s ip y).itable k = s.itable k := Function.update_of_ne h _ _

@[simp] theorem withDinode_disk (s : FsState) (ip : Ino) (y : Dinode) :
    (withDinode s ip y).disk = s.disk := rfl

@[simp] theorem withDinode_inum (s : FsState) (ip k : Ino) (y : Dinode) :
    ((withDinode s ip y).itable k).inum = (s.itable k).inum := by
  by_cases h : k = ip
  · subst h
    simp
  · rw [withDinode_of_ne s y h]

@[simp] theorem withDinode_ref (s : FsState) (ip k : Ino) (y : Dinode) :
    ((withDinode s ip y).itable k).ref = (s.itable k).ref := by
  by_cases h : k = ip
  · subst h
    simp
  · rw [withDinode_of_ne s y h]

@[simp] theorem withDinode_dev (s : FsState) (ip k : Ino) (y : Dinode) :
    ((withDinode s ip y).itable k).dev = (s.itable k).dev := by
  by_cases h : k = ip
  · subst h
    simp
  · rw [withDinode_of_ne s y h]

@[simp] theorem withDinode_valid (s : FsState) (ip k : Ino) (y : Dinode) :
    ((withDinode s ip y).itable k).valid = (s.itable k).valid := by
  by_cases h : k = ip
  · subst h
    simp
  · rw [withDinode_of_ne s y h]

@[simp] theorem withDinode_loaded (s : FsState) (ip k : Ino) (y : Dinode) :
    Loaded (withDinode s ip y) k ↔ Loaded s k := by
  simp [Loaded]

theorem Unique.withDinode (h : Unique s) (ip : Ino) (y : Dinode) :
    Unique (withDinode s ip y) := by
  intro k l hk hl hkl
  simp only [withDinode_ref, withDinode_inum] at hk hl hkl
  exact h k l hk hl hkl

/-- The current inodes after a step on the table. -/
theorem view_withDinode (h : Inv sb s loose) (hip : Loaded s ip) (y : Dinode) :
    view sb (withDinode s ip y)
      = Function.update (view sb s) (s.itable ip).inum y := by
  funext i
  by_cases hi : i = (s.itable ip).inum
  · subst hi
    rw [Function.update_self]
    have := view_loaded sb (h.uniq.withDinode ip y) ((withDinode_loaded s ip ip y).mpr hip)
    simpa using this
  · rw [Function.update_of_ne hi]
    rcases view_cases s i with ⟨k, hk, rfl⟩ | hnone
    · have hkip : k ≠ ip := fun he => hi (by rw [he])
      have := view_loaded sb (h.uniq.withDinode ip y)
        ((withDinode_loaded s ip k y).mpr hk)
      rw [withDinode_of_ne s y hkip] at this
      rw [this, h.view_eq hk]
    · rw [view_unloaded hnone, view_unloaded]
      · rfl
      · intro k hk
        rw [withDinode_loaded] at hk
        rw [withDinode_inum]
        exact hnone k hk

/-- A step on the table that keeps the type. -/
theorem table_step {y : Dinode} (h : Inv sb s loose) (hip : Loaded s ip)
    (htype : y.type = (s.itable ip).type)
    (hown : Owned sb (Function.update (view sb s) (s.itable ip).inum y) s.disk loose') :
    Inv sb (withDinode s ip y) loose' ∧
      (∀ i, files sb (withDinode s ip y) i
        = Function.update (files sb s) (s.itable ip).inum (absFile y s.disk) i) ∧
      ∀ k, k ≠ ip → SyncedAt sb s k → SyncedAt sb (withDinode s ip y) k := by
  have hview := view_withDinode h hip y
  refine ⟨⟨h.uniq.withDinode ip y, ?_, ?_, ?_⟩, ?_, ?_⟩
  · intro k hk
    rw [withDinode_ref] at hk
    rw [withDinode_dev]
    exact h.dev k hk
  · intro k hk
    rw [withDinode_loaded] at hk
    obtain ⟨harea, hne, heq⟩ := h.cached k hk
    have hsame : ((withDinode s ip y).itable k).type = (s.itable k).type := by
      by_cases hkip : k = ip
      · subst hkip
        rw [withDinode_self]
        exact htype
      · rw [withDinode_of_ne s y hkip]
    rw [withDinode_inum, hsame, withDinode_disk]
    exact ⟨harea, hne, heq⟩
  · rw [hview]
    exact hown
  · intro i
    show absFile (view sb (withDinode s ip y) i) s.disk = _
    rw [hview]
    by_cases hi : i = (s.itable ip).inum
    · subst hi
      rw [Function.update_self, Function.update_self]
    · rw [Function.update_of_ne hi, Function.update_of_ne hi]
      rfl
  · intro k hkip hs
    unfold SyncedAt
    rw [withDinode_of_ne s y hkip]
    exact hs

/-- No file has a block in the inode area. -/
theorem Inv.dataKept_inodes (h : Inv sb s loose) {c : Nat} (hc : c < sb.bmapstart)
    (blk : Block) : DataKept sb s (Function.update s.disk c blk) fun _ => True := by
  intro i _ hi x hx bn
  refine fileBlock_update hi hx ?_ _ bn
  intro k hk he
  have := (h.owned.owns.area (i, k) hk).1
  unfold dataStart at this
  omega

/-- After `iupdate` the dinode is the copy, and every other dinode is as before. -/
theorem iupdate_step (hl : Layout sb) (h : Inv sb s loose) (hip : Loaded s ip) :
    Action.wp (iupdate sb ip) (fun _ t => t.itable = s.itable ∧ Inv sb t loose ∧
      (∀ i, InArea sb i → files sb t i = files sb s i) ∧
      (∀ i, dinodeAt sb t.disk i = if i = (s.itable ip).inum then (s.itable ip).toDinode
        else dinodeAt sb s.disk i) ∧
      (SyncedOff sb s ip → Synced sb t)) (fun _ => False) s := by
  obtain ⟨harea, htype, _⟩ := h.cached ip hip
  -- The disk that `iupdate` leaves.
  obtain ⟨d', hd'⟩ : ∃ d', d' = Function.update s.disk (IBLOCK sb (s.itable ip).inum)
    (writeDinode (s.disk (IBLOCK sb (s.itable ip).inum)) ((s.itable ip).inum % IPB)
      (s.itable ip).toDinode) := ⟨_, rfl⟩
  have hdin : ∀ i, dinodeAt sb d' i
      = if i = (s.itable ip).inum then (s.itable ip).toDinode else dinodeAt sb s.disk i := by
    intro i
    rw [hd', dinodeAt_writeDinode]
  have hview : ∀ i, view sb { s with disk := d' } i = view sb s i := by
    intro i
    apply view_blocks
    intro hnone
    rw [hdin, if_neg fun he => hnone ip hip he.symm]
  have hdata : DataKept sb s d' fun _ => True := by
    rw [hd']
    exact h.dataKept_inodes harea _
  have howned : Owned sb (view sb { s with disk := d' }) d' loose := by
    rw [hd']
    refine h.owned.update_inodes hl ?_ harea _
    intro i _
    rw [← hd', hview]
  rw [iupdate, Action.wp_bind, wp_inode, Action.wp_bind, wp_bread, wp_logWrite, ← hd']
  refine ⟨rfl, ⟨h.uniq, h.dev, ?_, howned⟩, ?_, hdin, ?_⟩
  · intro k hk
    obtain ⟨hkarea, hkne, hkeq⟩ := h.cached k hk
    refine ⟨hkarea, hkne, ?_⟩
    show (dinodeAt sb d' (s.itable k).inum).type = (s.itable k).type
    rw [hdin]
    split
    · rename_i he
      rw [h.uniq k ip hk.1 hip.1 he]
    · exact hkeq
  · intro i hi
    show absFile (view sb { s with disk := d' } i) d' = absFile (view sb s i) s.disk
    rw [hview i]
    exact absFile_congr fun hx => hdata i trivial ⟨hi, hx⟩ _ (Sub.refl _)
  · intro hs k hk
    by_cases hkip : k = ip
    · subst hkip
      have heq : dinodeAt sb d' (s.itable k).inum = (s.itable k).toDinode := by
        rw [hdin, if_pos rfl]
      refine ⟨?_, ?_⟩
      · show Sub (dinodeAt sb d' (s.itable k).inum) (s.itable k).toDinode
        rw [heq]
        exact Sub.refl _
      · show absFile (dinodeAt sb d' (s.itable k).inum) d' = absFile (s.itable k).toDinode d'
        rw [heq]
    · -- Another slot: its dinode and its blocks are as before.
      have hne : (s.itable k).inum ≠ (s.itable ip).inum := fun he => hkip (h.uniq k ip hk.1 hip.1 he)
      exact (hs k hkip hk).blocks hk h trivial (by rw [hdin, if_neg hne]) hdata

end Xv6.Proofs.Fs
