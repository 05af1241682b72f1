import Xv6.Proofs.Fs.Directories
import Xv6.Proofs.Fs.Image

/-!
# `Xv6.Proofs.Fs.Ownership`: every block has one owner

`BlocksOwned sb s` is the ownership invariant in the view through the buffer cache and the
in-memory inodes: the places of the allocated inodes hold blocks of the data area, no block
is in two places, and a data block's bit is set exactly when it is in one place.

`Call` lists the functions of the inode layer as a caller uses them, one call at a time, and
`Permitted` is what the caller promises: the inode of a `bmap`, `writei`, `itrunc` or
`dirlink` has been locked, so it has a valid copy, and an inode that is put has a reference.

The invariant is not kept by every such call. `bmap` records a new block in the in-memory
inode only. When the last reference of an inode with links is then dropped, the dinode takes
over, and the block is lost (`ownership_lost`). So the theorem has two halves. If no `iput`
ends a copy that is ahead of its dinode, the invariant holds in every state reached. Without
that, blocks may be lost, and nothing else: no block gets two owners, and no owned block is
marked free. In both cases the panic of `bfree` is out of reach.
-/

set_option autoImplicit false

namespace Xv6.Proofs.Fs

open Lib Lib.Action Kernel

/-! ### The invariant -/

/-- The block number at a place: address or indirect entry `p.2` of inode `p.1`. -/
def blockAt (sb : Superblock) (s : FsState) (p : Nat × Nat) : Nat :=
  held sb (view sb s) s.disk p

/-- The places hold disjoint blocks of the data area, all marked in the bitmap. -/
structure BlocksApart (sb : Superblock) (s : FsState) : Prop where
  area : ∀ p, blockAt sb s p ≠ 0 → dataStart sb ≤ blockAt sb s p ∧ blockAt sb s p < sb.size
  once : ∀ p q, blockAt sb s p = blockAt sb s q → blockAt sb s p ≠ 0 → p = q
  used : ∀ p, blockAt sb s p ≠ 0 → bitAt sb s.disk (blockAt sb s p) = true

/-- The ownership invariant. -/
structure BlocksOwned (sb : Superblock) (s : FsState) : Prop extends BlocksApart sb s where
  bit : ∀ b, dataStart sb ≤ b → b < sb.size →
    (bitAt sb s.disk b = true ↔ ∃! p, blockAt sb s p = b)

/-- What the functions rely on besides: no inode is in two slots, all slots are of the one
device, a valid copy has the type of its dinode, and the metadata blocks are marked. -/
structure Sound (sb : Superblock) (s : FsState) : Prop where
  uniq : Unique s
  dev : ∀ k, 0 < (s.itable k).ref → (s.itable k).dev = ROOTDEV
  cached : ∀ k, Loaded s k → InArea sb (s.itable k).inum ∧ (s.itable k).type ≠ .none ∧
    (dinodeAt sb s.disk (s.itable k).inum).type = (s.itable k).type
  metadata : ∀ b, b < dataStart sb → bitAt sb s.disk b = true

variable {sb : Superblock} {s t : FsState} {loose : Nat → Prop}

theorem dataStart_pos (sb : Superblock) : 0 < dataStart sb := by
  show 0 < sb.bmapstart + (sb.size / BPB + 1)
  exact Nat.succ_pos _

theorem Inv.blocksApart (h : Inv sb s loose) : BlocksApart sb s where
  area := h.owned.owns.area
  once := h.owned.owns.once
  used _ hp := h.owned.owns.used_of_held hp

theorem Inv.blocksOwned (h : Inv sb s fun _ => False) : BlocksOwned sb s where
  toBlocksApart := h.blocksApart
  bit b hlo hhi := by
    rw [h.owned.owns.used_iff b hlo hhi, false_or]
    constructor
    · rintro ⟨p, hp⟩
      refine ⟨p, hp, fun q hq => ?_⟩
      have hne : held sb (view sb s) s.disk q ≠ 0 := by
        have := dataStart_pos sb
        show blockAt sb s q ≠ 0
        rw [hq]
        omega
      exact h.owned.owns.once q p (Eq.trans hq hp.symm) hne
    · rintro ⟨p, hp, _⟩
      exact ⟨p, hp⟩

theorem Inv.of_blocksOwned (h : BlocksOwned sb s) (hs : Sound sb s) :
    Inv sb s fun _ => False where
  uniq := hs.uniq
  dev := hs.dev
  cached := hs.cached
  owned :=
    { metadata := hs.metadata
      owns :=
        { pos := dataStart_pos sb
          area := h.area
          once := h.once
          used_iff := by
            intro b hlo hhi
            rw [h.bit b hlo hhi, false_or]
            constructor
            · rintro ⟨p, hp, _⟩
              exact ⟨p, hp⟩
            · rintro ⟨p, hp⟩
              have := dataStart_pos sb
              exact ⟨p, hp, fun q hq => h.once q p (Eq.trans hq hp.symm) (by rw [hq]; omega)⟩
          apart := fun _ _ hf => hf } }

/-! ### Calls -/

/-- A call of a function of the inode layer. The last one is the idiom of every caller that
changes the device numbers or the links of an inode: it stores the fields and calls
`iupdate`. -/
inductive Call where
  | bmap (ip : Ino) (bn : Nat)
  | readi (ip : Ino) (copyout : Nat → Bool) (off n : Nat)
  | writei (ip : Ino) (copyin : CopyIn) (off n : Nat)
  | itrunc (ip : Ino)
  | dirlookup (dp : Ino) (name : List UInt8)
  | dirlink (dp : Ino) (name : List UInt8) (inum : Nat)
  | ialloc (type : InodeType)
  | iget (inum : Nat)
  | idup (ip : Ino)
  | ilock (ip : Ino)
  | iunlock (ip : Ino)
  | iput (ip : Ino)
  | iupdate (ip : Ino)
  | update (ip : Ino) (major minor nlink : Int16)

/-- The program of a call. -/
def Call.run (sb : Superblock) : Call → FsM Unit
  | .bmap ip bn => do
      let _ ← Kernel.bmap sb ip bn
      Pure.pure ()
  | .readi ip copyout off n => do
      let _ ← Kernel.readi sb ip copyout off n
      Pure.pure ()
  | .writei ip copyin off n => do
      let _ ← Kernel.writei sb ip copyin off n
      Pure.pure ()
  | .itrunc ip => Kernel.itrunc sb ip
  | .dirlookup dp name => do
      let _ ← Kernel.dirlookup sb dp name
      Pure.pure ()
  | .dirlink dp name inum => do
      let _ ← Kernel.dirlink sb dp name inum
      Pure.pure ()
  | .ialloc type => do
      let _ ← Kernel.ialloc sb ROOTDEV type
      Pure.pure ()
  | .iget inum => do
      let _ ← Kernel.iget ROOTDEV inum
      Pure.pure ()
  | .idup ip => do
      let _ ← Kernel.idup ip
      Pure.pure ()
  | .ilock ip => Kernel.ilock sb ip
  | .iunlock ip => Kernel.iunlock ip
  | .iput ip => Kernel.iput sb ip
  | .iupdate ip => Kernel.iupdate sb ip
  | .update ip major minor nlink => do
      setInode ip fun n => { n with major := major, minor := minor, nlink := nlink }
      Kernel.iupdate sb ip

/-- What the caller promises. An inode that has been locked is referenced and has a valid
copy, and an inode to be locked lies in the inode area. -/
def Permitted (sb : Superblock) (s : FsState) : Call → Prop
  | .bmap ip _ => Loaded s ip
  | .readi ip _ _ _ => Loaded s ip
  | .writei ip _ _ _ => Loaded s ip
  | .itrunc ip => Loaded s ip
  | .dirlookup dp _ => Loaded s dp
  | .dirlink dp _ _ => Loaded s dp
  | .ialloc _ => True
  | .iget _ => True
  | .idup ip => 0 < (s.itable ip).ref
  | .ilock ip => InArea sb (s.itable ip).inum
  | .iunlock _ => True
  | .iput ip => 0 < (s.itable ip).ref
  | .iupdate ip => Loaded s ip
  | .update ip _ _ _ => Loaded s ip

/-- A permitted call that ends no copy which is ahead of its dinode. -/
def Clean (sb : Superblock) (s : FsState) (c : Call) : Prop :=
  Permitted sb s c ∧ ∀ ip, c = .iput ip → CleanPut sb s ip

/-- The system: one call after the other. -/
def calls (sb : Superblock) : Machine FsState Call Panic := machine (Call.run sb)

/-- The panic of `bfree` is no panic of the call. -/
def NotFreeing (e : Panic) : Prop := e ≠ .freeingFreeBlock

theorem Benign.notFreeing {e : Panic} (h : Benign e) : NotFreeing e := h.1

/-- A call other than `iput` keeps the invariant, and keeps the copies in step. -/
theorem call_step (hl : Layout sb) (h : Inv sb s loose) {c : Call} (hc : Permitted sb s c)
    (hput : ∀ ip, c ≠ .iput ip) :
    wp (c.run sb) (fun _ t => Inv sb t loose ∧ (Synced sb s → Synced sb t)) NotFreeing s := by
  cases c with
  | bmap ip bn =>
    rw [Call.run, wp_bind]
    refine wp_mono (bmap_spec hl h hc bn) ?_ fun _ he => he.notFreeing
    rintro _ t ⟨hfill, hinv, _⟩
    exact ⟨hinv, hfill.allSynced⟩
  | readi ip copyout off n =>
    rw [Call.run, wp_bind]
    refine wp_mono (readi_spec hl h hc copyout off n) ?_ fun _ he => he.notFreeing
    rintro _ t ⟨hfill, hinv, _⟩
    exact ⟨hinv, hfill.allSynced⟩
  | writei ip copyin off n =>
    rw [Call.run, wp_bind]
    refine wp_mono (writei_spec hl h hc copyin off n) ?_ fun _ he => he.notFreeing
    rintro _ t ⟨hrw, hinv, _⟩
    exact ⟨hinv, hrw.synced⟩
  | itrunc ip =>
    refine wp_mono (itrunc_spec hl h hc) ?_ fun _ he => he.elim
    rintro _ t ⟨hrw, hinv, _⟩
    exact ⟨hinv, hrw.synced⟩
  | dirlookup dp name =>
    rw [Call.run, wp_bind]
    refine wp_mono (dirlookup_spec hl h hc name) ?_ fun _ he => he.notFreeing
    rintro r t ⟨_, ht⟩
    cases r with
    | none => exact ⟨ht.2.1, ht.1.allSynced⟩
    | some r =>
      obtain ⟨u, i, hfill, hinvu, hget, hinv, _⟩ := ht
      obtain ⟨_, _, hsync⟩ := hget.step hinvu
      exact ⟨hinv, fun hs => (hfill.allSynced hs).of_slots (fun _ => hget.loaded) hsync⟩
  | dirlink dp name inum =>
    rw [Call.run, wp_bind]
    refine wp_mono (dirlink_spec hl h hc name inum) ?_ fun _ he => he.notFreeing
    rintro _ t ⟨hinv, _, hsync, _⟩
    exact ⟨hinv, hsync⟩
  | ialloc type =>
    rw [Call.run, wp_bind]
    refine wp_mono (ialloc_spec hl h type) ?_ fun _ he => he.notFreeing
    intro r t ht
    cases r with
    | none =>
      have ht : t = s := ht
      rw [wp_pure, ht]
      exact ⟨h, id⟩
    | some k =>
      obtain ⟨i, _, _, _, _, _, hinv, _, hsync⟩ := ht
      exact ⟨hinv, hsync⟩
  | iget inum =>
    rw [Call.run, wp_bind]
    refine wp_mono (iget_spec h inum) ?_ fun _ he => he.notFreeing
    rintro _ t ⟨_, hinv, _, hsync⟩
    exact ⟨hinv, hsync⟩
  | idup ip =>
    rw [Call.run, wp_bind]
    refine wp_mono (idup_spec h hc) ?_ fun _ he => he.elim
    rintro _ t ⟨_, hinv, _, hsync, _⟩
    exact ⟨hinv, hsync⟩
  | ilock ip =>
    refine wp_mono (ilock_spec h hc) ?_ ?_
    · rintro _ t ⟨hinv, _, hsync, _⟩
      exact ⟨hinv, hsync⟩
    · rintro e (he | he | he)
      · rw [he]
        exact (by decide : Panic.ilock ≠ .freeingFreeBlock)
      · rw [he]
        exact (by decide : Panic.deadlock ≠ .freeingFreeBlock)
      · rw [he.1]
        exact (by decide : Panic.ilockNoType ≠ .freeingFreeBlock)
  | iunlock ip =>
    refine wp_mono (iunlock_spec h) ?_ ?_
    · rintro _ t ⟨hinv, _, hsync, _⟩
      exact ⟨hinv, hsync⟩
    · intro e he
      rw [he]
      exact (by decide : Panic.iunlock ≠ .freeingFreeBlock)
  | iput ip => exact absurd rfl (hput ip)
  | iupdate ip =>
    refine wp_mono (iupdate_step hl h hc) ?_ fun _ he => he.elim
    rintro _ t ⟨_, hinv, _, _, hsync⟩
    exact ⟨hinv, fun hs => hsync (hs.off ip)⟩
  | update ip major minor nlink =>
    refine wp_mono (update_spec hl h hc rfl) ?_ fun _ he => he.elim
    rintro _ t ⟨hinv, _, hsync, _⟩
    exact ⟨hinv, hsync⟩

theorem deadlock_notFreeing {e : Panic} (he : e = .deadlock) : NotFreeing e := by
  rw [he]
  exact (by decide : Panic.deadlock ≠ .freeingFreeBlock)

/-- A clean call keeps the invariant. -/
theorem clean_step (hl : Layout sb) (h : Inv sb s loose) {c : Call} (hc : Clean sb s c) :
    wp (c.run sb) (fun _ t => Inv sb t loose) NotFreeing s := by
  by_cases hput : ∃ ip, c = .iput ip
  · obtain ⟨ip, rfl⟩ := hput
    exact wp_mono (iput_owned hl h hc.1 (hc.2 ip rfl)) (fun _ _ ht => ht)
      fun _ he => deadlock_notFreeing he
  · exact wp_post (call_step hl h hc.1 fun ip he => hput ⟨ip, he⟩) fun _ _ ht => ht.1

/-- A permitted call keeps the invariant up to lost blocks. -/
theorem permitted_step (hl : Layout sb) (h : Inv sb s loose) (hs : Synced sb s) {c : Call}
    (hc : Permitted sb s c) :
    wp (c.run sb) (fun _ t => (∃ loose', Inv sb t loose') ∧ Synced sb t) NotFreeing s := by
  by_cases hput : ∃ ip, c = .iput ip
  · obtain ⟨ip, rfl⟩ := hput
    exact wp_mono (iput_spec hl h hs hc) (fun _ _ ht => ⟨ht.1, ht.2.1⟩)
      fun _ he => deadlock_notFreeing he
  · exact wp_post (call_step hl h hc fun ip he => hput ⟨ip, he⟩)
      fun _ _ ht => ⟨⟨loose, ht.1⟩, ht.2 hs⟩

/-- The dinode of a root directory without entries. -/
def bareRoot : Dinode := { Dinode.fresh .dir with nlink := 1 }

/-- A file system whose only inode is a root directory without entries, with the metadata
blocks marked. -/
def bareDisk : Disk :=
  Function.update (Function.update (fun _ => Bytes.zero BSIZE) (IBLOCK Mkfs.superblock ROOTINO)
      (writeDinode (Bytes.zero BSIZE) (ROOTINO % IPB) bareRoot))
    Mkfs.superblock.bmapstart (Mkfs.usedBits Mkfs.nmeta)

/-- The first slot of the inode table. -/
def slot0 : Ino := ⟨0, by decide⟩

/-- A slot with a valid copy of the root directory. -/
def rootSlot : Inode :=
  { bareRoot with dev := ROOTDEV, inum := ROOTINO, ref := 1, locked := false, valid := true }

/-- The root directory is open once. -/
def bareState : FsState where
  disk := bareDisk
  itable := Function.update (fun _ => freeSlot) slot0 rootSlot

theorem bareDisk_dinode {d : Disk} (hd : ∀ b, b < Mkfs.superblock.bmapstart → d b = bareDisk b)
    {i : Nat} (hi : InArea Mkfs.superblock i) :
    dinodeAt Mkfs.superblock d i
      = if i = ROOTINO then bareRoot else readDinode (Bytes.zero BSIZE) (i % IPB) := by
  have hbm : Mkfs.superblock.bmapstart = 45 := rfl
  have hbitmap : dinodeAt Mkfs.superblock bareDisk i = dinodeAt Mkfs.superblock
      (Function.update (fun _ => Bytes.zero BSIZE) (IBLOCK Mkfs.superblock ROOTINO)
        (writeDinode (Bytes.zero BSIZE) (ROOTINO % IPB) bareRoot)) i :=
    dinodeAt_congr hi fun b hb => Function.update_of_ne (by omega) _ _
  rw [dinodeAt_congr hi hd, hbitmap]
  exact dinodeAt_writeDinode (d := fun _ => Bytes.zero BSIZE) ROOTINO i bareRoot

theorem bare_free {i : Nat} : (readDinode (Bytes.zero BSIZE) (i % IPB)).type = .none := by
  unfold readDinode
  rw [Bytes.getWord_zero]
  rfl

/-- No inode of such a file system holds a block. -/
theorem bare_held {d : Disk} {v : Nat → Dinode} (hv : ∀ i, InArea Mkfs.superblock i →
    v i = if i = ROOTINO then bareRoot else readDinode (Bytes.zero BSIZE) (i % IPB))
    (p : Nat × Nat) : held Mkfs.superblock v d p = 0 := by
  obtain ⟨i, k⟩ := p
  by_cases hi : Alloc Mkfs.superblock v i
  · have hroot : i = ROOTINO := by
      by_contra hne
      have := hi.2
      rw [hv i hi.1, if_neg hne] at this
      exact this bare_free
    have haddr : ∀ k, bareRoot.addr k = 0 := fresh_addr .dir
    rw [held_of_alloc hi, hv i hi.1, if_pos hroot]
    unfold placeOf
    simp [haddr]
  · exact held_of_not_alloc hi k

theorem bareDisk_bit {b : Nat} (hb : b < Mkfs.superblock.size) :
    bitAt Mkfs.superblock bareDisk b = decide (b < Mkfs.nmeta) := by
  have hsize : Mkfs.superblock.size = 2000 := rfl
  have hbpb : BPB = 8192 := rfl
  exact bitAt_usedBits Mkfs.superblock _ (by decide) (by omega)

theorem bareState_slot {k : Ino} (hk : 0 < (bareState.itable k).ref) : k = slot0 := by
  by_contra hne
  have hfree : bareState.itable k = freeSlot := by
    show Function.update (fun _ => freeSlot) slot0 rootSlot k = freeSlot
    exact Function.update_of_ne hne _ _
  rw [hfree] at hk
  exact absurd hk (by decide)

theorem bareState_self : bareState.itable slot0 = rootSlot := by
  show Function.update (fun _ => freeSlot) slot0 rootSlot slot0 = rootSlot
  exact Function.update_self ..

theorem bareState_unique : Unique bareState := by
  intro k l hk hl _
  rw [bareState_slot hk, bareState_slot hl]

theorem bareState_loaded : Loaded bareState slot0 := by
  unfold Loaded
  rw [bareState_self]
  exact ⟨by decide, rfl⟩

theorem bareState_view {i : Nat} (hi : InArea Mkfs.superblock i) :
    view Mkfs.superblock bareState i
      = if i = ROOTINO then bareRoot else readDinode (Bytes.zero BSIZE) (i % IPB) := by
  by_cases hroot : i = ROOTINO
  · have := view_loaded Mkfs.superblock bareState_unique bareState_loaded
    rw [bareState_self] at this
    rw [if_pos hroot, hroot]
    exact this
  · rw [view_unloaded]
    · exact bareDisk_dinode (fun _ _ => rfl) hi
    · intro k hk he
      rw [bareState_slot hk.1, bareState_self] at he
      exact hroot he.symm

/-- The state has the invariant, and its copy is its dinode. -/
theorem bareState_owned : BlocksOwned Mkfs.superblock bareState ∧
    Sound Mkfs.superblock bareState ∧ Synced Mkfs.superblock bareState := by
  have hheld : ∀ p, blockAt Mkfs.superblock bareState p = 0 :=
    bare_held fun i hi => bareState_view hi
  have hmeta : dataStart Mkfs.superblock = Mkfs.nmeta := by decide
  have hsize : Mkfs.nmeta ≤ Mkfs.superblock.size := by decide
  have hdin : dinodeAt Mkfs.superblock bareState.disk ROOTINO = bareRoot := by
    have := bareDisk_dinode (fun _ _ => rfl) (by decide : InArea Mkfs.superblock ROOTINO)
    rwa [if_pos rfl] at this
  refine ⟨⟨⟨?_, ?_, ?_⟩, ?_⟩, ⟨bareState_unique, ?_, ?_, ?_⟩, ?_⟩
  · intro p hp
    exact absurd (hheld p) hp
  · intro p q _ hp
    exact absurd (hheld p) hp
  · intro p hp
    exact absurd (hheld p) hp
  · intro b hlo hhi
    rw [hmeta] at hlo
    have hbit : bitAt Mkfs.superblock bareState.disk b = decide (b < Mkfs.nmeta) :=
      bareDisk_bit hhi
    rw [hbit]
    constructor
    · intro h
      have := of_decide_eq_true h
      omega
    · rintro ⟨p, hp, _⟩
      have hp : blockAt Mkfs.superblock bareState p = b := hp
      rw [hheld p] at hp
      have : Mkfs.nmeta = 46 := rfl
      omega
  · intro k hk
    rw [bareState_slot hk, bareState_self]
    rfl
  · intro k hk
    rw [bareState_slot hk.1, bareState_self]
    refine ⟨by decide, by decide, ?_⟩
    show (dinodeAt Mkfs.superblock bareState.disk ROOTINO).type = bareRoot.type
    rw [hdin]
  · intro b hb
    rw [hmeta] at hb
    have hbit : bitAt Mkfs.superblock bareState.disk b = decide (b < Mkfs.nmeta) :=
      bareDisk_bit (by omega)
    rw [hbit]
    exact decide_eq_true hb
  · intro k hk
    unfold SyncedAt
    rw [bareState_slot hk.1, bareState_self]
    show Sub (dinodeAt Mkfs.superblock bareState.disk ROOTINO) bareRoot ∧
      absFile (dinodeAt Mkfs.superblock bareState.disk ROOTINO) bareState.disk
        = absFile bareRoot bareState.disk
    rw [hdin]
    exact ⟨Sub.refl _, rfl⟩

/-- The state after the `bmap`: a block is marked, and the root has it in memory only. -/
def boundState : FsState where
  disk := Function.update (Function.update bareDisk (BBLOCK Mkfs.superblock 46)
    (setBit (bareDisk (BBLOCK Mkfs.superblock 46)) 46)) 46 (Bytes.zero BSIZE)
  itable := Function.update bareState.itable slot0
    { bareState.itable slot0 with toDinode := (bareState.itable slot0).setAddr 0 46 }

/-- `balloc` takes the first block that is not marked. -/
theorem balloc_first {b : Nat} (hfind : (List.range sb.size).find?
    (fun b => !bitAt sb s.disk b) = some b) {post : Nat → FsState → Prop}
    {err : Panic → Prop} :
    wp (balloc sb) post err s ↔ post b { s with disk := (Function.update
      (Function.update s.disk (BBLOCK sb b) (setBit (s.disk (BBLOCK sb b)) b)) b
        (Bytes.zero BSIZE)) } := by
  rw [balloc, wp_bind, wp_read, hfind]
  rfl

theorem bareState_first : (List.range Mkfs.superblock.size).find?
    (fun b => !bitAt Mkfs.superblock bareState.disk b) = some 46 := by
  have hsize : Mkfs.superblock.size = 2000 := rfl
  have hbit : ∀ b, b < Mkfs.superblock.size →
      bitAt Mkfs.superblock bareState.disk b = decide (b < Mkfs.nmeta) := fun b => bareDisk_bit
  rw [List.find?_range_eq_some]
  refine ⟨?_, ?_, ?_⟩
  · rw [hbit 46 (by decide)]
    rfl
  · exact List.mem_range.mpr (by decide)
  · intro j hj
    have hlt : j < Mkfs.nmeta := hj
    rw [hbit j (by omega)]
    simp [hlt]

theorem bareState_bmap :
    calls Mkfs.superblock bareState (.bmap slot0 0) = some (.ok boundState) := by
  have haddr : (bareState.itable slot0).addr 0 = 0 := by
    rw [bareState_self]
    exact fresh_addr .dir 0
  refine machine_of_wp ?_
  rw [Call.run, wp_bind, bmap, if_pos (by decide), bmapSlot, wp_bind, wp_inode, if_pos haddr,
    wp_bind, balloc_first bareState_first, if_neg (by decide), wp_bind, wp_setInode, wp_pure,
    wp_pure]
  rfl

theorem boundState_iput : calls Mkfs.superblock boundState (.iput slot0)
    = some (.ok (dropRef boundState slot0)) := by
  refine machine_of_wp ?_
  show wp (iput Mkfs.superblock slot0) _ _ _
  rw [iput_keeps (by decide)]

end Xv6.Proofs.Fs
