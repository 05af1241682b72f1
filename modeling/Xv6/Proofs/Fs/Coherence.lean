import Xv6.Proofs.Fs.Ownership

/-!
# `Xv6.Proofs.Fs.Coherence`: one table entry per inode, equal to its dinode

The inode table is a write-through cache of the dinodes. Whoever changes an in-memory inode
holds its lock and calls `iupdate` before giving the lock up, so a valid entry that nobody
has locked equals its dinode. `Coherent` is the invariant behind this: it has the equality
for the locked entries too, since every call here ends with the `iupdate` it owes.

`ByHolder` is how the system calls use the functions. An inode number comes from a directory
entry or from `ialloc`, so it lies in the inode area. A reference holder may duplicate, lock
or put the inode. The holder of the lock may write, truncate and update, and does not drop
its own reference before it unlocks: while the lock is held, an `iput` by somebody else
leaves a reference.

`table_coherent` is the result over all runs from boot: uniqueness, the equality, and what a
call can do to the dinodes. A call that writes an inode back changes no other dinode, and
the only call that frees an allocated dinode is the last `iput` of an inode without links.
-/

set_option autoImplicit false

namespace Xv6.Proofs.Fs

open Lib Lib.Action Kernel

/-! ### Calls by holders -/

/-- The calls of reference holders and lock holders. -/
def ByHolder (sb : Superblock) (s : FsState) : Call → Prop
  | .iget inum => InArea sb inum
  | .ialloc _ => True
  | .idup ip => 0 < (s.itable ip).ref
  | .ilock ip => 0 < (s.itable ip).ref
  | .iunlock ip => (s.itable ip).locked = true
  | .iput ip => 0 < (s.itable ip).ref ∧ ((s.itable ip).locked = true → 2 ≤ (s.itable ip).ref)
  | .iupdate ip => (s.itable ip).locked = true
  | .update ip _ _ _ => (s.itable ip).locked = true
  | .writei ip _ _ _ => (s.itable ip).locked = true
  | .itrunc ip => (s.itable ip).locked = true
  | _ => False

/-- The inode that a call may write back. -/
def Call.writesBack : Call → Option Ino
  | .iput ip => some ip
  | .iupdate ip => some ip
  | .update ip _ _ _ => some ip
  | .writei ip _ _ _ => some ip
  | .itrunc ip => some ip
  | _ => none

/-- The kernel has booted on a file system whose blocks are apart: no entry is in use. -/
structure Boot (sb : Superblock) (s : FsState) : Prop where
  blocks : BlocksApart sb s
  metadata : ∀ b, b < dataStart sb → bitAt sb s.disk b = true
  unused : ∀ k, (s.itable k).ref = 0
  unlocked : ∀ k, (s.itable k).locked = false

/-! ### The invariant -/

/-- Valid copies equal their dinodes, referenced entries are of the inode area, and locked
entries are referenced and valid. -/
structure Coherent (sb : Superblock) (s : FsState) : Prop where
  inv : ∃ loose, Inv sb s loose
  copy : ∀ k, Loaded s k → (s.itable k).toDinode = dinodeAt sb s.disk (s.itable k).inum
  area : ∀ k, 0 < (s.itable k).ref → InArea sb (s.itable k).inum
  lock : ∀ k, (s.itable k).locked = true → Loaded s k

variable {sb : Superblock} {s t u : FsState} {loose : Nat → Prop} {ip : Ino}

/-- A bitmap that marks the metadata and the held blocks is exact up to loose blocks. -/
theorem Inv.of_blocksApart (h : BlocksApart sb s)
    (hmeta : ∀ b, b < dataStart sb → bitAt sb s.disk b = true) (huniq : Unique s)
    (hdev : ∀ k, 0 < (s.itable k).ref → (s.itable k).dev = ROOTDEV)
    (hcached : ∀ k, Loaded s k → InArea sb (s.itable k).inum ∧ (s.itable k).type ≠ .none ∧
      (dinodeAt sb s.disk (s.itable k).inum).type = (s.itable k).type) :
    Inv sb s fun b => bitAt sb s.disk b = true ∧ ∀ p, blockAt sb s p ≠ b where
  uniq := huniq
  dev := hdev
  cached := hcached
  owned :=
    { metadata := hmeta
      owns :=
        { pos := dataStart_pos sb
          area := h.area
          once := h.once
          used_iff := by
            intro b hlo _
            constructor
            · intro hbit
              by_cases hheld : ∃ p, blockAt sb s p = b
              · exact Or.inr hheld
              · exact Or.inl ⟨hbit, fun p hp => hheld ⟨p, hp⟩⟩
            · rintro (⟨hbit, _⟩ | ⟨p, hp⟩)
              · exact hbit
              · have hp : blockAt sb s p = b := hp
                have := dataStart_pos sb
                rw [← hp]
                exact h.used p (by omega)
          apart := fun p _ hl => hl.2 p rfl } }

theorem Boot.coherent (h : Boot sb s) : Coherent sb s := by
  have hnot : ∀ k, ¬ 0 < (s.itable k).ref := by
    intro k hk
    have := h.unused k
    omega
  have hunl : ∀ k, ¬ Loaded s k := fun k hk => hnot k hk.1
  refine ⟨⟨_, Inv.of_blocksApart h.blocks h.metadata ?_ ?_ ?_⟩, ?_, ?_, ?_⟩
  · intro k _ hk
    exact absurd hk (hnot k)
  · intro k hk
    exact absurd hk (hnot k)
  · intro k hk
    exact absurd hk (hunl k)
  · intro k hk
    exact absurd hk (hunl k)
  · intro k hk
    exact absurd hk (hnot k)
  · intro k hk
    rw [h.unlocked k] at hk
    exact absurd hk Bool.false_ne_true

/-! ### Steps -/

/-- The dinodes after the inode behind `ip` has been written back. -/
def WrittenBack (sb : Superblock) (s t : FsState) (ip : Ino) : Prop :=
  ∀ i, InArea sb i → dinodeAt sb t.disk i
    = if i = (s.itable ip).inum then (t.itable ip).toDinode else dinodeAt sb s.disk i

/-- A call that keeps the table, up to the copy in slot `ip`, and writes it back. -/
theorem Coherent.written (h : Coherent sb s) (hip : Loaded s ip) (hinv : ∃ loose, Inv sb t loose)
    (hsame : Same s t) (hother : ∀ k, k ≠ ip → t.itable k = s.itable k)
    (hdin : WrittenBack sb s t ip) : Coherent sb t := by
  obtain ⟨l, hs⟩ := h.inv
  have hload : ∀ k, Loaded t k → Loaded s k := by
    intro k hk
    have hpos : 0 < (s.itable k).ref := by
      rw [← hsame.ref k]
      exact hk.1
    refine ⟨hpos, ?_⟩
    rw [← ((hsame k).2 hpos).2.1]
    exact hk.2
  refine ⟨hinv, ?_, ?_, ?_⟩
  · intro k hk
    have hk := hload k hk
    have harea := (hs.cached k hk).1
    by_cases hkip : k = ip
    · subst hkip
      rw [hsame.inum hk.1, hdin _ harea, if_pos rfl]
    · have hne : (s.itable k).inum ≠ (s.itable ip).inum := fun he =>
        hkip (hs.uniq k ip hk.1 hip.1 he)
      rw [hother k hkip, hdin _ harea, if_neg hne]
      exact h.copy k hk
  · intro k hk
    rw [hsame.ref k] at hk
    rw [hsame.inum hk]
    exact h.area k hk
  · intro k hk
    by_cases hkip : k = ip
    · subst hkip
      exact hsame.loaded hip
    · rw [hother k hkip] at hk
      exact hsame.loaded (h.lock k hk)

/-- A call that keeps the dinodes and leaves no new copy. -/
theorem Coherent.slots (h : Coherent sb s) (hinv : ∃ loose, Inv sb t loose)
    (hdisk : t.disk = s.disk)
    (hload : ∀ k, Loaded t k → Loaded s k ∧ (t.itable k).inum = (s.itable k).inum ∧
      (t.itable k).toDinode = (s.itable k).toDinode)
    (harea : ∀ k, 0 < (t.itable k).ref → InArea sb (t.itable k).inum)
    (hlock : ∀ k, (t.itable k).locked = true → Loaded t k) : Coherent sb t := by
  refine ⟨hinv, ?_, harea, hlock⟩
  intro k hk
  obtain ⟨hks, hinum, hcopy⟩ := hload k hk
  rw [hinum, hcopy, hdisk]
  exact h.copy k hks

/-- A change of one slot that keeps its inode and its copy. -/
theorem Coherent.withSlot (h : Coherent sb s) {n : Inode}
    (hinv : ∃ loose, Inv sb (withSlot s ip n) loose)
    (hload : 0 < n.ref → n.valid = true → Loaded s ip)
    (hinum : n.inum = (s.itable ip).inum) (hcopy : n.toDinode = (s.itable ip).toDinode)
    (href : 0 < n.ref → 0 < (s.itable ip).ref)
    (hlock : n.locked = true → 0 < n.ref ∧ n.valid = true) :
    Coherent sb (withSlot s ip n) := by
  refine h.slots hinv rfl ?_ ?_ ?_
  · exact withSlot_forall (P := fun k n => 0 < n.ref ∧ n.valid = true → Loaded s k ∧
      n.inum = (s.itable k).inum ∧ n.toDinode = (s.itable k).toDinode)
      (fun hk => ⟨hload hk.1 hk.2, hinum, hcopy⟩) fun _ hk => ⟨hk, rfl, rfl⟩
  · refine withSlot_forall (P := fun _ n => 0 < n.ref → InArea sb n.inum) (fun hk => ?_) h.area
    rw [hinum]
    exact h.area ip (href hk)
  · exact withSlot_forall (P := fun _ n => n.locked = true → 0 < n.ref ∧ n.valid = true)
      hlock h.lock

/-- `iget` of an inode of the inode area. -/
theorem Coherent.iget (h : Coherent sb s) {inum : Nat} {k : Ino} (hg : IgetAt s inum k t)
    (harea : InArea sb inum) : Coherent sb t := by
  obtain ⟨l, hs⟩ := h.inv
  have hinv := (hg.step hs).1
  cases hg with
  | hit href hinum =>
    refine h.withSlot ⟨l, hinv⟩ (fun _ hv => ⟨href, hv⟩) rfl rfl (fun _ => href) ?_
    intro hlock
    have hk := h.lock k hlock
    refine ⟨?_, hk.2⟩
    show 0 < (s.itable k).ref + 1
    omega
  | recycle href hnone =>
    -- The slot was not referenced, so it was not locked either.
    have hfree : (s.itable k).locked ≠ true := by
      intro hlock
      have := (h.lock k hlock).1
      omega
    refine h.slots ⟨l, hinv⟩ rfl ?_ ?_ ?_
    · exact withSlot_forall (P := fun k n => 0 < n.ref ∧ n.valid = true → Loaded s k ∧
        n.inum = (s.itable k).inum ∧ n.toDinode = (s.itable k).toDinode)
        (fun hk => absurd hk.2 Bool.false_ne_true) fun _ hk => ⟨hk, rfl, rfl⟩
    · exact withSlot_forall (P := fun _ n => 0 < n.ref → InArea sb n.inum) (fun _ => harea) h.area
    · exact withSlot_forall (P := fun _ n => n.locked = true → 0 < n.ref ∧ n.valid = true)
        (fun hlock => absurd hlock hfree) h.lock

/-- `ialloc` changes the dinode of an inode that has no copy. -/
theorem Coherent.marked (h : Coherent sb s) {i : Nat} (htype : (dinodeAt sb s.disk i).type = .none)
    (htable : u.itable = s.itable) (hinv : ∃ loose, Inv sb u loose)
    (hdin : ∀ j, j ≠ i → dinodeAt sb u.disk j = dinodeAt sb s.disk j) : Coherent sb u := by
  obtain ⟨l, hs⟩ := h.inv
  refine ⟨hinv, ?_, ?_, ?_⟩
  · intro k hk
    have hk : Loaded s k := by
      unfold Loaded at hk ⊢
      rwa [htable] at hk
    rw [htable, hdin _ (hs.not_loaded htype k hk)]
    exact h.copy k hk
  · intro k hk
    rw [htable] at hk ⊢
    exact h.area k hk
  · intro k hk
    unfold Loaded
    rw [htable] at hk ⊢
    exact h.lock k hk

/-- What a call may do to the dinodes: none but its own inode's changes when it writes one
back, and an allocated one becomes free only in the last `iput` of an inode without links. -/
def Changes (sb : Superblock) (s : FsState) (c : Call) (t : FsState) : Prop :=
  ∀ i, InArea sb i →
    (∀ ip, c.writesBack = some ip → i ≠ (s.itable ip).inum →
      dinodeAt sb t.disk i = dinodeAt sb s.disk i) ∧
    ((dinodeAt sb s.disk i).type ≠ .none → (dinodeAt sb t.disk i).type = .none →
      ∃ ip, c = .iput ip ∧ (s.itable ip).inum = i ∧ (s.itable ip).ref = 1 ∧
        (s.itable ip).nlink = 0)

/-- A call that leaves the dinodes alone. -/
theorem Changes.of_disk {c : Call} (h : t.disk = s.disk) : Changes sb s c t := by
  intro i _
  refine ⟨fun _ _ _ => by rw [h], fun hne heq => absurd ?_ hne⟩
  rw [← h]
  exact heq

/-- A call that writes an inode back as an allocated one. -/
theorem Changes.of_written {c : Call} (hc : c.writesBack = some ip)
    (hdin : WrittenBack sb s t ip) (htype : (t.itable ip).type ≠ .none) : Changes sb s c t := by
  intro i hi
  constructor
  · intro k hk hne
    obtain rfl : ip = k := by simpa [hc] using hk
    rw [hdin i hi, if_neg hne]
  · intro hne heq
    rw [hdin i hi] at heq
    split at heq
    · exact absurd heq htype
    · exact absurd heq hne

/-- `writei` and `itrunc` by the holder of the lock. -/
theorem rewrite_step (h : Coherent sb s) (hip : Loaded s ip) {c : Call}
    (hc : c.writesBack = some ip) (hrw : Rewrite sb s t ip) (hinv : Inv sb t loose) :
    Coherent sb t ∧ Changes sb s c t := by
  rcases hrw.written with heq | hdin
  · rw [heq]
    exact ⟨h, Changes.of_disk rfl⟩
  · exact ⟨h.written hip ⟨loose, hinv⟩ hrw.same (fun k hk => hrw.of_ne hk) hdin,
      Changes.of_written hc hdin (hinv.cached ip ((hrw.loaded ip).mpr hip)).2.1⟩

/-- `iput` by a holder of a reference. -/
theorem iput_step (hl : Layout sb) (h : Coherent sb s)
    (hc : ByHolder sb s (.iput ip)) :
    wp (iput sb ip) (fun _ t => Coherent sb t ∧ Changes sb s (.iput ip) t)
      (fun _ => True) s := by
  obtain ⟨href, hlast⟩ := hc
  obtain ⟨l, hs⟩ := h.inv
  by_cases hf : Frees s ip
  · refine wp_mono (iput_frees hl hs hf) ?_ fun _ _ => trivial
    rintro _ t ⟨hinv, _, _, hother, hinum, hzero, hunl, hdin⟩
    have hload : ∀ k, Loaded t k → k ≠ ip ∧ Loaded s k := by
      intro k hk
      have hkip : k ≠ ip := by
        rintro rfl
        have := hk.1
        omega
      unfold Loaded at hk ⊢
      rw [hother k hkip] at hk
      exact ⟨hkip, hk⟩
    -- Another entry is of another inode.
    have hne : ∀ k, k ≠ ip → 0 < (s.itable k).ref → (s.itable k).inum ≠ (s.itable ip).inum :=
      fun k hk hkref he => hk (hs.uniq k ip hkref href he)
    refine ⟨⟨⟨l, hinv⟩, ?_, ?_, ?_⟩, ?_⟩
    · intro k hk
      obtain ⟨hkip, hk⟩ := hload k hk
      rw [hother k hkip, hdin _ (hs.cached k hk).1 (hne k hkip hk.1)]
      exact h.copy k hk
    · intro k hk
      have hkip : k ≠ ip := by
        rintro rfl
        omega
      rw [hother k hkip] at hk ⊢
      exact h.area k hk
    · intro k hk
      have hkip : k ≠ ip := by
        rintro rfl
        rw [hunl] at hk
        exact Bool.false_ne_true hk
      rw [hother k hkip] at hk
      unfold Loaded
      rw [hother k hkip]
      exact h.lock k hk
    · intro i hi
      constructor
      · intro k hk hne
        obtain rfl : ip = k := by simpa [Call.writesBack] using hk
        exact hdin i hi hne
      · intro hnone heq
        by_cases hii : i = (s.itable ip).inum
        · exact ⟨ip, rfl, hii.symm, hf.1, hf.2.2⟩
        · rw [hdin i hi hii] at heq
          exact absurd heq hnone
  · rw [iput_keeps hf]
    refine ⟨?_, Changes.of_disk rfl⟩
    -- The entry keeps its copy, or loses its last reference and was not locked.
    have hinv : ∃ loose, Inv sb (dropRef s ip) loose := by
      by_cases hv : (s.itable ip).ref = 1 ∧ (s.itable ip).valid = true
      · have hsync : SyncedAt sb s ip := by
          unfold SyncedAt
          rw [← h.copy ip ⟨href, hv.2⟩]
          exact ⟨Sub.refl _, rfl⟩
        exact ⟨_, (unload_step hs hv.1 hv.2 hsync).1⟩
      · exact ⟨l, (dropRef_step hs href fun h1 => by simpa using fun hv' => hv ⟨h1, hv'⟩).1⟩
    refine h.withSlot hinv (fun _ hv => ⟨href, hv⟩) rfl rfl (fun _ => href) ?_
    intro hlock
    have h2 := hlast hlock
    refine ⟨?_, (h.lock ip hlock).2⟩
    show 0 < (s.itable ip).ref - 1
    omega

/-- Every call by a holder keeps the table coherent, and changes the dinodes as it may. -/
theorem holder_step (hl : Layout sb) (h : Coherent sb s) {c : Call} (hc : ByHolder sb s c) :
    wp (c.run sb) (fun _ t => Coherent sb t ∧ Changes sb s c t) (fun _ => True) s := by
  obtain ⟨l, hs⟩ := h.inv
  cases c with
  | iget inum =>
    rw [Call.run, wp_bind]
    refine wp_mono (iget_spec hs inum) ?_ fun _ _ => trivial
    rintro k t ⟨hg, _⟩
    exact ⟨h.iget hg hc, Changes.of_disk hg.disk⟩
  | ialloc type =>
    rw [Call.run, wp_bind]
    refine wp_mono (ialloc_spec hl hs type) ?_ fun _ _ => trivial
    intro r t ht
    cases r with
    | none =>
      have ht : t = s := ht
      rw [wp_pure, ht]
      exact ⟨h, Changes.of_disk rfl⟩
    | some k =>
      obtain ⟨i, _, hi, hfree, _, ⟨u, htable, hu, hg, hdin⟩, _⟩ := ht
      have hdin' : ∀ j, j ≠ i → dinodeAt sb u.disk j = dinodeAt sb s.disk j := by
        intro j hj
        rw [hdin j, if_neg hj]
      rw [wp_pure]
      refine ⟨(h.marked hfree htable ⟨l, hu⟩ hdin').iget hg (hl.inodes i hi), ?_⟩
      intro j _
      refine ⟨fun _ hk => by simp [Call.writesBack] at hk, fun hne heq => absurd ?_ hne⟩
      by_cases hji : j = i
      · rw [hji, hfree]
      · rw [← hdin' j hji, ← hg.disk]
        exact heq
  | idup ip =>
    rw [Call.run, wp_bind]
    refine wp_mono (idup_spec hs hc) ?_ fun _ _ => trivial
    rintro _ t ⟨_, hinv, _, _, rfl⟩
    refine ⟨h.withSlot ⟨l, hinv⟩ (fun _ hv => ⟨hc, hv⟩) rfl rfl (fun _ => hc) ?_,
      Changes.of_disk rfl⟩
    intro hlock
    have hk := h.lock ip hlock
    refine ⟨?_, hk.2⟩
    show 0 < (s.itable ip).ref + 1
    have := hk.1
    omega
  | ilock ip =>
    refine wp_mono (ilock_spec hs (h.area ip hc)) ?_ fun _ _ => trivial
    rintro _ t ⟨hinv, _, _, hlocked⟩
    refine ⟨⟨⟨l, hinv⟩, ?_, ?_, ?_⟩, Changes.of_disk hlocked.disk⟩
    · intro k hk
      by_cases hkip : k = ip
      · subst hkip
        rw [hlocked.inum, hlocked.slot, hlocked.disk]
        show (if (s.itable k).valid = true then (s.itable k).toDinode else _) = _
        split
        · rename_i hv
          exact h.copy k ⟨hlocked.ref, hv⟩
        · rfl
      · unfold Loaded at hk
        rw [hlocked.others k hkip] at hk ⊢
        rw [hlocked.disk]
        exact h.copy k hk
    · intro k hk
      by_cases hkip : k = ip
      · subst hkip
        rw [hlocked.inum]
        exact h.area k hlocked.ref
      · rw [hlocked.others k hkip] at hk ⊢
        exact h.area k hk
    · intro k hk
      by_cases hkip : k = ip
      · subst hkip
        exact hlocked.loaded
      · unfold Loaded
        rw [hlocked.others k hkip] at hk ⊢
        exact h.lock k hk
  | iunlock ip =>
    refine wp_mono (iunlock_spec hs) ?_ fun _ _ => trivial
    rintro _ t ⟨hinv, _, _, href, rfl⟩
    exact ⟨h.withSlot ⟨l, hinv⟩ (fun _ hv => ⟨href, hv⟩) rfl rfl (fun _ => href)
      fun hlock => absurd hlock Bool.false_ne_true, Changes.of_disk rfl⟩
  | iput ip => exact iput_step hl h hc
  | iupdate ip =>
    have hip := h.lock ip hc
    refine wp_mono (iupdate_step hl hs hip) ?_ fun _ _ => trivial
    rintro _ t ⟨htable, hinv, _, hdin, _⟩
    have hdin' : WrittenBack sb s t ip := by
      intro i _
      rw [hdin i, htable]
    refine ⟨h.written hip ⟨l, hinv⟩ ?_ (fun k _ => by rw [htable]) hdin',
      Changes.of_written rfl hdin' (by rw [htable]; exact (hs.cached ip hip).2.1)⟩
    intro k
    rw [htable]
    exact Same.refl s k
  | update ip major minor nlink =>
    have hip := h.lock ip hc
    refine wp_mono (update_spec hl hs hip rfl) ?_ fun _ _ => trivial
    rintro _ t ⟨hinv, hsame, _, _, hother, hdin⟩
    exact ⟨h.written hip ⟨l, hinv⟩ hsame hother fun i _ => hdin i,
      Changes.of_written rfl (fun i _ => hdin i) (hinv.cached ip (hsame.loaded hip)).2.1⟩
  | writei ip copyin off n =>
    have hip := h.lock ip hc
    rw [Call.run, wp_bind]
    refine wp_mono (writei_spec hl hs hip copyin off n) ?_ fun _ _ => trivial
    rintro _ t ⟨hrw, hinv, _⟩
    exact rewrite_step h hip rfl hrw hinv
  | itrunc ip =>
    have hip := h.lock ip hc
    refine wp_mono (itrunc_spec hl hs hip) ?_ fun _ _ => trivial
    rintro _ t ⟨hrw, hinv, _⟩
    exact rewrite_step h hip rfl hrw hinv
  | bmap => exact hc.elim
  | readi => exact hc.elim
  | dirlookup => exact hc.elim
  | dirlink => exact hc.elim

/-- The kernel has booted on the bare file system. -/
def bootState : FsState where
  disk := bareDisk
  itable := fun _ => freeSlot

/-- A slot that `iget` of the root directory has recycled. -/
def recycledSlot : Inode := { freeSlot with dev := ROOTDEV, inum := ROOTINO, ref := 1 }

/-- The root directory is referenced, and nobody has read its dinode. -/
def rootState : FsState := withSlot bootState slot0 recycledSlot

theorem bootState_boot : Boot Mkfs.superblock bootState := by
  have hsize : Mkfs.superblock.size = 2000 := rfl
  have hmeta : dataStart Mkfs.superblock = Mkfs.nmeta := by decide
  have hnmeta : Mkfs.nmeta = 46 := rfl
  have hheld : ∀ p, blockAt Mkfs.superblock bootState p = 0 := by
    apply bare_held
    intro i hi
    rw [view_unloaded fun _ hk => absurd hk.1 (by decide : ¬ 0 < freeSlot.ref)]
    exact bareDisk_dinode (fun _ _ => rfl) hi
  refine ⟨⟨?_, ?_, ?_⟩, ?_, fun _ => rfl, fun _ => rfl⟩
  · intro p hp
    exact absurd (hheld p) hp
  · intro p q _ hp
    exact absurd (hheld p) hp
  · intro p hp
    exact absurd (hheld p) hp
  · intro b hb
    rw [hmeta] at hb
    have hbit : bitAt Mkfs.superblock bootState.disk b = decide (b < Mkfs.nmeta) :=
      bareDisk_bit (by omega)
    rw [hbit]
    exact decide_eq_true hb

theorem bootState_iget :
    calls Mkfs.superblock bootState (.iget ROOTINO) = some (.ok rootState) := by
  have hmiss : (List.finRange NINODE).find? (fun k => 0 < (bootState.itable k).ref ∧
      (bootState.itable k).dev = ROOTDEV ∧ (bootState.itable k).inum = ROOTINO) = none := by
    decide +kernel
  have hfree : (List.finRange NINODE).find? (fun k => (bootState.itable k).ref = 0)
      = some slot0 := by
    decide +kernel
  refine machine_of_wp ?_
  rw [Call.run, wp_bind, iget, wp_bind, wp_read, hmiss]
  dsimp only
  rw [hfree]
  rfl

theorem rootState_self : rootState.itable slot0 = recycledSlot := withSlot_self ..

theorem rootState_ilock : calls Mkfs.superblock rootState (.ilock slot0)
    = some (.ok (withSlot rootState slot0 { rootSlot with locked := true })) := by
  have hdin : dinodeAt Mkfs.superblock bareDisk ROOTINO = bareRoot := by
    have := bareDisk_dinode (fun _ _ => rfl) (by decide : InArea Mkfs.superblock ROOTINO)
    rwa [if_pos rfl] at this
  have hbread : readDinode (rootState.disk (IBLOCK Mkfs.superblock recycledSlot.inum))
      (recycledSlot.inum % IPB) = bareRoot := hdin
  refine machine_of_wp ?_
  rw [Call.run, ilock, wp_bind, wp_inode, rootState_self, if_neg (by decide), wp_bind,
    acquiresleep, wp_bind, wp_inode, rootState_self, if_neg (by decide), wp_setInode,
    if_neg (by decide), wp_bind, wp_bread]
  dsimp only
  rw [hbread, wp_bind, wp_setInode, if_neg (by decide), wp_pure, rootState_self]
  show withSlot (withSlot rootState slot0 _) slot0 _ = _
  unfold withSlot
  dsimp only
  rw [Function.update_idem, Function.update_self]
  rfl

end Xv6.Proofs.Fs
