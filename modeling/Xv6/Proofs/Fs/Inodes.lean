import Xv6.Proofs.Fs.Contents

/-!
# `Xv6.Proofs.Fs.Inodes`: `iget`, `idup`, `ilock`, `ialloc` and `iput`

These functions move references and valid copies of inodes around. A change of a slot that
keeps its valid copy, or that concerns a slot without one, changes no current inode
(`slot_step`): this covers `iget`, `idup`, the locks, and an `iput` that is not the last.
`load_step` is the read of a dinode by `ilock`.

The last `iput` of an inode ends its copy. With links left, the dinode takes over
(`unload_step`). Without links the inode is freed: `itrunc` takes its blocks, and the dinode
becomes free (`free_step`).
-/

set_option autoImplicit false

namespace Xv6.Proofs.Fs

open Lib Lib.Action Kernel

variable {sb : Superblock} {s t u : FsState} {loose : Nat → Prop} {ip : Ino}

/-! ### Slots -/

/-- The state with another inode in slot `ip`. -/
def withSlot (s : FsState) (ip : Ino) (n : Inode) : FsState :=
  { s with itable := Function.update s.itable ip n }

@[simp] theorem withSlot_self (s : FsState) (ip : Ino) (n : Inode) :
    (withSlot s ip n).itable ip = n := Function.update_self ..

theorem withSlot_of_ne (s : FsState) {ip k : Ino} (n : Inode) (h : k ≠ ip) :
    (withSlot s ip n).itable k = s.itable k := Function.update_of_ne h _ _

/-- What holds of the new inode and of the other slots holds of every slot. -/
theorem withSlot_forall {P : Ino → Inode → Prop} {n : Inode} (hself : P ip n)
    (hother : ∀ k, P k (s.itable k)) (k : Ino) : P k ((withSlot s ip n).itable k) := by
  by_cases hk : k = ip
  · subst hk
    rw [withSlot_self]
    exact hself
  · rw [withSlot_of_ne s n hk]
    exact hother k

@[simp] theorem withSlot_disk (s : FsState) (ip : Ino) (n : Inode) :
    (withSlot s ip n).disk = s.disk := rfl

theorem loaded_withSlot_of_ne (s : FsState) {ip k : Ino} (n : Inode) (h : k ≠ ip) :
    Loaded (withSlot s ip n) k ↔ Loaded s k := by
  unfold Loaded
  rw [withSlot_of_ne s n h]

theorem loaded_of_withSlot {n : Inode} (h : Loaded (withSlot s ip n) ip → Loaded s ip) (k : Ino)
    (hk : Loaded (withSlot s ip n) k) : Loaded s k := by
  by_cases hkip : k = ip
  · subst hkip
    exact h hk
  · exact (loaded_withSlot_of_ne s n hkip).mp hk

theorem syncedAt_withSlot_of_ne {k : Ino} (n : Inode) (h : k ≠ ip) :
    SyncedAt sb (withSlot s ip n) k ↔ SyncedAt sb s k := by
  unfold SyncedAt
  rw [withSlot_of_ne s n h, withSlot_disk]

/-- The slots with references still name different inodes. -/
theorem Unique.withSlot (h : Unique s) {n : Inode}
    (hn : 0 < n.ref → ∀ k, k ≠ ip → 0 < (s.itable k).ref → (s.itable k).inum ≠ n.inum) :
    Unique (withSlot s ip n) := by
  intro k l hk hl hkl
  by_cases hkip : k = ip
  · by_cases hlip : l = ip
    · rw [hkip, hlip]
    · subst hkip
      rw [withSlot_self] at hk hkl
      rw [withSlot_of_ne s n hlip] at hl hkl
      exact absurd hkl.symm (hn hk l hlip hl)
  · by_cases hlip : l = ip
    · subst hlip
      rw [withSlot_self] at hl hkl
      rw [withSlot_of_ne s n hkip] at hk hkl
      exact absurd hkl (hn hl k hkip hk)
    · rw [withSlot_of_ne s n hkip] at hk hkl
      rw [withSlot_of_ne s n hlip] at hl hkl
      exact h k l hk hl hkl

/-- The current inodes when the table of valid copies changes in one slot: the inodes that
no slot but `ip` has a copy of are the only ones that can change. -/
theorem view_withSlot_of_ne {n : Inode} (hu : Unique s) (hu' : Unique (withSlot s ip n))
    {i : Nat} (hs : Loaded s ip → (s.itable ip).inum ≠ i)
    (ht : Loaded (withSlot s ip n) ip → n.inum ≠ i) :
    view sb (withSlot s ip n) i = view sb s i := by
  rcases view_cases s i with ⟨k, hk, rfl⟩ | hnone
  · have hkip : k ≠ ip := by
      rintro rfl
      exact hs hk rfl
    have := view_loaded sb hu' ((loaded_withSlot_of_ne s n hkip).mpr hk)
    rw [withSlot_of_ne s n hkip] at this
    rw [this, view_loaded sb hu hk]
  · rw [view_unloaded hnone, view_unloaded]
    · rfl
    · intro k hk
      by_cases hkip : k = ip
      · subst hkip
        rw [withSlot_self]
        exact ht hk
      · rw [loaded_withSlot_of_ne s n hkip] at hk
        rw [withSlot_of_ne s n hkip]
        exact hnone k hk

/-- A change of a slot that keeps its valid copy, or that leaves it without one. -/
theorem slot_step (h : Inv sb s loose) {n : Inode} (hload : Loaded (withSlot s ip n) ip ↔ Loaded s ip)
    (hcopy : Loaded s ip → n.inum = (s.itable ip).inum ∧ n.toDinode = (s.itable ip).toDinode)
    (hn : 0 < n.ref → ∀ k, k ≠ ip → 0 < (s.itable k).ref → (s.itable k).inum ≠ n.inum)
    (hdev : 0 < n.ref → n.dev = ROOTDEV) :
    Inv sb (withSlot s ip n) loose ∧ (∀ i, view sb (withSlot s ip n) i = view sb s i) ∧
      ∀ k, Loaded s k → SyncedAt sb s k → SyncedAt sb (withSlot s ip n) k := by
  have hu' : Unique (withSlot s ip n) := h.uniq.withSlot hn
  have hview : ∀ i, view sb (withSlot s ip n) i = view sb s i := by
    intro i
    by_cases hi : Loaded s ip ∧ (s.itable ip).inum = i
    · obtain ⟨hip, rfl⟩ := hi
      obtain ⟨hinum, hdin⟩ := hcopy hip
      have := view_loaded sb hu' (hload.mpr hip)
      rw [withSlot_self, hinum, hdin] at this
      rw [this, h.view_eq hip]
    · refine view_withSlot_of_ne h.uniq hu' (fun hip he => hi ⟨hip, he⟩) ?_
      intro hip he
      have hip := hload.mp hip
      exact hi ⟨hip, by rw [← (hcopy hip).1]; exact he⟩
  refine ⟨⟨hu', ?_, ?_, ?_⟩, hview, ?_⟩
  · exact withSlot_forall (P := fun _ n => 0 < n.ref → n.dev = ROOTDEV) hdev h.dev
  · intro k hk
    by_cases hkip : k = ip
    · subst hkip
      have hk := hload.mp hk
      obtain ⟨hinum, hdin⟩ := hcopy hk
      rw [withSlot_self, withSlot_disk, hinum, hdin]
      exact h.cached k hk
    · rw [loaded_withSlot_of_ne s n hkip] at hk
      rw [withSlot_of_ne s n hkip, withSlot_disk]
      exact h.cached k hk
  · refine ⟨h.owned.owns.congr (held_congr (fun i _ => hview i) fun _ _ _ => rfl)
      (fun _ _ _ => Iff.rfl) fun _ => Iff.rfl, h.owned.metadata⟩
  · intro k hk hs
    by_cases hkip : k = ip
    · subst hkip
      obtain ⟨hinum, hdin⟩ := hcopy hk
      unfold SyncedAt
      rw [withSlot_self, withSlot_disk, hinum, hdin]
      exact hs
    · exact (syncedAt_withSlot_of_ne n hkip).mpr hs

theorem files_of_view (hd : t.disk = s.disk) {i : Nat}
    (hv : view sb t i = view sb s i) : files sb t i = files sb s i := by
  unfold files
  rw [hv, hd]

theorem files_withSlot {n : Inode} {i : Nat} (hv : view sb (withSlot s ip n) i = view sb s i) :
    files sb (withSlot s ip n) i = files sb s i :=
  files_of_view (withSlot_disk s ip n) hv

/-! ### What stays of the inode table -/

/-- The references are the same, and a referenced slot is still that of its inode, with the
same lock, and valid if it was. -/
def Same (s t : FsState) : Prop := ∀ k, (t.itable k).ref = (s.itable k).ref ∧
  (0 < (s.itable k).ref → (t.itable k).inum = (s.itable k).inum ∧
    (t.itable k).valid = (s.itable k).valid ∧ (t.itable k).locked = (s.itable k).locked)

namespace Same

theorem refl (s : FsState) : Same s s := fun _ => ⟨rfl, fun _ => ⟨rfl, rfl, rfl⟩⟩

theorem trans (h : Same s t) (h' : Same t u) : Same s u := by
  intro k
  obtain ⟨href, hslot⟩ := h k
  obtain ⟨href', hslot'⟩ := h' k
  refine ⟨href'.trans href, fun hpos => ?_⟩
  obtain ⟨hi, hv, hk⟩ := hslot hpos
  obtain ⟨hi', hv', hk'⟩ := hslot' (by rw [href]; exact hpos)
  exact ⟨hi'.trans hi, hv'.trans hv, hk'.trans hk⟩

theorem loaded (h : Same s t) {k : Ino} (hk : Loaded s k) : Loaded t k := by
  obtain ⟨href, hslot⟩ := h k
  exact ⟨by rw [href]; exact hk.1, by rw [(hslot hk.1).2.1]; exact hk.2⟩

theorem inum (h : Same s t) {k : Ino} (hk : 0 < (s.itable k).ref) :
    (t.itable k).inum = (s.itable k).inum :=
  ((h k).2 hk).1

theorem ref (h : Same s t) (k : Ino) : (t.itable k).ref = (s.itable k).ref := (h k).1

theorem withDinode (s : FsState) (ip : Ino) (y : Dinode) {t : FsState}
    (h : t.itable = (withDinode s ip y).itable) : Same s t := by
  intro k
  rw [h]
  by_cases hk : k = ip
  · subst hk
    simp
  · simp [withDinode_of_ne, hk]

end Same

theorem Fill.same (h : Fill sb s t ip) : Same s t := by
  obtain ⟨a, ha⟩ := h.table
  exact Same.withDinode s ip _ ha

theorem Rewrite.same (h : Rewrite sb s t ip) : Same s t := by
  obtain ⟨a, z, ha⟩ := h.table
  exact Same.withDinode s ip _ ha

/-! ### References and locks -/

/-- `Synced` from its slots: a step that loads no copy and keeps the loaded ones in step. -/
theorem Synced.of_slots (h : Synced sb s) (hload : ∀ k, Loaded t k → Loaded s k)
    (hslot : ∀ k, Loaded s k → SyncedAt sb s k → SyncedAt sb t k) : Synced sb t :=
  fun k hk => hslot k (hload k hk) (h k (hload k hk))

/-- The slot that `iget` returns: one that has the inode, with a reference more, or a
recycled one. -/
inductive IgetAt (s : FsState) (inum : Nat) (k : Ino) : FsState → Prop
  | hit (href : 0 < (s.itable k).ref) (hinum : (s.itable k).inum = inum) :
      IgetAt s inum k (withSlot s k { s.itable k with ref := (s.itable k).ref + 1 })
  | recycle (href : (s.itable k).ref = 0)
      (hnone : ∀ j, 0 < (s.itable j).ref → (s.itable j).inum ≠ inum) :
      IgetAt s inum k (withSlot s k
        { s.itable k with dev := ROOTDEV, inum := inum, ref := 1, valid := false })

theorem iget_cases (hdev : ∀ k, 0 < (s.itable k).ref → (s.itable k).dev = ROOTDEV)
    (inum : Nat) :
    wp (iget ROOTDEV inum) (fun k t => IgetAt s inum k t) (fun e => e = .igetNoInodes) s := by
  rw [iget, wp_bind, wp_read]
  split
  · rename_i k hk
    have hfound := List.find?_some hk
    simp only [decide_eq_true_eq] at hfound
    exact .hit hfound.1 hfound.2.2
  · rename_i hnone
    split
    · rename_i k hk
      have hempty := List.find?_some hk
      simp only [decide_eq_true_eq] at hempty
      refine .recycle hempty ?_
      intro j hj hinum
      have := List.find?_eq_none.mp hnone j (List.mem_finRange j)
      simp [hj, hdev j hj, hinum] at this
    · rfl

namespace IgetAt

variable {inum : Nat} {k : Ino}

theorem disk (h : IgetAt s inum k t) : t.disk = s.disk := by
  cases h with
  | hit => rfl
  | recycle => rfl

theorem ref_pos (h : IgetAt s inum k t) : 0 < (t.itable k).ref := by
  cases h with
  | hit href _ =>
    rw [withSlot_self]
    show 0 < (s.itable k).ref + 1
    omega
  | recycle =>
    rw [withSlot_self]
    exact Int.one_pos

/-- A slot in use gets a reference at most. -/
theorem in_use (h : IgetAt s inum k t) {j : Ino} (hj : 0 < (s.itable j).ref) :
    ∃ r, 0 < r ∧ t.itable j = { s.itable j with ref := r } := by
  cases h with
  | hit =>
    by_cases hjk : j = k
    · subst hjk
      exact ⟨_, Int.add_pos hj Int.one_pos, withSlot_self ..⟩
    · exact ⟨_, hj, withSlot_of_ne s _ hjk⟩
  | recycle href _ =>
    have hjk : j ≠ k := by
      rintro rfl
      omega
    exact ⟨_, hj, withSlot_of_ne s _ hjk⟩

/-- `iget` loads nothing. -/
theorem loaded (h : IgetAt s inum k t) {j : Ino} (hj : Loaded t j) : Loaded s j := by
  cases h with
  | hit href _ =>
    refine loaded_of_withSlot (fun hk => ⟨href, ?_⟩) j hj
    have := hk.2
    rwa [withSlot_self] at this
  | recycle =>
    refine loaded_of_withSlot (fun hk => ?_) j hj
    have := hk.2
    rw [withSlot_self] at this
    exact absurd this Bool.false_ne_true

/-- `iget` changes no current inode. -/
theorem step (hg : IgetAt s inum k t) (h : Inv sb s loose) :
    Inv sb t loose ∧ (∀ i, view sb t i = view sb s i) ∧
      ∀ j, Loaded s j → SyncedAt sb s j → SyncedAt sb t j := by
  cases hg with
  | hit href hinum =>
    refine slot_step h ?_ (fun _ => ⟨rfl, rfl⟩) ?_ fun _ => h.dev k href
    · unfold Loaded
      rw [withSlot_self]
      refine and_congr_left fun _ => ⟨fun _ => href, fun _ => ?_⟩
      show 0 < (s.itable k).ref + 1
      omega
    · intro _ j hj hjref he
      exact hj (h.uniq j k hjref href he)
  | recycle href hnone =>
    have hunl : ¬ Loaded s k := by
      intro hk
      have := hk.1
      omega
    refine slot_step h ⟨fun hk => ?_, fun hk => absurd hk hunl⟩ (fun hk => absurd hk hunl)
      (fun _ j _ hjref => hnone j hjref) fun _ => rfl
    have := hk.2
    rw [withSlot_self] at this
    exact absurd this Bool.false_ne_true

end IgetAt

/-- What `iget` leaves. -/
theorem iget_spec (h : Inv sb s loose) (inum : Nat) :
    wp (iget ROOTDEV inum) (fun k t => IgetAt s inum k t ∧ Inv sb t loose ∧
      (∀ i, files sb t i = files sb s i) ∧ (Synced sb s → Synced sb t)) Benign s := by
  refine wp_mono (iget_cases h.dev inum) ?_ fun e he => by rw [he]; exact ⟨by decide, by decide⟩
  intro k t hk
  obtain ⟨hinv, hview, hsync⟩ := hk.step h
  exact ⟨hk, hinv, fun i => files_of_view hk.disk (hview i),
    fun hs => hs.of_slots (fun j => hk.loaded) hsync⟩

/-- A change of the lock or of the references of a slot that keeps its copy. -/
theorem ref_step (h : Inv sb s loose) (href : 0 < (s.itable ip).ref) {r : Int}
    (hr : (s.itable ip).valid = true → 0 < r) (l : Bool) :
    Inv sb (withSlot s ip { s.itable ip with ref := r, locked := l }) loose ∧
      (∀ i, files sb (withSlot s ip { s.itable ip with ref := r, locked := l }) i
        = files sb s i) ∧
      (Synced sb s → Synced sb (withSlot s ip { s.itable ip with ref := r, locked := l })) := by
  have hload : Loaded (withSlot s ip { s.itable ip with ref := r, locked := l }) ip
      ↔ Loaded s ip := by
    unfold Loaded
    rw [withSlot_self]
    exact and_congr_left fun hv => ⟨fun _ => href, fun _ => hr hv⟩
  obtain ⟨hinv, hview, hsync⟩ := slot_step h hload (fun _ => ⟨rfl, rfl⟩)
    (fun _ k hk hkref he => hk (h.uniq k ip hkref href he)) fun _ => h.dev ip href
  exact ⟨hinv, fun i => files_withSlot (hview i),
    fun hs => hs.of_slots (loaded_of_withSlot hload.mp) hsync⟩

/-- `ilock` reads the dinode into a slot without a copy. -/
theorem load_step (h : Inv sb s loose) (href : 0 < (s.itable ip).ref)
    (hvalid : (s.itable ip).valid = false) (harea : InArea sb (s.itable ip).inum)
    (htype : (dinodeAt sb s.disk (s.itable ip).inum).type ≠ .none) {n : Inode}
    (hn : n = { s.itable ip with toDinode := dinodeAt sb s.disk (s.itable ip).inum, valid := true }) :
    Inv sb (withSlot s ip n) loose ∧ (∀ i, files sb (withSlot s ip n) i = files sb s i) ∧
      (Synced sb s → Synced sb (withSlot s ip n)) := by
  have hinum : n.inum = (s.itable ip).inum := by rw [hn]
  have hu' : Unique (withSlot s ip n) := h.uniq.withSlot fun _ k hk hkref he =>
    hk (h.uniq k ip hkref href (by rw [← hinum]; exact he))
  have hload : Loaded (withSlot s ip n) ip := by
    unfold Loaded
    rw [withSlot_self, hn]
    exact ⟨href, rfl⟩
  have hunl : ¬ Loaded s ip := by
    intro hk
    have := hk.2
    rw [hvalid] at this
    exact absurd this Bool.false_ne_true
  -- The copy is the dinode, which was current before: no other slot has a copy.
  have hview : ∀ i, view sb (withSlot s ip n) i = view sb s i := by
    intro i
    by_cases hi : i = (s.itable ip).inum
    · subst hi
      have hv := view_loaded sb hu' hload
      rw [withSlot_self, hinum] at hv
      rw [hv, view_unloaded, hn]
      intro k hk he
      have := h.uniq k ip hk.1 href he
      subst this
      exact hunl hk
    · refine view_withSlot_of_ne h.uniq hu' (fun hk => absurd hk hunl) ?_
      intro _ he
      exact hi (by rw [← he, hinum])
  refine ⟨⟨hu', ?_, ?_, ?_⟩, fun i => files_withSlot (hview i), ?_⟩
  · refine withSlot_forall (P := fun _ n => 0 < n.ref → n.dev = ROOTDEV) (fun _ => ?_) h.dev
    rw [hn]
    exact h.dev ip href
  · refine withSlot_forall (P := fun _ n => 0 < n.ref ∧ n.valid = true → InArea sb n.inum ∧
      n.type ≠ .none ∧ (dinodeAt sb s.disk n.inum).type = n.type) (fun _ => ?_) h.cached
    rw [hinum, hn]
    exact ⟨harea, htype, rfl⟩
  · exact ⟨h.owned.owns.congr (held_congr (fun i _ => hview i) fun _ _ _ => rfl)
      (fun _ _ _ => Iff.rfl) fun _ => Iff.rfl, h.owned.metadata⟩
  · intro hs k hk
    by_cases hkip : k = ip
    · subst hkip
      unfold SyncedAt
      rw [withSlot_self, withSlot_disk, hinum, hn]
      exact ⟨Sub.refl _, rfl⟩
    · rw [loaded_withSlot_of_ne s n hkip] at hk
      exact (syncedAt_withSlot_of_ne n hkip).mpr (hs k hk)

/-- What `ilock` does to the table: the slot is locked and has a valid copy, the one it had
or the dinode. -/
structure LockedAt (sb : Superblock) (s t : FsState) (ip : Ino) : Prop where
  ref : 0 < (s.itable ip).ref
  free : (s.itable ip).locked = false
  disk : t.disk = s.disk
  others : ∀ k, k ≠ ip → t.itable k = s.itable k
  slot : t.itable ip = { s.itable ip with
    toDinode := if (s.itable ip).valid then (s.itable ip).toDinode
      else dinodeAt sb s.disk (s.itable ip).inum
    valid := true
    locked := true }

namespace LockedAt

theorem inum (h : LockedAt sb s t ip) : (t.itable ip).inum = (s.itable ip).inum := by rw [h.slot]

theorem loaded (h : LockedAt sb s t ip) : Loaded t ip := by
  unfold Loaded
  rw [h.slot]
  exact ⟨h.ref, rfl⟩

end LockedAt

/-- What `ilock` leaves: a valid copy, and no file changed. It stops at a free inode. -/
theorem ilock_spec (h : Inv sb s loose) (harea : InArea sb (s.itable ip).inum) :
    wp (ilock sb ip) (fun _ t => Inv sb t loose ∧ (∀ i, files sb t i = files sb s i) ∧
      (Synced sb s → Synced sb t) ∧ LockedAt sb s t ip)
      (fun e => e = .ilock ∨ e = .deadlock ∨
        e = .ilockNoType ∧ (files sb s (s.itable ip).inum).type = .none) s := by
  rw [ilock, wp_bind, wp_inode]
  split
  · exact Or.inl rfl
  · rename_i href
    have href : 0 < (s.itable ip).ref := by omega
    rw [wp_bind, acquiresleep, wp_bind, wp_inode]
    split
    · exact Or.inr (Or.inl rfl)
    · rename_i hfree
      have hfree : (s.itable ip).locked = false := by simpa using hfree
      rw [wp_setInode]
      obtain ⟨n₁, hn₁⟩ : ∃ n, n = { s.itable ip with locked := true } := ⟨_, rfl⟩
      obtain ⟨hinv₁, hfiles₁, hsync₁⟩ := ref_step h href (fun _ => href) true
      have hstate : ({ s with itable := (Function.update s.itable ip
          { s.itable ip with locked := true }) } : FsState) = withSlot s ip n₁ := by rw [hn₁]; rfl
      have hsame : withSlot s ip { s.itable ip with ref := (s.itable ip).ref, locked := true }
          = withSlot s ip n₁ := by rw [hn₁]
      rw [hsame] at hinv₁ hfiles₁ hsync₁
      rw [hstate]
      have hslot : (withSlot s ip n₁).itable ip = n₁ := withSlot_self s ip n₁
      split
      · -- The copy is valid already.
        rename_i hvalid
        refine ⟨hinv₁, hfiles₁, hsync₁, href, hfree, rfl, fun k hk => withSlot_of_ne s n₁ hk, ?_⟩
        rw [hslot, hn₁, if_pos hvalid, ← hvalid]
      · rename_i hvalid
        have hvalid : (s.itable ip).valid = false := by simpa using hvalid
        rw [wp_bind, wp_bread]
        dsimp only
        rw [wp_bind, wp_setInode, hslot]
        have hdin : readDinode ((withSlot s ip n₁).disk (IBLOCK sb (s.itable ip).inum))
            ((s.itable ip).inum % IPB) = dinodeAt sb s.disk (s.itable ip).inum := rfl
        rw [hdin]
        split
        · -- A free inode: no slot has a copy, so the dinode is the current inode.
          rename_i hnone
          refine Or.inr (Or.inr ⟨rfl, ?_⟩)
          unfold files
          rw [absFile_type, view_unloaded, hnone]
          intro k hk he
          have := h.uniq k ip hk.1 href he
          subst this
          rw [hk.2] at hvalid
          exact absurd hvalid (by decide)
        · rename_i htype
          obtain ⟨n₂, hn₂⟩ : ∃ n, n = { n₁ with
            toDinode := dinodeAt sb s.disk (s.itable ip).inum, valid := true } := ⟨_, rfl⟩
          obtain ⟨hinv, hfiles, hsync⟩ := load_step (n := n₂) hinv₁
            (show 0 < ((withSlot s ip n₁).itable ip).ref by rw [hslot, hn₁]; exact href)
            (by rw [hslot, hn₁]; exact hvalid)
            (by rw [hslot, hn₁]; exact harea) (by rw [hslot, hn₁]; exact htype)
            (by rw [hslot, hn₂, hn₁]; rfl)
          rw [wp_pure, ← hn₂]
          show Inv sb (withSlot (withSlot s ip n₁) ip n₂) loose ∧ _
          refine ⟨hinv, fun i => (hfiles i).trans (hfiles₁ i), fun hs => hsync (hsync₁ hs),
            href, hfree, rfl, ?_, ?_⟩
          · intro k hk
            exact (withSlot_of_ne _ n₂ hk).trans (withSlot_of_ne s n₁ hk)
          · simp [hn₂, hn₁, hvalid]

/-! ### `iput` -/

/-- The `iput` of `ip` frees the inode. -/
def Frees (s : FsState) (ip : Ino) : Prop :=
  (s.itable ip).ref = 1 ∧ (s.itable ip).valid = true ∧ (s.itable ip).nlink = 0

instance (s : FsState) (ip : Ino) : Decidable (Frees s ip) :=
  inferInstanceAs (Decidable (_ ∧ _))

/-- The state with one reference less to slot `ip`. -/
def dropRef (s : FsState) (ip : Ino) : FsState :=
  withSlot s ip { s.itable ip with ref := (s.itable ip).ref - 1 }

/-- A reference is dropped, and the copy, if there is one, stays. -/
theorem dropRef_step (h : Inv sb s loose) (href : 0 < (s.itable ip).ref)
    (hkeep : (s.itable ip).ref = 1 → (s.itable ip).valid = false) :
    Inv sb (dropRef s ip) loose ∧ (∀ i, files sb (dropRef s ip) i = files sb s i) ∧
      (Synced sb s → Synced sb (dropRef s ip)) := by
  refine ref_step h href (fun hvalid => ?_) (s.itable ip).locked
  have : (s.itable ip).ref ≠ 1 := by
    intro he
    rw [hkeep he] at hvalid
    exact Bool.false_ne_true hvalid
  omega

/-- The last reference of an inode with a valid copy is dropped: the dinode takes over. The
blocks that only the copy held are loose. -/
theorem unload_step (h : Inv sb s loose) (href : (s.itable ip).ref = 1)
    (hvalid : (s.itable ip).valid = true) (hs : SyncedAt sb s ip) :
    Inv sb (dropRef s ip) (fun c => loose c ∨ Lost (s.itable ip).toDinode
        (dinodeAt sb s.disk (s.itable ip).inum) s.disk c) ∧
      (∀ i, files sb (dropRef s ip) i = files sb s i) ∧
      (Synced sb s → Synced sb (dropRef s ip)) := by
  have hip : Loaded s ip := ⟨by omega, hvalid⟩
  have hview := h.view_eq hip
  have hzero : ((dropRef s ip).itable ip).ref = 0 := by
    unfold dropRef
    rw [withSlot_self]
    show (s.itable ip).ref - 1 = 0
    omega
  have hunl : ¬ Loaded (dropRef s ip) ip := by
    intro hk
    have := hk.1
    omega
  have hu' : Unique (dropRef s ip) := h.uniq.withSlot fun _ k hk hkref he =>
    hk (h.uniq k ip hkref hip.1 he)
  have hother : ∀ k, k ≠ ip → (Loaded (dropRef s ip) k ↔ Loaded s k) := fun k hk =>
    loaded_withSlot_of_ne s _ hk
  -- Only the inode of the slot can change, and it falls back to the dinode.
  have hview' : view sb (dropRef s ip) = Function.update (view sb s) (s.itable ip).inum
      (dinodeAt sb s.disk (s.itable ip).inum) := by
    funext i
    by_cases hi : i = (s.itable ip).inum
    · subst hi
      rw [Function.update_self, view_unloaded]
      · rfl
      · intro k hk he
        have hkip : k ≠ ip := by
          rintro rfl
          exact hunl hk
        rw [hother k hkip] at hk
        have he : (s.itable k).inum = (s.itable ip).inum := by
          rw [← he]
          unfold dropRef
          rw [withSlot_of_ne s _ hkip]
        exact hkip (h.uniq k ip hk.1 hip.1 he)
    · rw [Function.update_of_ne hi]
      exact view_withSlot_of_ne h.uniq hu' (fun _ he => hi he.symm)
        fun hk => absurd hk hunl
  obtain ⟨hsub, hfile⟩ := hs
  refine ⟨⟨hu', ?_, ?_, ?_⟩, ?_, ?_⟩
  · intro k hk
    by_cases hkip : k = ip
    · subst hkip
      omega
    · unfold dropRef at hk ⊢
      rw [withSlot_of_ne s _ hkip] at hk ⊢
      exact h.dev k hk
  · intro k hk
    have hkip : k ≠ ip := by
      rintro rfl
      exact hunl hk
    rw [hother k hkip] at hk
    unfold dropRef
    rw [withSlot_of_ne s _ hkip]
    exact h.cached k hk
  · have hown := h.owned.forget (y := dinodeAt sb s.disk (s.itable ip).inum) (h.alloc hip)
      (by rw [hview]; exact (h.cached ip hip).2.2) (by rw [hview]; exact hsub)
    rw [hview] at hown
    rw [hview']
    exact hown
  · intro i
    unfold files
    rw [hview']
    by_cases hi : i = (s.itable ip).inum
    · subst hi
      rw [Function.update_self, hview]
      exact hfile
    · rw [Function.update_of_ne hi]
      rfl
  · intro hall k hk
    have hkip : k ≠ ip := by
      rintro rfl
      exact hunl hk
    exact (syncedAt_withSlot_of_ne _ hkip).mpr (hall k ((hother k hkip).mp hk))

/-- An inode without blocks is freed: its dinode becomes free, and the slot loses its copy. -/
theorem free_step (hl : Layout sb) (h : Inv sb s loose) (hip : Loaded s ip)
    (haddr : ∀ k, (s.itable ip).addr k = 0) {n : Inode} (hvalid : n.valid = false)
    (hinum : n.inum = (s.itable ip).inum) (hdev : n.dev = (s.itable ip).dev) {d' : Disk}
    (hd' : d' = Function.update s.disk (IBLOCK sb (s.itable ip).inum)
      (writeDinode (s.disk (IBLOCK sb (s.itable ip).inum)) ((s.itable ip).inum % IPB)
        { (s.itable ip).toDinode with type := .none })) :
    Inv sb { disk := d', itable := Function.update s.itable ip n } loose ∧
      (∀ i, InArea sb i → files sb { disk := d', itable := Function.update s.itable ip n } i
        = if i = (s.itable ip).inum then .empty .none else files sb s i) ∧
      (Synced sb s → Synced sb { disk := d', itable := Function.update s.itable ip n }) ∧
      ∀ i, dinodeAt sb d' i = if i = (s.itable ip).inum
        then { (s.itable ip).toDinode with type := .none } else dinodeAt sb s.disk i := by
  obtain ⟨harea, htype, _⟩ := h.cached ip hip
  obtain ⟨t, ht⟩ : ∃ t : FsState, t = { disk := d', itable := Function.update s.itable ip n } :=
    ⟨_, rfl⟩
  have hdisk : t.disk = d' := by rw [ht]
  have hslot : ∀ k, k ≠ ip → t.itable k = s.itable k := by
    intro k hk
    rw [ht]
    exact Function.update_of_ne hk _ _
  have hself : t.itable ip = n := by
    rw [ht]
    exact Function.update_self ..
  rw [← ht]
  have hdin : ∀ i, dinodeAt sb d' i = if i = (s.itable ip).inum
      then { (s.itable ip).toDinode with type := .none } else dinodeAt sb s.disk i := by
    intro i
    rw [hd', dinodeAt_writeDinode]
  have hunl : ¬ Loaded t ip := by
    intro hk
    have := hk.2
    rw [hself, hvalid] at this
    exact absurd this Bool.false_ne_true
  have hload : ∀ k, Loaded t k → k ≠ ip ∧ Loaded s k := by
    intro k hk
    have hkip : k ≠ ip := by
      rintro rfl
      exact hunl hk
    refine ⟨hkip, ?_⟩
    unfold Loaded at hk
    rwa [hslot k hkip] at hk
  -- Another slot names another inode.
  have hne : ∀ k, k ≠ ip → 0 < (s.itable k).ref → (s.itable k).inum ≠ (s.itable ip).inum :=
    fun k hk href he => hk (h.uniq k ip href hip.1 he)
  have hu' : Unique t := by
    have : Unique (withSlot s ip n) := h.uniq.withSlot fun _ k hk href => by
      rw [hinum]
      exact hne k hk href
    rw [ht]
    exact this
  have hview : ∀ i, view sb t i = if i = (s.itable ip).inum
      then { (s.itable ip).toDinode with type := .none } else view sb s i := by
    intro i
    by_cases hi : i = (s.itable ip).inum
    · rw [if_pos hi, view_unloaded, hdisk, hdin, if_pos hi]
      intro k hk
      obtain ⟨hkip, hk⟩ := hload k hk
      rw [hslot k hkip, hi]
      exact hne k hkip hk.1
    · rw [if_neg hi]
      rcases view_cases s i with ⟨k, hk, rfl⟩ | hnone
      · have hkip : k ≠ ip := by
          rintro rfl
          exact hi rfl
        have hk' : Loaded t k := by
          unfold Loaded
          rw [hslot k hkip]
          exact hk
        have := view_loaded sb hu' hk'
        rw [hslot k hkip] at this
        rw [this, h.view_eq hk]
      · rw [view_unloaded hnone, view_unloaded, hdisk, hdin, if_neg hi]
        intro k hk
        obtain ⟨hkip, hk⟩ := hload k hk
        rw [hslot k hkip]
        exact hnone k hk
  have hdata : DataKept sb s d' fun _ => True := by
    rw [hd']
    exact h.dataKept_inodes harea _
  -- The freed inode held no block.
  have howned : Owned sb (view sb t) d' loose := by
    have hown : Owned sb (view sb s) d' loose := by
      rw [hd']
      exact h.owned.update_inodes hl (fun _ _ => rfl) harea _
    refine ⟨hown.owns.congr ?_ (fun _ _ _ => Iff.rfl) fun _ => Iff.rfl, hown.metadata⟩
    rintro ⟨i, k⟩
    by_cases hi : i = (s.itable ip).inum
    · subst hi
      have hfree : ¬ Alloc sb (view sb t) (s.itable ip).inum := by
        intro hal
        refine hal.2 ?_
        rw [hview, if_pos rfl]
      rw [held_of_not_alloc hfree, held_of_alloc (h.alloc hip), h.view_eq hip]
      unfold placeOf
      simp [haddr]
    · have heq : view sb t i = view sb s i := by rw [hview, if_neg hi]
      by_cases hal : Alloc sb (view sb s) i
      · rw [held_of_alloc hal, held_of_alloc ((alloc_congr heq).mpr hal), heq]
      · rw [held_of_not_alloc hal, held_of_not_alloc fun hx => hal ((alloc_congr heq).mp hx)]
  refine ⟨⟨hu', ?_, ?_, by rw [hdisk]; exact howned⟩, ?_, ?_, hdin⟩
  · intro k hk
    by_cases hkip : k = ip
    · subst hkip
      rw [hself, hdev]
      exact h.dev k hip.1
    · rw [hslot k hkip] at hk ⊢
      exact h.dev k hk
  · intro k hk
    obtain ⟨hkip, hk⟩ := hload k hk
    rw [hslot k hkip, hdisk, hdin, if_neg (hne k hkip hk.1)]
    exact h.cached k hk
  · intro i hi
    unfold files
    rw [hview, hdisk]
    split
    · exact if_pos rfl
    · exact absFile_congr fun hx => hdata i trivial ⟨hi, hx⟩ _ (Sub.refl _)
  · intro hs k hk
    obtain ⟨hkip, hk⟩ := hload k hk
    have heq : dinodeAt sb d' (s.itable k).inum = dinodeAt sb s.disk (s.itable k).inum := by
      rw [hdin, if_neg (hne k hkip hk.1)]
    unfold SyncedAt
    rw [hslot k hkip, hdisk]
    exact (hs k hk).blocks hk h trivial heq hdata

/-- What an `iput` that frees its inode leaves. -/
theorem iput_frees (hl : Layout sb) (h : Inv sb s loose) (hf : Frees s ip) :
    wp (iput sb ip) (fun _ t => Inv sb t loose ∧
      (∀ i, InArea sb i → files sb t i
        = if i = (s.itable ip).inum then .empty .none else files sb s i) ∧
      (Synced sb s → Synced sb t) ∧ (∀ k, k ≠ ip → t.itable k = s.itable k) ∧
      (t.itable ip).inum = (s.itable ip).inum ∧ (t.itable ip).ref = 0 ∧
      (t.itable ip).locked = false ∧ ∀ i, InArea sb i → i ≠ (s.itable ip).inum →
        dinodeAt sb t.disk i = dinodeAt sb s.disk i)
      (fun e => e = .deadlock) s := by
  obtain ⟨href, hvalid, hnlink⟩ := hf
  have hip : Loaded s ip := ⟨by omega, hvalid⟩
  rw [iput, wp_bind, wp_inode, if_pos ⟨href, hvalid, hnlink⟩, wp_bind, ifree, wp_bind,
    acquiresleep, wp_bind, wp_inode]
  split
  · rfl
  · rw [wp_setInode]
    obtain ⟨s₁, hs₁⟩ : ∃ s₁, s₁ = withSlot s ip { s.itable ip with
      ref := (s.itable ip).ref, locked := true } := ⟨_, rfl⟩
    obtain ⟨hinv₁, hfiles₁, hsync₁⟩ := ref_step h hip.1 (fun _ => hip.1) true
    rw [← hs₁] at hinv₁ hfiles₁ hsync₁
    have hstate : ({ s with itable := (Function.update s.itable ip
        { s.itable ip with locked := true }) } : FsState) = s₁ := by rw [hs₁]; rfl
    have hself₁ : s₁.itable ip = { s.itable ip with ref := (s.itable ip).ref, locked := true } := by
      rw [hs₁, withSlot_self]
    have hip₁ : Loaded s₁ ip := by
      unfold Loaded
      rw [hself₁]
      exact hip
    rw [hstate, wp_bind]
    refine wp_mono (itrunc_spec hl hinv₁ hip₁) ?_ fun _ he => he.elim
    rintro _ t ⟨hrw, hinv, haddr, _⟩
    have hipt : Loaded t ip := (hrw.loaded ip).mpr hip₁
    have hinum : (t.itable ip).inum = (s.itable ip).inum := by rw [hrw.inum, hself₁]
    have hreft : (t.itable ip).ref = 1 := by
      rw [hrw.ref, hself₁]
      exact href
    -- The rest of `iput`: the type, the dinode, the flags and the reference.
    rw [wp_bind, wp_setInode, wp_bind, iupdate, wp_bind, wp_inode, wp_bind, wp_bread,
      wp_logWrite, wp_setInode, wp_setInode]
    simp only [Function.update_self, Function.update_idem]
    obtain ⟨n, hn⟩ : ∃ n : Inode, n = { t.itable ip with
      type := .none, valid := false, locked := false, ref := (t.itable ip).ref - 1 } := ⟨_, rfl⟩
    obtain ⟨d', hd'⟩ : ∃ d', d' = Function.update t.disk (IBLOCK sb (t.itable ip).inum)
      (writeDinode (t.disk (IBLOCK sb (t.itable ip).inum)) ((t.itable ip).inum % IPB)
        { (t.itable ip).toDinode with type := .none }) := ⟨_, rfl⟩
    obtain ⟨hinv', hfiles', hsync', hdin'⟩ := free_step hl hinv hipt haddr (n := n)
      (by rw [hn]) (by rw [hn]) (by rw [hn]) hd'
    rw [← hd', ← hn]
    refine ⟨hinv', ?_, fun hs => hsync' (hrw.synced (hsync₁ hs)), ?_, ?_, ?_, trivial, ?_⟩
    · intro i hi
      rw [hfiles' i hi, hinum]
      split
      · rfl
      · rename_i hne
        rw [hrw.files i (by rw [hself₁]; exact hne) hi, hfiles₁]
    · intro k hk
      show Function.update t.itable ip n k = s.itable k
      rw [Function.update_of_ne hk, hrw.of_ne hk, hs₁, withSlot_of_ne s _ hk]
    · exact hinum
    · show (t.itable ip).ref - 1 = 0
      omega
    · intro i hi hne
      show dinodeAt sb d' i = _
      rw [hdin', if_neg (by rw [hinum]; exact hne)]
      rcases hrw.written with he | hw
      · rw [he, hs₁]
        rfl
      · rw [hw i hi, if_neg (by rw [hself₁]; exact hne), hs₁]
        rfl

/-- An `iput` that does not free its inode drops a reference, and does nothing else. -/
theorem iput_keeps (hf : ¬ Frees s ip) {post : Unit → FsState → Prop} {err : Panic → Prop} :
    wp (iput sb ip) post err s ↔ post () (dropRef s ip) := by
  have hf : ¬ ((s.itable ip).ref = 1 ∧ (s.itable ip).valid = true ∧
      (s.itable ip).nlink = 0) := hf
  rw [iput, wp_bind, wp_inode, if_neg hf, wp_setInode]
  rfl

/-- What `iput` leaves when the copies are in step with the dinodes. -/
theorem iput_spec (hl : Layout sb) (h : Inv sb s loose) (hs : Synced sb s)
    (href : 0 < (s.itable ip).ref) :
    wp (iput sb ip) (fun _ t => (∃ loose', Inv sb t loose') ∧ Synced sb t ∧
      (∀ i, InArea sb i → files sb t i = if Frees s ip ∧ i = (s.itable ip).inum
        then .empty .none else files sb s i) ∧
      (∀ k, k ≠ ip → t.itable k = s.itable k) ∧
      (t.itable ip).inum = (s.itable ip).inum ∧ (t.itable ip).ref = (s.itable ip).ref - 1)
      (fun e => e = .deadlock) s := by
  by_cases hf : Frees s ip
  · refine wp_post (iput_frees hl h hf) ?_
    rintro _ t ⟨hinv, hfiles, hsync, hother, hinum, hzero, _⟩
    refine ⟨⟨loose, hinv⟩, hsync hs, ?_, hother, hinum, by rw [hzero, hf.1]; rfl⟩
    intro i hi
    rw [hfiles i hi]
    simp [hf]
  · rw [iput_keeps hf]
    -- The copy stays, or the dinode takes over.
    have hstep : (∃ loose', Inv sb (dropRef s ip) loose') ∧ Synced sb (dropRef s ip) ∧
        ∀ i, files sb (dropRef s ip) i = files sb s i := by
      by_cases hlast : (s.itable ip).ref = 1 ∧ (s.itable ip).valid = true
      · obtain ⟨hinv, hfiles, hsync⟩ := unload_step h hlast.1 hlast.2 (hs ip ⟨href, hlast.2⟩)
        exact ⟨⟨_, hinv⟩, hsync hs, hfiles⟩
      · obtain ⟨hinv, hfiles, hsync⟩ := dropRef_step h href fun h1 => by
          simpa using fun hv => hlast ⟨h1, hv⟩
        exact ⟨⟨_, hinv⟩, hsync hs, hfiles⟩
    refine ⟨hstep.1, hstep.2.1, ?_, fun k hk => withSlot_of_ne s _ hk, ?_, ?_⟩
    · intro i _
      rw [hstep.2.2 i, if_neg fun hc => hf hc.1]
    · rw [dropRef, withSlot_self]
    · rw [dropRef, withSlot_self]

/-- The `iput` of `ip` ends no valid copy that differs from its dinode, or it frees the
inode. -/
def CleanPut (sb : Superblock) (s : FsState) (ip : Ino) : Prop :=
  (s.itable ip).ref = 1 → (s.itable ip).valid = true → (s.itable ip).nlink ≠ 0 →
    (s.itable ip).toDinode = dinodeAt sb s.disk (s.itable ip).inum

/-- A clean `iput` leaves no block loose. -/
theorem iput_owned (hl : Layout sb) (h : Inv sb s loose) (href : 0 < (s.itable ip).ref)
    (hclean : CleanPut sb s ip) :
    wp (iput sb ip) (fun _ t => Inv sb t loose) (fun e => e = .deadlock) s := by
  by_cases hf : Frees s ip
  · exact wp_post (iput_frees hl h hf) fun _ t ht => ht.1
  · rw [iput_keeps hf]
    by_cases hlast : (s.itable ip).ref = 1 ∧ (s.itable ip).valid = true
    · have heq := hclean hlast.1 hlast.2 fun hz => hf ⟨hlast.1, hlast.2, hz⟩
      have hsync : SyncedAt sb s ip := by
        unfold SyncedAt
        rw [← heq]
        exact ⟨Sub.refl _, rfl⟩
      obtain ⟨hinv, _, _⟩ := unload_step h hlast.1 hlast.2 hsync
      refine ⟨hinv.uniq, hinv.dev, hinv.cached, hinv.owned.loose_congr loose ?_⟩
      -- The dinode has the blocks of the copy: nothing is lost.
      intro c
      rw [← heq]
      constructor
      · exact Or.inl
      · rintro (hc | ⟨_, ⟨k, hk⟩, hnone⟩)
        · exact hc
        · exact absurd hk (hnone k)
    · exact (dropRef_step h href fun h1 => by simpa using fun hv => hlast ⟨h1, hv⟩).1

/-! ### `ialloc` -/

/-- A free dinode has no copy in the table. -/
theorem Inv.not_loaded (h : Inv sb s loose) {i : Nat}
    (htype : (dinodeAt sb s.disk i).type = .none) (k : Ino) (hk : Loaded s k) :
    (s.itable k).inum ≠ i := by
  rintro rfl
  obtain ⟨_, hne, heq⟩ := h.cached k hk
  rw [htype] at heq
  exact hne heq.symm

/-- `ialloc` marks a free dinode as allocated. -/
theorem mark_step (hl : Layout sb) (h : Inv sb s loose) {i : Nat} (hi : InArea sb i)
    (htype : (dinodeAt sb s.disk i).type = .none) (type : InodeType) {d' : Disk}
    (hd' : d' = Function.update s.disk (IBLOCK sb i)
      (writeDinode (s.disk (IBLOCK sb i)) (i % IPB) (.fresh type))) :
    Inv sb { s with disk := d' } loose ∧
      (∀ j, InArea sb j → files sb { s with disk := d' } j
        = if j = i then .empty type else files sb s j) ∧
      (Synced sb s → Synced sb { s with disk := d' }) ∧
      ∀ j, dinodeAt sb d' j = if j = i then .fresh type else dinodeAt sb s.disk j := by
  have hnone := h.not_loaded htype
  have hdin : ∀ j, dinodeAt sb d' j = if j = i then .fresh type else dinodeAt sb s.disk j := by
    intro j
    rw [hd', dinodeAt_writeDinode]
  have hview : ∀ j, view sb { s with disk := d' } j
      = if j = i then .fresh type else view sb s j := by
    intro j
    by_cases hj : j = i
    · subst hj
      have hfall : view sb { s with disk := d' } j = dinodeAt sb d' j := view_unloaded hnone
      rw [if_pos rfl, hfall, hdin, if_pos rfl]
    · rw [if_neg hj]
      exact view_blocks fun _ => by rw [hdin, if_neg hj]
  have hdata : DataKept sb s d' fun _ => True := by
    rw [hd']
    exact h.dataKept_inodes hi _
  have hown : Owned sb (view sb s) d' loose := by
    rw [hd']
    exact h.owned.update_inodes hl (fun _ _ => rfl) hi _
  refine ⟨⟨h.uniq, h.dev, ?_, ?_⟩, ?_, ?_, hdin⟩
  · intro k hk
    obtain ⟨hkarea, hkne, hkeq⟩ := h.cached k hk
    refine ⟨hkarea, hkne, ?_⟩
    show (dinodeAt sb d' (s.itable k).inum).type = _
    rw [hdin, if_neg (hnone k hk)]
    exact hkeq
  · -- The free inode held nothing, and the new one has no address.
    refine ⟨hown.owns.congr ?_ (fun _ _ _ => Iff.rfl) fun _ => Iff.rfl, hown.metadata⟩
    rintro ⟨j, k⟩
    by_cases hj : j = i
    · subst hj
      have hfree : ¬ Alloc sb (view sb s) j := by
        intro hal
        refine hal.2 ?_
        rw [view_unloaded hnone, htype]
      have hplace : placeOf (view sb { s with disk := d' } j) d' k = 0 := by
        rw [hview, if_pos rfl]
        unfold placeOf
        simp [fresh_addr]
      rw [held_of_not_alloc hfree]
      by_cases hal : Alloc sb (view sb { s with disk := d' }) j
      · rw [held_of_alloc hal]
        exact hplace
      · rw [held_of_not_alloc hal]
    · have heq : view sb { s with disk := d' } j = view sb s j := by rw [hview, if_neg hj]
      by_cases hal : Alloc sb (view sb s) j
      · rw [held_of_alloc hal, held_of_alloc ((alloc_congr heq).mpr hal), heq]
      · rw [held_of_not_alloc hal, held_of_not_alloc fun hx => hal ((alloc_congr heq).mp hx)]
  · intro j hj
    show absFile (view sb { s with disk := d' } j) d' = _
    rw [hview]
    by_cases hji : j = i
    · rw [if_pos hji, if_pos hji]
      by_cases ht : type = .none
      · subst ht
        exact if_pos rfl
      · exact absFile_no_blocks (fresh_addr type) ht d'
    · rw [if_neg hji, if_neg hji]
      exact absFile_congr fun hx => hdata j trivial ⟨hj, hx⟩ _ (Sub.refl _)
  · intro hs k hk
    exact (hs k hk).blocks hk h trivial (by rw [hdin, if_neg (hnone k hk)]) hdata

/-- What `ialloc` leaves: a new file without contents or links, at a number that was free. -/
theorem ialloc_spec (hl : Layout sb) (h : Inv sb s loose) (type : InodeType) :
    wp (ialloc sb ROOTDEV type) (fun r t => match r with
      | none => t = s
      | some k => ∃ i, 1 ≤ i ∧ i < sb.ninodes ∧ (dinodeAt sb s.disk i).type = .none ∧
          (files sb s i).type = .none ∧
          (∃ u, u.itable = s.itable ∧ Inv sb u loose ∧ IgetAt u i k t ∧
            ∀ j, dinodeAt sb u.disk j
              = if j = i then .fresh type else dinodeAt sb s.disk j) ∧ Inv sb t loose ∧
          (∀ j, InArea sb j → files sb t j
            = if j = i then .empty type else files sb s j) ∧
          (Synced sb s → Synced sb t)) Benign s := by
  rw [ialloc, wp_bind, wp_read]
  split
  · rename_i i hfind
    have hfree := List.find?_some hfind
    simp only [decide_eq_true_eq] at hfree
    obtain ⟨hpos, htype⟩ := hfree
    have hi : i < sb.ninodes := List.mem_range.mp (List.mem_of_find?_eq_some hfind)
    obtain ⟨d', hd'⟩ : ∃ d', d' = Function.update s.disk (IBLOCK sb i)
      (writeDinode (s.disk (IBLOCK sb i)) (i % IPB) (.fresh type)) := ⟨_, rfl⟩
    obtain ⟨hinv, hfiles, hsync, hdin⟩ := mark_step hl h (hl.inodes i hi) htype type hd'
    rw [wp_bind, wp_logWrite, ← hd', wp_bind]
    refine wp_post (iget_spec hinv i) ?_
    rintro k t ⟨hget, hinv', hfiles', hsync'⟩
    refine ⟨i, hpos, hi, htype, ?_, ⟨{ s with disk := d' }, rfl, hinv, hget, hdin⟩, hinv', ?_,
      fun hs => hsync' (hsync hs)⟩
    · unfold files
      rw [absFile_type, view_unloaded (h.not_loaded htype), htype]
    · intro j hj
      rw [hfiles' j, hfiles j hj]
  · rfl

/-! ### `idup` and `iunlock` -/

/-- What `idup` leaves. -/
theorem idup_spec (h : Inv sb s loose) (href : 0 < (s.itable ip).ref) :
    wp (idup ip) (fun r t => r = ip ∧ Inv sb t loose ∧ (∀ i, files sb t i = files sb s i) ∧
      (Synced sb s → Synced sb t) ∧
      t = withSlot s ip { s.itable ip with ref := (s.itable ip).ref + 1 })
      (fun _ => False) s := by
  obtain ⟨hinv, hfiles, hsync⟩ := ref_step (r := (s.itable ip).ref + 1) h href (fun _ => by omega)
    (s.itable ip).locked
  exact ⟨rfl, hinv, hfiles, hsync, rfl⟩

/-- What `iunlock` leaves. -/
theorem iunlock_spec (h : Inv sb s loose) :
    wp (iunlock ip) (fun _ t => Inv sb t loose ∧ (∀ i, files sb t i = files sb s i) ∧
      (Synced sb s → Synced sb t) ∧ 0 < (s.itable ip).ref ∧
      t = withSlot s ip { s.itable ip with locked := false }) (fun e => e = .iunlock) s := by
  rw [iunlock, wp_bind, wp_inode]
  split
  · rfl
  · rename_i hlock
    have href : 0 < (s.itable ip).ref := by omega
    obtain ⟨hinv, hfiles, hsync⟩ := ref_step h href (fun _ => href) false
    exact ⟨hinv, hfiles, hsync, href, rfl⟩

/-! ### Changes of the other fields -/

/-- A caller changes the device numbers and the links of an inode, and calls `iupdate`. -/
theorem update_spec (hl : Layout sb) (h : Inv sb s loose) (hip : Loaded s ip)
    {f : Inode → Inode} {major minor nlink : Int16}
    (hf : f (s.itable ip) = { s.itable ip with toDinode :=
      { (s.itable ip).toDinode with major := major, minor := minor, nlink := nlink } }) :
    wp (setInode ip f >>= fun _ => iupdate sb ip) (fun _ t => Inv sb t loose ∧ Same s t ∧
      (Synced sb s → Synced sb t) ∧ (∀ i, InArea sb i → files sb t i
        = if i = (s.itable ip).inum
          then { files sb s i with major := major, minor := minor, nlink := nlink }
          else files sb s i) ∧
      (∀ k, k ≠ ip → t.itable k = s.itable k) ∧
      ∀ i, dinodeAt sb t.disk i = if i = (s.itable ip).inum then (t.itable ip).toDinode
        else dinodeAt sb s.disk i) (fun _ => False) s := by
  obtain ⟨y, hy⟩ : ∃ y : Dinode, y = { (s.itable ip).toDinode with
    major := major, minor := minor, nlink := nlink } := ⟨_, rfl⟩
  rw [← hy] at hf
  obtain ⟨hinv, hfiles, hsync⟩ := fields_step (y := y) h hip (by rw [hy]) (by rw [hy])
  have hip' : Loaded (withDinode s ip y) ip := (withDinode_loaded s ip ip y).mpr hip
  rw [wp_bind, wp_withDinode hf]
  refine wp_post (iupdate_step hl hinv hip') ?_
  rintro _ t ⟨htable, hinvt, hfilest, hdint, hsynct⟩
  refine ⟨hinvt, Same.withDinode s ip y htable, ?_, ?_, ?_, ?_⟩
  · intro hs
    refine hsynct fun k hk hload => hsync k hk (hs k ?_)
    exact (withDinode_loaded s ip k y).mp hload
  · intro i hi
    rw [hfilest i hi, hfiles i]
    split
    · rename_i he
      rw [he, h.files_eq hip, absFile_of_alloc (h.cached ip hip).2.1, hy]
    · rfl
  · intro k hk
    rw [htable, withDinode_of_ne s y hk]
  · intro i
    rw [hdint i, withDinode_inum, htable]
    rfl

end Xv6.Proofs.Fs
