import Xv6.Kernel.Cache

/-!
# `Xv6.Proofs.Cache.Touch`: what each buffer function does

A buffer function works for one agent on one buffer. `Touch c c' a i b u` says that: `c'` is
`c` with the buffer `i` replaced by `b` and the agent `a` moved to `u`, and `b` still stands
for the same block. Every function of the cache is a `Touch`, with one exception: a `bget`
that misses recycles a buffer for another block (`Recycle`).

The lemmas `acquiresleep_touch`, `fill_touch` and so on are the only places that unfold the
functions.
-/

set_option autoImplicit false

namespace Xv6.Proofs.Cache

open Xv6.Kernel

variable {A : Type} [DecidableEq A]

/-- The agent `a` moves to `u` and replaces the buffer `i` by `b`, for the same block. -/
structure Touch (c c' : Cache A) (a : A) (i : Fin NBUF) (b : Buf A) (u : Use) : Prop where
  bufs : c'.bufs = Function.update c.bufs i b
  uses : c'.uses = Function.update c.uses a u
  listed : ∀ j, j ∈ c.lru → j ∈ c'.lru
  dev : b.dev = (c.bufs i).dev
  blockno : b.blockno = (c.bufs i).blockno

/-- The agent `a` takes the unreferenced buffer `i` for the block `(dev, b)`, which no buffer
of the list caches. -/
structure Recycle (c c' : Cache A) (a : A) (i : Fin NBUF) (dev b : Nat) : Prop where
  unused : (c.bufs i).refcnt = 0
  missing : ∀ j ∈ c.lru, ¬ ((c.bufs j).dev = dev ∧ (c.bufs j).blockno = b)
  bufs : c'.bufs = Function.update c.bufs i
    { c.bufs i with dev := dev, blockno := b, valid := false, refcnt := 1 }
  uses : c'.uses = Function.update c.uses a (.waiting i)
  lru : c'.lru = c.lru
  disk : c'.disk = c.disk

variable {c c' : Cache A} {a : A} {dev b : Nat}

/-- `bget` takes a reference to the buffer of the block, or recycles one. -/
theorem bget_touch (h : c.bget a dev b = some c') :
    (∃ i, (c.bufs i).dev = dev ∧ (c.bufs i).blockno = b ∧ c'.disk = c.disk ∧
      Touch c c' a i { c.bufs i with refcnt := (c.bufs i).refcnt + 1 } (.waiting i)) ∨
    (∃ i, Recycle c c' a i dev b) := by
  unfold Cache.bget at h
  split at h
  · rename_i i hfind
    cases h
    have hi : (c.bufs i).dev = dev ∧ (c.bufs i).blockno = b := by
      simpa using List.find?_some hfind
    exact Or.inl ⟨i, hi.1, hi.2, rfl, rfl, rfl, fun _ hj => hj, rfl, rfl⟩
  · rename_i hnone
    split at h
    · rename_i i hvictim
      cases h
      have hzero : (c.bufs i).refcnt = 0 := by simpa using List.find?_some hvictim
      refine Or.inr ⟨i, hzero, ?_, rfl, rfl, rfl, rfl⟩
      intro j hj
      simpa using List.find?_eq_none.mp hnone j hj
    · cases h

/-- `bget` panics when the block is not cached and every buffer is referenced. -/
theorem bget_eq_none (h : c.bget a dev b = none) :
    ∀ j ∈ c.lru, ¬ ((c.bufs j).dev = dev ∧ (c.bufs j).blockno = b) ∧ (c.bufs j).refcnt ≠ 0 := by
  unfold Cache.bget at h
  split at h
  · cases h
  · rename_i hnone
    split at h
    · cases h
    · rename_i hvictim
      intro j hj
      refine ⟨by simpa using List.find?_eq_none.mp hnone j hj, ?_⟩
      simpa using List.find?_eq_none.mp hvictim j (List.mem_reverse.mpr hj)

theorem bget_none_of
    (h : ∀ j, ¬ ((c.bufs j).dev = dev ∧ (c.bufs j).blockno = b) ∧ (c.bufs j).refcnt ≠ 0) :
    c.bget a dev b = none := by
  have hfind : c.find dev b = none := List.find?_eq_none.mpr fun j _ => by simpa using (h j).1
  have hvictim : c.victim = none := List.find?_eq_none.mpr fun j _ => by simpa using (h j).2
  rw [Cache.bget, hfind, hvictim]

theorem acquiresleep_touch (h : c.acquiresleep a = some c') :
    ∃ i, c.uses a = .waiting i ∧ (c.bufs i).lock = none ∧ c'.disk = c.disk ∧
      Touch c c' a i { c.bufs i with lock := some a } (.locked i) := by
  unfold Cache.acquiresleep at h
  split at h
  · rename_i i hu
    split at h
    · rename_i hlock
      cases h
      exact ⟨i, hu, hlock, rfl, rfl, rfl, fun _ hj => hj, rfl, rfl⟩
    · cases h
  · cases h

/-- `bread` leaves the buffer valid: as it was, or with the contents of the disk. -/
theorem fill_touch (h : c.fill a = some c') :
    ∃ i b, c.uses a = .locked i ∧ c'.disk = c.disk ∧ Touch c c' a i b (.held i false) ∧
      ((c.bufs i).valid = true ∧ b = c.bufs i ∨
        (c.bufs i).valid = false ∧
          b = { c.bufs i with data := c.disk (c.bufs i).blockno, valid := true }) := by
  unfold Cache.fill at h
  split at h
  · rename_i i hu
    split at h
    · rename_i hvalid
      cases h
      refine ⟨i, c.bufs i, hu, rfl, ?_, Or.inl ⟨hvalid, rfl⟩⟩
      exact ⟨(Function.update_eq_self i c.bufs).symm, rfl, fun _ hj => hj, rfl, rfl⟩
    · rename_i hvalid
      cases h
      refine ⟨i, _, hu, rfl, ?_, Or.inr ⟨by simpa using hvalid, rfl⟩⟩
      exact ⟨rfl, rfl, fun _ hj => hj, rfl, rfl⟩
  · cases h

theorem modify_touch {x : Block} (h : c.modify a x = some c') :
    ∃ i d, c.uses a = .held i d ∧ c'.disk = c.disk ∧
      Touch c c' a i { c.bufs i with data := x } (.held i true) := by
  unfold Cache.modify at h
  split at h
  · rename_i i d hu
    cases h
    exact ⟨i, d, hu, rfl, rfl, rfl, fun _ hj => hj, rfl, rfl⟩
  · cases h

theorem bwrite_touch (h : c.bwrite a = some c') :
    ∃ i d, c.uses a = .held i d ∧
      c'.disk = Function.update c.disk (c.bufs i).blockno (c.bufs i).data ∧
      Touch c c' a i (c.bufs i) (.held i false) := by
  unfold Cache.bwrite at h
  split at h
  · rename_i i d hu
    cases h
    refine ⟨i, d, hu, rfl, ?_⟩
    exact ⟨(Function.update_eq_self i c.bufs).symm, rfl, fun _ hj => hj, rfl, rfl⟩
  · cases h

variable {i : Fin NBUF} {u : Use}

/-- The move of `log_write` without a pin: the buffer counts as clean. -/
theorem setUse_touch :
    Touch c (c.setUse a u) a i (c.bufs i) u :=
  ⟨(Function.update_eq_self i c.bufs).symm, rfl, fun _ hj => hj, rfl, rfl⟩

/-- The move of `log_write` with a pin. -/
theorem bpin_touch (h : (c.setUse a (.held i false)).bpin a = some c') :
    c'.disk = c.disk ∧
      Touch c c' a i { c.bufs i with refcnt := (c.bufs i).refcnt + 1 } (.held i false) := by
  have hu : (c.setUse a (.held i false)).uses a = .held i false := by simp [Cache.setUse]
  unfold Cache.bpin at h
  rw [hu] at h
  cases h
  exact ⟨rfl, rfl, rfl, fun _ hj => hj, rfl, rfl⟩

theorem bunpin_touch (h : c.bunpin a = some c') :
    ∃ i d, c.uses a = .held i d ∧ c'.disk = c.disk ∧
      Touch c c' a i { c.bufs i with refcnt := (c.bufs i).refcnt - 1 } (.held i d) := by
  unfold Cache.bunpin at h
  split at h
  · rename_i i d hu
    cases h
    refine ⟨i, d, hu, rfl, rfl, ?_, fun _ hj => hj, rfl, rfl⟩
    rw [← hu, Function.update_eq_self]
    rfl
  · cases h

theorem releasesleep_touch (h : c.releasesleep a = some c') :
    ∃ i, c.uses a = .held i false ∧ c'.disk = c.disk ∧
      Touch c c' a i { c.bufs i with lock := none } (.releasing i) := by
  unfold Cache.releasesleep at h
  split at h
  · rename_i i hu
    cases h
    exact ⟨i, hu, rfl, rfl, rfl, fun _ hj => hj, rfl, rfl⟩
  · cases h

/-- `brelse` drops the reference. A move to the front of the list keeps every buffer in it. -/
theorem unref_touch (h : c.unref a = some c') :
    ∃ i, c.uses a = .releasing i ∧ c'.disk = c.disk ∧
      Touch c c' a i { c.bufs i with refcnt := (c.bufs i).refcnt - 1 } .idle := by
  unfold Cache.unref at h
  split at h
  · rename_i i hu
    simp only at h
    split at h
    · cases h
      refine ⟨i, hu, rfl, rfl, rfl, ?_, rfl, rfl⟩
      intro j hj
      show j ∈ i :: c.lru.erase i
      by_cases hji : j = i
      · rw [hji]
        exact List.mem_cons_self
      · exact List.mem_cons_of_mem _ ((List.mem_erase_of_ne hji).mpr hj)
    · cases h
      exact ⟨i, hu, rfl, rfl, rfl, fun _ hj => hj, rfl, rfl⟩
  · cases h

/-! ### What the other agents see -/

/-- A step of `a` does not touch the other agents: they stay where they are, a referenced
buffer keeps its block, and a locked one keeps its contents. -/
structure Keeps (c c' : Cache A) (a : A) : Prop where
  others : ∀ a', a' ≠ a → c'.uses a' = c.uses a'
  block : ∀ i, (c.bufs i).refcnt ≠ 0 →
    (c'.bufs i).dev = (c.bufs i).dev ∧ (c'.bufs i).blockno = (c.bufs i).blockno
  data : ∀ i a', a' ≠ a → (c.bufs i).lock = some a' → (c'.bufs i).data = (c.bufs i).data

theorem Touch.block {b : Buf A} (t : Touch c c' a i b u) (j : Fin NBUF) :
    (c'.bufs j).dev = (c.bufs j).dev ∧ (c'.bufs j).blockno = (c.bufs j).blockno := by
  rw [t.bufs]
  by_cases hj : j = i
  · rw [hj, Function.update_self]
    exact ⟨t.dev, t.blockno⟩
  · rw [Function.update_of_ne hj]
    exact ⟨rfl, rfl⟩

/-- A step on a buffer changes its data only under the agent's own lock. -/
theorem Touch.keeps {b : Buf A} (t : Touch c c' a i b u)
    (h : b.data = (c.bufs i).data ∨ (c.bufs i).lock = some a) :
    Keeps c c' a := by
  refine ⟨fun a' ha => by rw [t.uses, Function.update_of_ne ha], fun j _ => t.block j, ?_⟩
  intro j a' ha hlock
  rw [t.bufs]
  by_cases hj : j = i
  · subst hj
    rw [Function.update_self]
    rcases h with hd | hl
    · exact hd
    · rw [hl] at hlock
      exact absurd (Option.some.inj hlock).symm ha
  · rw [Function.update_of_ne hj]

theorem Recycle.keeps (r : Recycle c c' a i dev b) : Keeps c c' a := by
  refine ⟨fun a' ha => by rw [r.uses, Function.update_of_ne ha], ?_, ?_⟩
  · intro j hj
    have hne : j ≠ i := by
      rintro rfl
      exact hj r.unused
    rw [r.bufs, Function.update_of_ne hne]
    exact ⟨rfl, rfl⟩
  · intro j a' _ _
    rw [r.bufs]
    by_cases hj : j = i
    · rw [hj, Function.update_self]
    · rw [Function.update_of_ne hj]

theorem bget_keeps (h : c.bget a dev b = some c') :
    Keeps c c' a := by
  rcases bget_touch h with ⟨i, -, -, -, t⟩ | ⟨i, r⟩
  · exact t.keeps (Or.inl rfl)
  · exact r.keeps

end Xv6.Proofs.Cache
