import Mathlib.Data.List.Nodup
import Mathlib.Logic.Function.Basic

/-!
# `Xv6.Lib.Writes`: lists of writes to a store

A store is a function from addresses to contents, and `applyWrites` performs a list of
writes in order. Later writes win. So a list of writes absorbs any prefix of itself that was
already done (`applyWrites_take_all`), the fact behind a redo log: running the list again
after a crash in the middle gives the same store.
-/

set_option autoImplicit false

namespace Xv6.Lib

variable {ι β : Type} [DecidableEq ι]

/-- The writes `ws` applied to a store, in order. -/
def applyWrites (ws : List (ι × β)) (d : ι → β) : ι → β :=
  ws.foldl (fun d w => Function.update d w.1 w.2) d

@[simp] theorem applyWrites_nil (d : ι → β) : applyWrites [] d = d := rfl

theorem applyWrites_cons (w : ι × β) (ws : List (ι × β)) (d : ι → β) :
    applyWrites (w :: ws) d = applyWrites ws (Function.update d w.1 w.2) := rfl

theorem applyWrites_append (ws vs : List (ι × β)) (d : ι → β) :
    applyWrites (ws ++ vs) d = applyWrites vs (applyWrites ws d) := by
  simp [applyWrites, List.foldl_append]

/-- One more write of the list. -/
theorem applyWrites_take_succ (ws : List (ι × β)) (k : Nat) (hk : k < ws.length) (d : ι → β) :
    applyWrites (ws.take (k + 1)) d
      = Function.update (applyWrites (ws.take k) d) (ws[k]).1 (ws[k]).2 := by
  rw [List.take_succ_eq_append_getElem hk, applyWrites_append]
  rfl

/-- An address that no write touches keeps its contents. -/
theorem applyWrites_of_notMem (ws : List (ι × β)) (d : ι → β) (a : ι)
    (h : a ∉ ws.map Prod.fst) : applyWrites ws d a = d a := by
  induction ws generalizing d with
  | nil => rfl
  | cons w ws ih =>
    simp only [List.map_cons, List.mem_cons, not_or] at h
    rw [applyWrites_cons, ih _ h.2, Function.update_of_ne h.1]

/-- An address that some write touches ends with the same contents over every store. -/
theorem applyWrites_congr (ws : List (ι × β)) (d d' : ι → β) (a : ι)
    (h : a ∈ ws.map Prod.fst ∨ d a = d' a) : applyWrites ws d a = applyWrites ws d' a := by
  induction ws generalizing d d' with
  | nil => exact h.resolve_left (by simp)
  | cons w ws ih =>
    rw [applyWrites_cons, applyWrites_cons]
    apply ih
    by_cases ha : a = w.1
    · right
      subst ha
      simp
    · rcases h with h | h
      · simp only [List.map_cons, List.mem_cons] at h
        exact Or.inl (h.resolve_left ha)
      · right
        rw [Function.update_of_ne ha, Function.update_of_ne ha, h]

/-- A list of writes absorbs any prefix of itself that was already done. -/
theorem applyWrites_take_all (ws : List (ι × β)) (k : Nat) (d : ι → β) (a : ι) :
    applyWrites ws (applyWrites (ws.take k) d) a = applyWrites ws d a := by
  apply applyWrites_congr
  by_cases ha : a ∈ ws.map Prod.fst
  · exact Or.inl ha
  · right
    apply applyWrites_of_notMem
    intro hmem
    obtain ⟨w, hw, rfl⟩ := List.mem_map.mp hmem
    exact ha (List.mem_map_of_mem (List.mem_of_mem_take hw))

/-- Writes of the contents of `e`, over a store that has them where nothing is written. -/
theorem applyWrites_of_agree {ws : List (ι × β)} {d e : ι → β} {a : ι}
    (hws : ∀ w ∈ ws, w.2 = e w.1) (hd : a ∉ ws.map Prod.fst → d a = e a) :
    applyWrites ws d a = e a := by
  induction ws generalizing d with
  | nil => exact hd (by simp)
  | cons w ws ih =>
    rw [applyWrites_cons]
    refine ih (fun v hv => hws v (List.mem_cons_of_mem _ hv)) fun hnot => ?_
    by_cases ha : a = w.1
    · rw [ha, Function.update_self, hws w List.mem_cons_self]
    · rw [Function.update_of_ne ha]
      exact hd (by simp [ha, hnot])

/-- With distinct addresses, each write is the last one to its address. -/
theorem applyWrites_of_mem (ws : List (ι × β)) (d : ι → β) (hnd : (ws.map Prod.fst).Nodup)
    (w : ι × β) (hw : w ∈ ws) : applyWrites ws d w.1 = w.2 := by
  induction ws generalizing d with
  | nil => exact absurd hw (by simp)
  | cons v ws ih =>
    rw [List.map_cons, List.nodup_cons] at hnd
    rw [applyWrites_cons]
    rcases List.mem_cons.mp hw with rfl | hw
    · rw [applyWrites_of_notMem _ _ _ hnd.1, Function.update_self]
    · exact ih _ hnd.2 hw

end Xv6.Lib
