import Mathlib.Algebra.BigOperators.Group.Finset.Basic
import Mathlib.Algebra.Order.BigOperators.Group.Finset
import Mathlib.Data.List.Basic
import Mathlib.Data.Fintype.Card
import Mathlib.Logic.Function.Basic

/-!
# `Xv6.Lib.Machine`: labelled machines, their runs and their invariants

A machine steps from a state under an action. `none` means that the action is not enabled;
an error means that the step panics, which ends the run. `Reach m allowed init` holds of the
states reached from an initial state by steps whose actions `allowed` accepts, and
`Reach.invariant` is the one induction every safety proof uses.

`exec` performs a given list of actions. It connects to `Reach` by `reach_of_exec` and
`reach_of_guarded`, so a concrete schedule is a run.

The last part counts: how the number of agents with a property changes when one agent's
state does (`countAgents_update`), and how a sum over the agents does (`sum_of_eq_off`).
-/

set_option autoImplicit false

namespace Xv6.Lib

variable {σ α ε : Type}

/-- A machine: from a state and an action, not enabled, a panic, or the next state. -/
abbrev Machine (σ α ε : Type) := σ → α → Option (Except ε σ)

/-- The states reached from `init` by steps that `allowed` accepts. -/
inductive Reach (m : Machine σ α ε) (allowed : σ → α → Prop) (init : σ → Prop) : σ → Prop
  | start {s : σ} : init s → Reach m allowed init s
  | step {s s' : σ} {a : α} : Reach m allowed init s → allowed s a → m s a = some (.ok s') →
      Reach m allowed init s'

/-- What holds initially and is kept by every allowed step holds in every reached state. -/
theorem Reach.invariant {m : Machine σ α ε} {allowed : σ → α → Prop} {init : σ → Prop}
    {inv : σ → Prop} (hinit : ∀ s, init s → inv s)
    (hstep : ∀ s a s', inv s → allowed s a → m s a = some (.ok s') → inv s') {s : σ}
    (h : Reach m allowed init s) : inv s := by
  induction h with
  | start h => exact hinit _ h
  | step _ hall hm ih => exact hstep _ _ _ ih hall hm

/-- Perform the actions in order. -/
def exec (m : Machine σ α ε) (s : σ) : List α → Option (Except ε σ)
  | [] => some (.ok s)
  | a :: as =>
    match m s a with
    | some (.ok s') => exec m s' as
    | r => r

theorem exec_append {m : Machine σ α ε} {s t : σ} {as bs : List α}
    (h : exec m s as = some (.ok t)) : exec m s (as ++ bs) = exec m t bs := by
  induction as generalizing s with
  | nil =>
    obtain rfl : s = t := by simpa [exec] using h
    rfl
  | cons a as ih =>
    rw [exec] at h
    rw [List.cons_append, exec]
    split at h
    · exact ih h
    · rename_i hne
      exact absurd h (hne t)

/-- A performed list of actions is a run, when its actions are allowed in any state. -/
theorem reach_of_exec {m : Machine σ α ε} {allowed : σ → α → Prop} {init : σ → Prop} {s s' : σ}
    {as : List α} (hs : Reach m allowed init s) (hall : ∀ a ∈ as, ∀ t, allowed t a)
    (h : exec m s as = some (.ok s')) : Reach m allowed init s' := by
  induction as generalizing s with
  | nil =>
    obtain rfl : s = s' := by simpa [exec] using h
    exact hs
  | cons a as ih =>
    rw [exec] at h
    split at h
    · rename_i t ht
      have hstep := Reach.step hs (hall a List.mem_cons_self s) ht
      exact ih hstep (fun b hb => hall b (List.mem_cons_of_mem a hb)) h
    · rename_i hne
      exact absurd h (hne s')

/-- The machine that performs only the actions `ok` accepts. -/
def guarded (m : Machine σ α ε) (ok : σ → α → Prop) [∀ s a, Decidable (ok s a)] :
    Machine σ α ε :=
  fun s a => if ok s a then m s a else none

/-- A list of actions performed by the guarded machine is a run of allowed steps. -/
theorem reach_of_guarded {m : Machine σ α ε} {allowed : σ → α → Prop}
    [∀ s a, Decidable (allowed s a)] {init : σ → Prop} {s s' : σ} {as : List α}
    (hs : Reach m allowed init s) (h : exec (guarded m allowed) s as = some (.ok s')) :
    Reach m allowed init s' := by
  induction as generalizing s with
  | nil =>
    obtain rfl : s = s' := by simpa [exec] using h
    exact hs
  | cons a as ih =>
    rw [exec] at h
    split at h
    · rename_i t ht
      unfold guarded at ht
      split at ht
      · rename_i hok
        exact ih (.step hs hok ht) h
      · cases ht
    · rename_i hne
      exact absurd h (hne s')

/-- The panic that a step ends in. -/
def panicOf : Option (Except ε σ) → Option ε
  | some (.error e) => some e
  | _ => none

theorem panicOf_eq_some {r : Option (Except ε σ)} {e : ε} :
    panicOf r = some e ↔ r = some (.error e) := by
  match r with
  | some (.ok s) => simp [panicOf]
  | some (.error e') => simp [panicOf]
  | none => simp [panicOf]

/-- The list of actions ends in a state with the property `f`. -/
def ends (r : Option (Except ε σ)) (f : σ → Bool) : Bool :=
  match r with
  | some (.ok s) => f s
  | _ => false

theorem ends_iff {r : Option (Except ε σ)} {f : σ → Bool} :
    ends r f = true ↔ ∃ s, r = some (.ok s) ∧ f s = true := by
  match r with
  | some (.ok s) => simp [ends]
  | some (.error e) => simp [ends]
  | none => simp [ends]

/-! ### Counting agents -/

section Count
variable {A U : Type} [Fintype A]

/-- The number of agents whose state has the property `p`. -/
def countAgents (f : A → U) (p : U → Prop) [DecidablePred p] : Nat :=
  (Finset.univ.filter fun a => p (f a)).card

theorem countAgents_eq_zero (f : A → U) (p : U → Prop) [DecidablePred p] :
    countAgents f p = 0 ↔ ∀ a, ¬ p (f a) := by
  simp [countAgents, Finset.filter_eq_empty_iff]

theorem countAgents_pos (f : A → U) (p : U → Prop) [DecidablePred p] :
    0 < countAgents f p ↔ ∃ a, p (f a) := by
  rw [Nat.pos_iff_ne_zero, Ne, countAgents_eq_zero]
  simp

theorem countAgents_congr {f g : A → U} {p : U → Prop} [DecidablePred p]
    (h : ∀ a, p (f a) ↔ p (g a)) : countAgents f p = countAgents g p := by
  unfold countAgents
  congr 1
  exact Finset.filter_congr fun a _ => h a

/-- One agent's new state changes the count by that agent only. -/
theorem countAgents_update [DecidableEq A] (f : A → U) (p : U → Prop) [DecidablePred p] (a : A)
    (u : U) :
    countAgents (Function.update f a u) p + (if p (f a) then 1 else 0)
      = countAgents f p + (if p u then 1 else 0) := by
  have hsplit : ∀ g : A → U, countAgents g p
      = ((Finset.univ.erase a).filter fun b => p (g b)).card + (if p (g a) then 1 else 0) := by
    intro g
    have huniv : (Finset.univ : Finset A) = insert a (Finset.univ.erase a) := by
      simp [Finset.insert_erase]
    rw [countAgents]
    conv_lhs => rw [huniv, Finset.filter_insert]
    split
    · rw [Finset.card_insert_of_notMem (by simp)]
    · rfl
  have hrest : ((Finset.univ.erase a).filter fun b => p (Function.update f a u b))
      = (Finset.univ.erase a).filter fun b => p (f b) := by
    apply Finset.filter_congr
    intro b hb
    rw [Function.update_of_ne (Finset.ne_of_mem_erase hb)]
  rw [hsplit (Function.update f a u), hsplit f, hrest, Function.update_self]
  omega

/-- A sum over the agents changes by one agent's summand only. -/
theorem sum_of_eq_off [DecidableEq A] {f g : A → Nat} {a : A} (h : ∀ b, b ≠ a → g b = f b) :
    ∑ b, g b + f a = ∑ b, f b + g a := by
  rw [← Finset.add_sum_erase _ f (Finset.mem_univ a),
    ← Finset.add_sum_erase _ g (Finset.mem_univ a)]
  have hrest : ∑ b ∈ Finset.univ.erase a, g b = ∑ b ∈ Finset.univ.erase a, f b :=
    Finset.sum_congr rfl fun b hb => h b (Finset.ne_of_mem_erase hb)
  rw [hrest]
  omega

/-- Summands of at most `n`, for the agents with a property only, add up to at most `n` for
each such agent. -/
theorem sum_le_countAgents {f : A → U} {p : U → Prop} [DecidablePred p] {g : A → Nat} {n : Nat}
    (h : ∀ a, g a ≤ if p (f a) then n else 0) : ∑ a, g a ≤ countAgents f p * n := by
  calc ∑ a, g a ≤ ∑ a, (if p (f a) then n else 0) := Finset.sum_le_sum fun a _ => h a
    _ = countAgents f p * n := by
        rw [countAgents, ← Finset.sum_filter, Finset.sum_const_nat fun _ _ => rfl]

end Count

end Xv6.Lib
