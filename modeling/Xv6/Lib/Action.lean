import Xv6.Lib.Machine
import Mathlib.Logic.Function.Basic

/-!
# `Xv6.Lib.Action`: programs that return or stop with an error, and their assertions

An `Action σ ε α` runs over a state `σ`. It returns a value and the new state, or it stops
with an error, which keeps no state: nothing runs after it.

`wp x post err s` is the weakest precondition: from `s`, the program `x` either returns
with `post`, or stops with an error that `err` allows. Each combinator has its rule
(`wp_pure`, `wp_bind`, `wp_read`, `wp_modify`, `wp_fail`, `wp_when`, `wp_zoom`), tagged for `simp`, and
a proof about a program follows its text. A proved fact about a callee enters by `wp_mono`.

Two loops come with their invariant rules. `forEach` runs its body on every element of a
list. `firstSome` stops at the first element on which the body returns a value.

`machine run` is the labelled machine whose steps are programs, so that runs of programs have
the invariant rule of `Lib.Machine`.

`Keeps f x` says that `x` leaves the part `f` of the state as it was. It has one rule per
combinator, so a frame fact about a long program is assembled and never computed.
`Maintains I x`, for an invariant, and `Throws P x`, for the errors of `x`, work in the same
way. `Moves R P x` says both at once, with a relation between the states before and after.
-/

set_option autoImplicit false

namespace Xv6.Lib

/-- A program over the state `σ` that returns a value or stops with an error. -/
def Action (σ ε α : Type) := σ → Except ε (α × σ)

namespace Action

variable {σ τ ε α β γ ι : Type}

/-- Return a value. -/
def pure (a : α) : Action σ ε α := fun s => .ok (a, s)

/-- Run `x`, then `f` on its result. -/
def bind (x : Action σ ε α) (f : α → Action σ ε β) : Action σ ε β := fun s =>
  match x s with
  | .ok (a, t) => f a t
  | .error e => .error e

instance : Monad (Action σ ε) where
  pure := Action.pure
  bind := Action.bind

/-- Read a part of the state. -/
def read (f : σ → α) : Action σ ε α := fun s => .ok (f s, s)

/-- Change the state. -/
def modify (f : σ → σ) : Action σ ε Unit := fun s => .ok ((), f s)

/-- Stop with an error. -/
def fail (e : ε) : Action σ ε α := fun _ => .error e

/-- Run a program if a condition holds. -/
def when (c : Prop) [Decidable c] (x : Action σ ε Unit) : Action σ ε Unit :=
  if c then x else pure ()

/-- Run a program of a part of the state. -/
def zoom (get : σ → τ) (set : τ → σ → σ) (x : Action τ ε α) : Action σ ε α := fun s =>
  match x (get s) with
  | .ok (a, t) => .ok (a, set t s)
  | .error e => .error e

/-- Run the body on each element of the list, in order. -/
def forEach (body : ι → Action σ ε Unit) : List ι → Action σ ε Unit
  | [] => Pure.pure ()
  | i :: l => do
      body i
      forEach body l

/-- Run the body on each element of the list, in order, up to the first that returns a
value. -/
def firstSome (body : ι → Action σ ε (Option α)) : List ι → Action σ ε (Option α)
  | [] => Pure.pure none
  | i :: l => do
      match ← body i with
      | some a => Pure.pure (some a)
      | none => firstSome body l

/-- The weakest precondition: `x` returns with `post` or stops with an error in `err`. -/
def wp (x : Action σ ε α) (post : α → σ → Prop) (err : ε → Prop) (s : σ) : Prop :=
  match x s with
  | .ok (a, t) => post a t
  | .error e => err e

variable {x : Action σ ε α} {f : α → Action σ ε β} {post post' : α → σ → Prop}
  {err err' : ε → Prop} {s : σ}

theorem wp_iff : wp x post err s ↔
    (∀ a t, x s = .ok (a, t) → post a t) ∧ ∀ e, x s = .error e → err e := by
  unfold wp
  cases h : x s with
  | ok r =>
    obtain ⟨a, t⟩ := r
    simp
  | error e => simp

instance decidableWp [∀ a t, Decidable (post a t)] [∀ e, Decidable (err e)] :
    Decidable (wp x post err s) :=
  match h : x s with
  | .ok (a, t) => decidable_of_iff (post a t) (by simp [wp, h])
  | .error e => decidable_of_iff (err e) (by simp [wp, h])

/-- A run goes on where its first part returns. -/
theorem bind_ok {x : Action σ ε α} {f : α → Action σ ε β} {s t : σ} {a : α}
    (h : x s = .ok (a, t)) : (x >>= f) s = f a t := by
  show bind x f s = _
  unfold bind
  rw [h]

/-- What the precondition says of a run that returns. -/
theorem wp_ok (h : wp x post err s) {a : α} {t : σ} (hx : x s = .ok (a, t)) : post a t :=
  (wp_iff.mp h).1 a t hx

/-- The precondition of a run that returns is what its end has to satisfy. -/
theorem wp_iff_of_ok {a : α} {t : σ} (hx : x s = .ok (a, t)) : wp x post err s ↔ post a t := by
  unfold wp
  rw [hx]

/-- What the precondition says of a run that stops with an error. -/
theorem wp_error (h : wp x post err s) {e : ε} (hx : x s = .error e) : err e :=
  (wp_iff.mp h).2 e hx

/-- A program that cannot stop with an error returns. -/
theorem wp_returns (h : wp x post err s) (herr : ∀ e, ¬ err e) :
    ∃ a t, x s = .ok (a, t) ∧ post a t := by
  unfold wp at h
  cases hx : x s with
  | ok r =>
    rw [hx] at h
    exact ⟨r.1, r.2, rfl, h⟩
  | error e =>
    rw [hx] at h
    exact absurd h (herr e)

theorem wp_mono (h : wp x post err s) (hpost : ∀ a t, post a t → post' a t)
    (herr : ∀ e, err e → err' e) : wp x post' err' s := by
  rw [wp_iff] at h ⊢
  exact ⟨fun a t hx => hpost a t (h.1 a t hx), fun e hx => herr e (h.2 e hx)⟩

/-- Weaken the postcondition only. -/
theorem wp_post (h : wp x post err s) (hpost : ∀ a t, post a t → post' a t) :
    wp x post' err s :=
  wp_mono h hpost fun _ he => he

/-- Two facts about one program. -/
theorem wp_both (h : wp x post err s) (h' : wp x post' err' s) :
    wp x (fun a t => post a t ∧ post' a t) (fun e => err e ∧ err' e) s := by
  rw [wp_iff] at h h' ⊢
  exact ⟨fun a t hx => ⟨h.1 a t hx, h'.1 a t hx⟩, fun e hx => ⟨h.2 e hx, h'.2 e hx⟩⟩

theorem wp_and (h : wp x post err s) (h' : wp x post' err s) :
    wp x (fun a t => post a t ∧ post' a t) err s :=
  wp_mono (wp_both h h') (fun _ _ ht => ht) fun _ he => he.1

@[simp] theorem wp_pure {a : α} : wp (Pure.pure a : Action σ ε α) post err s ↔ post a s :=
  Iff.rfl

@[simp] theorem wp_bind {post : β → σ → Prop} : wp (x >>= f) post err s ↔
    wp x (fun a t => wp (f a) post err t) err s := by
  show wp (Action.bind x f) post err s ↔ _
  unfold wp Action.bind
  cases x s with
  | ok r => rfl
  | error e => rfl

/-- Two programs in a row as one. -/
theorem wp_bind_assoc {f : α → Action σ ε β} {g : β → Action σ ε γ} {post : γ → σ → Prop} :
    wp (x >>= fun a => f a >>= g) post err s ↔ wp ((x >>= f) >>= g) post err s := by
  simp only [wp_bind]

@[simp] theorem wp_read {g : σ → α} :
    wp (read g : Action σ ε α) post err s ↔ post (g s) s :=
  Iff.rfl

@[simp] theorem wp_modify {g : σ → σ} {post : Unit → σ → Prop} :
    wp (modify g : Action σ ε Unit) post err s ↔ post () (g s) :=
  Iff.rfl

@[simp] theorem wp_fail {e : ε} : wp (fail e : Action σ ε α) post err s ↔ err e :=
  Iff.rfl

@[simp] theorem wp_when {c : Prop} [Decidable c] {x : Action σ ε Unit}
    {post : Unit → σ → Prop} :
    wp (when c x) post err s ↔ (c → wp x post err s) ∧ (¬ c → post () s) := by
  unfold when
  by_cases hc : c
  · simp [hc]
  · simp only [hc, if_false, false_implies, not_false_eq_true, true_implies, true_and]
    exact wp_pure

@[simp] theorem wp_zoom {get : σ → τ} {set : τ → σ → σ} {y : Action τ ε α} :
    wp (zoom get set y) post err s ↔
      wp y (fun a t => post a (set t s)) err (get s) := by
  unfold wp zoom
  cases y (get s) with
  | ok r => rfl
  | error e => rfl

/-- The loop rule: `inv l` holds before the elements of `l` are run. -/
theorem wp_forEach {body : ι → Action σ ε Unit} (inv : List ι → σ → Prop) {l : List ι}
    (hbody : ∀ i rest t, inv (i :: rest) t → wp (body i) (fun _ u => inv rest u) err t)
    (h : inv l s) : wp (forEach body l) (fun _ t => inv [] t) err s := by
  induction l generalizing s with
  | nil => exact h
  | cons i rest ih =>
    show wp (body i >>= fun _ => forEach body rest) _ _ _
    rw [wp_bind]
    exact wp_post (hbody i rest s h) fun _ t ht => ih ht

/-- The loop rule of the search: `inv l` holds while the elements of `l` are still to be
tried, and `found` holds of a returned value. -/
theorem wp_firstSome {body : ι → Action σ ε (Option α)} (inv : List ι → σ → Prop)
    (found : α → σ → Prop) {l : List ι}
    (hbody : ∀ i rest t, inv (i :: rest) t → wp (body i)
      (fun r u => match r with | some a => found a u | none => inv rest u) err t)
    (h : inv l s) : wp (firstSome body l)
      (fun r t => match r with | some a => found a t | none => inv [] t) err s := by
  induction l generalizing s with
  | nil => exact h
  | cons i rest ih =>
    rw [firstSome, wp_bind]
    refine wp_post (hbody i rest s h) ?_
    intro r t ht
    cases r with
    | none => exact ih ht
    | some a => exact ht

/-- The machine whose steps are programs. An error of the program is the panic of the step. -/
def machine (run : ι → Action σ ε Unit) : Machine σ ι ε := fun s a =>
  some (match run a s with
    | .ok (_, t) => .ok t
    | .error e => .error e)

theorem machine_ok {run : ι → Action σ ε Unit} {a : ι} {t : σ} {post : Unit → σ → Prop}
    (h : wp (run a) post err s) (hm : machine run s a = some (.ok t)) : post () t := by
  unfold machine at hm
  unfold wp at h
  cases hx : run a s with
  | ok r =>
    rw [hx] at h hm
    obtain rfl : r.2 = t := by simpa using hm
    exact h
  | error e =>
    rw [hx] at hm
    simp at hm

theorem machine_error {run : ι → Action σ ε Unit} {a : ι} {e : ε} {post : Unit → σ → Prop}
    (h : wp (run a) post err s) (hm : machine run s a = some (.error e)) : err e := by
  unfold machine at hm
  unfold wp at h
  cases hx : run a s with
  | ok r =>
    rw [hx] at hm
    simp at hm
  | error e' =>
    rw [hx] at h hm
    obtain rfl : e' = e := by simpa using hm
    exact h

/-- The step of a program that is known to return. -/
theorem machine_of_wp {run : ι → Action σ ε Unit} {a : ι} {u : σ}
    (h : wp (run a) (fun _ t => t = u) (fun _ => False) s) :
    machine run s a = some (.ok u) := by
  unfold machine
  unfold wp at h
  cases hx : run a s with
  | ok r =>
    rw [hx] at h
    have h : r.2 = u := h
    show some (Except.ok r.2) = _
    rw [h]
  | error e =>
    rw [hx] at h
    exact h.elim

/-- The program leaves the part `f` of the state as it was, when it returns. -/
def Keeps (f : σ → γ) (x : Action σ ε α) : Prop :=
  ∀ s, wp x (fun _ t => f t = f s) (fun _ => True) s

namespace Keeps

variable {p : σ → γ} {x : Action σ ε α} {f : α → Action σ ε β}

@[grind .] theorem pure {a : α} : Keeps p (Pure.pure a : Action σ ε α) := fun _ => rfl

@[grind .] theorem fail {e : ε} : Keeps p (Action.fail e : Action σ ε α) := fun _ => trivial

@[grind .] theorem read {g : σ → α} : Keeps p (Action.read g : Action σ ε α) := fun _ => rfl

theorem modify {g : σ → σ} (h : ∀ s, p (g s) = p s) :
    Keeps p (Action.modify g : Action σ ε Unit) := fun s => h s

@[grind .] theorem bind (hx : Keeps p x) (hf : ∀ a, Keeps p (f a)) : Keeps p (x >>= f) := by
  intro s
  rw [wp_bind]
  refine wp_post (hx s) ?_
  intro a t ht
  exact wp_post (hf a t) fun _ u hu => hu.trans ht

theorem ite {c : Prop} [Decidable c] {y : Action σ ε α} (hx : Keeps p x) (hy : Keeps p y) :
    Keeps p (if c then x else y) := by
  by_cases hc : c
  · rw [if_pos hc]
    exact hx
  · rw [if_neg hc]
    exact hy

@[grind .] theorem when {c : Prop} [Decidable c] {x : Action σ ε Unit} (hx : Keeps p x) :
    Keeps p (Action.when c x) := ite hx pure

@[grind .] theorem forEach {body : ι → Action σ ε Unit} (h : ∀ i, Keeps p (body i)) (l : List ι) :
    Keeps p (Action.forEach body l) := by
  intro s
  exact wp_forEach (fun _ t => p t = p s)
    (fun i _ t ht => wp_post (h i t) fun _ u hu => hu.trans ht) rfl

end Keeps

/-- The program keeps an invariant, when it returns. -/
structure Maintains (I : σ → Prop) (x : Action σ ε α) : Prop where
  run : ∀ s, I s → wp x (fun _ t => I t) (fun _ => True) s

namespace Maintains

variable {I : σ → Prop} {x : Action σ ε α} {f : α → Action σ ε β}

@[grind .] theorem pure {a : α} : Maintains I (Pure.pure a : Action σ ε α) := ⟨fun _ h => h⟩

@[grind .] theorem fail {e : ε} : Maintains I (Action.fail e : Action σ ε α) := ⟨fun _ _ => trivial⟩

@[grind .] theorem read {g : σ → α} : Maintains I (Action.read g : Action σ ε α) := ⟨fun _ h => h⟩

theorem modify {g : σ → σ} (h : ∀ s, I s → I (g s)) :
    Maintains I (Action.modify g : Action σ ε Unit) :=
  ⟨h⟩

@[grind .] theorem bind (hx : Maintains I x) (hf : ∀ a, Maintains I (f a)) : Maintains I (x >>= f) := by
  constructor
  intro s hs
  rw [wp_bind]
  exact wp_post (hx.run s hs) fun a t ht => (hf a).run t ht

theorem ite {c : Prop} [Decidable c] {y : Action σ ε α} (hx : Maintains I x)
    (hy : Maintains I y) : Maintains I (if c then x else y) := by
  by_cases hc : c
  · rw [if_pos hc]
    exact hx
  · rw [if_neg hc]
    exact hy

@[grind .] theorem when {c : Prop} [Decidable c] {x : Action σ ε Unit} (hx : Maintains I x) :
    Maintains I (Action.when c x) := ite hx pure

@[grind .] theorem forEach {body : ι → Action σ ε Unit} (h : ∀ i, Maintains I (body i)) (l : List ι) :
    Maintains I (Action.forEach body l) :=
  ⟨fun _ hs => wp_forEach (fun _ t => I t) (fun i _ t ht => (h i).run t ht) hs⟩

theorem firstSome {body : ι → Action σ ε (Option α)} (h : ∀ i, Maintains I (body i))
    (l : List ι) : Maintains I (Action.firstSome body l) := by
  induction l with
  | nil => exact pure
  | cons i l ih =>
    refine bind (h i) fun r => ?_
    cases r with
    | none => exact ih
    | some a => exact pure

/-- A program of a part of the state that the invariant is not about. -/
theorem zoom {get : τ → σ} {set : σ → τ → τ} {J : τ → Prop} (h : ∀ s u, J s → J (set u s)) :
    Maintains J (Action.zoom get set x) := by
  constructor
  intro s hs
  rw [wp_zoom]
  exact wp_iff.mpr ⟨fun _ u _ => h s u hs, fun _ _ => trivial⟩

end Maintains

/-- Every error the program stops with is one of `P`. -/
structure Throws (P : ε → Prop) (x : Action σ ε α) : Prop where
  run : ∀ s, wp x (fun _ _ => True) P s

namespace Throws

variable {P Q : ε → Prop} {x : Action σ ε α} {f : α → Action σ ε β}

@[grind .] theorem pure {a : α} : Throws P (Pure.pure a : Action σ ε α) := ⟨fun _ => trivial⟩

@[grind .] theorem fail {e : ε} (h : P e) : Throws P (Action.fail e : Action σ ε α) :=
  ⟨fun _ => h⟩

@[grind .] theorem read {g : σ → α} : Throws P (Action.read g : Action σ ε α) :=
  ⟨fun _ => trivial⟩

@[grind .] theorem modify {g : σ → σ} : Throws P (Action.modify g : Action σ ε Unit) :=
  ⟨fun _ => trivial⟩

@[grind .] theorem bind (hx : Throws P x) (hf : ∀ a, Throws P (f a)) : Throws P (x >>= f) := by
  constructor
  intro s
  rw [wp_bind]
  exact wp_post (hx.run s) fun a t _ => (hf a).run t

theorem ite {c : Prop} [Decidable c] {y : Action σ ε α} (hx : Throws P x) (hy : Throws P y) :
    Throws P (if c then x else y) := by
  by_cases hc : c
  · rw [if_pos hc]
    exact hx
  · rw [if_neg hc]
    exact hy

@[grind .] theorem when {c : Prop} [Decidable c] {x : Action σ ε Unit} (hx : Throws P x) :
    Throws P (Action.when c x) := ite hx pure

@[grind .] theorem forEach {body : ι → Action σ ε Unit} (h : ∀ i, Throws P (body i)) (l : List ι) :
    Throws P (Action.forEach body l) :=
  ⟨fun _ => wp_forEach (fun _ _ => True) (fun i _ t _ => (h i).run t) trivial⟩

@[grind .] theorem firstSome {body : ι → Action σ ε (Option α)} (h : ∀ i, Throws P (body i))
    (l : List ι) : Throws P (Action.firstSome body l) := by
  constructor
  intro s
  refine wp_post (wp_firstSome (fun _ _ => True) (fun _ _ => True) ?_ trivial) ?_
  · intro i _ t _
    refine wp_post ((h i).run t) ?_
    intro r _ _
    cases r with
    | none => trivial
    | some a => trivial
  · intro _ _ _
    trivial

end Throws

/-- The program moves the state along a relation, and stops with an error of `P` only. -/
structure Moves (R : σ → σ → Prop) (P : ε → Prop) (x : Action σ ε α) : Prop where
  run : ∀ s, wp x (fun _ t => R s t) P s

namespace Moves

variable {R : σ → σ → Prop} {P : ε → Prop} {x : Action σ ε α} {f : α → Action σ ε β}

@[grind .] theorem fail {e : ε} (h : P e) : Moves R P (Action.fail e : Action σ ε α) := ⟨fun _ => h⟩

theorem modify {g : σ → σ} (h : ∀ s, R s (g s)) :
    Moves R P (Action.modify g : Action σ ε Unit) := ⟨h⟩

theorem ite {c : Prop} [Decidable c] {y : Action σ ε α} (hx : Moves R P x) (hy : Moves R P y) :
    Moves R P (if c then x else y) := by
  by_cases hc : c
  · rw [if_pos hc]
    exact hx
  · rw [if_neg hc]
    exact hy

section Refl
variable [Std.Refl R]

@[grind .] theorem pure {a : α} : Moves R P (Pure.pure a : Action σ ε α) := ⟨fun s => refl_of R s⟩

@[grind .] theorem read {g : σ → α} : Moves R P (Action.read g : Action σ ε α) := ⟨fun s => refl_of R s⟩

end Refl

@[grind .] theorem bind [IsTrans σ R] (hx : Moves R P x) (hf : ∀ a, Moves R P (f a)) :
    Moves R P (x >>= f) := by
  constructor
  intro s
  rw [wp_bind]
  refine wp_post (hx.run s) ?_
  intro a t ht
  exact wp_post ((hf a).run t) fun _ u hu => trans_of R ht hu

section Loops
variable [Std.Refl R] [IsTrans σ R]

@[grind .] theorem forEach {body : ι → Action σ ε Unit} (h : ∀ i, Moves R P (body i)) (l : List ι) :
    Moves R P (Action.forEach body l) := by
  constructor
  intro s
  exact wp_forEach (fun _ t => R s t)
    (fun i _ t ht => wp_post ((h i).run t) fun _ u hu => trans_of R ht hu) (refl_of R s)

@[grind .] theorem firstSome {body : ι → Action σ ε (Option α)} (h : ∀ i, Moves R P (body i))
    (l : List ι) : Moves R P (Action.firstSome body l) := by
  constructor
  intro s
  refine wp_post (wp_firstSome (fun _ t => R s t) (fun _ t => R s t) ?_ (refl_of R s)) ?_
  · intro i _ t ht
    refine wp_post ((h i).run t) ?_
    intro r u hu
    cases r with
    | none => exact trans_of R ht hu
    | some a => exact trans_of R ht hu
  · intro r t ht
    cases r with
    | none => exact ht
    | some a => exact ht

end Loops

end Moves

end Action

end Xv6.Lib
