import Mathlib.Data.List.Nodup
import Mathlib.Logic.Function.Iterate

/-!
# `Xv6.Lib.LinkedList`: circular doubly linked lists

A list of elements of `α` is linked through a head, which is no element: a node is `none`, the
head, or `some b`. `Linked d xs` says that the links of `d` go through the elements `xs` in
order, from the head and back to it: wherever `xs` is cut in two, the last node of the one part
and the first node of the other point at each other, where an empty part stands for the head.

`insertFront` and `unlink` are the usual assignments, in the order in which one writes them, and
`moveFront` is the two together. A walk along `next` finds what `find?` finds in `xs`, and a walk
along `prev` what it finds in the reversed list.
-/

set_option autoImplicit false

namespace Xv6.Lib

/-- The two links of every node. -/
structure Links (α : Type) where
  next : Option α → Option α
  prev : Option α → Option α

namespace Links

variable {α : Type} {d : Links α} {xs ys p q m : List α} {b : α}

section Assignments

variable [DecidableEq α]

/-- The links with `a.next = b`. -/
def setNext (d : Links α) (a b : Option α) : Links α :=
  { d with next := Function.update d.next a b }

/-- The links with `a.prev = b`. -/
def setPrev (d : Links α) (a b : Option α) : Links α :=
  { d with prev := Function.update d.prev a b }

/-- Insert `b` between the head and its successor. -/
def insertFront (d : Links α) (b : α) : Links α :=
  let d := d.setNext (some b) (d.next none)
  let d := d.setPrev (some b) none
  let d := d.setPrev (d.next none) (some b)
  d.setNext none (some b)

/-- Take `b` out. -/
def unlink (d : Links α) (b : α) : Links α :=
  let d := d.setPrev (d.next (some b)) (d.prev (some b))
  d.setNext (d.prev (some b)) (d.next (some b))

/-- Move `b` to the front. -/
def moveFront (d : Links α) (b : α) : Links α := (d.unlink b).insertFront b

end Assignments

/-- The nodes seen along `step` from a node on, until one with the property or the head. `none`
means that `n` steps did not suffice. -/
def walk (step : Option α → Option α) (good : α → Bool) : Nat → Option α → Option (Option α)
  | 0, _ => none
  | _ + 1, none => some none
  | n + 1, some b => if good b then some (some b) else walk step good n (step (some b))

/-- The links go through `xs`. -/
structure Linked (d : Links α) (xs : List α) : Prop where
  nodup : xs.Nodup
  cut : ∀ p q, xs = p ++ q → d.next p.getLast? = q.head? ∧ d.prev q.head? = p.getLast?

/-- No links: the head points at itself. -/
theorem linked_nil (hnext : d.next none = none) (hprev : d.prev none = none) : Linked d [] := by
  refine ⟨List.nodup_nil, fun p q h => ?_⟩
  obtain ⟨rfl, rfl⟩ := List.append_eq_nil_iff.mp h.symm
  exact ⟨hnext, hprev⟩

/-! Different cuts have different nodes. -/

theorem getLast?_append_ne (h : (p ++ m).Nodup) (hm : m ≠ []) :
    (p ++ m).getLast? ≠ p.getLast? := by
  obtain ⟨y, hy⟩ : ∃ y, m.getLast? = some y := ⟨_, List.getLast?_eq_some_getLast hm⟩
  rw [List.getLast?_append, hy, Option.some_or]
  intro heq
  have hym : y ∈ m := List.mem_of_getLast? hy
  have hyp : y ∈ p := List.mem_of_getLast? heq.symm
  exact (List.nodup_append.mp h).2.2 y hyp y hym rfl

theorem head?_append_ne (h : (m ++ q).Nodup) (hm : m ≠ []) : (m ++ q).head? ≠ q.head? := by
  obtain ⟨y, hy⟩ : ∃ y, m.head? = some y := ⟨_, List.head?_eq_some_head hm⟩
  rw [List.head?_append, hy, Option.some_or]
  intro heq
  have hym : y ∈ m := List.mem_of_head? hy
  have hyq : y ∈ q := List.mem_of_head? heq.symm
  exact (List.nodup_append.mp h).2.2 y hym y hyq rfl

namespace Linked

theorem head (h : Linked d xs) : d.next none = xs.head? ∧ d.prev xs.head? = none := h.cut [] xs rfl

/-- Around an element. -/
theorem around (h : Linked d (p ++ b :: q)) :
    d.next (some b) = q.head? ∧ d.prev (some b) = p.getLast? := by
  refine ⟨?_, (h.cut p (b :: q) rfl).2⟩
  have hafter := (h.cut (p ++ [b]) q (by simp)).1
  rwa [List.getLast?_concat] at hafter

section Assignments

variable [DecidableEq α]

theorem insertFront (h : Linked d xs) (hb : b ∉ xs) : Linked (d.insertFront b) (b :: xs) := by
  have hfirst : xs.head? ≠ some b := fun heq => hb (List.mem_of_head? heq)
  refine ⟨List.nodup_cons.mpr ⟨hb, h.nodup⟩, fun p q hpq => ?_⟩
  unfold Links.insertFront setNext setPrev
  simp only [Function.update_of_ne (show (none : Option α) ≠ some b by simp), h.head.1]
  cases p with
  | nil =>
    rw [List.nil_append] at hpq
    subst hpq
    exact ⟨Function.update_self _ _ _,
      (Function.update_of_ne hfirst.symm _ _).trans (Function.update_self _ _ _)⟩
  | cons x p =>
    rw [List.cons_append] at hpq
    obtain ⟨rfl, rfl⟩ := List.cons.inj hpq
    cases hp : p.getLast? with
    | none =>
      -- The cut behind the new element.
      obtain rfl := List.getLast?_eq_none_iff.mp hp
      exact ⟨(Function.update_of_ne (by simp) _ _).trans (Function.update_self _ _ _),
        Function.update_self _ _ _⟩
    | some y =>
      have hpne : p ≠ [] := fun hnil => by simp [hnil] at hp
      have hy : y ≠ b := fun heq => hb (List.mem_append_left q (by
        rw [← heq]
        exact List.mem_of_getLast? hp))
      have hlast : (b :: p).getLast? = some y := by rw [List.getLast?_cons, hp]; rfl
      have hcut := h.cut p q rfl
      rw [hp] at hcut
      have hqb : q.head? ≠ some b := fun heq =>
        hb (List.mem_append_right p (List.mem_of_head? heq))
      rw [hlast]
      refine ⟨?_, ?_⟩
      · rw [Function.update_of_ne (by simp), Function.update_of_ne (by simpa using hy)]
        exact hcut.1
      · rw [Function.update_of_ne (head?_append_ne h.nodup hpne).symm,
          Function.update_of_ne hqb]
        exact hcut.2

/-- Inserted one after the other, the elements end up in reverse order. -/
theorem foldl_insertFront (h : Linked d xs) (hys : ys.Nodup) (hdis : ∀ y ∈ ys, y ∉ xs) :
    Linked (ys.foldl Links.insertFront d) (ys.reverse ++ xs) := by
  induction ys generalizing d xs with
  | nil => exact h
  | cons y ys ih =>
    obtain ⟨hy, hnodup⟩ := List.nodup_cons.mp hys
    rw [List.foldl_cons, List.reverse_cons, List.append_assoc]
    refine ih (h.insertFront (hdis y List.mem_cons_self)) hnodup fun z hz hmem => ?_
    rcases List.mem_cons.mp hmem with rfl | hmem
    · exact hy hz
    · exact hdis z (List.mem_cons_of_mem y hz) hmem

theorem unlink (h : Linked d (xs ++ b :: ys)) : Linked (d.unlink b) (xs ++ ys) := by
  obtain ⟨hnext, hprev⟩ := h.around
  have hsub : (xs ++ ys).Sublist (xs ++ b :: ys) :=
    (List.Sublist.refl xs).append (List.sublist_cons_self b ys)
  have hnodup : (xs ++ ys).Nodup := h.nodup.sublist hsub
  have hb : some b ≠ ys.head? := fun heq => by
    have hmem := List.mem_of_head? heq.symm
    exact (List.nodup_cons.mp (List.nodup_append.mp h.nodup).2.1).1 hmem
  refine ⟨hnodup, fun p q hpq => ?_⟩
  unfold Links.unlink setNext setPrev
  simp only [hnext, hprev, Function.update_of_ne hb]
  rcases List.append_eq_append_iff.mp hpq with ⟨m, rfl, rfl⟩ | ⟨m, rfl, rfl⟩
  · cases m with
    | nil => simp
    | cons y m =>
      -- A cut behind `b`.
      have hcut := h.cut (xs ++ b :: y :: m) q (by simp)
      have hlast : (xs ++ b :: y :: m).getLast? = (xs ++ y :: m).getLast? := by
        simp [List.getLast?_append, List.getLast?_cons]
      rw [← List.append_assoc] at hnodup
      have hxs := getLast?_append_ne (List.nodup_append.mp hnodup).1 (List.cons_ne_nil y m)
      rw [List.append_assoc] at hnodup
      have hq := head?_append_ne (List.nodup_append.mp hnodup).2.1 (List.cons_ne_nil y m)
      rw [hlast] at hcut
      rw [Function.update_of_ne hxs, Function.update_of_ne hq.symm]
      exact hcut
  · cases m with
    | nil => simp
    | cons y m =>
      -- A cut before `b`.
      have hcut := h.cut p (y :: m ++ b :: ys) (by simp)
      have hxs := getLast?_append_ne (List.nodup_append.mp hnodup).1 (List.cons_ne_nil y m)
      rw [List.append_assoc] at hnodup
      have hq := head?_append_ne (List.nodup_append.mp hnodup).2.1 (List.cons_ne_nil y m)
      rw [Function.update_of_ne hxs.symm, Function.update_of_ne hq]
      exact hcut

theorem moveFront (h : Linked d xs) (hb : b ∈ xs) :
    Linked (d.moveFront b) (b :: xs.erase b) := by
  obtain ⟨p, q, hp, rfl, herase⟩ := List.exists_erase_eq hb
  rw [herase]
  refine h.unlink.insertFront fun hmem => ?_
  rcases List.mem_append.mp hmem with hin | hin
  · exact hp hin
  · exact (List.nodup_cons.mp (List.nodup_append.mp h.nodup).2.1).1 hin

end Assignments

/-! ### Walking -/

/-- The same list the other way round. -/
theorem flip (h : Linked d xs) : Linked ⟨d.prev, d.next⟩ xs.reverse := by
  refine ⟨List.nodup_reverse.mpr h.nodup, fun p q hpq => ?_⟩
  have hxs : xs = q.reverse ++ p.reverse := by
    rw [← List.reverse_append, ← hpq, List.reverse_reverse]
  obtain ⟨hnext, hprev⟩ := h.cut _ _ hxs
  rw [List.getLast?_reverse, List.head?_reverse] at hnext hprev
  exact ⟨hprev, hnext⟩

theorem walk_from {good : α → Bool} {n : Nat} (h : Linked d (p ++ q)) (hn : q.length < n) :
    walk d.next good n q.head? = some (q.find? good) := by
  induction n generalizing p q with
  | zero => omega
  | succ n ih =>
    cases q with
    | nil => rfl
    | cons b q =>
      rw [List.head?_cons, walk, List.find?_cons]
      cases good b with
      | true => rfl
      | false =>
        rw [if_neg (by decide), h.around.1]
        exact ih (p := p ++ [b]) (by simpa using h) (by simpa using hn)

/-- A walk from the head along `next`. -/
theorem walk_next {good : α → Bool} {n : Nat} (h : Linked d xs) (hn : xs.length < n) :
    walk d.next good n (d.next none) = some (xs.find? good) := by
  rw [h.head.1]
  exact walk_from (p := []) h hn

/-- A walk from the head along `prev`. -/
theorem walk_prev {good : α → Bool} {n : Nat} (h : Linked d xs) (hn : xs.length < n) :
    walk d.prev good n (d.prev none) = some (xs.reverse.find? good) :=
  h.flip.walk_next (by rwa [List.length_reverse])

/-- The nodes in turn: the elements, and the head again. -/
theorem iterate_next (h : Linked d xs) {k : Nat} (hk : k ≤ xs.length) :
    d.next^[k + 1] none = xs[k]? := by
  induction k with
  | zero => exact h.head.1.trans List.head?_eq_getElem?
  | succ k ih =>
    rw [Function.iterate_succ_apply', ih (by omega)]
    have hcut := (h.cut (xs.take (k + 1)) (xs.drop (k + 1)) (by simp)).1
    rw [List.head?_drop, List.getLast?_take] at hcut
    simpa [List.getElem?_eq_getElem (show k < xs.length by omega)] using hcut

/-- `prev` undoes `next` and `next` undoes `prev`, at the head and at every element. -/
theorem inverse (h : Linked d xs) {a : Option α} (ha : ∀ b, a = some b → b ∈ xs) :
    d.prev (d.next a) = a ∧ d.next (d.prev a) = a := by
  cases a with
  | none =>
    have hlast := h.cut xs [] (by simp)
    rw [List.head?_nil] at hlast
    rw [h.head.1, hlast.2]
    exact ⟨h.head.2, hlast.1⟩
  | some b =>
    obtain ⟨p, q, rfl⟩ := List.append_of_mem (ha b rfl)
    rw [h.around.1, h.around.2]
    refine ⟨?_, (h.cut p (b :: q) rfl).1⟩
    have hafter := (h.cut (p ++ [b]) q (by simp)).2
    rwa [List.getLast?_concat] at hafter

end Linked

end Links

end Xv6.Lib
