import Mathlib.Data.Nat.ModEq
import Mathlib.Logic.Function.Basic

/-!
# `Xv6.Lib.RingBuffer`: a queue in a ring, between two free-running counters

The cells of a ring are numbered below `cap`. Two counters run freely: `r` counts what has been
taken out, `w` what has been put in, and both wrap at `M`, a multiple of `cap`. A counter modulo
`cap` is the cell it stands for.

`Holds g q` says that the ring holds the queue `q`. The counters are then as far apart as the
queue is long, modulo `M`, so the ring is full when `w` is `r + cap` (`full_iff`) and empty when
the counters agree (`empty_iff`), also across a wrap. `push`, `pop` and `unpush` are the queue's
operations at its two ends.
-/

set_option autoImplicit false

namespace Xv6.Lib

/-- The cells and the two counters. -/
structure RingBuffer (α : Type) where
  cells : Nat → α
  r : Nat
  w : Nat

namespace RingBuffer

variable {α : Type} {cap M : Nat} {g : RingBuffer α} {q : List α} {x : α}

/-- The ring holds the queue. -/
structure Holds (cap M : Nat) (g : RingBuffer α) (q : List α) : Prop where
  bound : q.length ≤ cap
  read : g.r < M
  write : g.w = (g.r + q.length) % M
  cells : ∀ i x, q[i]? = some x → g.cells ((g.r + i) % cap) = x

/-- Put an element in. -/
def push (cap M : Nat) (g : RingBuffer α) (x : α) : RingBuffer α where
  cells := Function.update g.cells (g.w % cap) x
  r := g.r
  w := (g.w + 1) % M

/-- Take an element out. -/
def pop (M : Nat) (g : RingBuffer α) : RingBuffer α := { g with r := (g.r + 1) % M }

/-- Take the last element back. -/
def unpush (M : Nat) (g : RingBuffer α) : RingBuffer α := { g with w := (g.w + M - 1) % M }

/-- A counter that has wrapped stands for the same cell. -/
theorem cell_wrap (hM : cap ∣ M) (n i : Nat) : (n % M + i) % cap = (n + i) % cap := by
  rw [Nat.add_mod, Nat.mod_mod_of_dvd _ hM, ← Nat.add_mod]

/-- Less than a revolution apart, two cells are distinct. -/
theorem cell_ne {n i : Nat} (r : Nat) (hi : i < n) (hn : n < cap) :
    (r + i) % cap ≠ (r + n) % cap := by
  intro h
  have hmod : i ≡ n [MOD cap] := Nat.ModEq.add_left_cancel' r h
  rw [Nat.ModEq, Nat.mod_eq_of_lt (by omega), Nat.mod_eq_of_lt hn] at hmod
  omega

/-- The distance of the counters, modulo `M`. -/
theorem wrap_sub {r n : Nat} (hr : r < M) (hn : n < M) : ((r + n) % M + M - r) % M = n := by
  rcases Nat.lt_or_ge (r + n) M with hlt | hge
  · rw [Nat.mod_eq_of_lt hlt, show r + n + M - r = n + M by omega, Nat.add_mod_right,
      Nat.mod_eq_of_lt hn]
  · rw [Nat.mod_eq_sub_mod hge, Nat.mod_eq_of_lt (by omega : r + n - M < M),
      show r + n - M + M - r = n by omega, Nat.mod_eq_of_lt hn]

/-- The cells of a list after a store. -/
theorem getD_set (l : List α) {k : Nat} (hk : k < l.length) (x d : α) :
    (fun i => (l.set k x).getD i d) = Function.update (fun i => l.getD i d) k x := by
  funext i
  by_cases hi : i = k
  · rw [hi, Function.update_self]
    simp [List.getD_eq_getElem?_getD, hk]
  · rw [Function.update_of_ne hi]
    simp [List.getD_eq_getElem?_getD, List.getElem?_set_ne (Ne.symm hi)]

namespace Holds

theorem count (h : Holds cap M g q) (hcap : cap < M) : (g.w + M - g.r) % M = q.length := by
  have := h.bound
  rw [h.write]
  exact wrap_sub h.read (by omega)

theorem full_iff (h : Holds cap M g q) (hcap : cap < M) :
    g.w = (g.r + cap) % M ↔ q.length = cap := by
  constructor
  · intro hw
    have := h.count hcap
    rw [hw, wrap_sub h.read hcap] at this
    exact this.symm
  · intro hlen
    rw [h.write, hlen]

theorem empty_iff (h : Holds cap M g q) (hcap : cap < M) : g.r = g.w ↔ q = [] := by
  rw [← List.length_eq_zero_iff, ← h.count hcap]
  have hr := h.read
  constructor
  · intro hw
    rw [← hw, Nat.add_sub_cancel_left, Nat.mod_self]
  · intro hzero
    have hlen := h.count hcap
    rw [h.write, ← hlen, hzero, Nat.add_zero, Nat.mod_eq_of_lt hr]

theorem empty (hr : g.r < M) (hw : g.w = g.r) : Holds cap M g [] :=
  ⟨Nat.zero_le _, hr, by rw [hw]; exact (Nat.mod_eq_of_lt hr).symm, fun i x h => nomatch h⟩

theorem push (h : Holds cap M g q) (hM : cap ∣ M) (hlen : q.length < cap) :
    Holds cap M (g.push cap M x) (q ++ [x]) := by
  have hcell : g.w % cap = (g.r + q.length) % cap := by
    have := cell_wrap hM (g.r + q.length) 0
    rwa [Nat.add_zero, Nat.add_zero, ← h.write] at this
  refine ⟨by rw [List.length_append]; exact hlen, h.read, ?_, fun i y hi => ?_⟩
  · show (g.w + 1) % M = _
    rw [h.write, Nat.mod_add_mod, List.length_append]
    rfl
  · show Function.update g.cells (g.w % cap) x ((g.r + i) % cap) = y
    rw [hcell]
    rcases Nat.lt_trichotomy i q.length with hlt | heq | hgt
    · rw [List.getElem?_append_left hlt] at hi
      rw [Function.update_of_ne (cell_ne g.r hlt hlen)]
      exact h.cells i y hi
    · rw [heq, List.getElem?_append_right (Nat.le_refl _), Nat.sub_self] at hi
      rw [heq, Function.update_self]
      exact Option.some.inj hi
    · rw [List.getElem?_eq_none (by rw [List.length_append, List.length_singleton]; omega)] at hi
      cases hi

/-- The first element is in the cell of `r`. -/
theorem head (h : Holds cap M g (x :: q)) : g.cells (g.r % cap) = x := h.cells 0 x rfl

theorem pop (h : Holds cap M g (x :: q)) (hM : cap ∣ M) : Holds cap M (g.pop M) q := by
  have hpos : 0 < M := Nat.lt_of_le_of_lt (Nat.zero_le _) h.read
  refine ⟨Nat.le_of_succ_le h.bound, Nat.mod_lt _ hpos, ?_, fun i y hi => ?_⟩
  · show g.w = ((g.r + 1) % M + q.length) % M
    rw [h.write, Nat.mod_add_mod, List.length_cons]
    congr 1
    omega
  · show g.cells (((g.r + 1) % M + i) % cap) = y
    rw [cell_wrap hM, show g.r + 1 + i = g.r + (i + 1) by omega]
    exact h.cells (i + 1) y hi

/-- Where `w` was before the last element came. -/
theorem back (h : Holds cap M g (q ++ [x])) : (g.w + M - 1) % M = (g.r + q.length) % M := by
  have hpos : 0 < M := Nat.lt_of_le_of_lt (Nat.zero_le _) h.read
  rw [h.write, List.length_append, List.length_singleton]
  rw [show (g.r + (q.length + 1)) % M + M - 1 = (g.r + (q.length + 1)) % M + (M - 1) by omega,
    Nat.mod_add_mod, show g.r + (q.length + 1) + (M - 1) = g.r + q.length + M by omega,
    Nat.add_mod_right]

/-- The last element is in the cell before `w`. -/
theorem last (h : Holds cap M g (q ++ [x])) (hM : cap ∣ M) :
    g.cells ((g.w + M - 1) % M % cap) = x := by
  rw [h.back, Nat.mod_mod_of_dvd _ hM]
  exact h.cells q.length x (by simp)

theorem unpush (h : Holds cap M g (q ++ [x])) : Holds cap M (g.unpush M) q := by
  have hbound := h.bound
  rw [List.length_append, List.length_singleton] at hbound
  refine ⟨by omega, h.read, h.back, fun i y hi => h.cells i y ?_⟩
  rw [List.getElem?_append_left (List.getElem?_eq_some_iff.mp hi).1]
  exact hi

end Holds

end RingBuffer

end Xv6.Lib
