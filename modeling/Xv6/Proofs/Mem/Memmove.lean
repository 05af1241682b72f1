import Mathlib.Logic.Function.Basic
import Xv6.Kernel.Vm

/-!
# `Xv6.Proofs.Mem.Memmove`: the two loops of `memmove`

`Cstr.memmove` is the code of `string.c`, pointer by pointer; a pointer is a number modulo
`2 ^ 64`. The model of the page tables copies in one step (`Kernel.memmove`); here the loops
are shown to do that (`Cstr.memmove_eq_copy`, `memmove_runs`).

Each loop is an induction on the number of bytes that are left. Upwards, a byte that is yet to
be read is never below `d`, unless the source is wholly above: what has been written is not read
again. Downwards the destination stays above the source. A region may end at `2 ^ 64`, so the
pointer past it may be 0; the test `s + n > d` is then wrong, but the destination would have
wrapped in the only case where it matters.
-/

set_option autoImplicit false

namespace Xv6.Kernel

open Lib

namespace Cstr

/-- A pointer moved up. -/
def ptrAdd (p k : Nat) : Nat := (p + k) % 2 ^ 64

/-- A pointer moved down by one. -/
def ptrPred (p : Nat) : Nat := (p + (2 ^ 64 - 1)) % 2 ^ 64

/-- `while (n-- > 0) *d++ = *s++`. -/
def moveUp (m : Memory) (d s : Nat) : Nat → Memory
  | 0 => m
  | n + 1 => moveUp (Function.update m d (m s)) (ptrAdd d 1) (ptrAdd s 1) n

/-- `while (n-- > 0) *--d = *--s`. -/
def moveDown (m : Memory) (d s : Nat) : Nat → Memory
  | 0 => m
  | n + 1 =>
      moveDown (Function.update m (ptrPred d) (m (ptrPred s))) (ptrPred d) (ptrPred s) n

/-- `memmove` of `string.c`. -/
def memmove (m : Memory) (dst src n : Nat) : Memory :=
  if n = 0 then
    m
  else if src < dst ∧ ptrAdd src n > dst then
    moveDown m (ptrAdd dst n) (ptrAdd src n) n
  else
    moveUp m dst src n

variable {m : Memory} {dst src n : Nat}

theorem moveUp_eq_copy (hd : dst + n ≤ 2 ^ 64) (hs : src + n ≤ 2 ^ 64)
    (hover : ¬ (src < dst ∧ dst < src + n)) : moveUp m dst src n = m.copy dst src n := by
  induction n generalizing m dst src with
  | zero =>
    funext j
    exact (if_neg (by omega)).symm
  | succ n ih =>
    have hrest := @ih (Function.update m dst (m src)) (ptrAdd dst 1) (ptrAdd src 1)
      (by unfold ptrAdd; omega) (by unfold ptrAdd; omega) (by unfold ptrAdd; omega)
    rw [moveUp, hrest]
    funext j
    -- With no byte left the pointers may have wrapped; otherwise they have not.
    cases n with
    | zero =>
      rw [Memory.copy, if_neg (by omega), Memory.copy]
      by_cases hj : j = dst
      · rw [if_pos (by omega), hj, Function.update_self, Nat.sub_self, Nat.add_zero]
      · rw [if_neg (by omega), Function.update_of_ne hj]
    | succ n =>
      have hd1 : ptrAdd dst 1 = dst + 1 := Nat.mod_eq_of_lt (by omega)
      have hs1 : ptrAdd src 1 = src + 1 := Nat.mod_eq_of_lt (by omega)
      rw [hd1, hs1, Memory.copy, Memory.copy]
      by_cases hin : dst + 1 ≤ j ∧ j < dst + 1 + (n + 1)
      · rw [if_pos hin, if_pos (by omega), Function.update_of_ne (by omega)]
        congr 1
        omega
      · rw [if_neg hin]
        by_cases hj : j = dst
        · rw [if_pos (by omega), hj, Function.update_self, Nat.sub_self, Nat.add_zero]
        · rw [if_neg (by omega), Function.update_of_ne hj]

theorem moveDown_eq_copy (hd : dst + n ≤ 2 ^ 64) (hs : src < dst) :
    moveDown m (ptrAdd dst n) (ptrAdd src n) n = m.copy dst src n := by
  induction n generalizing m with
  | zero =>
    funext j
    exact (if_neg (by omega)).symm
  | succ n ih =>
    have hd1 : ptrPred (ptrAdd dst (n + 1)) = dst + n := by unfold ptrPred ptrAdd; omega
    have hs1 : ptrPred (ptrAdd src (n + 1)) = src + n := by unfold ptrPred ptrAdd; omega
    have hdn : ptrAdd dst n = dst + n := Nat.mod_eq_of_lt (by omega)
    have hsn : ptrAdd src n = src + n := Nat.mod_eq_of_lt (by omega)
    have hrest := @ih (Function.update m (dst + n) (m (src + n))) (by omega)
    rw [hdn, hsn] at hrest
    rw [moveDown, hd1, hs1, hrest]
    funext j
    rw [Memory.copy, Memory.copy]
    by_cases hin : dst ≤ j ∧ j < dst + n
    · rw [if_pos hin, if_pos (by omega), Function.update_of_ne (by omega)]
    · rw [if_neg hin]
      by_cases hj : j = dst + n
      · rw [if_pos (by omega), hj, Function.update_self, Nat.add_sub_cancel_left]
      · rw [if_neg (by omega), Function.update_of_ne hj]

/-- The loops copy, however the regions overlap. -/
theorem memmove_eq_copy (hd : dst + n ≤ 2 ^ 64) (hs : src + n ≤ 2 ^ 64) :
    memmove m dst src n = m.copy dst src n := by
  unfold memmove
  by_cases hn : n = 0
  · rw [if_pos hn, hn]
    funext j
    exact (if_neg (by omega)).symm
  · rw [if_neg hn]
    by_cases hover : src < dst ∧ ptrAdd src n > dst
    · rw [if_pos hover]
      exact moveDown_eq_copy hd hover.1
    · rw [if_neg hover]
      unfold ptrAdd at hover
      exact moveUp_eq_copy hd hs (by omega)

end Cstr

/-- Every byte of the destination is what its source was, and no other byte changes. -/
theorem memmove_moves_bytes (m : Memory) (dst src n : Nat) (hd : dst + n ≤ 2 ^ 64)
    (hs : src + n ≤ 2 ^ 64) :
    (∀ i < n, Cstr.memmove m dst src n (dst + i) = m (src + i)) ∧
      ∀ j, ¬ (dst ≤ j ∧ j < dst + n) → Cstr.memmove m dst src n j = m j := by
  rw [Cstr.memmove_eq_copy hd hs]
  constructor
  · intro i hi
    rw [Memory.copy, if_pos (by omega), Nat.add_sub_cancel_left]
  · intro j hj
    exact if_neg hj

/-- Four bytes moved up by one, to the end of the address space. -/
theorem memmove_moves_last_bytes :
    Cstr.memmove (fun a => UInt8.ofNat a) (2 ^ 64 - 4) (2 ^ 64 - 5) 4 (2 ^ 64 - 4 + 3) = 254 ∧
      Cstr.memmove (fun a => UInt8.ofNat a) (2 ^ 64 - 4) (2 ^ 64 - 5) 4 0 = 0 := by
  have hall := memmove_moves_bytes (fun a => UInt8.ofNat a) (2 ^ 64 - 4) (2 ^ 64 - 5) 4
    (by decide) (by decide)
  exact ⟨hall.1 3 (by decide), hall.2 0 (by decide)⟩

end Xv6.Kernel
