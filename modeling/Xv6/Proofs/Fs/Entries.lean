import Xv6.Kernel.Sysfile
import Xv6.Proofs.Fs.Directories
import Mathlib.Data.List.TakeWhile

/-!
# `Xv6.Proofs.Fs.Entries`: the names of directory entries

Two names are the same when they agree up to the first NUL in their first `DIRSIZ` bytes. That
part of a name is its string, `cstr`, and `strncmp` compares the strings
(`strncmp_eq_zero_iff`).
-/

set_option autoImplicit false

namespace Xv6.Proofs.Fs

open Lib Lib.Action Kernel

/-- The string in the first `n` bytes of a buffer. -/
def cstr (n : Nat) (l : List UInt8) : List UInt8 := (l.take n).takeWhile (· ≠ 0)

theorem cstr_succ (n : Nat) (l : List UInt8) :
    cstr (n + 1) l = if l.headD 0 = 0 then [] else l.headD 0 :: cstr n l.tail := by
  cases l with
  | nil => rfl
  | cons x l =>
    unfold cstr
    rw [List.take_succ_cons, List.takeWhile_cons]
    by_cases hx : x = 0
    · simp [hx]
    · simp [hx]

/-- `strncmp` compares the strings. -/
theorem strncmp_eq_zero_iff {n : Nat} {a b : List UInt8} :
    strncmp n a b = 0 ↔ cstr n a = cstr n b := by
  induction n generalizing a b with
  | zero => exact iff_of_true rfl rfl
  | succ n ih =>
    rw [strncmp, cstr_succ, cstr_succ]
    generalize a.headD 0 = x
    generalize b.headD 0 = y
    have hinj : ((x.toNat : Int) - y.toNat = 0) ↔ x = y := by
      rw [← UInt8.toNat_inj]
      omega
    by_cases hx : x = 0
    · -- The first string ends here.
      rw [if_neg fun hc => hc.1 hx, if_pos hx, hinj, hx]
      by_cases hy : y = 0
      · simp [hy]
      · rw [if_neg hy]
        simpa using fun he => hy he.symm
    · by_cases hxy : x = y
      · rw [if_pos ⟨hx, hxy⟩, if_neg hx, if_neg (by rw [← hxy]; exact hx), ih, hxy,
          List.cons.injEq]
        exact (and_iff_right rfl).symm
      · rw [if_neg fun hc => hxy hc.2, if_neg hx, hinj]
        refine iff_of_false hxy ?_
        split
        · exact List.cons_ne_nil _ _
        · rw [List.cons.injEq]
          exact fun hc => hxy hc.1

theorem cstr_of_string {n : Nat} {a : List UInt8} (ha : a.length ≤ n) (ha0 : 0 ∉ a) :
    cstr n a = a := by
  unfold cstr
  rw [List.take_of_length_le ha, List.takeWhile_eq_self_iff]
  intro x hx
  simp only [ne_eq, decide_eq_true_eq]
  rintro rfl
  exact ha0 hx

/-- A stored name has the string of the name. -/
theorem cstr_strncpy (n : Nat) (a : List UInt8) : cstr n (strncpy n a) = cstr n a := by
  have hlen : (strncpy n a).length = n := by
    simp only [strncpy, List.length_append, List.length_take, List.length_replicate]
    omega
  unfold cstr
  rw [List.take_of_length_le (Nat.le_of_eq hlen)]
  unfold strncpy
  rw [List.takeWhile_append]
  split
  · -- The padding starts with a NUL.
    rename_i hall
    rw [List.takeWhile_replicate, if_neg (by simp), List.append_nil]
    exact ((List.takeWhile_prefix _).eq_of_length hall).symm
  · rfl

/-- `strncmp` tells two strings apart that fit in the buffer. -/
theorem strncmp_strncpy {n : Nat} {a b : List UInt8} (ha : a.length ≤ n) (hb : b.length ≤ n)
    (ha0 : 0 ∉ a) (hb0 : 0 ∉ b) : strncmp n a (strncpy n b) = 0 ↔ a = b := by
  rw [strncmp_eq_zero_iff, cstr_strncpy, cstr_of_string ha ha0, cstr_of_string hb hb0]

end Xv6.Proofs.Fs
