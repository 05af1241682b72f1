import Mathlib.Data.Fintype.Basic
import Mathlib.Logic.Function.Basic
import Mathlib.Tactic.Ring

/-!
# `Xv6.Lib.Bytes`: little-endian words in a fixed-size byte buffer

A buffer of `n` bytes is a function out of `Fin n`, so two buffers are equal exactly when
their bytes are. `get` reads past the end as zero, which keeps every reader total.

`getWord w b off` is the `w`-byte little-endian word at byte offset `off`, and
`setWord w b off v` stores the low `w` bytes of `v` there. The theorems:

* `getWord_setWord`: a stored word reads back, when it fits in `w` bytes and the buffer
  holds the whole word.
* `getWord_setWord_disjoint`: a store leaves every disjoint word unchanged.
* `setBytes` / `getBytes`: the same pair for a run of bytes, the shape of a `memmove`
  between a buffer and a C object.
-/

set_option autoImplicit false

namespace Xv6.Lib

/-- A buffer of `n` bytes. -/
abbrev Bytes (n : Nat) := Fin n → UInt8

namespace Bytes

variable {n : Nat}

/-- The buffer of `n` zero bytes. -/
def zero (n : Nat) : Bytes n := fun _ => 0

/-- The byte at offset `i`; zero past the end. -/
def get (b : Bytes n) (i : Nat) : UInt8 := if h : i < n then b ⟨i, h⟩ else 0

/-- The little-endian word of `w` bytes at byte offset `off`. -/
def getWord (w : Nat) (b : Bytes n) (off : Nat) : Nat :=
  match w with
  | 0 => 0
  | w + 1 => (b.get off).toNat + 256 * getWord w b (off + 1)

/-- Store the low `w` bytes of `v` at byte offset `off`, least significant byte first. -/
def setWord (w : Nat) (b : Bytes n) (off v : Nat) : Bytes n := fun j =>
  if off ≤ j.val ∧ j.val < off + w then UInt8.ofNat (v / 256 ^ (j.val - off)) else b j

/-- Store the words `f 0`, `f 1`, up to `f (k - 1)`, one after the other from `off` on. -/
def setWords (w : Nat) (b : Bytes n) (off : Nat) (f : Nat → Nat) : Nat → Bytes n
  | 0 => b
  | k + 1 => setWord w (setWords w b off f k) (off + w * k) (f k)

/-- Copy the bytes of `src` (`memmove`) over the bytes from offset `off` on. -/
def setBytes (b : Bytes n) (off : Nat) (src : List UInt8) : Bytes n := fun j =>
  if off ≤ j.val ∧ j.val < off + src.length then src.getD (j.val - off) 0 else b j

/-- The `len` bytes from offset `off` on. -/
def getBytes (b : Bytes n) (off len : Nat) : List UInt8 :=
  (List.range len).map fun i => b.get (off + i)

@[simp] theorem get_zero (i : Nat) : (zero n).get i = 0 := by
  simp [get, zero]

@[simp] theorem getWord_zero (w off : Nat) : getWord w (zero n) off = 0 := by
  induction w generalizing off with
  | zero => rfl
  | succ w ih => simp [getWord, ih]

@[simp] theorem length_getBytes (b : Bytes n) (off len : Nat) :
    (b.getBytes off len).length = len := by
  simp [getBytes]

/-- A word is read from its own bytes only. -/
theorem getWord_congr {w : Nat} {b c : Bytes n} {off : Nat}
    (h : ∀ i, off ≤ i → i < off + w → b.get i = c.get i) :
    getWord w b off = getWord w c off := by
  induction w generalizing off with
  | zero => rfl
  | succ w ih =>
    rw [getWord, getWord, h off (Nat.le_refl _) (by omega),
      ih (fun i hlo hhi => h i (by omega) (by omega))]

/-- The byte a store leaves at offset `i`. -/
theorem get_setWord (w : Nat) (b : Bytes n) (off v i : Nat) :
    (setWord w b off v).get i
      = if off ≤ i ∧ i < off + w ∧ i < n then UInt8.ofNat (v / 256 ^ (i - off))
        else b.get i := by
  by_cases hn : i < n
  · simp [get, setWord, hn]
  · simp [get, hn]

/-- A store leaves every disjoint word unchanged. -/
theorem getWord_setWord_disjoint {w w' : Nat} {b : Bytes n} {off off' v : Nat}
    (h : off' + w' ≤ off ∨ off + w ≤ off') :
    getWord w' (setWord w b off v) off' = getWord w' b off' := by
  apply getWord_congr
  intro i hlo hhi
  rw [get_setWord, if_neg (by omega)]

/-- A stored word reads back: the low `w` bytes of `v`. -/
theorem getWord_setWord {w : Nat} {b : Bytes n} {off v : Nat} (hfit : off + w ≤ n) :
    getWord w (setWord w b off v) off = v % 256 ^ w := by
  -- The induction peels the lowest byte: what remains is the store of `v / 256` one byte up.
  induction w generalizing off v b with
  | zero => simp [getWord, Nat.mod_one]
  | succ w ih =>
    have hlow : ((setWord (w + 1) b off v).get off).toNat = v % 256 := by
      rw [get_setWord, if_pos (by omega)]
      simp
    have hrest : getWord w (setWord (w + 1) b off v) (off + 1)
        = getWord w (setWord w b (off + 1) (v / 256)) (off + 1) := by
      apply getWord_congr
      intro i hlo hhi
      rw [get_setWord, get_setWord, if_pos (by omega), if_pos (by omega)]
      have hexp : i - off = (i - (off + 1)) + 1 := by omega
      rw [hexp, Nat.pow_succ, Nat.mul_comm, Nat.div_div_eq_div_mul]
    rw [getWord, hlow, hrest, ih (by omega), Nat.pow_succ, Nat.mul_comm (256 ^ w) 256,
      Nat.mod_mul]

/-- A stored word reads back, when it fits. -/
theorem getWord_setWord_of_lt {w : Nat} {b : Bytes n} {off v : Nat} (hfit : off + w ≤ n)
    (hv : v < 256 ^ w) : getWord w (setWord w b off v) off = v := by
  rw [getWord_setWord hfit, Nat.mod_eq_of_lt hv]

/-- A run of stored words leaves every disjoint word unchanged. -/
theorem getWord_setWords_disjoint {w w' : Nat} {b : Bytes n} {off off' k : Nat}
    {f : Nat → Nat} (h : off' + w' ≤ off ∨ off + w * k ≤ off') :
    getWord w' (setWords w b off f k) off' = getWord w' b off' := by
  induction k with
  | zero => rfl
  | succ k ih =>
    rw [Nat.mul_succ] at h
    rw [setWords, getWord_setWord_disjoint (by omega), ih (by omega)]

/-- Each word of a stored run reads back, when it fits. -/
theorem getWord_setWords {w : Nat} {b : Bytes n} {off k j : Nat} {f : Nat → Nat}
    (hfit : off + w * k ≤ n) (hj : j < k) (hv : f j < 256 ^ w) :
    getWord w (setWords w b off f k) (off + w * j) = f j := by
  induction k with
  | zero => exact absurd hj (Nat.not_lt_zero j)
  | succ k ih =>
    rw [Nat.mul_succ] at hfit
    by_cases hjk : j = k
    · subst hjk
      exact getWord_setWord_of_lt (by omega) hv
    · -- The last word of the run lies past word `j`.
      have hlt : j < k := by omega
      have hword : w * j + w ≤ w * k := by
        rw [← Nat.mul_succ]
        exact Nat.mul_le_mul_left w hlt
      rw [setWords, getWord_setWord_disjoint (by omega), ih (by omega) hlt]

/-- The byte a `memmove` leaves at offset `i`. -/
theorem get_setBytes (b : Bytes n) (off : Nat) (src : List UInt8) (i : Nat) :
    (b.setBytes off src).get i
      = if off ≤ i ∧ i < off + src.length ∧ i < n then src.getD (i - off) 0
        else b.get i := by
  by_cases hn : i < n
  · simp [get, setBytes, hn]
  · simp [get, hn]

end Bytes

end Xv6.Lib
