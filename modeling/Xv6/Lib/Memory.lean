import Mathlib.Tactic.Ring
import Mathlib.Data.List.Basic

/-!
# `Xv6.Lib.Memory`: byte-addressed memory, and lists threaded through it

A memory gives a byte for every address. `load w m a` is the little-endian word of `w` bytes
at `a`, `store` puts one there, `fill` is `memset`, `write` stores a run of bytes, and `copy`
is `memmove`. A load sees its own `w` bytes only (`load_congr`), so each of the four leaves
every disjoint word alone.

`Chain next p l` says that the list from `p` on visits the addresses `l` and ends: each
address is not null, and `next` of it is where the rest begins. The list is determined by the
links (`Chain.unique`), and it does not change when the links outside it do (`Chain.congr`).
-/

set_option autoImplicit false

namespace Xv6.Lib

/-- Memory, byte by byte. -/
abbrev Memory := Nat → UInt8

namespace Memory

variable {m : Memory}

/-- The little-endian word of `w` bytes at address `a`. -/
def load (w : Nat) (m : Memory) (a : Nat) : Nat :=
  match w with
  | 0 => 0
  | w + 1 => (m a).toNat + 256 * load w m (a + 1)

/-- Store the low `w` bytes of `v` at address `a`, least significant byte first. -/
def store (w : Nat) (m : Memory) (a v : Nat) : Memory := fun j =>
  if a ≤ j ∧ j < a + w then UInt8.ofNat (v / 256 ^ (j - a)) else m j

/-- Set `n` bytes from address `a` on to `b`: `memset`. -/
def fill (m : Memory) (a n : Nat) (b : UInt8) : Memory := fun j =>
  if a ≤ j ∧ j < a + n then b else m j

/-- Copy bytes to address `a`. -/
def write (m : Memory) (a : Nat) (src : List UInt8) : Memory := fun j =>
  if a ≤ j ∧ j < a + src.length then src.getD (j - a) 0 else m j

/-- Copy `n` bytes from `src` to `dst`: `memmove`. -/
def copy (m : Memory) (dst src n : Nat) : Memory := fun j =>
  if dst ≤ j ∧ j < dst + n then m (src + (j - dst)) else m j

/-- The `n` bytes from address `a` on. -/
def bytes (m : Memory) (a n : Nat) : List UInt8 := (List.range n).map fun i => m (a + i)

@[simp] theorem length_bytes {a n : Nat} : (bytes m a n).length = n := by
  rw [bytes, List.length_map, List.length_range]

theorem bytes_getElem? {a n i : Nat} (hi : i < n) : (bytes m a n)[i]? = some (m (a + i)) := by
  rw [bytes, List.getElem?_map, List.getElem?_range hi]
  rfl

theorem bytes_congr {m' : Memory} {a n : Nat} (h : ∀ i < n, m' (a + i) = m (a + i)) :
    bytes m' a n = bytes m a n :=
  List.map_congr_left fun i hi => h i (List.mem_range.mp hi)

theorem bytes_take {a n j : Nat} (h : j ≤ n) : (bytes m a n).take j = bytes m a j := by
  rw [bytes, bytes, ← List.map_take, List.take_range, Nat.min_eq_left h]

theorem bytes_drop {a n j : Nat} : (bytes m a n).drop j = bytes m (a + j) (n - j) := by
  refine List.ext_getElem? fun i => ?_
  rw [List.getElem?_drop]
  by_cases hi : j + i < n
  · rw [bytes_getElem? hi, bytes_getElem? (by omega), Nat.add_assoc]
  · rw [List.getElem?_eq_none (by rw [length_bytes]; omega),
      List.getElem?_eq_none (by rw [length_bytes]; omega)]

/-- A copy is a write of the bytes that were there. -/
theorem copy_eq_write {dst src n : Nat} : m.copy dst src n = m.write dst (m.bytes src n) := by
  funext j
  unfold copy write
  rw [length_bytes]
  by_cases hj : dst ≤ j ∧ j < dst + n
  · rw [if_pos hj, if_pos hj, List.getD_eq_getElem?_getD, bytes_getElem? (by omega)]
    rfl
  · rw [if_neg hj, if_neg hj]

/-- A write is seen at its own addresses. -/
theorem write_inside {a i : Nat} {src : List UInt8} {b : UInt8} (h : src[i]? = some b) :
    m.write a src (a + i) = b := by
  obtain ⟨hi, -⟩ := List.getElem?_eq_some_iff.mp h
  unfold write
  rw [if_pos (by omega), Nat.add_sub_cancel_left, List.getD_eq_getElem?_getD, h]
  rfl

theorem write_outside {a j : Nat} {src : List UInt8} (h : ¬ (a ≤ j ∧ j < a + src.length)) :
    m.write a src j = m j := if_neg h

/-- A word is read from its own bytes only. -/
theorem load_congr {w : Nat} {m m' : Memory} {a : Nat}
    (h : ∀ i, a ≤ i → i < a + w → m i = m' i) : load w m a = load w m' a := by
  induction w generalizing a with
  | zero => rfl
  | succ w ih =>
    rw [load, load, h a (Nat.le_refl _) (by omega),
      ih fun i hlo hhi => h i (by omega) (by omega)]

/-- A word of null bytes. -/
theorem load_zero {w a : Nat} (h : ∀ i, a ≤ i → i < a + w → m i = 0) : load w m a = 0 := by
  induction w generalizing a with
  | zero => rfl
  | succ w ih =>
    rw [load, h a (Nat.le_refl _) (by omega), ih fun i hlo hhi => h i (by omega) (by omega)]
    rfl

theorem load_store_disjoint {w w' a b v : Nat} (h : b + w' ≤ a ∨ a + w ≤ b) :
    load w' (store w m a v) b = load w' m b := by
  apply load_congr
  intro i hlo hhi
  exact if_neg (by omega)

theorem load_fill_disjoint {w a n b : Nat} {x : UInt8} (h : b + w ≤ a ∨ a + n ≤ b) :
    load w (fill m a n x) b = load w m b := by
  apply load_congr
  intro i hlo hhi
  exact if_neg (by omega)

theorem load_write_disjoint {w a b : Nat} {src : List UInt8}
    (h : b + w ≤ a ∨ a + src.length ≤ b) : load w (write m a src) b = load w m b := by
  apply load_congr
  intro i hlo hhi
  exact if_neg (by omega)

/-- A stored word reads back, when it fits. -/
theorem load_store {w a v : Nat} (hv : v < 256 ^ w) : load w (store w m a v) a = v := by
  -- The induction peels the lowest byte: what remains is the store of `v / 256` one byte up.
  induction w generalizing a v m with
  | zero =>
    have hv : v < 1 := hv
    show 0 = v
    omega
  | succ w ih =>
    have hlow : (store (w + 1) m a v a).toNat = v % 256 := by
      unfold store
      rw [if_pos (by omega), Nat.sub_self]
      simp
    have hrest : load w (store (w + 1) m a v) (a + 1)
        = load w (store w m (a + 1) (v / 256)) (a + 1) := by
      apply load_congr
      intro i hlo hhi
      unfold store
      rw [if_pos (by omega), if_pos (by omega)]
      have hexp : i - a = (i - (a + 1)) + 1 := by omega
      rw [hexp, Nat.pow_succ, Nat.mul_comm, Nat.div_div_eq_div_mul]
    have hdiv : v / 256 < 256 ^ w := by
      rw [Nat.pow_succ] at hv
      exact Nat.div_lt_of_lt_mul (by rw [Nat.mul_comm]; exact hv)
    rw [load, hlow, hrest, ih hdiv]
    omega

end Memory

/-- The list from `p` on visits `l`. -/
inductive Chain (next : Nat → Nat) : Nat → List Nat → Prop
  | nil : Chain next 0 []
  | cons {p : Nat} {l : List Nat} : p ≠ 0 → Chain next (next p) l → Chain next p (p :: l)

namespace Chain

variable {next next' : Nat → Nat} {p : Nat} {l l' : List Nat}

theorem eq_zero_iff (h : Chain next p l) : p = 0 ↔ l = [] := by
  cases h with
  | nil => simp
  | cons hp _ => simp [hp]

/-- The links outside the list do not matter. -/
theorem congr (h : Chain next p l) (heq : ∀ q ∈ l, next' q = next q) : Chain next' p l := by
  induction h with
  | nil => exact .nil
  | cons hp _ ih =>
    rename_i q l _
    refine .cons hp ?_
    rw [heq q List.mem_cons_self]
    exact ih fun r hr => heq r (List.mem_cons_of_mem _ hr)

/-- The links determine the list. -/
theorem unique (h : Chain next p l) (h' : Chain next p l') : l = l' := by
  induction h generalizing l' with
  | nil =>
    cases h' with
    | nil => rfl
    | cons hp _ => exact absurd rfl hp
  | cons hp _ ih =>
    cases h' with
    | nil => exact absurd rfl hp
    | cons _ hrest => rw [ih hrest]

end Chain

end Xv6.Lib
