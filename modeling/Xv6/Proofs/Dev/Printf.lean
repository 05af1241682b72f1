import Mathlib
import Xv6.Kernel.Printf

/-!
# `Xv6.Proofs.Dev.Printf`: which integers `printf` prints

The digit loop stores the digits of its number, lowest first, if they fit in what is left of the
buffer (`digitLoop_eq`, by induction on what is left). So `printint` prints the numeral of its
argument when that is at most 16 characters long, and stores past the buffer otherwise
(`printint_eq`). In base 16 every 64-bit number fits. In base 10 a number of 17 digits does not,
and with the sign not even one of 16.

`%u` and `%x` read their argument as an `int`. An argument from `2 ^ 31` on is negative, and
what `printint` gets is its 64-bit sign extension: `%x` prints eight digits `f` too many, and
`%u` stores past the buffer.
-/

set_option autoImplicit false

namespace Xv6.Kernel.Printf

variable {base room x : Nat} {buf : List Char} {xx : Int64}

/-! ### Numerals -/

/-- The value of a numeral without a sign. -/
def parseNat (base : Nat) (cs : List Char) : Nat :=
  cs.foldl (fun acc c => base * acc + digits.idxOf c) 0

/-- The value of a numeral. -/
def parse (base : Nat) (cs : List Char) : Int :=
  if cs.head? = some '-' then -(parseNat base cs.tail : Int) else parseNat base cs

/-- The number that a conversion is to print. -/
def Conv.value (conv : Conv) (xx : Int64) : Int :=
  if conv.sign then xx.toInt else xx.toUInt64.toNat

/-- The numeral of a number, with a sign if it is negative. -/
def numeral (base : Nat) (n : Int) : List Char :=
  if n < 0 then '-' :: Nat.toDigits base n.natAbs else Nat.toDigits base n.natAbs

theorem digits_getD {d : Nat} (hd : d < 16) : digits.getD d '0' = d.digitChar := by
  have hall : ∀ d < 16, digits.getD d '0' = d.digitChar := by decide
  exact hall d hd

theorem digits_idxOf {d : Nat} (hd : d < 16) : digits.idxOf d.digitChar = d := by
  have hall : ∀ d < 16, digits.idxOf d.digitChar = d := by decide
  exact hall d hd

theorem minus_notMem_toDigits (hlo : 1 < base) (n : Nat) :
    '-' ∉ Nat.toDigits base n := by
  induction n using Nat.strongRecOn with
  | ind n ih =>
    rw [Nat.toDigits_eq_if hlo]
    split
    · simp
    · have hdiv := ih _ (Nat.div_lt_self (by omega) hlo)
      simpa using hdiv

theorem parseNat_toDigits (hlo : 1 < base) (hhi : base ≤ 16) (n : Nat) :
    parseNat base (Nat.toDigits base n) = n := by
  induction n using Nat.strongRecOn with
  | ind n ih =>
    rw [Nat.toDigits_eq_if hlo]
    split
    · simp [parseNat, digits_idxOf (by omega : n < 16)]
    · have hmod : n % base < base := Nat.mod_lt _ (by omega)
      have hdiv := ih _ (Nat.div_lt_self (by omega) hlo)
      unfold parseNat at hdiv ⊢
      rw [List.foldl_append, hdiv, List.foldl_cons, List.foldl_nil, digits_idxOf (by omega)]
      exact Nat.div_add_mod n base

/-- Reading a numeral gives the number back. -/
theorem parse_numeral (hlo : 1 < base) (hhi : base ≤ 16) (n : Int) :
    parse base (numeral base n) = n := by
  have habs := parseNat_toDigits hlo hhi n.natAbs
  unfold numeral parse
  split
  · rw [List.head?_cons, if_pos rfl, List.tail_cons, habs]
    omega
  · have hminus := minus_notMem_toDigits hlo n.natAbs
    have hhead : ¬ (Nat.toDigits base n.natAbs).head? = some '-' :=
      fun h => hminus (List.mem_of_mem_head? h)
    rw [if_neg hhead, habs]
    omega

/-! ### `printint` -/

theorem digitLoop_eq (hlo : 1 < base) (hhi : base ≤ 16) :
    digitLoop base room x buf = if (Nat.toDigits base x).length ≤ room
      then .ok (room - (Nat.toDigits base x).length, buf ++ (Nat.toDigits base x).reverse)
      else .error .overflow := by
  induction room generalizing x buf with
  | zero =>
    have hpos : 0 < (Nat.toDigits base x).length := Nat.length_toDigits_pos
    rw [if_neg (by omega)]
    rfl
  | succ room ih =>
    have hmod : x % base < base := Nat.mod_lt _ (by omega)
    rw [digitLoop, digits_getD (by omega), Nat.toDigits_eq_if hlo]
    by_cases hlast : x < base
    · -- The last digit.
      rw [if_neg (by simp [Nat.div_eq_of_lt hlast]), if_pos hlast, Nat.mod_eq_of_lt hlast]
      simp
    · have hmore : x / base ≠ 0 := fun h => hlast ((Nat.div_eq_zero_iff_lt (by omega)).mp h)
      rw [if_pos hmore, if_neg hlast, ih]
      simp only [List.length_append, List.length_singleton, Nat.add_le_add_iff_right,
        Nat.add_sub_add_right, List.reverse_append, List.reverse_singleton, List.singleton_append,
        List.append_assoc]

theorem toUInt64_toNat (xx : Int64) :
    (xx.toUInt64.toNat : Int) = if xx.toInt < 0 then xx.toInt + 2 ^ 64 else xx.toInt := by
  have hint : xx.toInt = xx.toBitVec.toInt := rfl
  have hlt : xx.toBitVec.toNat < 2 ^ 64 := xx.toBitVec.isLt
  rw [hint, BitVec.toInt_eq_toNat_cond]
  show (xx.toBitVec.toNat : Int) = _
  split <;> split <;> omega

/-- The absolute value, also of the least number, which has no negation. -/
theorem neg_toUInt64_toNat (h : xx < 0) : (-xx).toUInt64.toNat = xx.toInt.natAbs := by
  have hneg : xx.toInt < 0 := Int64.lt_iff_toInt_lt.mp h
  have hval := toUInt64_toNat xx
  have hlt : xx.toUInt64.toNat < 2 ^ 64 := xx.toUInt64.toNat_lt
  have hbits : (-xx).toUInt64.toNat = (2 ^ 64 - xx.toUInt64.toNat) % 2 ^ 64 :=
    BitVec.toNat_neg xx.toBitVec
  rw [if_pos hneg] at hval
  have := Int64.le_toInt xx
  omega

/-- A negative number: the sign takes one more slot than the digits. -/
theorem printint_negative (hlo : 1 < base) (hhi : base ≤ 16) (hneg : xx < 0) :
    printint xx base true = if (numeral base xx.toInt).length ≤ BUFSIZE
      then .ok (numeral base xx.toInt) else .error .overflow := by
  have hnum : numeral base xx.toInt = '-' :: Nat.toDigits base xx.toInt.natAbs :=
    if_pos (Int64.lt_iff_toInt_lt.mp hneg)
  rw [hnum, List.length_cons]
  simp only [printint, Bool.true_and, decide_eq_true hneg, if_true]
  rw [neg_toUInt64_toNat hneg, digitLoop_eq hlo hhi]
  generalize Nat.toDigits base xx.toInt.natAbs = ds
  by_cases hfull : ds.length ≤ BUFSIZE
  · rw [if_pos hfull]
    rcases Nat.lt_or_eq_of_le hfull with hroom | hnone
    · rw [if_pos (by omega)]
      have hleft : BUFSIZE - ds.length = BUFSIZE - ds.length - 1 + 1 := by omega
      rw [hleft]
      simp [Bind.bind, Except.bind, Pure.pure, Except.pure, put]
    · rw [if_neg (by omega), hnone, Nat.sub_self]
      rfl
  · rw [if_neg hfull, if_neg (by omega)]
    rfl

/-- Any other number. -/
theorem printint_unsigned (hlo : 1 < base) (hhi : base ≤ 16) {sign : Bool}
    (hneg : (sign && decide (xx < 0)) = false) :
    printint xx base sign = if (Nat.toDigits base xx.toUInt64.toNat).length ≤ BUFSIZE
      then .ok (Nat.toDigits base xx.toUInt64.toNat) else .error .overflow := by
  simp only [printint, hneg, Bool.false_eq_true, if_false]
  rw [digitLoop_eq hlo hhi]
  by_cases hfull : (Nat.toDigits base xx.toUInt64.toNat).length ≤ BUFSIZE
  · rw [if_pos hfull, if_pos hfull]
    simp [Bind.bind, Except.bind, Pure.pure, Except.pure]
  · rw [if_neg hfull, if_neg hfull]
    rfl

theorem Conv.base_bounds (conv : Conv) : 1 < conv.base ∧ conv.base ≤ 16 := by
  cases conv <;> decide

theorem numeral_natCast (base n : Nat) : numeral base n = Nat.toDigits base n := by
  rw [numeral, if_neg (by omega), Int.natAbs_natCast]

/-- `printint` prints the numeral if it has at most 16 characters. -/
theorem printint_eq (conv : Conv) (xx : Int64) :
    printint xx conv.base conv.sign = if (numeral conv.base (conv.value xx)).length ≤ BUFSIZE
      then .ok (numeral conv.base (conv.value xx)) else .error .overflow := by
  obtain ⟨hlo, hhi⟩ := conv.base_bounds
  cases hs : conv.sign with
  | true =>
    have hval : conv.value xx = xx.toInt := if_pos hs
    rw [hval]
    by_cases hneg : xx < 0
    · exact printint_negative hlo hhi hneg
    · have hnat : xx.toInt = xx.toUInt64.toNat := by
        have hge : ¬ xx.toInt < 0 := fun h => hneg (Int64.lt_iff_toInt_lt.mpr h)
        rw [toUInt64_toNat, if_neg hge]
      rw [hnat, numeral_natCast]
      exact printint_unsigned hlo hhi (by simp [hneg])
  | false =>
    have hval : conv.value xx = xx.toUInt64.toNat := if_neg (by rw [hs]; decide)
    rw [hval, numeral_natCast]
    exact printint_unsigned hlo hhi rfl

/-- What `printint` can print. -/
def Conv.Fits (conv : Conv) (xx : Int64) : Prop :=
  match conv with
  | .d => -10 ^ 15 < xx.toInt ∧ xx.toInt < 10 ^ 16
  | .u => xx.toUInt64.toNat < 10 ^ 16
  | .x => True

theorem length_numeral_le (conv : Conv) (xx : Int64) :
    (numeral conv.base (conv.value xx)).length ≤ BUFSIZE ↔ conv.Fits xx := by
  unfold numeral BUFSIZE
  cases conv with
  | d =>
    simp only [Conv.value, Conv.sign, Conv.base, if_true, Conv.Fits]
    split
    · have hdigits := @Nat.length_toDigits_le_iff 10 xx.toInt.natAbs 15 (by decide) (by decide)
      rw [List.length_cons]
      omega
    · rw [Nat.length_toDigits_le_iff (by decide) (by decide)]
      omega
  | u =>
    simp only [Conv.value, Conv.sign, Conv.base, Bool.false_eq_true, if_false, Conv.Fits]
    rw [if_neg (by omega), Int.natAbs_natCast, Nat.length_toDigits_le_iff (by decide) (by decide)]
  | x =>
    simp only [Conv.value, Conv.sign, Conv.base, Bool.false_eq_true, if_false, Conv.Fits]
    have hlt := xx.toUInt64.toNat_lt
    rw [if_neg (by omega), Int.natAbs_natCast, Nat.length_toDigits_le_iff (by decide) (by decide)]
    exact iff_of_true (by omega) trivial

/-- `printint` stays in its buffer, prints the numeral of its argument and so what can be read
back, exactly for the arguments that fit. -/
theorem printint_correct_iff (conv : Conv) (xx : Int64) :
    (∃ out, printint xx conv.base conv.sign = .ok out ∧
      out = numeral conv.base (conv.value xx) ∧ parse conv.base out = conv.value xx) ↔
    conv.Fits xx := by
  obtain ⟨hlo, hhi⟩ := conv.base_bounds
  rw [← length_numeral_le, printint_eq]
  split
  · rename_i hlen
    exact iff_of_true ⟨_, rfl, rfl, parse_numeral hlo hhi _⟩ hlen
  · rename_i hlen
    exact iff_of_false (fun ⟨_, h, _⟩ => nomatch h) hlen

/-- `%ld` of a number of 17 digits stores past the buffer. -/
theorem printint_seventeen_digits :
    printint (10 ^ 16) Conv.d.base Conv.d.sign = .error .overflow := by
  decide

/-! ### The 32-bit conversions -/

/-- The piece prints its 32-bit unsigned argument, as the 64-bit conversion would. -/
def PrintsUnsigned (str : UInt64 → List Char) (src : Source) : Prop :=
  ∀ conv arg, src = .integer conv .int arg → conv ≠ .d →
    src.out str = .ok (Nat.toDigits conv.base arg.toUInt32.toNat) ∧
      src.out str = (Source.integer conv .uint64 arg.toUInt32.toUInt64).out str

/-- The argument, if it is a 32-bit unsigned one, is not negative as an `int`. -/
def ReadsAsInt (src : Source) : Prop :=
  ∀ conv arg, src = .integer conv .int arg → conv ≠ .d → arg.toUInt32.toNat < 2 ^ 31

/-- An `int` argument is sign-extended. -/
theorem vaArg_int (arg : UInt64) : (Width.int.vaArg arg).toUInt64.toNat =
    if arg.toUInt32.toNat < 2 ^ 31 then arg.toUInt32.toNat
      else arg.toUInt32.toNat + (2 ^ 64 - 2 ^ 32) := by
  have hbits : (Width.int.vaArg arg).toInt = arg.toUInt32.toBitVec.toInt := Int32.toInt_toInt64 _
  have hnat : arg.toUInt32.toBitVec.toNat = arg.toUInt32.toNat := rfl
  have hlt := arg.toUInt32.toNat_lt
  have hval := toUInt64_toNat (Width.int.vaArg arg)
  rw [hbits, BitVec.toInt_eq_toNat_cond, hnat] at hval
  split <;> split at hval <;> split at hval <;> omega

/-- An unsigned conversion of a number below `2 ^ 32` fits. -/
theorem out_small {conv : Conv} (hd : conv ≠ .d) (width : Width) (arg : UInt64) {n : Nat}
    (hn : n < 2 ^ 32) (str : UInt64 → List Char) (harg : (width.vaArg arg).toUInt64.toNat = n) :
    (Source.integer conv width arg).out str = .ok (Nat.toDigits conv.base n) := by
  have hval : conv.value (width.vaArg arg) = n := by
    cases conv with
    | d => exact absurd rfl hd
    | u => exact congrArg Nat.cast harg
    | x => exact congrArg Nat.cast harg
  have hfits : conv.Fits (width.vaArg arg) := by
    cases conv with
    | d => exact absurd rfl hd
    | u =>
      show (width.vaArg arg).toUInt64.toNat < 10 ^ 16
      omega
    | x => exact trivial
  rw [Source.out, printint_eq, if_pos ((length_numeral_le conv _).mpr hfits), hval,
    numeral_natCast]

/-- In every format, a `%u` or `%x` prints its argument exactly if that is below `2 ^ 31`. -/
theorem printf_unsigned_iff (str : UInt64 → List Char) (args : Nat → UInt64) (fmt : List Char) :
    ∀ src ∈ printfLoop args 0 fmt, PrintsUnsigned str src ↔ ReadsAsInt src := by
  intro src _
  constructor
  · rintro hprints conv arg rfl hd
    obtain ⟨hout, -⟩ := hprints conv arg rfl hd
    by_contra hbig
    obtain ⟨hlo, hhi⟩ := conv.base_bounds
    have hval : conv.value (Width.int.vaArg arg) = arg.toUInt32.toNat + (2 ^ 64 - 2 ^ 32) := by
      have harg := vaArg_int arg
      rw [if_neg hbig] at harg
      cases conv with
      | d => exact absurd rfl hd
      | u => exact congrArg Nat.cast harg
      | x => exact congrArg Nat.cast harg
    -- What was printed reads back as the sign extension, not as the argument.
    rw [Source.out, printint_eq, hval] at hout
    split at hout
    · have hread := congrArg (parse conv.base) (Except.ok.inj hout)
      rw [parse_numeral hlo hhi, ← numeral_natCast, parse_numeral hlo hhi] at hread
      omega
    · cases hout
  · rintro hreads conv arg rfl hd
    have hlt := arg.toUInt32.toNat_lt
    have hout := out_small hd .int arg hlt str (by
      rw [vaArg_int, if_pos (hreads conv arg rfl hd)])
    exact ⟨hout, hout.trans (out_small hd .uint64 _ hlt str (by simp [Width.vaArg])).symm⟩

/-- A piece that is printed as it should be. -/
theorem printf_unsigned_iff_small :
    PrintsUnsigned (fun _ => []) (.integer .x .int 255) ↔ ReadsAsInt (.integer .x .int 255) :=
  printf_unsigned_iff (fun _ => []) (fun _ => 255) "v = %x".toList _ (by decide)

/-- `%x` of `2 ^ 31` prints 16 digits; `%lx` prints eight. -/
theorem printf_x_sign_extends :
    printf (fun _ => []) (fun _ => 2 ^ 31) "%x".toList = .ok "ffffffff80000000".toList ∧
      printf (fun _ => []) (fun _ => 2 ^ 31) "%lx".toList = .ok "80000000".toList := by
  decide

end Xv6.Kernel.Printf
