import EightyNine.J89.Exact

/-!
# Numbers in print

What `sprintf` writes for a magnitude is a numeral for its seventeen significant
digits (`conversionG_numeral`).  It is close enough to the magnitude that reading it
back is within the range of a double, and it is exact for whole magnitudes below
`10 ^ 17`, which have neither a fraction nor an exponent.  So a number is refused
when it is read back only where the whole magnitude is beyond `2 ^ 53`
(`reread_float`).
-/

namespace J89

open Library (Double)
open Library.Decimal List Int
open Nat (log)

/-! ## Significant digits -/

variable {q : ℚ}

/-- The seventeen digits of a magnitude. -/
def significand (q : ℚ) : Nat := (significant 17 q).1.toNat

/-- The exponent of the first one. -/
def firstExponent (q : ℚ) : Int := (significant 17 q).2

/-- The magnitude that is printed. -/
def printed (q : ℚ) : ℚ := significand q * 10 ^ (firstExponent q - 16)

theorem significand_bounds (hq : 0 < q) : 10 ^ 16 ≤ significand q ∧ significand q < 10 ^ 17 := by
  obtain ⟨hlow, hhigh, -⟩ := significant_spec (p := 17) (by norm_num) hq
  unfold significand
  norm_num at hlow hhigh ⊢
  omega

/-- Printing keeps a magnitude to within `10 ^ -16 / 2` of it. -/
theorem printed_error (hq : 0 < q) : |printed q - q| ≤ q / (2 * 10 ^ 16) := by
  obtain ⟨hlow, -, herror⟩ := significant_spec (p := 17) (by norm_num) hq
  have hcast : ((significand q : ℕ) : ℚ) = (significant 17 q).1 := by
    rw [significand]
    have h : (0 : ℤ) ≤ (significant 17 q).1 := le_trans (by positivity) hlow
    exact_mod_cast toNat_of_nonneg h
  have hlog : (10 : ℚ) ^ log 10 q ≤ q := zpow_log_le_self (by norm_num) hq
  have hsixteen : ((17 : ℕ) : ℤ) - 1 = 16 := by norm_num
  rw [hsixteen] at herror
  calc |printed q - q| ≤ 10 ^ (log 10 q - 16) / 2 := by rw [printed, hcast]; exact herror
    _ = 10 ^ log 10 q / (2 * 10 ^ 16) := by
      rw [zpow_sub₀ (by norm_num)]
      ring
    _ ≤ q / (2 * 10 ^ 16) := div_le_div_of_nonneg_right hlog (by norm_num)

variable {n : Nat}

/-- A whole magnitude of at most seventeen digits is printed as it is. -/
theorem significant_natCast (hn : 0 < n) (hlt : n < 10 ^ 17) :
    significand n = n * 10 ^ (16 - log 10 n) ∧ firstExponent n = log 10 n := by
  have hlog : log 10 (n : ℚ) = log 10 n := log_natCast 10 n
  have hle : log 10 n ≤ 16 := Nat.lt_succ_iff.mp (Nat.log_lt_of_lt_pow hn.ne' hlt)
  have hscaled : (n : ℚ) / 10 ^ (log 10 (n : ℚ) - ((17 : ℕ) - 1)) =
      ((n * 10 ^ (16 - log 10 n) : ℕ) : ℤ) := by
    have hexp : log 10 (n : ℚ) - ((17 : ℕ) - 1) = -((16 - log 10 n : ℕ) : ℤ) := by omega
    rw [hexp, zpow_neg, div_inv_eq_mul, zpow_natCast]
    push_cast
    rfl
  have hne : ((n * 10 ^ (16 - log 10 n) : ℕ) : ℤ) ≠ 10 ^ 17 := by
    have hkey : n * 10 ^ (16 - log 10 n) < 10 ^ 17 := by
      calc n * 10 ^ (16 - log 10 n)
          < 10 ^ (log 10 n + 1) * 10 ^ (16 - log 10 n) :=
            Nat.mul_lt_mul_of_pos_right (Nat.lt_pow_succ_log_self (by norm_num) n) (by positivity)
        _ = 10 ^ 17 := by rw [← pow_add]; congr 1; omega
    exact_mod_cast hkey.ne
  have hsig := significant_of_whole (p := 17) hscaled hne
  rw [significand, firstExponent, hsig, hlog]
  exact ⟨toNat_natCast _, rfl⟩

theorem printed_natCast (hn : 0 < n) (hlt : n < 10 ^ 17) : printed n = n := by
  obtain ⟨hm, hx⟩ := significant_natCast hn hlt
  have hle : log 10 n ≤ 16 := Nat.lt_succ_iff.mp (Nat.log_lt_of_lt_pow hn.ne' hlt)
  have hexp : (log 10 n : ℤ) - 16 = -((16 - log 10 n : ℕ) : ℤ) := by omega
  rw [printed, hm, hx, hexp, zpow_neg, zpow_natCast]
  push_cast
  exact mul_inv_cancel_right₀ (by positivity) _

theorem firstExponent_bounds (q : ℚ) :
    log 10 q ≤ firstExponent q ∧ firstExponent q ≤ log 10 q + 1 := by
  simp only [firstExponent, significant]
  split <;> constructor <;> simp only <;> omega

/-! ## The numeral of a magnitude -/

/-- The exponent that style `e` writes. -/
def styleExponent (x : Int) : Exponent where
  upper := false
  sign := if x < 0 then .minus else .plus
  digits := digits (if x.natAbs < 100 then 2 else 3) x.natAbs
  digits_ne := by
    apply ne_nil_of_length_pos
    rw [length_digits]
    split <;> norm_num

theorem styleExponent_text (x : Int) : (styleExponent x).text = exponentText x := by
  rw [Exponent.text, exponentText, styleExponent]
  simp only [Bool.false_eq_true, if_false]
  split <;> rfl

theorem styleExponent_value {x : Int} (hx : x.natAbs < 1000) : (styleExponent x).value = x := by
  have hdigits : Digits.value (styleExponent x).digits = x.natAbs := by
    refine value_digits ?_
    split <;> omega
  rw [Exponent.value, hdigits, styleExponent]
  rcases lt_or_ge x 0 with h | h
  · rw [if_pos (by simp [h])]
    omega
  · rw [if_neg (by simp [not_lt.mpr h])]
    omega

/-- The numeral with integer digits, fraction digits and an exponent, without the zeros at the
end of the fraction. -/
def stripped (neg : Bool) (int frac : Digits) (hint : IntPart int) (exp : Option Exponent) :
    Numeral where
  neg := neg
  int := int
  int_ne := hint.1
  int_zero := hint.2
  frac := strip frac
  exp := exp

variable {int frac : Digits}

theorem stripped_value (neg : Bool) (hint : IntPart int)
    (exp : Option Exponent) :
    ((stripped neg int frac hint exp).mantissa : ℚ) *
        10 ^ ((stripped neg int frac hint exp).exponent -
          (stripped neg int frac hint exp).frac.length) =
      value (int ++ frac) * 10 ^ (exp.elim 0 Exponent.value - frac.length) :=
  value_strip int frac (exp.elim 0 Exponent.value)

/-- The numeral that is printed for a magnitude. -/
structure Prints (neg : Bool) (q : ℚ) (x : Numeral) : Prop where
  text : x.text = signText neg ++ conversionG q
  neg : x.neg = neg
  value : (x.mantissa : ℚ) * 10 ^ (x.exponent - x.frac.length) = printed q
  length : (x.int ++ x.frac).length ≤ 40
  small : x.isFloat = false → firstExponent q < 17
  whole : ∀ n : Nat, q = n → n < 10 ^ 17 → x.isFloat = false

theorem intPart_take (hq : 0 < q) {k : Nat} (hk : 0 < k) :
    IntPart ((digits 17 (significand q)).take k) := by
  obtain ⟨hlow, hhigh⟩ := significand_bounds hq
  have hhead := head_digits_ne (w := 16) hlow hhigh
  cases hds : digits 17 (significand q) with
  | nil => exact absurd (congrArg length hds) (by rw [length_digits]; decide)
  | cons d ds =>
    obtain ⟨j, rfl⟩ := Nat.exists_eq_succ_of_ne_zero hk.ne'
    rw [hds] at hhead
    exact ⟨cons_ne_nil _ _, fun h => absurd h hhead⟩

theorem intPart_zero : IntPart [0] := ⟨cons_ne_nil _ _, fun _ => rfl⟩

theorem length_stripped (neg : Bool) (hint : IntPart int)
    (exp : Option Exponent) :
    ((stripped neg int frac hint exp).int ++ (stripped neg int frac hint exp).frac).length ≤
      int.length + frac.length := by
  rw [length_append]
  exact Nat.add_le_add_left (length_strip_le frac) _

theorem isFloat_stripped (neg : Bool) (hint : IntPart int) :
    (stripped neg int frac hint none).isFloat = false ↔ value frac = 0 := by
  rw [← strip_eq_nil_iff, Numeral.isFloat, stripped]
  by_cases h : strip frac = [] <;> simp [h]

theorem value_significand (hq : 0 < q) : value (digits 17 (significand q)) = significand q :=
  value_digits (significand_bounds hq).2

/-- The exponent of a whole magnitude of at most seventeen digits. -/
theorem firstExponent_natCast (hq : 0 < q) (hn : q = n) (hlt : n < 10 ^ 17) :
    firstExponent q = log 10 n ∧ log 10 n ≤ 16 := by
  have hpos : 0 < n := by rw [hn] at hq; exact_mod_cast hq
  rw [hn]
  exact ⟨(significant_natCast hpos hlt).2,
    Nat.lt_succ_iff.mp (Nat.log_lt_of_lt_pow hpos.ne' hlt)⟩

section Styles

variable (neg : Bool) (hq : 0 < q)
include hq

/-- Style `f` with digits before the point. -/
theorem styleF_prints (hx : 0 ≤ firstExponent q) (hlt : firstExponent q < 17) :
    Prints neg q (stripped neg ((digits 17 (significand q)).take ((firstExponent q).toNat + 1))
      ((digits 17 (significand q)).drop ((firstExponent q).toNat + 1))
      (intPart_take hq (Nat.succ_pos _)) none) where
  text := by
    have hstyle : -4 ≤ firstExponent q ∧ firstExponent q < 17 := ⟨by omega, hlt⟩
    have htext : conversionG q = styleF (digits 17 (significand q)) (firstExponent q) :=
      if_pos hstyle
    rw [htext, styleF, if_pos hx]
    simp [Numeral.text, stripped, expText]
  neg := rfl
  value := by
    rw [stripped_value, take_append_drop, value_significand hq, length_drop,
      length_digits, printed]
    congr 2
    simp only [Option.elim]
    omega
  length := by
    refine (length_stripped neg _ none).trans ?_
    rw [length_take, length_drop, length_digits]
    omega
  small := fun _ => hlt
  whole := by
    intro n hn hlt
    have hpos : 0 < n := by rw [hn] at hq; exact_mod_cast hq
    obtain ⟨hx, hle⟩ := firstExponent_natCast hq hn hlt
    have hm : significand q = n * 10 ^ (16 - log 10 n) := by
      rw [hn]; exact (significant_natCast hpos hlt).1
    have hdrop := (value_take_drop (significand_bounds hq).2 ((firstExponent q).toNat + 1)).2
    rw [isFloat_stripped, hdrop, hx, toNat_natCast, hm,
      show 17 - (log 10 n + 1) = 16 - log 10 n by omega]
    exact Nat.mul_mod_left _ _

/-- Style `f` with nothing but a zero before the point. -/
theorem styleF_prints_zero (hx : firstExponent q < 0) (hlow : -4 ≤ firstExponent q) :
    Prints neg q (stripped neg [0]
      (replicate (-firstExponent q - 1).toNat 0 ++ digits 17 (significand q))
      intPart_zero none) where
  text := by
    have hstyle : -4 ≤ firstExponent q ∧ firstExponent q < 17 := ⟨hlow, by omega⟩
    have htext : conversionG q = styleF (digits 17 (significand q)) (firstExponent q) :=
      if_pos hstyle
    rw [htext, styleF, if_neg (not_le.mpr hx)]
    simp [Numeral.text, stripped, expText]
  neg := rfl
  value := by
    have hzeros : value ([0] ++ (replicate (-firstExponent q - 1).toNat 0 ++
        digits 17 (significand q))) = significand q := by
      rw [value_append, value_append, value_replicate_zero, value_significand hq]
      simp [value]
    rw [stripped_value, hzeros, length_append, length_replicate, length_digits, printed]
    congr 2
    simp only [Option.elim]
    omega
  length := by
    refine (length_stripped neg _ none).trans ?_
    rw [length_append, length_replicate, length_digits, length_singleton]
    omega
  small := fun _ => by omega
  whole := by
    intro n hn hlt
    have := (firstExponent_natCast hq hn hlt).1
    omega

/-- Style `e`. -/
theorem styleE_prints (hx : ¬(-4 ≤ firstExponent q ∧ firstExponent q < 17))
    (hlt : (firstExponent q).natAbs < 1000) :
    Prints neg q (stripped neg ((digits 17 (significand q)).take 1)
      ((digits 17 (significand q)).drop 1) (intPart_take hq Nat.one_pos)
      (some (styleExponent (firstExponent q)))) where
  text := by
    have htext : conversionG q = styleE (digits 17 (significand q)) (firstExponent q) :=
      if_neg hx
    rw [htext, styleE, ← styleExponent_text]
    simp [Numeral.text, stripped, expText]
  neg := rfl
  value := by
    rw [stripped_value, take_append_drop, value_significand hq, length_drop,
      length_digits, printed]
    congr 2
    simp only [Option.elim]
    rw [styleExponent_value hlt]
    norm_num
  length := by
    refine (length_stripped neg _ _).trans ?_
    rw [length_take, length_drop, length_digits]
    omega
  small := fun h => by simp [Numeral.isFloat, stripped] at h
  whole := by
    intro n hn hlt
    have := firstExponent_natCast hq hn hlt
    omega

end Styles

/-- What `%.17g` writes is a numeral. -/
theorem exists_prints (neg : Bool) (hlow : (10 : ℚ) ^ (-400 : ℤ) ≤ q)
    (hhigh : q < (10 : ℚ) ^ (400 : ℤ)) : ∃ x, Prints neg q x := by
  have hq : 0 < q := lt_of_lt_of_le (by positivity) hlow
  obtain ⟨hx, hx'⟩ := firstExponent_bounds q
  have hlog : -400 ≤ log 10 q := (zpow_le_iff_le_log (by norm_num) hq).mp hlow
  have hlog' : log 10 q < 400 := (lt_zpow_iff_log_lt (by norm_num) hq).mp hhigh
  by_cases hstyle : -4 ≤ firstExponent q ∧ firstExponent q < 17
  · rcases lt_or_ge (firstExponent q) 0 with hneg | hpos
    · exact ⟨_, styleF_prints_zero neg hq hneg hstyle.1⟩
    · exact ⟨_, styleF_prints neg hq hpos hstyle.2⟩
  · exact ⟨_, styleE_prints neg hq hstyle (by omega)⟩

/-! ## Reading a number back -/

/-- What the code reads where it has written a number. -/
def reread (a : Num) : Option Num :=
  match parseNumber (wRenderNumber a) with
  | .ok (b, _) => some b
  | .error _ => none

variable {a : Num}

theorem reread_of_text {y : Numeral} (h : wRenderNumber a = y.text) :
    reread a = y.read := by
  have hscan := scanNumber_text y follows_nil
  rw [append_nil] at hscan
  rw [reread, h, Numeral.read]
  split at hscan
  case isTrue hlen =>
    have hparse : parseNumber y.text = (numberNode y.token).map fun b => (b, []) := by
      rw [parseNumber, bind_of_ok hscan]
      rfl
    rw [if_pos hlen]
    refine Option.ext fun b => ?_
    rw [← numberNode_token y b, hparse]
    generalize numberNode y.token = node
    cases node <;> simp [Except.map]
  case isFalse hlen =>
    rw [if_neg hlen, parseNumber, hscan]
    rfl

/-- The numeral for zero. -/
def zeroNumeral (neg : Bool) : Numeral := stripped neg [0] [] intPart_zero none

variable {x : Numeral}

theorem sprintf_text {neg : Bool} (hq : q ≠ 0) (h : Prints neg q x) :
    sprintf (.finite neg q) = x.text := by
  rw [sprintf, if_neg hq, h.text]

theorem sprintf_zero (neg : Bool) : sprintf (.finite neg 0) = (zeroNumeral neg).text := by
  rw [sprintf, if_pos rfl]
  rfl

/-- An integer in print, without a fraction and without an exponent. -/
theorem Numeral.read_of_whole (h : x.isFloat = false) :
    x.read = if Digits.value x.int ≤ 2 ^ 53 then
      some (.integer (signedInt x.neg (Digits.value x.int))) else none := by
  have hint : x.integer = signedInt x.neg (Digits.value x.int) := rfl
  have hfrac : x.frac = [] := by
    simp only [Numeral.isFloat, Bool.or_eq_false_iff, decide_eq_false_iff_not, not_not] at h
    exact h.1
  rw [read, hfrac, if_pos (by decide), node, h, hint]
  simp only [Bool.false_eq_true, if_false]
  have hrange : (-2 ^ 53 ≤ signedInt x.neg (Digits.value x.int) ∧
      signedInt x.neg (Digits.value x.int) ≤ 2 ^ 53) ↔ Digits.value x.int ≤ 2 ^ 53 := by
    rw [signedInt]
    split <;> omega
  simp only [hrange]

/-- Without a fraction and an exponent, the digits write what is printed. -/
theorem Prints.value_int {neg : Bool} (h : Prints neg q x)
    (hx : x.isFloat = false) : (Digits.value x.int : ℚ) = printed q := by
  simp only [Numeral.isFloat, Bool.or_eq_false_iff, decide_eq_false_iff_not, not_not,
    Option.isSome_eq_false_iff, Option.isNone_iff_eq_none] at hx
  rw [← h.value, Numeral.mantissa, Numeral.exponent, hx.1, hx.2]
  simp

/-- A whole magnitude of at most seventeen digits is read back as an integer, if that is in
the range of the code. -/
theorem reread_whole {neg : Bool}
    (h : wRenderNumber a = sprintf (.finite neg n)) (hn : n < 10 ^ 17) :
    reread a = if n ≤ 2 ^ 53 then some (.integer (signedInt neg n)) else none := by
  rcases Nat.eq_zero_or_pos n with rfl | hpos
  · rw [Nat.cast_zero, sprintf_zero] at h
    rw [reread_of_text h, Numeral.read_of_whole (by rfl)]
    rfl
  have hq : (n : ℚ) ≠ 0 := by exact_mod_cast hpos.ne'
  have hone : (1 : ℚ) ≤ n := by exact_mod_cast hpos
  have hlow : (10 : ℚ) ^ (-400 : ℤ) ≤ n :=
    (zpow_le_one_of_nonpos₀ (by norm_num) (by norm_num)).trans hone
  have hhigh : (n : ℚ) < 10 ^ (400 : ℤ) := by
    calc (n : ℚ) < ((10 ^ 17 : ℕ) : ℚ) := by exact_mod_cast hn
      _ = 10 ^ (17 : ℤ) := by norm_cast
      _ < 10 ^ (400 : ℤ) := zpow_lt_zpow_right₀ (by norm_num) (by norm_num)
  obtain ⟨x, hx⟩ := exists_prints neg hlow hhigh
  have hfloat := hx.whole n rfl hn
  have hvalue := hx.value_int hfloat
  rw [printed_natCast hpos hn] at hvalue
  have hvalue : Digits.value x.int = n := by exact_mod_cast hvalue
  rw [reread_of_text (h.trans (sprintf_text hq hx)), Numeral.read_of_whole hfloat, hvalue, hx.neg]

/-- What is printed for a double is in the range of a double. -/
theorem toDouble_printed (hq : Double.Magnitude q) (hne : q ≠ 0) :
    (toDouble (printed q)).isSome = true := by
  have hpos : 0 < q := lt_of_le_of_ne hq.nonneg hne.symm
  have hleast := hq.least_le hne
  have hgreatest := hq.le_greatest
  obtain ⟨hlow, hhigh⟩ := abs_le.mp (printed_error hpos)
  refine toDouble_of_between ?_ ?_
  · calc (2 : ℚ) ^ (-1075 : ℤ) = 2 ^ (-1 + -1074 : ℤ) := by norm_num
      _ = 1 / 2 * 2 ^ (-1074 : ℤ) := by rw [zpow_add₀ (by norm_num)]; norm_num
      _ ≤ 1 / 2 * q := by gcongr
      _ < printed q := by linarith
  · have hunit : (0 : ℚ) < 2 ^ (970 : ℤ) := zpow_pos (by norm_num) _
    calc printed q ≤ (1 + 1 / (2 * 10 ^ 16)) * q := by linarith
      _ ≤ (1 + 1 / (2 * 10 ^ 16)) * ((2 ^ 53 - 1) * 2 ^ ((970 : ℤ) + 1)) := by gcongr; exact hgreatest
      _ = (1 + 1 / (2 * 10 ^ 16)) * (2 ^ 53 - 1) * 2 * 2 ^ (970 : ℤ) := by
        rw [zpow_add_one₀ (by norm_num), mul_comm (2 ^ (970 : ℤ)) 2, ← mul_assoc, ← mul_assoc]
      _ < (2 ^ 54 - 1) * 2 ^ (970 : ℤ) := mul_lt_mul_of_pos_right (by norm_num) hunit

theorem exists_prints_double (neg : Bool) (hq : Double.Magnitude q) (hne : q ≠ 0) :
    ∃ x, Prints neg q x := by
  have hlow : (10 : ℚ) ^ (-400 : ℤ) ≤ q := by
    refine (pow_neg_le.trans ?_).trans (hq.least_le hne)
    exact zpow_le_zpow_right₀ (by norm_num) (by norm_num)
  exact exists_prints neg hlow (hq.lt_limit.trans_le limit_le)

theorem reread_other {neg : Bool} (hq : Double.Magnitude q)
    (h : wRenderNumber a = sprintf (.finite neg q)) (hw : ∀ n : Nat, q = n → 10 ^ 17 ≤ n) :
    (reread a).isSome = true := by
  have hne : q ≠ 0 := by
    rintro rfl
    exact absurd (hw 0 Nat.cast_zero.symm) (by norm_num)
  have hpos : 0 < q := lt_of_le_of_ne hq.nonneg hne.symm
  obtain ⟨x, hx⟩ := exists_prints_double neg hq hne
  rw [reread_of_text (h.trans (sprintf_text hne hx))]
  cases hfloat : x.isFloat with
  | true =>
    have hshort : (x.int ++ x.frac).length ≤ shortLength := hx.length.trans (by decide)
    rw [x.read_eq_num hshort, Numeral.num, Numeral.node, if_pos hfloat, hx.value]
    simpa using toDouble_printed hq hne
  | false =>
    -- Only a whole magnitude has digits enough to leave the range of integers.
    have hvalue := hx.value_int hfloat
    rcases hq.whole_or_le with ⟨n, hn⟩ | hle
    · have hlarge : ((10 ^ 17 : ℕ) : ℚ) ≤ q := by rw [hn]; exact_mod_cast hw n hn
      have hlog : 17 ≤ log 10 q :=
        (zpow_le_iff_le_log (by norm_num) hpos).mp (le_trans (by norm_num) hlarge)
      have hsmall := hx.small hfloat
      have := (firstExponent_bounds q).1
      omega
    · have hprint := (abs_le.mp (printed_error hpos)).2
      have hkey : (Digits.value x.int : ℚ) ≤ 2 ^ 53 := by
        rw [hvalue]
        linarith
      have hkey : Digits.value x.int ≤ 2 ^ 53 := by exact_mod_cast hkey
      rw [Numeral.read_of_whole hfloat, if_pos hkey]
      rfl

/-! ## The numbers of a document -/

/-- A FLOAT node of a whole magnitude that is printed as digits only and that is beyond the
range of INTEGER nodes. -/
def Num.Wide : Num → Prop
  | .float (.finite _ q) => ∃ n : Nat, q = n ∧ 2 ^ 53 < n ∧ n < 10 ^ 17
  | _ => False

theorem Numeral.read_cases (h : x.read = some a) :
    (∃ v, a = .integer v ∧ -2 ^ 53 ≤ v ∧ v ≤ 2 ^ 53) ∨
      ∃ neg q, a = .float (.finite neg q) ∧ Double.Magnitude q := by
  rw [read] at h
  split at h
  case isFalse => cases h
  rw [node] at h
  split at h
  · obtain ⟨v, hv, rfl⟩ := Option.map_eq_some_iff.mp h
    generalize hw : (x.mantissa : ℚ) * 10 ^ (clamp x.exponent - x.frac.length) = w at hv
    have hw0 : 0 ≤ w := by rw [← hw]; positivity
    rw [toDouble] at hv
    split at hv
    · cases hv
    · cases hv
    case h_3 neg mag hnear =>
      have hmag := Double.magnitude_of_nearest hw0 hnear
      split at hv
      · cases hv
      · cases hv
        refine .inr ?_
        rw [signed]
        split <;> exact ⟨_, _, rfl, hmag⟩
  · split at h
    case isTrue hrange => exact .inl ⟨_, (Option.some.inj h).symm, hrange⟩
    case isFalse => cases h

variable {v : Int}

theorem ofInt_eq (h : -2 ^ 53 ≤ v ∧ v ≤ 2 ^ 53) :
    Double.ofInt v = .finite (v < 0) v.natAbs := by
  have hnear : Double.nearest v.natAbs = .finite false v.natAbs :=
    Double.nearest_natCast (by omega)
  rw [Double.ofInt]
  split
  case isTrue hneg =>
    have hcast : -(v : ℚ) = v.natAbs := by
      rw [← cast_natCast, ofNat_natAbs_of_nonpos hneg.le]
      push_cast
      rfl
    rw [hcast, hnear, Double.negate, decide_eq_true hneg]
    rfl
  case isFalse hneg =>
    have hcast : (v : ℚ) = v.natAbs := by
      rw [← cast_natCast, natAbs_of_nonneg (not_lt.mp hneg)]
    rw [hcast, hnear, decide_eq_false hneg]

theorem reread_integer (h : -2 ^ 53 ≤ v ∧ v ≤ 2 ^ 53) :
    reread (.integer v) = some (.integer v) := by
  have hprint : wRenderNumber (.integer v) = sprintf (.finite (v < 0) v.natAbs) := by
    rw [wRenderNumber, ofInt_eq h]
  rw [reread_whole hprint (by omega), if_pos (by omega), signedInt]
  congr 2
  simp only [decide_eq_true_eq]
  split <;> omega

/-- A double that the code reads is read back, unless it is wide. -/
theorem reread_float {neg : Bool} (hq : Double.Magnitude q) :
    (reread (.float (.finite neg q))).isSome = true ↔ ¬ Num.Wide (.float (.finite neg q)) := by
  rw [Num.Wide]
  by_cases hw : ∃ n : Nat, q = n ∧ n < 10 ^ 17
  · obtain ⟨n, rfl, hn⟩ := hw
    rw [reread_whole rfl hn]
    constructor
    · rintro h ⟨m, hm, hlt, -⟩
      have hm : n = m := by exact_mod_cast hm
      rw [if_neg (by omega)] at h
      cases h
    · intro h
      rw [if_pos (not_lt.mp fun hlt => h ⟨n, rfl, hlt, hn⟩)]
      rfl
  · refine iff_of_true (reread_other hq rfl fun n hn => not_lt.mp fun hlt => hw ⟨n, hn, hlt⟩) ?_
    rintro ⟨n, hn, -, hlt⟩
    exact hw ⟨n, hn, hlt⟩

theorem reread_isSome_iff (h : x.read = some a) :
    (reread a).isSome = true ↔ ¬ a.Wide := by
  rcases Numeral.read_cases h with ⟨v, rfl, hv⟩ | ⟨neg, q, rfl, hq⟩
  · rw [reread_integer hv]
    exact iff_of_true rfl id
  · exact reread_float hq

/-- A number that the code reads is written as a numeral. -/
theorem exists_numeral (h : x.read = some a) :
    ∃ y : Numeral, wRenderNumber a = y.text := by
  have hprint : ∀ neg {q : ℚ}, Double.Magnitude q → ∃ y : Numeral, sprintf (.finite neg q) = y.text := by
    intro neg q hq
    rcases eq_or_ne q 0 with rfl | hne
    · exact ⟨_, sprintf_zero neg⟩
    · obtain ⟨y, hy⟩ := exists_prints_double neg hq hne
      exact ⟨y, sprintf_text hne hy⟩
  rcases Numeral.read_cases h with ⟨v, rfl, hv⟩ | ⟨neg, q, rfl, hq⟩
  · have hnear := Double.nearest_natCast (n := v.natAbs) (by omega)
    rw [wRenderNumber, ofInt_eq hv]
    exact hprint _ (Double.magnitude_of_nearest (by positivity) hnear)
  · exact hprint neg hq

end J89
