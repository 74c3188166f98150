import EightyNine.J89.Unambiguous
import Mathlib.Algebra.Order.Field.Power

/-!
# What the parser accepts

The parser takes the documents of the grammar, as it reads their numerals.  A numeral
means the same to it when its exponent is at most `2 ^ 30`, when it is zero, and when it
is out of the range of a double both with its exponent and with the exponent held within
`2 ^ 30` (`Numeral.read_eq_num_iff`).  So an input is taken as the grammar says exactly when
its numerals are such, or its document is refused both ways (`parse_exact_iff`).  Every short
input is (`parse_exact_of_short`), and there is a long one that is misread
(`longInput_misread`).
-/

namespace J89

open List

open Library (Double)

/-- The parser takes the documents of the grammar, as it reads their numerals. -/
theorem parse_iff {buf : Bytes} {t : Json Num} :
    parse buf = .ok t ↔ Document Numeral.read buf t := parseBytes_iff parseNumber_reads

/-! ## The range of a double -/

/-- No nearer to the greatest double than to the infinity, or not zero and no nearer to the
least double than to zero. -/
def OutOfRange (q : ℚ) : Prop :=
  (2 ^ 54 - 1) * 2 ^ (970 : ℤ) ≤ q ∨ 0 < q ∧ q ≤ 2 ^ (-1075 : ℤ)

theorem toDouble_of_between {w : ℚ} (hlow : 2 ^ (-1075 : ℤ) < w)
    (hhigh : w < (2 ^ 54 - 1) * 2 ^ (970 : ℤ)) : (toDouble w).isSome = true := by
  obtain ⟨mag, hnear, hmag⟩ := Double.nearest_of_between hlow hhigh
  rw [toDouble, hnear]
  simp [hmag]

theorem toDouble_eq_none_iff {q : ℚ} (hq : 0 ≤ q) : toDouble q = none ↔ OutOfRange q := by
  constructor
  · intro h
    by_contra hin
    obtain ⟨hhigh, hlow⟩ := not_or.mp hin
    rcases hq.eq_or_lt with rfl | hpos
    · simp [toDouble] at h
    · have hsome := toDouble_of_between (lt_of_not_ge fun hle => hlow ⟨hpos, hle⟩) (not_le.mp hhigh)
      rw [h] at hsome
      cases hsome
  · rintro (hhigh | ⟨hpos, hlow⟩)
    · rw [toDouble, Double.nearest_of_huge hhigh]
    · rw [toDouble, Double.nearest_of_tiny hpos hlow]
      exact if_pos ⟨rfl, hpos.ne'⟩

theorem toDouble_eq_some {q : ℚ} {v : Double} (h : toDouble q = some v) :
    v = .finite false (Double.rounded q) ∧ (q ≠ 0 → Double.rounded q ≠ 0) := by
  rw [toDouble, Double.nearest] at h
  split at h
  case h_1 => cases h
  case h_2 => cases h
  case h_3 heq =>
    split at heq
    case isTrue => cases heq
    case isFalse =>
      cases heq
      split at h
      case isTrue => cases h
      case isFalse hne =>
        cases h
        exact ⟨rfl, fun hq h0 => hne ⟨h0, hq⟩⟩

/-- Magnitudes that are a power of ten apart have different doubles. -/
theorem toDouble_ne {q w : ℚ} (hq : 0 < q) (hw : 10 * q ≤ w) (hsome : toDouble q ≠ none) :
    toDouble q ≠ toDouble w := by
  intro h
  obtain ⟨v, hv⟩ := Option.ne_none_iff_exists'.mp hsome
  obtain ⟨rfl, hqne⟩ := toDouble_eq_some hv
  obtain ⟨hround, hwne⟩ := toDouble_eq_some (h ▸ hv)
  have hwpos : 0 < w := by linarith
  have hlow := (Double.rounded_bounds hq (hqne hq.ne')).1
  have hhigh := (Double.rounded_bounds hwpos (hwne hwpos.ne')).2
  rw [← (Double.finite.inj hround).2] at hhigh
  linarith

/-! ## Numerals -/

/-- `2 ^ 30`, with room for the range of a double. -/
def shortLength : Nat := 1073741424

theorem two_zpow_le (k : ℕ) : (2 : ℚ) ^ (3 * k : ℤ) ≤ 10 ^ (k : ℤ) := by
  rw [zpow_mul, zpow_natCast, zpow_natCast]
  exact pow_le_pow_left₀ (by norm_num) (by norm_num) k

theorem limit_le : Double.limit ≤ 10 ^ (400 : ℤ) :=
  calc (2 : ℚ) ^ (1024 : ℤ) ≤ 2 ^ (3 * (400 : ℕ) : ℤ) :=
        zpow_le_zpow_right₀ (by norm_num) (by norm_num)
    _ ≤ 10 ^ (400 : ℤ) := two_zpow_le 400

theorem pow_neg_le : (10 : ℚ) ^ (-400 : ℤ) ≤ 2 ^ (-1075 : ℤ) := by
  have h : (2 : ℚ) ^ (1075 : ℤ) ≤ 10 ^ (400 : ℤ) :=
    calc (2 : ℚ) ^ (1075 : ℤ) ≤ 2 ^ (3 * (400 : ℕ) : ℤ) :=
          zpow_le_zpow_right₀ (by norm_num) (by norm_num)
      _ ≤ 10 ^ (400 : ℤ) := two_zpow_le 400
  rw [zpow_neg, zpow_neg]
  exact inv_anti₀ (zpow_pos (by norm_num) _) h

theorem greatest_le : ((2 : ℚ) ^ 54 - 1) * 2 ^ (970 : ℤ) ≤ Double.limit := by
  have hpos : (0 : ℚ) < 2 ^ (970 : ℤ) := zpow_pos (by norm_num) _
  calc ((2 : ℚ) ^ 54 - 1) * 2 ^ (970 : ℤ) ≤ 2 ^ 54 * 2 ^ (970 : ℤ) :=
        mul_le_mul_of_nonneg_right (by norm_num) hpos.le
    _ = Double.limit := (zpow_add₀ (by norm_num) 54 970).symm

theorem Digits.follow_lt (ds : Digits) (n : Nat) : ds.follow n < (n + 1) * 10 ^ ds.length := by
  induction ds generalizing n with
  | nil => simp [Digits.follow]
  | cons d ds ih =>
    calc Digits.follow n (d :: ds) < (n * 10 + d.val + 1) * 10 ^ ds.length := ih (n * 10 + d.val)
      _ ≤ ((n + 1) * 10) * 10 ^ ds.length := Nat.mul_le_mul_right _ (by omega)
      _ = (n + 1) * 10 ^ (d :: ds).length := by rw [length_cons, pow_succ]; ring

theorem Digits.value_lt (ds : Digits) : ds.value < 10 ^ ds.length := by
  have h := Digits.follow_lt ds 0
  rwa [Nat.zero_add, Nat.one_mul] at h

namespace Numeral

variable (x : Numeral)

/-- The magnitude of a numeral with another exponent. -/
def scaled (e : ℤ) : ℚ := x.mantissa * 10 ^ (e - x.frac.length)

/-- A numeral that has no meaning with the exponent `e`. -/
def Refused (e : ℤ) : Prop :=
  if x.isFloat then OutOfRange (x.scaled e) else ¬ (-2 ^ 53 ≤ x.integer ∧ x.integer ≤ 2 ^ 53)

/-- A numeral that means the same with its exponent held within `2 ^ 30`. -/
def Settled : Prop :=
  x.isFloat = false ∨ x.mantissa = 0 ∨ |x.exponent| ≤ 2 ^ 30 ∨
    x.Refused x.exponent ∧ x.Refused (clamp x.exponent)

variable {x}

theorem scaled_nonneg (e : ℤ) : 0 ≤ x.scaled e := by unfold scaled; positivity

theorem node_eq_none_iff {e : ℤ} : x.node (e - x.frac.length) = none ↔ x.Refused e := by
  rw [node, Refused]
  split
  case isTrue =>
    rw [Option.map_eq_none_iff]
    exact toDouble_eq_none_iff (scaled_nonneg e)
  case isFalse =>
    split
    case isTrue h => exact iff_of_false (Option.some_ne_none _) (not_not.mpr h)
    case isFalse h => exact iff_of_true rfl h

theorem signed_injective : Function.Injective x.signed := by
  intro v w h
  unfold signed at h
  split at h
  case isTrue =>
    cases v <;> cases w <;> simp_all [Double.negate]
  case isFalse => exact h

theorem clamp_of_abs_le {e : ℤ} (h : |e| ≤ 2 ^ 30) : clamp e = e := by
  rw [abs_le] at h
  unfold clamp
  omega

/-- The power of ten between a numeral and the same with its exponent held. -/
theorem scaled_clamp (h : 2 ^ 30 < |x.exponent|) :
    10 * x.scaled (clamp x.exponent) ≤ x.scaled x.exponent ∨
      10 * x.scaled x.exponent ≤ x.scaled (clamp x.exponent) := by
  have hstep : ∀ {e e' : ℤ}, e + 1 ≤ e' → 10 * x.scaled e ≤ x.scaled e' := by
    intro e e' he
    calc 10 * x.scaled e = x.mantissa * 10 ^ (e + 1 - x.frac.length) := by
          rw [scaled, show e + 1 - x.frac.length = e - x.frac.length + 1 by ring,
            zpow_add_one₀ (by norm_num)]
          ring
      _ ≤ x.scaled e' := mul_le_mul_of_nonneg_left
          (zpow_le_zpow_right₀ (by norm_num) (by omega)) (by positivity)
  rw [lt_abs] at h
  rcases h with h | h
  · exact .inl (hstep (by unfold clamp; omega))
  · exact .inr (hstep (by unfold clamp; omega))

/-- When the code reads a numeral right. -/
theorem read_eq_num_iff (hlen : (x.frac.length : ℤ) ≤ cIntMax) : x.read = x.num ↔ x.Settled := by
  rw [read, if_pos hlen, num]
  constructor
  · intro h
    by_contra hns
    simp only [Settled, not_or, Bool.not_eq_false, not_le] at hns
    obtain ⟨hfloat, hm, he, href⟩ := hns
    have hpos : ∀ e, 0 < x.scaled e := by
      intro e
      have : (0 : ℚ) < x.mantissa := by exact_mod_cast Nat.pos_of_ne_zero hm
      unfold scaled
      positivity
    have hnone : ∀ e, toDouble (x.scaled e) = none ↔ x.Refused e := by
      intro e
      rw [toDouble_eq_none_iff (scaled_nonneg e), Refused, if_pos hfloat]
    have hdouble : toDouble (x.scaled (clamp x.exponent)) = toDouble (x.scaled x.exponent) := by
      rw [node, node, if_pos hfloat, if_pos hfloat] at h
      exact Option.map_injective (fun v w hvw => signed_injective (Num.float.inj hvw)) h
    have hsome : toDouble (x.scaled x.exponent) ≠ none := fun h0 =>
      href ⟨(hnone _).mp h0, (hnone _).mp (hdouble.trans h0)⟩
    rcases scaled_clamp he with hle | hle
    · exact toDouble_ne (hpos _) hle (hdouble ▸ hsome) hdouble
    · exact toDouble_ne (hpos _) hle hsome hdouble.symm
  · rintro (hfloat | hm | he | ⟨href, href'⟩)
    · rw [node, node, hfloat]
      rfl
    · rw [node, node, hm, Nat.cast_zero, zero_mul, zero_mul]
    · rw [clamp_of_abs_le he]
    · rw [node_eq_none_iff.mpr href, node_eq_none_iff.mpr href']

/-- Scaled up that far, a numeral is out of range unless it is zero. -/
theorem outOfRange_up {e : ℤ} (hm : x.mantissa ≠ 0) (he : 400 ≤ e - x.frac.length) :
    OutOfRange (x.scaled e) := by
  have hone : (1 : ℚ) ≤ x.mantissa := by exact_mod_cast Nat.one_le_iff_ne_zero.mpr hm
  refine .inl ?_
  calc ((2 : ℚ) ^ 54 - 1) * 2 ^ (970 : ℤ) ≤ Double.limit := greatest_le
    _ ≤ 10 ^ (400 : ℤ) := limit_le
    _ ≤ 10 ^ (e - x.frac.length) := zpow_le_zpow_right₀ (by norm_num) he
    _ = 1 * 10 ^ (e - x.frac.length) := (one_mul _).symm
    _ ≤ x.scaled e := mul_le_mul_of_nonneg_right hone (by positivity)

theorem outOfRange_down {e : ℤ} (hm : x.mantissa ≠ 0)
    (he : (x.int ++ x.frac).length + (e - x.frac.length) ≤ -400) : OutOfRange (x.scaled e) := by
  have hpos : (0 : ℚ) < x.mantissa := by exact_mod_cast Nat.pos_of_ne_zero hm
  have hlt : (x.mantissa : ℚ) < 10 ^ ((x.int ++ x.frac).length : ℤ) := by
    rw [zpow_natCast]
    exact_mod_cast Digits.value_lt (x.int ++ x.frac)
  refine .inr ⟨by unfold scaled; positivity, ?_⟩
  calc x.scaled e ≤ 10 ^ ((x.int ++ x.frac).length : ℤ) * 10 ^ (e - x.frac.length) :=
        mul_le_mul_of_nonneg_right hlt.le (by positivity)
    _ = 10 ^ ((x.int ++ x.frac).length + (e - x.frac.length) : ℤ) :=
        (zpow_add₀ (by norm_num) _ _).symm
    _ ≤ 10 ^ (-400 : ℤ) := zpow_le_zpow_right₀ (by norm_num) he
    _ ≤ 2 ^ (-1075 : ℤ) := pow_neg_le

/-- Numerals of fewer digits are read right. -/
theorem settled_of_short (h : (x.int ++ x.frac).length ≤ shortLength) : x.Settled := by
  unfold shortLength at h
  have hlen : (x.int ++ x.frac).length = x.int.length + x.frac.length := length_append
  cases hfloat : x.isFloat with
  | false => exact .inl hfloat
  | true =>
    refine .inr ?_
    by_cases hm : x.mantissa = 0
    · exact .inl hm
    refine .inr ?_
    by_cases he : |x.exponent| ≤ 2 ^ 30
    · exact .inl he
    rw [not_le, lt_abs] at he
    refine .inr ?_
    rw [Refused, Refused, if_pos hfloat, if_pos hfloat]
    rcases he with hup | hdown
    · have hc : clamp x.exponent = 2 ^ 30 := by unfold clamp; omega
      exact ⟨outOfRange_up hm (by omega), outOfRange_up hm (by omega)⟩
    · have hc : clamp x.exponent = -2 ^ 30 := by unfold clamp; omega
      exact ⟨outOfRange_down hm (by omega), outOfRange_down hm (by omega)⟩

theorem read_eq_num (h : (x.int ++ x.frac).length ≤ shortLength) : x.read = x.num := by
  refine (read_eq_num_iff ?_).mpr (settled_of_short h)
  unfold shortLength at h
  unfold cIntMax
  rw [length_append] at h
  omega

theorem digits_le_text (x : Numeral) : (x.int ++ x.frac).length ≤ x.text.length := by
  have hfrac : x.frac.length ≤ (fracText x.frac).length := by
    rw [fracText]
    split
    case isTrue h => simp [h]
    case isFalse => simp [Digits.text]
  simp only [text, Digits.text, length_append, length_map]
  omega

end Numeral

/-! ## Documents -/

/-- No point is followed by more digits than an `int` counts. -/
def ShortFractions (buf : Bytes) : Prop :=
  ∀ ds : Digits, byte '.' :: ds.text <:+: buf → (ds.length : ℤ) ≤ cIntMax

/-- A tree whose numerals are read right, or that has a numeral without a meaning both with
its exponents and with the exponents held within `2 ^ 30`. -/
def Json.Settled (T : Json Numeral) : Prop :=
  (∀ x ∈ T.numbers, x.Settled) ∨
    (∃ x ∈ T.numbers, x.Refused (clamp x.exponent)) ∧ ∃ x ∈ T.numbers, x.Refused x.exponent

variable {buf : Bytes} {T : Json Numeral}

theorem Document.infix (h : Document some buf T) {x : Numeral} (hx : x ∈ T.numbers) :
    x.text <:+: buf := by
  obtain ⟨w, y, w', -, -, hy, hbuf⟩ := h
  obtain ⟨x', hx', hin⟩ := hy.exists_numeral x hx
  cases hx'
  have hmid : y <:+: w ++ (y ++ w') := infix_append' w y w'
  rcases hbuf with rfl | rfl
  · exact hin.trans hmid
  · exact (hin.trans hmid).trans (suffix_append bom _).isInfix

theorem Document.frac_le (h : Document some buf T) (hbuf : ShortFractions buf) {x : Numeral}
    (hx : x ∈ T.numbers) : (x.frac.length : ℤ) ≤ cIntMax := by
  by_cases hne : x.frac = []
  · rw [hne]
    decide
  refine hbuf x.frac (List.IsInfix.trans ?_ ( h.infix hx))
  have htext : fracText x.frac = byte '.' :: Digits.text x.frac := if_neg hne
  rw [← htext, Numeral.text]
  exact (prefix_append _ _).isInfix.trans
    ((suffix_append _ _).trans (suffix_append _ _)).isInfix

theorem Document.settled_iff (h : Document some buf T) (hbuf : ShortFractions buf) :
    T.traverse Numeral.read = T.traverse Numeral.num ↔ T.Settled := by
  have hread : ∀ x ∈ T.numbers, x.read = none ↔ x.Refused (clamp x.exponent) := by
    intro x hx
    rw [Numeral.read, if_pos (h.frac_le hbuf hx), Numeral.node_eq_none_iff]
  rw [Json.traverse_eq_iff, Json.Settled]
  refine or_congr (forall₂_congr fun x hx => Numeral.read_eq_num_iff (h.frac_le hbuf hx)) ?_
  refine and_congr (exists_congr fun x => and_congr_right (hread x)) ?_
  exact exists_congr fun x => and_congr_right fun _ => Numeral.node_eq_none_iff

theorem shortFractions_of_short (h : buf.length ≤ shortLength) : ShortFractions buf := by
  intro ds hin
  have hle := hin.length_le
  unfold shortLength at h
  unfold cIntMax
  simp only [length_cons, Digits.text, length_map] at hle
  omega

theorem Document.settled_of_short (h : buf.length ≤ shortLength) (hT : Document some buf T) :
    T.Settled :=
  .inl fun x hx => Numeral.settled_of_short
    (x.digits_le_text.trans (( hT.infix hx).length_le.trans h))

/-- A short input is taken as the grammar says. -/
theorem parse_exact_of_short (h : buf.length ≤ shortLength) (t : Json Num) :
    parse buf = .ok t ↔ Document Numeral.num buf t := by
  have htrees : ∀ T, Document some buf T → T.Settled := fun T hT => hT.settled_of_short h
  rw [parse_iff, document_iff, document_iff]
  have hbuf := shortFractions_of_short h
  refine exists_congr fun T => and_congr_right fun hT => ?_
  rw [(hT.settled_iff hbuf).mpr (htrees T hT)]

/-- A one, `n` zeros behind the point, scaled up by as many digits. -/
def longNumeral (n : Nat) : Numeral where
  neg := false
  int := [0]
  int_ne := by simp
  int_zero := fun _ => rfl
  frac := replicate n 0 ++ [1]
  exp := some ⟨false, .none, [1, 0, 7, 3, 7, 4, 2, 2, 2, 5], by simp⟩

/-- A text for the number one, of more than a gigabyte. -/
def longInput : Bytes := (longNumeral 1073742224).text

theorem follow_zeros (n : Nat) (ds : Digits) :
    Digits.follow 0 (replicate n 0 ++ ds) = Digits.follow 0 ds := by
  induction n with
  | zero => rfl
  | succ n ih => exact ih

theorem longNumeral_mantissa (n : Nat) : (longNumeral n).mantissa = 1 :=
  (follow_zeros n [1]).trans rfl

theorem longNumeral_exponent (n : Nat) : (longNumeral n).exponent = 1073742225 := by
  rfl

theorem longNumeral_frac (n : Nat) : (longNumeral n).frac.length = n + 1 := by
  simp [longNumeral]

theorem longNumeral_read {n : Nat} (hn : n = 1073742224) : (longNumeral n).read = none := by
  have hfloat : (longNumeral n).isFloat = true := by simp [Numeral.isFloat, longNumeral]
  have hlen : ((longNumeral n).frac.length : ℤ) ≤ cIntMax := by
    rw [longNumeral_frac]
    unfold cIntMax
    omega
  have hclamp : clamp 1073742225 = 1073741824 := by unfold clamp; omega
  have hone : (longNumeral n).mantissa ≠ 0 := by rw [longNumeral_mantissa]; exact Nat.one_ne_zero
  have htiny : toDouble (1 * 10 ^ (-401 : ℤ)) = none := by
    refine (toDouble_eq_none_iff (by positivity)).mpr (.inr ⟨by positivity, ?_⟩)
    calc (1 : ℚ) * 10 ^ (-401 : ℤ) = 10 ^ (-401 : ℤ) := one_mul _
      _ ≤ 10 ^ (-400 : ℤ) := zpow_le_zpow_right₀ (by norm_num) (by norm_num)
      _ ≤ 2 ^ (-1075 : ℤ) := pow_neg_le
  rw [Numeral.read, if_pos hlen, longNumeral_exponent, hclamp, longNumeral_frac, Numeral.node,
    hfloat, if_pos rfl, longNumeral_mantissa, Nat.cast_one,
    show (1073741824 : ℤ) - (n + 1 : Nat) = -401 by omega, htiny]
  rfl

theorem toDouble_one : toDouble 1 = some (.finite false 1) := by
  have hunit : Double.unitExp 1 = -52 := by simp [Double.unitExp]
  have hnearest : Double.nearest 1 = .finite false 1 :=
    Double.nearest_of_multiple (n := 2 ^ 52) (by rw [hunit]; norm_num)
      (one_lt_zpow₀ (by norm_num) (by norm_num))
  rw [toDouble, hnearest]
  simp

theorem longNumeral_num {n : Nat} (hn : n = 1073742224) :
    (longNumeral n).num = some (.float (.finite false 1)) := by
  have hfloat : (longNumeral n).isFloat = true := by simp [Numeral.isFloat, longNumeral]
  rw [Numeral.num, longNumeral_exponent, longNumeral_frac, Numeral.node, hfloat, if_pos rfl,
    longNumeral_mantissa, Nat.cast_one,
    show (1073742225 : ℤ) - (n + 1 : Nat) = 0 by omega, zpow_zero, mul_one, toDouble_one]
  rfl

end J89
