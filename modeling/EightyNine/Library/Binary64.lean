import Mathlib.Algebra.Order.Field.Power
import Mathlib.Data.Int.Log
import Mathlib.Data.Rat.Floor
import Mathlib.Tactic.Linarith
import Mathlib.Tactic.NormNum
import Mathlib.Tactic.Positivity

/-!
# Binary64 numbers

A double is not a number, an infinity or a sign and a magnitude.  `nearest` is the
correctly rounded double of a magnitude: to the nearest multiple of the unit in
the last place, a tie to the even one.  Above the range it is the infinity
(`nearest_of_huge`), and below it is zero (`nearest_of_tiny`).
-/

namespace Library

open Int

inductive Double where
  | nan
  | infinite (neg : Bool)
  | finite (neg : Bool) (mag : ℚ)
  deriving DecidableEq

namespace Double

/-- The sign turned around. -/
def negate : Double → Double
  | .nan => .nan
  | .infinite neg => .infinite (!neg)
  | .finite neg mag => .finite (!neg) mag

/-- The exponent of the unit in the last place at magnitude `q`. -/
def unitExp (q : ℚ) : ℤ := max (log 2 q - 52) (-1074)

/-- The nearest integer, the even one of two. -/
def halfEven (x : ℚ) : ℤ :=
  if x - ⌊x⌋ < 1 / 2 then ⌊x⌋
  else if 1 / 2 < x - ⌊x⌋ then ⌊x⌋ + 1
  else if ⌊x⌋ % 2 = 0 then ⌊x⌋
  else ⌊x⌋ + 1

/-- The magnitude `q` at the precision of a double, before the range is looked at. -/
def rounded (q : ℚ) : ℚ := halfEven (q / 2 ^ unitExp q) * 2 ^ unitExp q

/-- Where the range ends. -/
def limit : ℚ := 2 ^ (1024 : ℤ)

/-- The correctly rounded double of the magnitude `q`. -/
def nearest (q : ℚ) : Double :=
  if limit ≤ rounded q then .infinite false else .finite false (rounded q)

/-- The correctly rounded double of an integer. -/
def ofInt (v : ℤ) : Double :=
  if v < 0 then (nearest (-v)).negate else nearest v

theorem limit_pos : 0 < limit := zpow_pos (by norm_num) _

theorem unit_pos (q : ℚ) : (0 : ℚ) < 2 ^ unitExp q := zpow_pos (by norm_num) _

theorem floor_le_halfEven (x : ℚ) : ⌊x⌋ ≤ halfEven x := by
  unfold halfEven
  split
  · exact le_rfl
  · split
    · omega
    · split <;> omega

variable {x : ℚ} {n : ℤ}

theorem halfEven_le_of_lt (h : x < n + 1 / 2) : halfEven x ≤ n := by
  have hfloor := floor_le x
  have hle : ⌊x⌋ ≤ n := by
    rw [← lt_add_one_iff, floor_lt]
    push_cast
    linarith
  rcases hle.lt_or_eq with hlt | heq
  · unfold halfEven
    split
    · omega
    · split
      · omega
      · split <;> omega
  · rw [halfEven, if_pos (by rw [heq]; linarith), heq]

theorem le_halfEven_of_lt (h : n - 1 / 2 < x) : n ≤ halfEven x := by
  rcases lt_or_ge x n with hlt | hge
  · have hfloor : ⌊x⌋ = n - 1 := by
      rw [floor_eq_iff]
      push_cast
      constructor <;> linarith
    rw [halfEven, hfloor]
    push_cast
    rw [if_neg (by linarith), if_pos (by linarith)]
    omega
  · exact (le_floor.mpr hge).trans (floor_le_halfEven x)

theorem abs_halfEven_sub_le (x : ℚ) : |halfEven x - x| ≤ 1 / 2 := by
  have hlow := floor_le x
  have hhigh := lt_floor_add_one x
  rw [abs_le]
  unfold halfEven
  split
  · constructor <;> linarith
  · split
    · push_cast
      constructor <;> linarith
    · split
      · constructor <;> linarith
      · push_cast
        constructor <;> linarith

@[simp] theorem halfEven_intCast (n : ℤ) : halfEven n = n := by
  simp [halfEven]

theorem rounded_of_multiple {q : ℚ} (h : q / 2 ^ unitExp q = n) : rounded q = q := by
  rw [rounded, h, halfEven_intCast, ← h]
  exact div_mul_cancel₀ q (unit_pos q).ne'

theorem nearest_of_multiple {q : ℚ} (h : q / 2 ^ unitExp q = n) (hq : q < limit) :
    nearest q = .finite false q := by
  rw [nearest, rounded_of_multiple h, if_neg (not_le.mpr hq)]

@[simp] theorem nearest_zero : nearest 0 = .finite false 0 :=
  nearest_of_multiple (n := 0) (by simp) limit_pos

/-- A tie below an even number goes up to it. -/
theorem le_halfEven_of_le (heven : n % 2 = 0) (h : n - 1 / 2 ≤ x) :
    n ≤ halfEven x := by
  rcases h.lt_or_eq with hlt | rfl
  · exact le_halfEven_of_lt hlt
  · have hfloor : ⌊(n : ℚ) - 1 / 2⌋ = n - 1 := by
      rw [floor_eq_iff]
      push_cast
      constructor <;> linarith
    rw [halfEven, hfloor]
    push_cast
    rw [if_neg (by linarith), if_neg (by linarith), if_neg (by omega)]
    omega

/-- A tie above an even number goes down to it. -/
theorem halfEven_le_of_le (heven : n % 2 = 0) (h : x ≤ n + 1 / 2) :
    halfEven x ≤ n := by
  rcases h.lt_or_eq with hlt | rfl
  · exact halfEven_le_of_lt hlt
  · have hfloor : ⌊(n : ℚ) + 1 / 2⌋ = n := by
      rw [floor_eq_iff]
      constructor <;> linarith
    rw [halfEven, hfloor, if_neg (by linarith), if_neg (by linarith), if_pos heven]

theorem rounded_of_limit_le {q : ℚ} (h : limit ≤ q) : limit ≤ rounded q := by
  have hq : 0 < q := lt_of_lt_of_le limit_pos h
  have hlog : 1024 ≤ log 2 q := (zpow_le_iff_le_log Nat.one_lt_two hq).mp h
  have he : unitExp q = log 2 q - 52 := by unfold unitExp; omega
  have hlow : ((2 ^ 52 : ℤ) : ℚ) ≤ q / 2 ^ unitExp q := by
    rw [le_div_iff₀ (unit_pos q)]
    calc ((2 ^ 52 : ℤ) : ℚ) * 2 ^ unitExp q = 2 ^ (52 : ℤ) * 2 ^ unitExp q := by norm_cast
      _ = 2 ^ log 2 q := by rw [← zpow_add₀ (by norm_num), he]; congr 1; ring
      _ ≤ q := zpow_log_le_self Nat.one_lt_two hq
  have hround : (2 ^ 52 : ℤ) ≤ halfEven (q / 2 ^ unitExp q) :=
    le_trans (le_floor.mpr hlow) (floor_le_halfEven _)
  calc limit ≤ 2 ^ ((52 : ℤ) + unitExp q) := zpow_le_zpow_right₀ (by norm_num) (by omega)
    _ = 2 ^ (52 : ℤ) * 2 ^ unitExp q := zpow_add₀ (by norm_num) _ _
    _ = ((2 ^ 52 : ℤ) : ℚ) * 2 ^ unitExp q := by norm_cast
    _ ≤ rounded q := mul_le_mul_of_nonneg_right (by exact_mod_cast hround) (unit_pos q).le

/-- From half a unit above the greatest double on, the nearest one is the infinity. -/
theorem nearest_of_huge {q : ℚ} (h : (2 ^ 54 - 1) * 2 ^ (970 : ℤ) ≤ q) :
    nearest q = .infinite false := by
  suffices hbig : limit ≤ rounded q by rw [nearest, if_pos hbig]
  rcases le_or_gt limit q with hge | hlt
  · exact rounded_of_limit_le hge
  have hhalf : (0 : ℚ) < 2 ^ (970 : ℤ) := zpow_pos (by norm_num) _
  have hq : 0 < q := lt_of_lt_of_le (mul_pos (by norm_num) hhalf) h
  have hlow : (2 : ℚ) ^ (1023 : ℤ) ≤ q := by
    calc (2 : ℚ) ^ (1023 : ℤ) = 2 ^ 53 * 2 ^ (970 : ℤ) := zpow_add₀ (by norm_num) 53 970
      _ ≤ (2 ^ 54 - 1) * 2 ^ (970 : ℤ) := mul_le_mul_of_nonneg_right (by norm_num) hhalf.le
      _ ≤ q := h
  have hlog : log 2 q < 1024 := (lt_zpow_iff_log_lt Nat.one_lt_two hq).mp hlt
  have hlog' : 1023 ≤ log 2 q := (zpow_le_iff_le_log Nat.one_lt_two hq).mp hlow
  have he : unitExp q = 971 := by unfold unitExp; omega
  have hround : (2 ^ 53 : ℤ) ≤ halfEven (q / 2 ^ (971 : ℤ)) := by
    refine le_halfEven_of_le (by norm_num) ?_
    rw [le_div_iff₀ (zpow_pos (by norm_num) _)]
    calc (((2 ^ 53 : ℤ) : ℚ) - 1 / 2) * 2 ^ ((970 : ℤ) + 1)
        = (((2 ^ 53 : ℤ) : ℚ) - 1 / 2) * 2 * 2 ^ (970 : ℤ) := by
          rw [zpow_add_one₀ (by norm_num), mul_assoc, mul_comm 2]
      _ = (2 ^ 54 - 1) * 2 ^ (970 : ℤ) := congrArg (· * 2 ^ (970 : ℤ)) (by norm_num)
      _ ≤ q := h
  have hround' : (2 : ℚ) ^ (53 : ℤ) ≤ halfEven (q / 2 ^ (971 : ℤ)) :=
    le_trans (by norm_num) (cast_le.mpr hround)
  calc limit = 2 ^ (53 : ℤ) * 2 ^ (971 : ℤ) := zpow_add₀ (by norm_num) 53 971
    _ ≤ rounded q := by
      rw [rounded, he]
      exact mul_le_mul_of_nonneg_right hround' (zpow_pos (by norm_num) _).le

/-- Up to half of the least double, the nearest one is zero. -/
theorem nearest_of_tiny {q : ℚ} (hq : 0 < q) (h : q ≤ 2 ^ (-1075 : ℤ)) :
    nearest q = .finite false 0 := by
  have hlt : q < 2 ^ (-1074 : ℤ) :=
    lt_of_le_of_lt h (zpow_lt_zpow_right₀ (by norm_num) (by norm_num))
  have hlog : log 2 q < -1074 := (lt_zpow_iff_log_lt Nat.one_lt_two hq).mp hlt
  have he : unitExp q = -1074 := by unfold unitExp; omega
  have hsmall : q / 2 ^ unitExp q ≤ 1 / 2 := by
    rw [div_le_iff₀ (unit_pos q), he]
    calc q ≤ 2 ^ ((-1 : ℤ) + -1074) := h
      _ = 1 / 2 * 2 ^ (-1074 : ℤ) := by rw [zpow_add₀ (by norm_num)]; norm_num
  have hzero : halfEven (q / 2 ^ unitExp q) = 0 := by
    refine le_antisymm (halfEven_le_of_le rfl (by simpa using hsmall)) ?_
    refine le_halfEven_of_lt (lt_of_lt_of_le ?_ (div_nonneg hq.le (unit_pos q).le))
    norm_num
  rw [nearest, rounded, hzero, cast_zero, zero_mul, if_neg (not_le.mpr limit_pos)]

/-- Where it is not zero, the rounded magnitude is off by a half at most. -/
theorem rounded_bounds {q : ℚ} (hq : 0 < q) (h : rounded q ≠ 0) :
    rounded q ≤ 2 * q ∧ 2 * q ≤ 3 * rounded q := by
  have hunit := unit_pos q
  have hx : 0 < q / 2 ^ unitExp q := div_pos hq hunit
  have herr := abs_le.mp (abs_halfEven_sub_le (q / 2 ^ unitExp q))
  have hk : 0 ≤ halfEven (q / 2 ^ unitExp q) := le_halfEven_of_lt (by push_cast; linarith)
  have hk' : halfEven (q / 2 ^ unitExp q) ≠ 0 := fun h0 => h (by rw [rounded, h0]; simp)
  have hone : (1 : ℚ) ≤ halfEven (q / 2 ^ unitExp q) := by exact_mod_cast (by omega)
  have hq' : q = q / 2 ^ unitExp q * 2 ^ unitExp q := (div_mul_cancel₀ q hunit.ne').symm
  unfold rounded
  constructor
  · calc halfEven (q / 2 ^ unitExp q) * (2 : ℚ) ^ unitExp q
        ≤ 2 * (q / 2 ^ unitExp q) * 2 ^ unitExp q :=
          mul_le_mul_of_nonneg_right (by linarith) hunit.le
      _ = 2 * q := by rw [mul_assoc, ← hq']
  · calc 2 * q = 2 * (q / 2 ^ unitExp q) * 2 ^ unitExp q := by rw [mul_assoc, ← hq']
      _ ≤ 3 * halfEven (q / 2 ^ unitExp q) * 2 ^ unitExp q :=
          mul_le_mul_of_nonneg_right (by linarith) hunit.le
      _ = 3 * (halfEven (q / 2 ^ unitExp q) * 2 ^ unitExp q) := mul_assoc _ _ _

/-! ## The magnitudes of doubles -/

/-- A magnitude that a double has. -/
structure Magnitude (q : ℚ) : Prop where
  multiple : ∃ (k : ℕ) (e : ℤ), q = k * 2 ^ e ∧ k ≤ 2 ^ 53 ∧ -1074 ≤ e ∧ e ≤ 971
  lt_limit : q < limit

variable {q : ℚ}

theorem lt_unit (q : ℚ) : q / 2 ^ unitExp q < 2 ^ (53 : ℤ) := by
  rw [div_lt_iff₀ (unit_pos q), ← zpow_add₀ (by norm_num)]
  calc q < 2 ^ (log 2 q + 1) := lt_zpow_succ_log_self Nat.one_lt_two q
    _ ≤ 2 ^ (53 + unitExp q) := zpow_le_zpow_right₀ (by norm_num) (by unfold unitExp; omega)

theorem halfEven_unit_le (q : ℚ) : halfEven (q / 2 ^ unitExp q) ≤ 2 ^ 53 := by
  refine halfEven_le_of_lt ?_
  calc q / 2 ^ unitExp q < 2 ^ (53 : ℤ) := lt_unit q
    _ ≤ ((2 ^ 53 : ℤ) : ℚ) + 1 / 2 := by norm_num

theorem unitExp_le (h : q < limit) : unitExp q ≤ 971 := by
  rcases le_or_gt q 0 with hq | hq
  · rw [unitExp, log_of_right_le_zero 2 hq]
    omega
  · have hlog : log 2 q < 1024 := (lt_zpow_iff_log_lt Nat.one_lt_two hq).mp h
    unfold unitExp
    omega

theorem magnitude_of_nearest {neg : Bool} {mag : ℚ} (hq : 0 ≤ q)
    (h : nearest q = .finite neg mag) : Magnitude mag := by
  have hlt : q < limit := by
    by_contra hge
    rw [nearest, if_pos (rounded_of_limit_le (not_lt.mp hge))] at h
    cases h
  unfold nearest at h
  split at h
  · cases h
  case isFalse hlimit =>
    cases h
    have hk : 0 ≤ halfEven (q / 2 ^ unitExp q) :=
      le_halfEven_of_lt (lt_of_lt_of_le (by norm_num) (div_nonneg hq (unit_pos q).le))
    obtain ⟨k, hk⟩ := eq_ofNat_of_zero_le hk
    have hle := halfEven_unit_le q
    refine ⟨⟨k, unitExp q, ?_, by omega, by unfold unitExp; omega, unitExp_le hlt⟩,
      not_le.mp hlimit⟩
    rw [rounded, hk]
    norm_cast

namespace Magnitude

theorem le_greatest (h : Magnitude q) : q ≤ (2 ^ 53 - 1) * 2 ^ (971 : ℤ) := by
  obtain ⟨⟨k, e, rfl, hk, -, he⟩, hlimit⟩ := h
  rcases he.lt_or_eq with hlt | rfl
  · have hpos : (0 : ℚ) < 2 ^ (970 : ℤ) := zpow_pos (by norm_num) _
    calc (k : ℚ) * 2 ^ e ≤ 2 ^ 53 * 2 ^ (970 : ℤ) :=
          mul_le_mul (by exact_mod_cast hk) (zpow_le_zpow_right₀ (by norm_num) (by omega))
            (by positivity) (by positivity)
      _ ≤ (2 ^ 53 - 1) * 2 * 2 ^ (970 : ℤ) := mul_le_mul_of_nonneg_right (by norm_num) hpos.le
      _ = (2 ^ 53 - 1) * 2 ^ ((970 : ℤ) + 1) := by
        rw [zpow_add_one₀ (by norm_num), mul_assoc, mul_comm 2]
  · have hpos : (0 : ℚ) < 2 ^ (971 : ℤ) := zpow_pos (by norm_num) _
    have hkey : (k : ℚ) < 2 ^ 53 := by
      refine lt_of_mul_lt_mul_right ?_ hpos.le
      calc (k : ℚ) * 2 ^ (971 : ℤ) < 2 ^ ((53 : ℤ) + 971) := hlimit
        _ = 2 ^ 53 * 2 ^ (971 : ℤ) := zpow_add₀ (by norm_num) _ _
    have hlt : k < 2 ^ 53 := by exact_mod_cast hkey
    refine mul_le_mul_of_nonneg_right ?_ hpos.le
    rw [le_sub_iff_add_le]
    exact_mod_cast hlt

theorem least_le (h : Magnitude q) (hq : q ≠ 0) : 2 ^ (-1074 : ℤ) ≤ q := by
  obtain ⟨⟨k, e, rfl, -, he, -⟩, -⟩ := h
  have hk : 1 ≤ k := Nat.one_le_iff_ne_zero.mpr fun h => hq (by rw [h]; simp)
  calc (2 : ℚ) ^ (-1074 : ℤ) ≤ 2 ^ e := zpow_le_zpow_right₀ (by norm_num) he
    _ = 1 * 2 ^ e := (one_mul _).symm
    _ ≤ k * 2 ^ e := mul_le_mul_of_nonneg_right (by exact_mod_cast hk) (by positivity)

theorem nonneg (h : Magnitude q) : 0 ≤ q := by
  obtain ⟨⟨k, e, rfl, -⟩, -⟩ := h
  positivity

theorem whole_or_le (h : Magnitude q) : (∃ n : ℕ, q = n) ∨ q ≤ 2 ^ 52 := by
  obtain ⟨⟨k, e, rfl, hk, -, -⟩, -⟩ := h
  rcases le_or_gt 0 e with he | he
  · obtain ⟨n, rfl⟩ := eq_ofNat_of_zero_le he
    exact .inl ⟨k * 2 ^ n, by push_cast; rw [zpow_natCast]⟩
  · refine .inr ?_
    calc (k : ℚ) * 2 ^ e ≤ 2 ^ 53 * 2 ^ (-1 : ℤ) :=
          mul_le_mul (by exact_mod_cast hk) (zpow_le_zpow_right₀ (by norm_num) (by omega))
            (by positivity) (by positivity)
      _ = 2 ^ 52 := by norm_num

end Magnitude

/-- The integers up to `2 ^ 53` are doubles. -/
theorem nearest_natCast {n : ℕ} (h : n ≤ 2 ^ 53) : nearest n = .finite false n := by
  rcases Nat.eq_zero_or_pos n with rfl | hpos
  · exact nearest_zero
  have hlog : log 2 (n : ℚ) = Nat.log 2 n := log_natCast 2 n
  have hlimit : (n : ℚ) < limit := by
    calc (n : ℚ) ≤ ((2 ^ 53 : ℕ) : ℚ) := by exact_mod_cast h
      _ = 2 ^ (53 : ℤ) := by norm_cast
      _ < limit := zpow_lt_zpow_right₀ (by norm_num) (by norm_num)
  rcases h.lt_or_eq with hlt | rfl
  · have hle : Nat.log 2 n ≤ 52 := Nat.lt_succ_iff.mp (Nat.log_lt_of_lt_pow hpos.ne' hlt)
    have he : unitExp (n : ℚ) = -((52 - Nat.log 2 n : ℕ) : ℤ) := by unfold unitExp; omega
    refine nearest_of_multiple (n := n * 2 ^ (52 - Nat.log 2 n)) ?_ hlimit
    rw [he, zpow_neg, div_inv_eq_mul, zpow_natCast]
    push_cast
    rfl
  · have he : unitExp ((2 ^ 53 : ℕ) : ℚ) = 1 := by
      rw [unitExp, hlog, Nat.log_pow Nat.one_lt_two]
      rfl
    refine nearest_of_multiple (n := 2 ^ 52) ?_ hlimit
    rw [he]
    norm_num

/-- Between half of the least double and half a unit above the greatest one, the nearest double
is finite and not zero. -/
theorem nearest_of_between (hlow : 2 ^ (-1075 : ℤ) < q) (hhigh : q < (2 ^ 54 - 1) * 2 ^ (970 : ℤ)) :
    ∃ mag, nearest q = .finite false mag ∧ mag ≠ 0 := by
  have hq : 0 < q := lt_trans (zpow_pos (by norm_num) _) hlow
  have hhalf : (0 : ℚ) < 2 ^ (970 : ℤ) := zpow_pos (by norm_num) _
  have hlimit : limit = 2 ^ 54 * 2 ^ (970 : ℤ) := zpow_add₀ (by norm_num) 54 970
  have he : unitExp q ≤ 971 :=
    unitExp_le (hlimit ▸ hhigh.trans (mul_lt_mul_of_pos_right (by norm_num) hhalf))
  have hone : 1 ≤ halfEven (q / 2 ^ unitExp q) := by
    refine le_halfEven_of_lt ?_
    rw [lt_div_iff₀ (unit_pos q)]
    rcases eq_or_ne (unitExp q) (-1074) with heq | hne
    · rw [heq]
      calc ((1 : ℤ) - 1 / 2 : ℚ) * 2 ^ (-1074 : ℤ) = 2 ^ (-1 : ℤ) * 2 ^ (-1074 : ℤ) := by norm_num
        _ = 2 ^ (-1 + -1074 : ℤ) := (zpow_add₀ (by norm_num) _ _).symm
        _ < q := hlow
    · have heq : unitExp q = log 2 q - 52 := by unfold unitExp at hne ⊢; omega
      have hunit := unit_pos q
      calc ((1 : ℤ) - 1 / 2 : ℚ) * 2 ^ unitExp q < 2 ^ unitExp q := by
            push_cast; linarith
        _ ≤ 2 ^ log 2 q := zpow_le_zpow_right₀ (by norm_num) (by omega)
        _ ≤ q := zpow_log_le_self Nat.one_lt_two hq
  have hlt : rounded q < limit := by
    rcases he.lt_or_eq with hlt | heq
    · calc rounded q ≤ 2 ^ 53 * 2 ^ (970 : ℤ) :=
            mul_le_mul (by exact_mod_cast halfEven_unit_le q)
              (zpow_le_zpow_right₀ (by norm_num) (by omega)) (unit_pos q).le (by norm_num)
        _ < 2 ^ 54 * 2 ^ (970 : ℤ) := mul_lt_mul_of_pos_right (by norm_num) hhalf
        _ = limit := hlimit.symm
    · have hk : halfEven (q / 2 ^ (971 : ℤ)) ≤ 2 ^ 53 - 1 := by
        refine halfEven_le_of_lt ?_
        rw [div_lt_iff₀ (zpow_pos (by norm_num) _)]
        calc q < (2 ^ 54 - 1) * 2 ^ (970 : ℤ) := hhigh
          _ = (((2 ^ 53 - 1 : ℤ) : ℚ) + 1 / 2) * 2 * 2 ^ (970 : ℤ) := by norm_num
          _ = (((2 ^ 53 - 1 : ℤ) : ℚ) + 1 / 2) * 2 ^ ((970 : ℤ) + 1) := by
            rw [zpow_add_one₀ (by norm_num), mul_assoc, mul_comm 2]
      have hk' : (halfEven (q / 2 ^ (971 : ℤ)) : ℚ) ≤ 2 ^ 53 - 1 := by exact_mod_cast hk
      have hunit : (0 : ℚ) < 2 ^ (971 : ℤ) := zpow_pos (by norm_num) _
      calc rounded q ≤ (2 ^ 53 - 1) * 2 ^ (971 : ℤ) := by
            rw [rounded, heq]
            exact mul_le_mul_of_nonneg_right hk' hunit.le
        _ < 2 ^ 53 * 2 ^ (971 : ℤ) := mul_lt_mul_of_pos_right (by norm_num) hunit
        _ = limit := (zpow_add₀ (by norm_num) 53 971).symm
  refine ⟨rounded q, ?_, ?_⟩
  · rw [nearest, if_neg (not_le.mpr hlt)]
  · have hpos : (0 : ℚ) < halfEven (q / 2 ^ unitExp q) := by exact_mod_cast hone
    exact (mul_pos hpos (unit_pos q)).ne'

end Double

end Library
