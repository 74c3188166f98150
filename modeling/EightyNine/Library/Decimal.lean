import EightyNine.Library.Binary64
import Mathlib.Algebra.Order.Field.Power
import Mathlib.Data.List.DropRight
import Mathlib.Tactic.FieldSimp
import Mathlib.Tactic.Ring

/-!
# Decimal digits

The digits of a number at a fixed width, the number that digits write, and the
correctly rounded significant digits of a magnitude, which are off by at most half
a unit of the last one (`significant_error`).
-/

namespace Library

open List Int

namespace Decimal

open Double (halfEven halfEven_le_of_lt le_halfEven_of_lt abs_halfEven_sub_le)

instance neZeroTen : NeZero 10 := ⟨by decide⟩

/-- The number that digits write. -/
def value (ds : List (Fin 10)) : ℕ := ds.foldl (fun n d => n * 10 + d.val) 0

/-- The last `w` digits of a number. -/
def digits : ℕ → ℕ → List (Fin 10)
  | 0, _ => []
  | w + 1, n => digits w (n / 10) ++ [Fin.ofNat 10 n]

/-- Digits without the zeros at their end. -/
def strip (ds : List (Fin 10)) : List (Fin 10) := ds.rdropWhile (· = 0)

@[simp] theorem value_nil : value [] = 0 := rfl

theorem value_concat (ds : List (Fin 10)) (d : Fin 10) :
    value (ds ++ [d]) = value ds * 10 + d.val := by
  simp [value]

theorem value_append (ds es : List (Fin 10)) :
    value (ds ++ es) = value ds * 10 ^ es.length + value es := by
  induction es using reverseRecOn with
  | nil => simp
  | append_singleton es e ih =>
    rw [← append_assoc, value_concat, ih, value_concat, length_append,
      length_singleton, pow_succ]
    ring

@[simp] theorem value_replicate_zero (n : ℕ) : value (replicate n 0) = 0 := by
  induction n with
  | zero => rfl
  | succ n ih => rw [replicate_succ', value_concat, ih]; rfl

theorem value_lt (ds : List (Fin 10)) : value ds < 10 ^ ds.length := by
  induction ds using reverseRecOn with
  | nil => exact Nat.one_pos
  | append_singleton ds d ih =>
    have hd := d.isLt
    rw [value_concat, length_append, length_singleton, pow_succ]
    omega

theorem value_eq_zero_iff (ds : List (Fin 10)) : value ds = 0 ↔ ∀ d ∈ ds, d = 0 := by
  induction ds using reverseRecOn with
  | nil => simp
  | append_singleton ds d ih =>
    have hd : d.val = 0 ↔ d = 0 := Fin.val_eq_zero_iff
    rw [value_concat, forall_mem_append, forall_mem_singleton, ← ih, ← hd]
    omega

/-! ## A fixed width -/

@[simp] theorem length_digits (w n : ℕ) : (digits w n).length = w := by
  induction w generalizing n with
  | zero => rfl
  | succ w ih => rw [digits, length_append, ih, length_singleton]

theorem value_digits {w n : ℕ} (h : n < 10 ^ w) : value (digits w n) = n := by
  induction w generalizing n with
  | zero => exact (Nat.lt_one_iff.mp h).symm
  | succ w ih =>
    have hlow : n / 10 < 10 ^ w := Nat.div_lt_of_lt_mul (by rwa [pow_succ, mul_comm] at h)
    rw [digits, value_concat, ih hlow, Fin.val_ofNat]
    omega

theorem head_digits_ne {w n : ℕ} (hlow : 10 ^ w ≤ n) (h : n < 10 ^ (w + 1)) :
    (digits (w + 1) n).head? ≠ some 0 := by
  intro hhead
  obtain ⟨ds, hds⟩ := head?_eq_some_iff.mp hhead
  have hlen : ds.length = w := by
    have := length_digits (w + 1) n
    rw [hds, length_cons] at this
    omega
  have hvalue : value (digits (w + 1) n) = value ds := by
    rw [hds]; rfl
  rw [value_digits h] at hvalue
  have := value_lt ds
  rw [hlen] at this
  omega

theorem value_take_drop {w n : ℕ} (h : n < 10 ^ w) (k : ℕ) :
    value ((digits w n).take k) = n / 10 ^ (w - k) ∧
      value ((digits w n).drop k) = n % 10 ^ (w - k) := by
  have hlen : ((digits w n).drop k).length = w - k := by rw [length_drop, length_digits]
  have hsum : value ((digits w n).take k) * 10 ^ (w - k) + value ((digits w n).drop k) = n := by
    rw [← hlen, ← value_append, take_append_drop, value_digits h]
  have hlt := value_lt ((digits w n).drop k)
  rw [hlen] at hlt
  generalize value ((digits w n).take k) = lead at hsum ⊢
  generalize value ((digits w n).drop k) = rest at hsum hlt ⊢
  subst hsum
  rw [Nat.add_comm, Nat.add_mul_div_right _ _ (by positivity), Nat.div_eq_of_lt hlt,
    Nat.add_mul_mod_self_right, Nat.mod_eq_of_lt hlt]
  exact ⟨(Nat.zero_add _).symm, rfl⟩

/-! ## Zeros at the end -/

theorem exists_strip (ds : List (Fin 10)) : ∃ n, ds = strip ds ++ replicate n 0 := by
  refine ⟨(ds.rtakeWhile (· = 0)).length, ?_⟩
  have hzeros : ds.rtakeWhile (· = 0) = replicate (ds.rtakeWhile (· = 0)).length 0 :=
    eq_replicate_of_mem fun d hd => by simpa using mem_rtakeWhile_imp hd
  rw [← hzeros]
  exact rdropWhile_append_rtakeWhile.symm

theorem strip_eq_nil_iff (ds : List (Fin 10)) : strip ds = [] ↔ value ds = 0 := by
  rw [value_eq_zero_iff, strip, rdropWhile_eq_nil_iff]
  simp

theorem length_strip_le (ds : List (Fin 10)) : (strip ds).length ≤ ds.length := by
  obtain ⟨n, hn⟩ := exists_strip ds
  have := congrArg length hn
  rw [length_append] at this
  omega

theorem value_strip (ds es : List (Fin 10)) (e : ℤ) :
    (value (ds ++ strip es) : ℚ) * 10 ^ (e - (strip es).length) =
      value (ds ++ es) * 10 ^ (e - es.length) := by
  obtain ⟨n, hn⟩ := exists_strip es
  have hlen : (es.length : ℤ) = (strip es).length + n := by
    conv_lhs => rw [hn]
    simp
  have hvalue : value (ds ++ es) = value (ds ++ strip es) * 10 ^ n := by
    conv_lhs => rw [hn]
    rw [← append_assoc, value_append, value_replicate_zero, length_replicate, Nat.add_zero]
  rw [hvalue, hlen, ← sub_sub, zpow_sub₀ (by norm_num) _ (n : ℤ), zpow_natCast]
  push_cast
  field_simp

/-! ## Significant digits -/

/-- The first `p` digits of a magnitude, correctly rounded, as a number, and the exponent of
the first one. -/
def significant (p : ℕ) (q : ℚ) : ℤ × ℤ :=
  let x := log 10 q
  let m := halfEven (q / 10 ^ (x - (p - 1)))
  if m = 10 ^ p then (10 ^ (p - 1), x + 1) else (m, x)

variable {p : ℕ} {q : ℚ}

/-- The magnitude in units of its last significant digit. -/
theorem scaled_bounds (hp : 0 < p) (hq : 0 < q) :
    ((10 ^ (p - 1) : ℤ) : ℚ) ≤ q / 10 ^ (log 10 q - (p - 1)) ∧
      q / 10 ^ (log 10 q - (p - 1)) < ((10 ^ p : ℤ) : ℚ) := by
  have hunit : (0 : ℚ) < 10 ^ (log 10 q - (p - 1)) := zpow_pos (by norm_num) _
  have hlow : (10 : ℚ) ^ log 10 q ≤ q := zpow_log_le_self (by norm_num) hq
  have hhigh : q < 10 ^ (log 10 q + 1) := lt_zpow_succ_log_self (by norm_num) q
  have hcast : ((p - 1 : ℕ) : ℤ) = p - 1 := by omega
  constructor
  · rw [le_div_iff₀ hunit]
    calc ((10 ^ (p - 1) : ℤ) : ℚ) * 10 ^ (log 10 q - (p - 1))
        = 10 ^ (((p - 1 : ℕ) : ℤ) + (log 10 q - (p - 1))) := by
          rw [zpow_add₀ (by norm_num), zpow_natCast]; push_cast; rfl
      _ = 10 ^ log 10 q := by rw [hcast]; congr 1; ring
      _ ≤ q := hlow
  · rw [div_lt_iff₀ hunit]
    calc q < 10 ^ (log 10 q + 1) := hhigh
      _ = 10 ^ ((p : ℤ) + (log 10 q - (p - 1))) := by congr 1; ring
      _ = ((10 ^ p : ℤ) : ℚ) * 10 ^ (log 10 q - (p - 1)) := by
          rw [zpow_add₀ (by norm_num), zpow_natCast]; push_cast; rfl

/-- The significand has `p` digits, and half a unit of the last one is the most it is off. -/
theorem significant_spec (hp : 0 < p) (hq : 0 < q) :
    10 ^ (p - 1) ≤ (significant p q).1 ∧ (significant p q).1 < 10 ^ p ∧
      |(significant p q).1 * 10 ^ ((significant p q).2 - (p - 1)) - q| ≤
        10 ^ (log 10 q - (p - 1)) / 2 := by
  obtain ⟨hlow, hhigh⟩ := scaled_bounds hp hq
  have hunit : (0 : ℚ) < 10 ^ (log 10 q - (p - 1)) := zpow_pos (by norm_num) _
  have hcancel := div_mul_cancel₀ q hunit.ne'
  simp only [significant]
  generalize log 10 q = x at *
  generalize q / 10 ^ (x - (p - 1)) = y at *
  have hpow : (10 : ℤ) ^ p = 10 ^ (p - 1) * 10 := by
    rw [← pow_succ, Nat.sub_add_cancel hp]
  have hpos : (0 : ℤ) < 10 ^ (p - 1) := by positivity
  have herror : |halfEven y * 10 ^ (x - (p - 1)) - q| ≤ 10 ^ (x - (p - 1)) / 2 := by
    calc |halfEven y * 10 ^ (x - (p - 1)) - q|
        = |(halfEven y - y) * 10 ^ (x - (p - 1))| := by rw [sub_mul, hcancel]
      _ = |(halfEven y : ℚ) - y| * 10 ^ (x - (p - 1)) := by rw [abs_mul, abs_of_pos hunit]
      _ ≤ 1 / 2 * 10 ^ (x - (p - 1)) :=
        mul_le_mul_of_nonneg_right (abs_halfEven_sub_le y) hunit.le
      _ = 10 ^ (x - (p - 1)) / 2 := by ring
  have hle : halfEven y ≤ 10 ^ p := halfEven_le_of_lt (by linarith)
  have hge : 10 ^ (p - 1) ≤ halfEven y := le_halfEven_of_lt (by linarith)
  by_cases hm : halfEven y = 10 ^ p
  · rw [if_pos hm]
    refine ⟨le_rfl, by omega, ?_⟩
    have hshift : (x + 1 - (p - 1) : ℤ) = x - (p - 1) + 1 := by ring
    rw [hm, hpow] at herror
    rw [hshift, zpow_add_one₀ (by norm_num), mul_comm _ (10 : ℚ), ← mul_assoc]
    exact_mod_cast herror
  · rw [if_neg hm]
    exact ⟨hge, lt_of_le_of_ne hle hm, herror⟩

/-- A magnitude that `p` digits write is written exactly. -/
theorem significant_of_whole {n : ℤ} (h : q / 10 ^ (log 10 q - (p - 1)) = n)
    (hn : n ≠ 10 ^ p) : significant p q = (n, log 10 q) := by
  rw [significant, h, Double.halfEven_intCast, if_neg hn]

end Decimal

end Library
