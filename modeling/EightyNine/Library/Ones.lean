import Mathlib.Algebra.BigOperators.Group.List.Basic
import Mathlib.Data.Nat.ModEq

/-!
# One's-complement sums

Sums of `w` bits whose carry comes back at the other end.  They are the residues modulo
`2 ^ w - 1` with two names for zero, of which a sum that is not empty of ones takes the
upper (`onesRep`).  So the words may be grouped and folded in any way.
-/

namespace Library

open Nat

variable {w a b n k s : Nat} {xs : List Nat}

/-- A sum of `w` bits with its carry brought back. -/
def endAround (w a b : Nat) : Nat := if a + b < 2 ^ w then a + b else a + b - 2 ^ w + 1

/-- The one's-complement sum of words of `w` bits. -/
def onesSum (w : Nat) (xs : List Nat) : Nat := xs.foldl (endAround w) 0

/-- The name of a number among the words of `w` bits: 0 only for 0. -/
def onesRep (w n : Nat) : Nat := if n = 0 then 0 else (n - 1) % (2 ^ w - 1) + 1

/-- What is above `w` bits added to what is below. -/
def foldCarry (w s : Nat) : Nat := s % 2 ^ w + s / 2 ^ w

@[simp] theorem onesRep_zero : onesRep w 0 = 0 := rfl

@[simp] theorem onesRep_eq_zero : onesRep w n = 0 ↔ n = 0 := by
  unfold onesRep
  split <;> simp_all

theorem onesRep_of_lt (h : n < 2 ^ w) : onesRep w n = n := by
  unfold onesRep
  split
  · omega
  · rw [mod_eq_of_lt (by omega)]
    omega

/-- Multiples of `2 ^ w - 1` do not count, except for zero. -/
theorem onesRep_add_mul (hn : n ≠ 0) : onesRep w (n + (2 ^ w - 1) * k) = onesRep w n := by
  unfold onesRep
  rw [if_neg (by omega), if_neg hn, show n + (2 ^ w - 1) * k - 1 = n - 1 + (2 ^ w - 1) * k by omega,
    add_mul_mod_self_left]

theorem onesRep_modEq (w n : Nat) : onesRep w n ≡ n [MOD 2 ^ w - 1] := by
  unfold onesRep
  split
  · simp_all [Nat.ModEq]
  · rename_i hn
    have h : (n - 1) % (2 ^ w - 1) ≡ n - 1 [MOD 2 ^ w - 1] := mod_modEq _ _
    have := h.add_right 1
    rwa [Nat.sub_add_cancel (Nat.pos_of_ne_zero hn)] at this

theorem onesRep_of_modEq (ha : a ≠ 0) (hb : b ≠ 0) (h : a ≡ b [MOD 2 ^ w - 1]) :
    onesRep w a = onesRep w b := by
  unfold onesRep
  rw [if_neg ha, if_neg hb]
  have h1 : a - 1 + 1 ≡ b - 1 + 1 [MOD 2 ^ w - 1] := by
    rwa [Nat.sub_add_cancel (Nat.pos_of_ne_zero ha), Nat.sub_add_cancel (Nat.pos_of_ne_zero hb)]
  exact congrArg (· + 1) (Nat.ModEq.add_right_cancel' 1 h1)

theorem onesRep_add (a b : Nat) : onesRep w (onesRep w a + b) = onesRep w (a + b) := by
  by_cases ha : a = 0
  · rw [ha, onesRep_zero]
  · have hrep : onesRep w a ≠ 0 := fun h => ha (onesRep_eq_zero.mp h)
    exact onesRep_of_modEq (by omega) (by omega) ((onesRep_modEq w a).add_right b)

theorem onesRep_lt (hw : 0 < w) (n : Nat) : onesRep w n < 2 ^ w := by
  have hpow : 2 ≤ 2 ^ w := by
    calc 2 = 2 ^ 1 := rfl
      _ ≤ 2 ^ w := Nat.pow_le_pow_right (by decide) hw
  unfold onesRep
  split
  · omega
  · have := mod_lt (n - 1) (show 0 < 2 ^ w - 1 by omega)
    omega

theorem onesRep_foldCarry (w s : Nat) : onesRep w (foldCarry w s) = onesRep w s := by
  have hpow : 0 < 2 ^ w := Nat.two_pow_pos w
  have hdiv := mod_add_div s (2 ^ w)
  by_cases hs : s = 0
  · subst hs
    simp [foldCarry]
  · have hsum : s = foldCarry w s + (2 ^ w - 1) * (s / 2 ^ w) := by
      have : 2 ^ w * (s / 2 ^ w) = (2 ^ w - 1) * (s / 2 ^ w) + s / 2 ^ w := by
        conv_lhs => rw [show 2 ^ w = 2 ^ w - 1 + 1 by omega, Nat.add_mul, Nat.one_mul]
        rw [show 2 ^ w - 1 + 1 = 2 ^ w by omega]
      unfold foldCarry
      omega
    have hne : foldCarry w s ≠ 0 := by
      intro h0
      rw [h0, Nat.zero_add] at hsum
      have hzero : s / 2 ^ w = 0 := (Nat.add_eq_zero_iff.mp h0).2
      rw [hzero, Nat.mul_zero] at hsum
      exact hs hsum
    conv_rhs => rw [hsum]
    exact (onesRep_add_mul hne).symm

theorem foldCarry_add (ha : a < 2 ^ w) (hb : b < 2 ^ w) :
    foldCarry w (a + b) = onesRep w (a + b) := by
  rw [← onesRep_foldCarry, onesRep_of_lt]
  unfold foldCarry
  by_cases h : a + b < 2 ^ w
  · rw [mod_eq_of_lt h, div_eq_of_lt h]
    exact h
  · have hsub : a + b - 2 ^ w < 2 ^ w := by omega
    have hsum : a + b = a + b - 2 ^ w + 2 ^ w * 1 := by omega
    rw [hsum, add_mul_mod_self_left, add_mul_div_left _ _ (Nat.two_pow_pos w),
      mod_eq_of_lt hsub, div_eq_of_lt hsub]
    omega

theorem endAround_eq (ha : a < 2 ^ w) (hb : b < 2 ^ w) :
    endAround w a b = onesRep w (a + b) := by
  unfold endAround
  split
  · exact (onesRep_of_lt ‹_›).symm
  · rename_i h
    rw [← foldCarry_add ha hb]
    have hsub : a + b - 2 ^ w < 2 ^ w := by omega
    have hsum : a + b = a + b - 2 ^ w + 2 ^ w * 1 := by omega
    unfold foldCarry
    conv_rhs => rw [hsum, add_mul_mod_self_left, add_mul_div_left _ _ (Nat.two_pow_pos w),
      mod_eq_of_lt hsub, div_eq_of_lt hsub]

theorem onesSum_eq (hw : 0 < w) (h : ∀ x ∈ xs, x < 2 ^ w) : onesSum w xs = onesRep w xs.sum := by
  have hfold : ∀ s, xs.foldl (endAround w) (onesRep w s) = onesRep w (s + xs.sum) := by
    induction xs with
    | nil => simp
    | cons x xs ih =>
      intro s
      rw [List.foldl_cons, endAround_eq (onesRep_lt hw s) (h x List.mem_cons_self), onesRep_add,
        ih (fun y hy => h y (List.mem_cons_of_mem x hy)), List.sum_cons, Nat.add_assoc]
  have := hfold 0
  rwa [onesRep_zero, Nat.zero_add] at this

end Library
