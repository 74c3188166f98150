import Mathlib.Order.PiLex
import Mathlib.Algebra.Ring.Periodic
import Mathlib.Algebra.Group.Nat.Defs

/-!
# Periodic words and Lyndon words

Infinite words in the lexicographic order.  Two periodic words are equal when they
agree on as many letters as their periods have together (`eq_of_agree`).  A Lyndon word
is strictly below its proper suffixes; the word it repeats is then the least of its
shifts, which determines the length and the shift (`Lyndon.unique`).  The last two
lemmas are the two ways in which Duval's scan for Lyndon words goes on: a word that was
repeated grows at a larger letter (`Lyndon.extend`), and no word that follows its
repetitions is larger (`Lyndon.cycle_le`).
-/

namespace Library

open Nat

variable {α : Type} {u v w : ℕ → α} {m l : ℕ}

/-- The word from its `k`-th letter on. -/
def shift (w : ℕ → α) (k : ℕ) : ℕ → α := fun i => w (k + i)

/-- The first `m` letters of the word, repeated forever. -/
def cycle (w : ℕ → α) (m : ℕ) : ℕ → α := fun i => w (i % m)

theorem shift_shift (w : ℕ → α) (j k : ℕ) : shift (shift w j) k = shift w (j + k) := by
  funext i
  simp only [shift, add_assoc]

@[simp] theorem shift_zero (w : ℕ → α) : shift w 0 = w := by
  funext i
  simp [shift]

theorem cycle_periodic (w : ℕ → α) (m : ℕ) : Function.Periodic (cycle w m) m := by
  intro i
  simp [cycle]

theorem shift_periodic (h : Function.Periodic w m) (k : ℕ) :
    Function.Periodic (shift w k) m := by
  intro i
  show w (k + (i + m)) = w (k + i)
  rw [← add_assoc]
  exact h (k + i)

theorem shift_period (h : Function.Periodic w m) : shift w m = w := by
  funext i
  show w (m + i) = w i
  rw [add_comm]
  exact h i

theorem shift_mod (h : Function.Periodic w m) (k : ℕ) :
    shift w (k % m) = shift w k := by
  have hmul : ∀ q, shift w (k % m + m * q) = shift w (k % m) := by
    intro q
    induction q with
    | zero => rfl
    | succ q ih => rw [mul_succ, ← add_assoc, ← shift_shift, shift_period (shift_periodic h _), ih]
  rw [← hmul (k / m), mod_add_div]

/-- Two periodic words that agree on the letters of both periods are equal. -/
theorem eq_of_agree (hu : Function.Periodic u m) (hv : Function.Periodic v l)
    (hm : 0 < m) (hl : 0 < l) (h : ∀ i < m + l, u i = v i) : u = v := by
  funext i
  induction i using Nat.strong_induction_on with
  | _ i ih =>
    rcases Nat.lt_or_ge i (m + l) with hi | hi
    · exact h i hi
    · obtain ⟨k, rfl⟩ : ∃ k, i = k + m + l := ⟨i - l - m, by omega⟩
      calc u (k + m + l) = u (k + l + m) := by rw [add_right_comm]
        _ = u (k + l) := hu _
        _ = v (k + l) := ih _ (by omega)
        _ = v k := hv _
        _ = u k := (ih _ (by omega)).symm
        _ = u (k + m) := (hu _).symm
        _ = v (k + m) := ih _ (by omega)
        _ = v (k + m + l) := (hv _).symm

variable [LinearOrder α]

theorem word_lt_iff :
    toLex u < toLex v ↔ ∃ i, (∀ j < i, u j = v j) ∧ u i < v i :=
  Iff.rfl

/-- Words compare by their first letters, and then by what follows. -/
theorem word_lt_head : toLex u < toLex v ↔
    u 0 < v 0 ∨ u 0 = v 0 ∧ toLex (shift u 1) < toLex (shift v 1) := by
  rw [word_lt_iff, word_lt_iff]
  constructor
  · rintro ⟨i, heq, hlt⟩
    cases i with
    | zero => exact .inl hlt
    | succ i =>
      refine .inr ⟨heq 0 (succ_pos i), i, fun j hj => ?_, ?_⟩
      · rw [shift, shift, add_comm]
        exact heq (j + 1) (succ_lt_succ hj)
      · rwa [shift, shift, add_comm]
  · rintro (hlt | ⟨h0, i, heq, hlt⟩)
    · exact ⟨0, fun j hj => absurd hj (not_lt_zero j), hlt⟩
    · refine ⟨i + 1, fun j hj => ?_, ?_⟩
      · cases j with
        | zero => exact h0
        | succ j =>
          have := heq j (lt_of_succ_lt_succ hj)
          rwa [shift, shift, add_comm] at this
      · rwa [shift, shift, add_comm] at hlt

/-- The first `m` letters are strictly below each of their proper suffixes. -/
structure Lyndon (w : ℕ → α) (m : ℕ) : Prop where
  pos : 0 < m
  lt : ∀ j, 0 < j → j < m → ∃ i, j + i < m ∧ (∀ k < i, w k = w (j + k)) ∧ w i < w (j + i)

namespace Lyndon

theorem one (w : ℕ → α) : Lyndon w 1 :=
  ⟨one_pos, fun j h0 h1 => by omega⟩

theorem congr (h : Lyndon w m) (he : ∀ i < m, u i = w i) : Lyndon u m := by
  refine ⟨h.pos, fun j h0 hj => ?_⟩
  obtain ⟨i, hi, heq, hlt⟩ := h.lt j h0 hj
  refine ⟨i, hi, fun k hk => ?_, ?_⟩
  · rw [he k (by omega), he (j + k) (by omega), heq k hk]
  · rwa [he i (by omega), he (j + i) hi]

theorem lt_shift (h : Lyndon w m) {j : ℕ} (hj : j % m ≠ 0) :
    toLex (cycle w m) < toLex (shift (cycle w m) j) := by
  have hjm : j % m < m := Nat.mod_lt _ h.pos
  obtain ⟨i, hi, heq, hlt⟩ := h.lt (j % m) (Nat.pos_of_ne_zero hj) hjm
  rw [← shift_mod (cycle_periodic w m), word_lt_iff]
  have hval : ∀ k, j % m + k < m → shift (cycle w m) (j % m) k = w (j % m + k) := by
    intro k hk
    simp [shift, cycle, mod_eq_of_lt hk]
  have hval0 : ∀ k, k < m → cycle w m k = w k := by
    intro k hk
    simp [cycle, mod_eq_of_lt hk]
  refine ⟨i, fun k hk => ?_, ?_⟩
  · rw [hval k (by omega), hval0 k (by omega), heq k hk]
  · rwa [hval i hi, hval0 i (by omega)]

theorem le_shift (h : Lyndon w m) (j : ℕ) :
    toLex (cycle w m) ≤ toLex (shift (cycle w m) j) := by
  by_cases hj : j % m = 0
  · rw [← shift_mod (cycle_periodic w m), hj, shift_zero]
  · exact (h.lt_shift hj).le

theorem dvd_of_shift_eq (h : Lyndon w m) {j : ℕ} (he : shift (cycle w m) j = cycle w m) :
    j % m = 0 := by
  by_contra hj
  exact absurd (h.lt_shift hj) (by rw [he]; exact lt_irrefl _)

/-- Conjugates of Lyndon words repeat to the same word only if the words are the same and
shifted alike. -/
theorem unique (hu : Lyndon u m) (hv : Lyndon v l) {j k : ℕ}
    (h : shift (cycle u m) j = shift (cycle v l) k) :
    cycle u m = cycle v l ∧ m = l ∧ j % m = k % m := by
  have hpu := cycle_periodic u m
  have hpv := cycle_periodic v l
  -- each word is a shift of the other, and both are least
  have hround : ∀ (w : ℕ → α) {m : ℕ} (j : ℕ), 0 < m → Function.Periodic w m →
      shift (shift w j) (m * j - j) = w := by
    intro w m j hm hw
    have hle : j ≤ m * j := Nat.le_mul_of_pos_left j hm
    rw [shift_shift, Nat.add_sub_cancel' hle, ← shift_mod hw, Nat.mul_mod_right, shift_zero]
  have hle : toLex (cycle v l) ≤ toLex (cycle u m) := by
    have h' := hround (cycle u m) j hu.pos hpu
    rw [h, shift_shift] at h'
    exact h' ▸ hv.le_shift _
  have hge : toLex (cycle u m) ≤ toLex (cycle v l) := by
    have h' := hround (cycle v l) k hv.pos hpv
    rw [← h, shift_shift] at h'
    exact h' ▸ hu.le_shift _
  have heq : cycle u m = cycle v l := toLex.injective (le_antisymm hge hle)
  have hml : m = l := by
    have h1 : m % l = 0 := hv.dvd_of_shift_eq (by rw [← heq]; exact shift_period hpu)
    have h2 : l % m = 0 := hu.dvd_of_shift_eq (by rw [heq]; exact shift_period hpv)
    exact dvd_antisymm (dvd_of_mod_eq_zero h2) (dvd_of_mod_eq_zero h1)
  refine ⟨heq, hml, ?_⟩
  subst hml
  rw [← heq] at h
  -- undo the shift by `k` on both sides
  have hle : k ≤ m * k := Nat.le_mul_of_pos_left k hu.pos
  have h' : shift (cycle u m) (j + (m * k - k)) = cycle u m := by
    rw [← shift_shift, h]
    exact hround _ k hu.pos hpu
  have hmod : (j + (m * k - k)) % m = 0 := hu.dvd_of_shift_eq h'
  have hk : (k + (m * k - k)) % m = 0 := by
    rw [Nat.add_sub_cancel' hle, Nat.mul_mod_right]
  exact Nat.ModEq.add_right_cancel' (m * k - k) (hmod.trans hk.symm)

/-! ## Duval's scan -/

omit [LinearOrder α] in
/-- Letters that repeat the first `m` of them up to `e`. -/
theorem eq_cycle {e : ℕ} (hr : ∀ i, i + m < e → w (i + m) = w i) (hm : 0 < m) :
    ∀ i < e, w i = cycle w m i := by
  intro i
  induction i using Nat.strong_induction_on with
  | _ i ih =>
    intro hi
    rcases Nat.lt_or_ge i m with him | him
    · simp [cycle, mod_eq_of_lt him]
    · obtain ⟨k, rfl⟩ : ∃ k, i = k + m := ⟨i - m, by omega⟩
      rw [hr k hi, ih k (by omega) (by omega)]
      exact (cycle_periodic w m k).symm

section Scan

variable {e : ℕ} (h : Lyndon w m) (hr : ∀ i, i + m < e → w (i + m) = w i) (hme : m ≤ e)

include h hr hme

theorem cycle_end : cycle w m e = w (e - m) := by
  have hpos := h.pos
  rw [eq_cycle hr hpos (e - m) (by omega), ← cycle_periodic w m (e - m), Nat.sub_add_cancel hme]

/-- A repeated word, broken by a larger letter, is a Lyndon word up to that letter. -/
theorem extend (hlt : w (e - m) < w e) : Lyndon w (e + 1) := by
  have hpos := h.pos
  have hU := eq_cycle hr hpos
  have hend := cycle_end h hr hme
  refine ⟨succ_pos e, fun j h0 hj => ?_⟩
  by_cases hjm : j % m = 0
  · -- a suffix that starts with a copy of the word: only the last letters differ
    have hshift : ∀ k, cycle w m (j + k) = cycle w m k := by
      intro k
      simp [cycle, add_mod, hjm]
    refine ⟨e - j, by omega, fun k hk => ?_, ?_⟩
    · rw [hU k (by omega), hU (j + k) (by omega), hshift]
    · rw [hU (e - j) (by omega), ← hshift, Nat.add_sub_cancel' (by omega), hend]
      exact hlt
  · obtain ⟨i, hi, heq, hl⟩ := h.lt (j % m) (Nat.pos_of_ne_zero hjm) (Nat.mod_lt _ hpos)
    have hshift : ∀ k ≤ i, cycle w m (j + k) = w (j % m + k) := by
      intro k hk
      rw [cycle, add_mod, mod_eq_of_lt (show k < m by omega),
        mod_eq_of_lt (show j % m + k < m by omega)]
    rcases Nat.lt_or_ge (j + i) e with hie | hie
    · refine ⟨i, by omega, fun k hk => ?_, ?_⟩
      · rw [heq k hk, hU (j + k) (by omega), hshift k hk.le]
      · rwa [hU (j + i) hie, hshift i le_rfl]
    · -- the end comes before the letter that tells the word from its suffix
      refine ⟨e - j, by omega, fun k hk => ?_, ?_⟩
      · rw [heq k (by omega), hU (j + k) (by omega), hshift k (by omega)]
      · have hle : w (e - j) ≤ w (j % m + (e - j)) := by
          rcases Nat.lt_or_ge (e - j) i with hei | hei
          · exact (heq _ hei).le
          · obtain rfl : e - j = i := by omega
            exact hl.le
        rw [← hshift (e - j) (by omega), Nat.add_sub_cancel' (by omega), hend] at hle
        rw [Nat.add_sub_cancel' (by omega)]
        exact hle.trans_lt hlt

/-- After the repetitions of a word comes no word that is larger, if the letters go on
below the word or stop. -/
theorem cycle_le {k : ℕ} (hk : m * k ≤ e) (hk' : e < m * k + m) (hl : 0 < l)
    (hend : e < m * k + l → w e < w (e - m)) :
    toLex (cycle (shift w (m * k)) l) ≤ toLex (cycle w m) := by
  have hpos := h.pos
  have hrest : ∀ i, m * k + i < e → shift w (m * k) i = cycle w m i := by
    intro i hi
    rw [shift, eq_cycle hr hpos _ hi, cycle, cycle, mul_add_mod]
  by_contra hlt
  obtain ⟨t, heq, ht⟩ := word_lt_iff.mp (not_le.mp hlt)
  rcases Nat.lt_or_ge e (m * k + l) with hel | hel
  · -- the first letter past the repetitions is smaller
    have hlast : cycle (shift w (m * k)) l (e - m * k) < cycle w m (e - m * k) := by
      have hmod : (e - m * k) % l = e - m * k := mod_eq_of_lt (by omega)
      have hU : cycle w m (e - m * k) = cycle w m e := by
        rw [cycle, cycle, Nat.sub_mul_mod hk]
      rw [hU, cycle_end h hr hme, cycle, hmod, shift, Nat.add_sub_cancel' hk]
      exact hend hel
    rcases Nat.lt_trichotomy t (e - m * k) with htr | rfl | htr
    · have hmod : t % l = t := mod_eq_of_lt (by omega)
      rw [cycle, cycle, hmod, hrest t (by omega), cycle] at ht
      exact lt_irrefl _ ht
    · exact lt_asymm ht hlast
    · exact hlast.ne (heq _ htr).symm
  · -- the word is a proper prefix of the repeated one
    have hinit : ∀ i < l, cycle (shift w (m * k)) l i = cycle w m i := by
      intro i hi
      have hmod : i % l = i := mod_eq_of_lt hi
      rw [cycle, hmod, hrest i (by omega)]
    have htl : l ≤ t := by
      by_contra htl
      rw [hinit t (by omega)] at ht
      exact lt_irrefl _ ht
    have hmod : l % m ≠ 0 := by
      rw [mod_eq_of_lt (by omega)]
      omega
    have hstep : ∀ i, cycle (shift w (m * k)) l (l + i) = cycle (shift w (m * k)) l i := by
      intro i
      rw [add_comm]
      exact cycle_periodic _ l i
    refine lt_asymm (h.lt_shift hmod) (word_lt_iff.mpr ⟨t - l, fun i hi => ?_, ?_⟩)
    · rw [shift, heq _ (by omega), hstep, heq i (by omega)]
    · rw [shift, Nat.add_sub_cancel' htl, heq (t - l) (by omega), ← hstep, Nat.add_sub_cancel' htl]
      exact ht

end Scan

end Lyndon

end Library
