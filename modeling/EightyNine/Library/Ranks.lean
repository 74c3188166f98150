import Mathlib.Data.Prod.Lex
import Mathlib.Data.Finset.Card
import Mathlib.Data.Nat.Count

/-!
# Numbers listed by keys, and the standard permutation

`Enumerates key n ord` says that `ord` lists the numbers below `n` by strictly
increasing keys.  The place of a number is then the count of the keys below its own
(`Enumerates.card`).

The standard permutation of a sequence of letters sends each place to its rank among
all places, by letter first and place second (`lf`).  If the numbers are listed by keys
and their last letters tell how the keys of the numbers before them compare, it leads
from the place of a number to that of the number before it (`Enumerates.lf_eq`).
-/

namespace Library

open Nat Finset

variable {α β : Type} [LinearOrder α] [LinearOrder β]

/-- A map of the numbers below `n` that is one to one is onto. -/
theorem below_surj {f : ℕ → ℕ} {n : ℕ} (hlt : ∀ i < n, f i < n)
    (hinj : ∀ i < n, ∀ j < n, f i = f j → i = j) {x : ℕ} (hx : x < n) : ∃ i < n, f i = x := by
  have hmaps : Set.MapsTo f (range n) (range n) := by
    intro i hi
    exact mem_coe.mpr (mem_range.mpr (hlt i (mem_range.mp hi)))
  have hon : Set.InjOn f (range n) := by
    intro i hi j hj he
    exact hinj i (mem_range.mp hi) j (mem_range.mp hj) he
  obtain ⟨i, hi, he⟩ := surjOn_of_injOn_of_card_le f hmaps hon le_rfl
    (mem_coe.mpr (mem_range.mpr hx))
  exact ⟨i, mem_range.mp hi, he⟩

/-- `ord 0, .., ord (n - 1)` are the numbers below `n`, by increasing keys. -/
structure Enumerates (key : ℕ → β) (n : ℕ) (ord : ℕ → ℕ) : Prop where
  lt : ∀ i < n, ord i < n
  sorted : ∀ i j, i < j → j < n → key (ord i) < key (ord j)

namespace Enumerates

variable {key : ℕ → β} {n : ℕ} {ord : ℕ → ℕ} (h : Enumerates key n ord)

include h

theorem lt_iff {i j : ℕ} (hi : i < n) (hj : j < n) : key (ord i) < key (ord j) ↔ i < j := by
  constructor
  · intro hlt
    by_contra hij
    rcases lt_or_ge j i with hji | hji
    · exact lt_asymm hlt (h.sorted j i hji hi)
    · obtain rfl : i = j := by omega
      exact lt_irrefl _ hlt
  · exact fun hij => h.sorted i j hij hj

theorem inj {i j : ℕ} (hi : i < n) (hj : j < n) (he : ord i = ord j) : i = j := by
  rcases lt_trichotomy i j with hij | hij | hij
  · exact absurd (h.sorted i j hij hj) (by rw [he]; exact lt_irrefl _)
  · exact hij
  · exact absurd (h.sorted j i hij hi) (by rw [he]; exact lt_irrefl _)

theorem surj {x : ℕ} (hx : x < n) : ∃ i < n, ord i = x :=
  below_surj h.lt (fun _ hi _ hj => h.inj hi hj) hx

/-- Below the key of the `i`-th number are the keys of those listed before. -/
theorem card {i : ℕ} (hi : i < n) :
    ((range n).filter fun x => key x < key (ord i)).card = i := by
  have himage : (range n).filter (fun x => key x < key (ord i)) = (range i).image ord := by
    ext x
    simp only [mem_filter, mem_range, mem_image]
    constructor
    · rintro ⟨hx, hlt⟩
      obtain ⟨j, hj, rfl⟩ := h.surj hx
      exact ⟨j, (h.lt_iff hj hi).mp hlt, rfl⟩
    · rintro ⟨j, hj, rfl⟩
      exact ⟨h.lt j (by omega), h.sorted j i hj hi⟩
  rw [himage, Finset.card_image_of_injOn, card_range]
  intro j hj k hk he
  have hj := mem_range.mp hj
  have hk := mem_range.mp hk
  exact h.inj (by omega) (by omega) he

end Enumerates

/-- The rank of place `i` among the places below `n`, by letter and then by place. -/
def lf (b : ℕ → α) (n i : ℕ) : ℕ :=
  ((range n).filter fun j => toLex (b j, j) < toLex (b i, i)).card

theorem lf_lt {b : ℕ → α} {n i : ℕ} (hi : i < n) : lf b n i < n := by
  have hsub : (range n).filter (fun j => toLex (b j, j) < toLex (b i, i)) ⊆
      (range n).erase i := by
    intro j hj
    rw [mem_filter] at hj
    refine mem_erase.mpr ⟨?_, hj.1⟩
    rintro rfl
    exact lt_irrefl _ hj.2
  have hcard := card_le_card hsub
  rw [card_erase_of_mem (mem_range.mpr hi), card_range] at hcard
  have : lf b n i ≤ n - 1 := hcard
  omega

/-! ## Counting letters -/

/-- The letters up to `c` are those below it and those equal to it. -/
theorem count_lt_succ (f : ℕ → ℕ) (n c : ℕ) :
    count (fun j => f j < c + 1) n =
      count (fun j => f j < c) n + count (fun j => f j = c) n := by
  induction n with
  | zero => rfl
  | succ n ih =>
    rw [count_succ, count_succ, count_succ, ih]
    split_ifs <;> omega

theorem count_lt_zero (f : ℕ → ℕ) (n : ℕ) : count (fun j => f j < 0) n = 0 := by
  induction n with
  | zero => rfl
  | succ n ih => rw [count_succ, ih, if_neg (not_lt_zero _)]

/-- The rank of a place is the number of smaller letters, and of equal ones before it. -/
theorem lf_eq_count {f : ℕ → ℕ} {n i : ℕ} (hi : i < n) :
    lf f n i = count (fun j => f j < f i) n + count (fun j => f j = f i) i := by
  have hfilter : lf f n i = count (fun j => f j < f i ∨ f j = f i ∧ j < i) n := by
    rw [count_eq_card_filter_range, lf]
    simp only [Prod.Lex.toLex_lt_toLex]
  have hbefore : ∀ k ≤ i, count (fun j => f j < f i ∨ f j = f i ∧ j < i) k =
      count (fun j => f j < f i) k + count (fun j => f j = f i) k := by
    intro k hk
    induction k with
    | zero => rfl
    | succ k ih =>
      rw [count_succ, count_succ, count_succ, ih (by omega)]
      split_ifs <;> omega
  have hafter : ∀ k, i ≤ k → count (fun j => f j < f i ∨ f j = f i ∧ j < i) k =
      count (fun j => f j < f i) k + count (fun j => f j = f i) i := by
    intro k hk
    induction k, hk using le_induction with
    | base => exact hbefore i le_rfl
    | succ k hk ih =>
      rw [count_succ, count_succ, ih]
      split_ifs <;> omega
  rw [hfilter, hafter n hi.le]

/-! ## Last letters -/

/-- The standard permutation of the last letters leads to the number before. -/
theorem Enumerates.lf_eq {key : ℕ → β} {n : ℕ} {ord prev : ℕ → ℕ} {b : ℕ → α}
    (h : Enumerates key n ord) (hlt : ∀ x < n, prev x < n)
    (hinj : ∀ x < n, ∀ y < n, prev x = prev y → x = y)
    (hkey : ∀ i < n, ∀ j < n, key (prev (ord i)) < key (prev (ord j)) ↔
      toLex (b i, i) < toLex (b j, j)) {i : ℕ} (hi : i < n) :
    ord (lf b n i) = prev (ord i) := by
  obtain ⟨r, hr, he⟩ := h.surj (hlt _ (h.lt i hi))
  have hlt' : ∀ j < n, prev (ord j) < n := fun j hj => hlt _ (h.lt j hj)
  have hinj' : ∀ j < n, ∀ k < n, prev (ord j) = prev (ord k) → j = k :=
    fun j hj k hk hjk => h.inj hj hk (hinj _ (h.lt j hj) _ (h.lt k hk) hjk)
  have hcard : lf b n i = r := by
    rw [← h.card hr, he]
    refine card_bij (fun j _ => prev (ord j)) ?_ ?_ ?_
    · intro j hj
      obtain ⟨hj, hbelow⟩ := mem_filter.mp hj
      have hj := mem_range.mp hj
      exact mem_filter.mpr ⟨mem_range.mpr (hlt' j hj), (hkey j hj i hi).mpr hbelow⟩
    · intro j hj k hk hjk
      exact hinj' j (mem_range.mp (mem_filter.mp hj).1) k
        (mem_range.mp (mem_filter.mp hk).1) hjk
    · intro x hx
      obtain ⟨hx, hbelow⟩ := mem_filter.mp hx
      obtain ⟨j, hj, rfl⟩ := below_surj hlt' hinj' (mem_range.mp hx)
      exact ⟨j, mem_filter.mpr ⟨mem_range.mpr hj, (hkey j hj i hi).mp hbelow⟩, rfl⟩
  rw [hcard, he]

end Library
