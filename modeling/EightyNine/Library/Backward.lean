import Mathlib.Order.Bounds.Defs
import Mathlib.Order.Nat

/-!
# Searching backward

A search from the end for the last place where something of a fixed width begins
(`lastBelow`), and the search that goes on below each place that is then rejected
(`retryBelow`).  Going on below a rejected place skips the places that overlap it.
When the occurrences do not overlap, the search still finds the last one accepted
(`retryBelow_some`, `retryBelow_none`).
-/

namespace Library

variable {α : Type} {p : Nat → Bool} {accept : Nat → Option α} {w limit n i : Nat} {a : α}

/-- The last `i ≤ n` with `p i`. -/
def lastUpTo (p : Nat → Bool) : Nat → Option Nat
  | 0 => if p 0 then some 0 else none
  | n + 1 => if p (n + 1) then some (n + 1) else lastUpTo p n

/-- The last place where something of width `w` begins, below a limit. -/
def lastBelow (p : Nat → Bool) (w limit : Nat) : Option Nat :=
  if limit < w then none else lastUpTo p (limit - w)

/-- The last place found below a limit that is accepted, from the last one back. -/
def retryBelow (find : Nat → Option Nat) (accept : Nat → Option α) : Nat → Nat → Option α
  | 0, _ => none
  | fuel + 1, limit =>
    match find limit with
    | none => none
    | some i =>
      match accept i with
      | some a => some a
      | none => retryBelow find accept fuel i

theorem lastUpTo_some (h : lastUpTo p n = some i) : IsGreatest {j | j ≤ n ∧ p j} i := by
  induction n with
  | zero =>
    rw [lastUpTo] at h
    split at h
    next hp =>
      obtain rfl := Option.some.inj h
      exact ⟨⟨le_rfl, hp⟩, fun j hj => hj.1⟩
    next => cases h
  | succ n ih =>
    rw [lastUpTo] at h
    split at h
    next hp =>
      obtain rfl := Option.some.inj h
      exact ⟨⟨le_rfl, hp⟩, fun j hj => hj.1⟩
    next hp =>
      obtain ⟨⟨hle, hi⟩, hmax⟩ := ih h
      refine ⟨⟨by omega, hi⟩, fun j hj => ?_⟩
      obtain hj' | rfl : j ≤ n ∨ j = n + 1 := by have := hj.1; omega
      · exact hmax ⟨hj', hj.2⟩
      · exact absurd hj.2 hp

theorem lastUpTo_none (h : lastUpTo p n = none) : ∀ j ≤ n, p j = false := by
  induction n with
  | zero =>
    rw [lastUpTo] at h
    split at h
    next => cases h
    next hp =>
      intro j hj
      obtain rfl : j = 0 := by omega
      exact Bool.eq_false_iff.2 hp
  | succ n ih =>
    rw [lastUpTo] at h
    split at h
    next => cases h
    next hp =>
      intro j hj
      obtain hj' | rfl : j ≤ n ∨ j = n + 1 := by omega
      · exact ih h j hj'
      · exact Bool.eq_false_iff.2 hp

theorem lastBelow_some (h : lastBelow p w limit = some i) :
    IsGreatest {j | j + w ≤ limit ∧ p j} i := by
  rw [lastBelow] at h
  split at h
  next => cases h
  next hlt =>
    obtain ⟨⟨hle, hi⟩, hmax⟩ := lastUpTo_some h
    exact ⟨⟨by omega, hi⟩, fun j hj => hmax ⟨by have := hj.1; omega, hj.2⟩⟩

theorem lastBelow_none (h : lastBelow p w limit = none) : ∀ j, j + w ≤ limit → p j = false := by
  intro j hj
  rw [lastBelow] at h
  split at h
  next hlt => omega
  next => exact lastUpTo_none h j (by omega)

/-- No two places overlap. -/
def NoOverlap (p : Nat → Bool) (w : Nat) : Prop := ∀ i j, p i → p j → i < j → i + w ≤ j

theorem retryBelow_some (hw : 0 < w) (hp : NoOverlap p w) {fuel : Nat} (hf : limit < fuel)
    (h : retryBelow (lastBelow p w) accept fuel limit = some a) :
    ∃ i, accept i = some a ∧ IsGreatest {j | j + w ≤ limit ∧ p j ∧ (accept j).isSome} i := by
  induction fuel generalizing limit with
  | zero => omega
  | succ fuel ih =>
    rw [retryBelow] at h
    split at h
    next => cases h
    next i hi =>
      obtain ⟨⟨hle, hpi⟩, hmax⟩ := lastBelow_some hi
      split at h
      next b hb =>
        obtain rfl := Option.some.inj h
        exact ⟨i, hb, ⟨hle, hpi, by simp [hb]⟩, fun j hj => hmax ⟨hj.1, hj.2.1⟩⟩
      next hb =>
        obtain ⟨k, hk, ⟨hkle, hpk, hsome⟩, hkmax⟩ := ih (by omega) h
        refine ⟨k, hk, ⟨by omega, hpk, hsome⟩, fun j hj => ?_⟩
        -- a place above `i` does not exist, `i` is rejected, the rest ends at `i`
        obtain hji | rfl := Nat.lt_or_eq_of_le (hmax ⟨hj.1, hj.2.1⟩)
        · exact hkmax ⟨hp j i hj.2.1 hpi hji, hj.2⟩
        · exact absurd hj.2.2 (by simp [hb])

theorem retryBelow_none (hw : 0 < w) (hp : NoOverlap p w) {fuel : Nat} (hf : limit < fuel)
    (h : retryBelow (lastBelow p w) accept fuel limit = none) :
    ∀ j, j + w ≤ limit → p j → accept j = none := by
  induction fuel generalizing limit with
  | zero => omega
  | succ fuel ih =>
    intro j hj hpj
    rw [retryBelow] at h
    split at h
    next hnone => simp [lastBelow_none hnone j hj] at hpj
    next i hi =>
      obtain ⟨⟨hle, hpi⟩, hmax⟩ := lastBelow_some hi
      split at h
      next => cases h
      next hb =>
        obtain hji | rfl := Nat.lt_or_eq_of_le (hmax ⟨hj, hpj⟩)
        · exact ih (by omega) h j (hp j i hpj hpi hji) hpj
        · exact hb

end Library
