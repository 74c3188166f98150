import Mathlib.Data.Finset.Basic
import Mathlib.Data.Finset.SDiff

/-!
# Algebras of row values

A row of atoms is a finite set of atoms adjoined to something less known.  A row
algebra says what the values of rows are: which atoms a value is known to *have*
and which it is known to *lack*, how atoms are adjoined to it, and which values
are closed.  No atom is both had and lacked, but an atom may be neither.

Two laws make the algebra fit for solving equations.  When the same value arises
from two values by adjoining atoms they lack, the two have a common remainder
(`cancel`); and what makes a closed value is closed (`split`).

The finite sets themselves are the algebra in which everything is known
(`RowAlgebra.finsets`).
-/

namespace Library

open Finset

/-- Values of rows over the atoms `α`. -/
structure RowAlgebra (α X : Type) [DecidableEq α] where
  /-- The atoms a value is known to have. -/
  has : α → X → Prop
  /-- The atoms a value is known to lack. -/
  lacks : α → X → Prop
  /-- Atoms adjoined to a value. -/
  adjoin : Finset α → X → X
  /-- The closed values. -/
  only : Finset α → X
  not_both : ∀ {a x}, has a x → ¬ lacks a x
  has_adjoin : ∀ {a H x}, has a (adjoin H x) ↔ a ∈ H ∨ has a x
  lacks_adjoin : ∀ {a H x}, lacks a (adjoin H x) ↔ a ∉ H ∧ lacks a x
  has_only : ∀ {a F}, has a (only F) ↔ a ∈ F
  lacks_only : ∀ {a F}, lacks a (only F) ↔ a ∉ F
  adjoin_adjoin : ∀ {H K x}, adjoin H (adjoin K x) = adjoin (H ∪ K) x
  adjoin_only : ∀ {H F}, adjoin H (only F) = only (H ∪ F)
  adjoin_empty : ∀ {x}, adjoin ∅ x = x
  /-- Two ways to make one value have a common remainder. -/
  cancel : ∀ {H K x y}, adjoin H x = adjoin K y → (∀ a ∈ H, lacks a x) → (∀ a ∈ K, lacks a y) →
    ∃ z, x = adjoin (K \ H) z ∧ y = adjoin (H \ K) z ∧ ∀ a ∈ H ∪ K, lacks a z
  /-- What makes a closed value is closed. -/
  split : ∀ {H F x}, adjoin H x = only F → (∀ a ∈ H, lacks a x) → x = only (F \ H)

namespace RowAlgebra

variable {α X : Type} [DecidableEq α] (A : RowAlgebra α X)

/-- Adjoining more atoms to one value, all of which it lacks, makes another value. -/
theorem adjoin_inj {H K : Finset α} {x : X} (h : A.adjoin H x = A.adjoin K x)
    (hH : ∀ a ∈ H, A.lacks a x) : H ⊆ K := by
  intro a ha
  have hhas : A.has a (A.adjoin K x) := h ▸ A.has_adjoin.2 (.inl ha)
  cases A.has_adjoin.1 hhas with
  | inl hk => exact hk
  | inr hx => exact absurd (hH a ha) (A.not_both hx)

theorem subset_of_adjoin_eq_only {H F : Finset α} {x : X} (h : A.adjoin H x = A.only F) :
    H ⊆ F := by
  intro a ha
  have hhas : A.has a (A.only F) := h ▸ A.has_adjoin.2 (.inl ha)
  exact A.has_only.1 hhas

theorem only_inj {F G : Finset α} (h : A.only F = A.only G) : F = G := by
  ext a
  rw [← A.has_only, h, A.has_only]

/-- The algebra of the finite sets, in which every atom is had or lacked. -/
def finsets : RowAlgebra α (Finset α) where
  has a x := a ∈ x
  lacks a x := a ∉ x
  adjoin H x := H ∪ x
  only F := F
  not_both h := not_not_intro h
  has_adjoin := mem_union
  lacks_adjoin := by simp
  has_only := Iff.rfl
  lacks_only := Iff.rfl
  adjoin_adjoin := by simp [union_assoc]
  adjoin_only := rfl
  adjoin_empty := by simp
  cancel := by
    intro H K x y h hH hK
    have hmem : ∀ a, a ∈ H ∨ a ∈ x ↔ a ∈ K ∨ a ∈ y := by
      intro a
      simpa using congrArg (a ∈ ·) h
    refine ⟨x \ K, ?_, ?_, ?_⟩
    · ext a
      have := hmem a
      have := hH a
      simp only [mem_union, mem_sdiff]
      tauto
    · ext a
      have := hmem a
      have := hH a
      have := hK a
      simp only [mem_union, mem_sdiff]
      tauto
    · intro a ha
      have := hH a
      simp only [mem_union, mem_sdiff] at ha ⊢
      tauto
  split := by
    intro H F x h hH
    subst h
    ext a
    have := hH a
    simp only [mem_union, mem_sdiff]
    tauto

end RowAlgebra

end Library
