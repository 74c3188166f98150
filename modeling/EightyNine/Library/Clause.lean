import Mathlib.Data.Set.Finite.Basic

/-!
# Least models of clauses

A clause has a set of premises and a conclusion.  A set of facts is closed under
a program when it contains the conclusion of every clause whose premises it
contains, and the least closed set above some facts is what evaluation computes.

Semi-naive evaluation keeps the facts of the last round apart.  A set is closed
up to a delta (`ClosedUpTo`) when a clause over the set that has not been used
has a premise in the delta.  A round that uses these clauses, and takes what is
new as the next delta, is again closed up to its delta.
-/

namespace Library

variable {φ : Type}

/-- Premises and a conclusion. -/
structure Clause (φ : Type) where
  premises : Set φ
  conclusion : φ

/-- The conclusions of clauses over the set are in the set. -/
def Closed (P : Set (Clause φ)) (S : Set φ) : Prop :=
  ∀ c ∈ P, c.premises ⊆ S → c.conclusion ∈ S

/-- The least closed set that contains the given facts. -/
def least (P : Set (Clause φ)) (S : Set φ) : Set φ :=
  {f | ∀ T, S ⊆ T → Closed P T → f ∈ T}

variable {P : Set (Clause φ)} {S T Δ Δ' : Set φ}

theorem subset_least : S ⊆ least P S := fun _ hf _ hS _ => hS hf

theorem least_subset (hS : S ⊆ T) (hT : Closed P T) : least P S ⊆ T := fun _ hf => hf T hS hT

theorem closed_least : Closed P (least P S) := fun c hc hprem T hS hT =>
  hT c hc fun _ hf => hprem hf T hS hT

/-- A closed set between the facts and their least model is the least model. -/
theorem eq_least (hS : S ⊆ T) (hT : Closed P T) (hle : T ⊆ least P S) : T = least P S :=
  Set.Subset.antisymm hle (least_subset hS hT)

/-! ## Semi-naive rounds -/

/-- A clause over the set is used, or has a premise in the delta. -/
def ClosedUpTo (P : Set (Clause φ)) (S Δ : Set φ) : Prop :=
  ∀ c ∈ P, c.premises ⊆ S → c.conclusion ∈ S ∨ ∃ f ∈ c.premises, f ∈ Δ

/-- The first round uses every clause over the facts at its start. -/
theorem closedUpTo_first (hfire : ∀ c ∈ P, c.premises ⊆ S → c.conclusion ∈ T)
    (hΔ : ∀ f ∈ T, f ∉ S → f ∈ Δ) : ClosedUpTo P T Δ := by
  intro c hc hprem
  by_cases h : c.premises ⊆ S
  · exact .inl (hfire c hc h)
  · obtain ⟨f, hf, hfS⟩ := Set.not_subset.1 h
    exact .inr ⟨f, hf, hΔ f (hprem hf) hfS⟩

/-- A later round uses every clause with a premise in the delta. -/
theorem ClosedUpTo.round (h : ClosedUpTo P S Δ) (hST : S ⊆ T)
    (hfire : ∀ c ∈ P, c.premises ⊆ S → (∃ f ∈ c.premises, f ∈ Δ) → c.conclusion ∈ T)
    (hΔ : ∀ f ∈ T, f ∉ S → f ∈ Δ') : ClosedUpTo P T Δ' := by
  refine closedUpTo_first (fun c hc hprem => ?_) hΔ
  rcases h c hc hprem with hin | hdelta
  · exact hST hin
  · exact hfire c hc hprem hdelta

theorem ClosedUpTo.closed (h : ClosedUpTo P S Δ) (hΔ : ∀ f, f ∉ Δ) : Closed P S :=
  fun c hc hprem => (h c hc hprem).resolve_right fun ⟨f, _, hf⟩ => hΔ f hf

end Library
