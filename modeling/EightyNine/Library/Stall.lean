import EightyNine.Library.Fuel
import Mathlib.Data.Fintype.Card
import Mathlib.Logic.Relation

/-!
# Computations that may stall

A computation with fuel that returns unless it stalls, when it answers at no fuel.
The first of two computations stalls, or the second does after what the first
returned.  Where a computation is a question, it is told what its answer `yes` means.
-/

namespace Library

variable {α β ι : Type} {f : Nat → Option α} {g : Nat → α → Option β} {P Q S T : Prop}
  {yes : α} {yes' : β}

/-- The computation returns unless `S`, when it stalls.  What it answers it returns. -/
structure Runs (f : Nat → Option α) (S : Prop) : Prop where
  settled : ∀ n a, f n = some a → Returns f a
  stalls : S → ∀ n, f n = none
  returns : ¬S → ∃ a, Returns f a

namespace Runs

theorem pure (a : α) : Runs (fun _ => some a) False where
  settled := fun _ b h => by
    cases h
    exact .pure a
  stalls := False.elim
  returns := fun _ => ⟨a, .pure a⟩

theorem congr (h : Runs f S) (hST : S ↔ T) : Runs f T where
  settled := h.settled
  stalls := fun hT => h.stalls (hST.mpr hT)
  returns := fun hT => h.returns (mt hST.mp hT)

theorem of_returns {a : α} (hset : ∀ n a, f n = some a → Returns f a) (h : Returns f a) :
    Runs f False where
  settled := hset
  stalls := False.elim
  returns := fun _ => ⟨a, h⟩

theorem returns_iff (h : Runs f S) : (∃ a, Returns f a) ↔ ¬S := by
  constructor
  · rintro ⟨a, n, hn⟩ hS
    have hsome := hn n le_rfl
    rw [h.stalls hS n] at hsome
    cases hsome
  · exact h.returns

theorem bind {T : α → Prop} (hf : Runs f S)
    (hg : ∀ a, Returns f a → Runs (fun n => g n a) (T a)) :
    Runs (fun n => f n >>= g n) (S ∨ ∃ a, Returns f a ∧ T a) where
  settled := fun n b h => by
    obtain ⟨a, ha, hb⟩ := Option.bind_eq_some_iff.mp h
    have hret := hf.settled n a ha
    exact hret.bind ((hg a hret).settled n b hb)
  stalls := fun hST n => by
    show (f n).bind (g n) = none
    cases hn : f n with
    | none => rfl
    | some a =>
      have hret := hf.settled n a hn
      rcases hST with hS | ⟨b, hb, hT⟩
      · rw [hf.stalls hS n] at hn
        cases hn
      · rw [hb.unique hret] at hT
        exact (hg a hret).stalls hT n
  returns := fun hno => by
    obtain ⟨a, ha⟩ := hf.returns fun hS => hno (.inl hS)
    obtain ⟨b, hb⟩ := (hg a ha).returns fun hT => hno (.inr ⟨a, ha, hT⟩)
    exact ⟨b, ha.bind hb⟩

end Runs

/-- The computation tells whether `P`: it returns `yes` just when it holds. -/
structure Answers (yes : α) (f : Nat → Option α) (P S : Prop) : Prop extends Runs f S where
  tells : ∀ a, Returns f a → (a = yes ↔ P)

namespace Answers

theorem pure {a : α} (h : a = yes ↔ P) : Answers yes (fun _ => some a) P False where
  toRuns := .pure a
  tells := fun b hb => by rwa [hb.unique (.pure a)]

theorem congr (h : Answers yes f P S) (hPQ : P ↔ Q) (hST : S ↔ T) : Answers yes f Q T where
  toRuns := h.toRuns.congr hST
  tells := fun a ha => (h.tells a ha).trans hPQ

/-- After `yes` a second question is asked, and any other answer is one to the whole. -/
theorem andThen (hf : Answers yes f P S) (hyes : P → Answers yes' (fun n => g n yes) Q T)
    (hno : ∀ a, a ≠ yes → ∃ b, b ≠ yes' ∧ ∀ n, g n a = some b) :
    Answers yes' (fun n => f n >>= g n) (P ∧ Q) (S ∨ P ∧ T) := by
  have hafter : ∀ a, Returns f a → Answers yes' (fun n => g n a) (P ∧ Q) (P ∧ T) := by
    intro a ha
    by_cases heq : a = yes
    · have hP := (hf.tells a ha).mp heq
      subst heq
      exact (hyes hP).congr (and_iff_right hP).symm (and_iff_right hP).symm
    · have hP : ¬P := mt (hf.tells a ha).mpr heq
      obtain ⟨b, hb, hg⟩ := hno a heq
      have hg : (fun n => g n a) = fun _ => some b := funext hg
      rw [hg]
      exact (pure (iff_of_false hb fun h => hP h.1)).congr Iff.rfl
        (iff_of_false not_false fun h => hP h.1)
  have hruns : Runs (fun n => f n >>= g n) (S ∨ ∃ a, Returns f a ∧ P ∧ T) :=
    hf.toRuns.bind fun a ha => (hafter a ha).toRuns
  constructor
  · by_cases hS : S
    · exact hruns.congr (by simp [hS])
    · obtain ⟨a, ha⟩ := hf.returns hS
      refine hruns.congr (or_congr Iff.rfl ⟨fun h => h.elim fun _ h => h.2, fun h => ⟨a, ha, h⟩⟩)
  · rintro b ⟨n, hn⟩
    obtain ⟨a, ha, hb⟩ := Option.bind_eq_some_iff.mp (hn n le_rfl)
    have hret := hf.settled n a ha
    exact (hafter a hret).tells b ((hafter a hret).settled n b hb)

end Answers

/-! ## One after the other -/

/-- What comes first, after elements that pass, stalls. -/
def StallsIn (P S : ι → Prop) (xs : List ι) : Prop :=
  ∃ before x after, xs = before ++ x :: after ∧ (∀ b ∈ before, P b) ∧ S x

theorem stallsIn_nil {P S : ι → Prop} : ¬StallsIn P S [] := by
  rintro ⟨before, x, after, h, -⟩
  simp at h

theorem stallsIn_cons {P S : ι → Prop} {x : ι} {xs : List ι} :
    StallsIn P S (x :: xs) ↔ S x ∨ P x ∧ StallsIn P S xs := by
  constructor
  · rintro ⟨before, y, after, h, hbefore, hy⟩
    cases before with
    | nil =>
      cases h
      exact .inl hy
    | cons b before =>
      cases h
      exact .inr ⟨hbefore _ List.mem_cons_self, before, y, after, rfl,
        fun c hc => hbefore c (List.mem_cons_of_mem _ hc), hy⟩
  · rintro (hx | ⟨hx, before, y, after, rfl, hbefore, hy⟩)
    · exact ⟨[], x, xs, rfl, fun b hb => absurd hb List.not_mem_nil, hx⟩
    · refine ⟨x :: before, y, after, rfl, fun c hc => ?_, hy⟩
      rcases List.mem_cons.mp hc with rfl | hc
      · exact hx
      · exact hbefore c hc

end Library

/-!
## Walks that end

A relation that leads from a point to finitely many points can be followed forever from
it exactly when it leads from there to a cycle.
-/

namespace Library

open Relation (ReflTransGen TransGen)

variable {α : Type} {r : α → α → Prop} {x y z : α}

/-- Every walk along the relation ends. -/
def Ends (r : α → α → Prop) (x : α) : Prop := Acc (fun b a => r a b) x

/-- A walk along the relation comes to a cycle. -/
def Circles (r : α → α → Prop) (x : α) : Prop := ∃ z, ReflTransGen r x z ∧ TransGen r z z

/-- A walk that comes to a cycle goes on to a point from which it does. -/
theorem Circles.step (h : Circles r x) : ∃ y, r x y ∧ Circles r y := by
  obtain ⟨z, hxz, hcycle⟩ := h
  rcases ReflTransGen.cases_head hxz with rfl | ⟨y, hxy, hyz⟩
  · obtain ⟨y, hxy, hyx⟩ := TransGen.head'_iff.mp hcycle
    exact ⟨y, hxy, x, hyx, hcycle⟩
  · exact ⟨y, hxy, z, hyz, hcycle⟩

theorem Ends.walk (h : Ends r x) (hxy : ReflTransGen r x y) : Ends r y := by
  induction hxy with
  | refl => exact h
  | tail _ hyz ih => exact ih.inv hyz

theorem Ends.not_cycle (h : Ends r z) : ¬TransGen r z z := by
  intro hcycle
  have hacc : Acc (TransGen fun b a => r a b) z := h.transGen
  have hback : TransGen (fun b a => r a b) z z := Relation.transGen_swap.mpr hcycle
  clear hcycle h
  induction hacc with
  | intro z _ ih => exact ih z hback hback

/-- One point reached is further along the walk than another. -/
def Further (r : α → α → Prop) (x : α) (b a : {z | ReflTransGen r x z}) : Prop :=
  TransGen r a.1 b.1

theorem ends_iff_not_circles (hfin : {z | ReflTransGen r x z}.Finite) : Ends r x ↔ ¬Circles r x := by
  constructor
  · rintro h ⟨z, hxz, hcycle⟩
    exact (h.walk hxz).not_cycle hcycle
  · intro hno
    have : Finite {z | ReflTransGen r x z} := hfin
    have : IsTrans _ (Further r x) := ⟨fun _ _ _ hab hbc => TransGen.trans hbc hab⟩
    have : Std.Irrefl (Further r x) := ⟨fun a ha => hno ⟨a.1, a.2, ha⟩⟩
    have hwf : WellFounded (Further r x) := Finite.wellFounded_of_trans_of_irrefl _
    have hall : ∀ a : {z | ReflTransGen r x z}, Ends r a.1 := by
      intro a
      induction a using hwf.induction with
      | _ a ih => exact ⟨a.1, fun b hab => ih ⟨b, a.2.tail hab⟩ (.single hab)⟩
    exact hall ⟨x, .refl⟩

end Library
