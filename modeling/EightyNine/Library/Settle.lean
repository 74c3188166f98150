import Mathlib.Order.Nat

/-!
# Searches through lists in a monad

`Settles c P` says that the check `c` has no effect and answers whether `P` holds;
`Finds c P` that the search `c` has no effect and comes back with something of `P`, or
with nothing where there is nothing.  The loops of the list library keep both.
-/

namespace Library

open List

universe u

variable {m : Type → Type u} [Monad m]

/-- The check answers yes exactly when `P` holds. -/
def Settles (c : m Bool) (P : Prop) : Prop :=
  ∃ b, c = pure b ∧ (b = true ↔ P)

/-- The search finds something of `P`, if there is anything. -/
def Finds {β : Type} (c : m (Option β)) (P : β → Prop) : Prop :=
  (∃ b, c = pure (some b) ∧ P b) ∨ (c = pure none ∧ ∀ b, ¬ P b)

variable {c : m Bool} {P Q : Prop} {α β : Type} {l : List α}

theorem Settles.of_decide [Decidable P] : Settles (pure (decide P) : m Bool) P :=
  ⟨decide P, rfl, decide_eq_true_iff⟩

theorem Settles.congr (h : Settles c P) (e : P ↔ Q) : Settles c Q := by
  obtain ⟨b, hc, hb⟩ := h
  exact ⟨b, hc, hb.trans e⟩

theorem Settles.no (h : ¬ P) : Settles (pure false : m Bool) P :=
  ⟨false, rfl, iff_of_false (by simp) h⟩

theorem Finds.congr {s : m (Option β)} {P Q : β → Prop} (h : Finds s P) (e : ∀ b, P b ↔ Q b) :
    Finds s Q := by
  rcases h with ⟨b, hb, hP⟩ | ⟨hb, hnone⟩
  · exact .inl ⟨b, hb, (e b).1 hP⟩
  · exact .inr ⟨hb, fun b hQ => hnone b ((e b).2 hQ)⟩

variable [LawfulMonad m]

theorem Settles.all {p : α → m Bool} {R : α → Prop} (h : ∀ a ∈ l, Settles (p a) (R a)) :
    Settles (l.allM p) (∀ a ∈ l, R a) := by
  induction l with
  | nil => exact ⟨true, rfl, by simp⟩
  | cons a l ih =>
    obtain ⟨b, hb, hR⟩ := h a mem_cons_self
    obtain ⟨b', hb', hR'⟩ := ih fun a ha => h a (mem_cons_of_mem _ ha)
    refine ⟨b && b', ?_, ?_⟩
    · rw [allM_cons, hb, pure_bind, hb']
      cases b with
      | false | true => rfl
    · rw [Bool.and_eq_true, hR, hR', forall_mem_cons]

theorem Finds.some {f : α → m (Option β)} {P : α → β → Prop}
    (h : ∀ a ∈ l, Finds (f a) (P a)) : Finds (l.findSomeM? f) fun b => ∃ a ∈ l, P a b := by
  induction l with
  | nil => exact .inr ⟨rfl, by simp⟩
  | cons a l ih =>
    rw [findSomeM?_cons]
    rcases h a mem_cons_self with ⟨b, hb, hP⟩ | ⟨hb, hnone⟩
    · left
      rw [hb, pure_bind]
      exact ⟨b, rfl, a, mem_cons_self, hP⟩
    · rw [hb, pure_bind]
      rcases ih fun a ha => h a (mem_cons_of_mem _ ha) with ⟨b, hb', a', ha', hP⟩ | ⟨hb', hnone'⟩
      · exact .inl ⟨b, hb', a', mem_cons_of_mem _ ha', hP⟩
      · refine .inr ⟨hb', fun b => ?_⟩
        rintro ⟨a', ha', hP⟩
        rcases mem_cons.1 ha' with rfl | ha'
        · exact hnone b hP
        · exact hnone' b ⟨a', ha', hP⟩

theorem Settles.finds (h : Settles c P) (b : β) :
    Finds (c >>= fun ok => pure (if ok then Option.some b else none)) fun b' => b' = b ∧ P := by
  obtain ⟨ok, rfl, hP⟩ := h
  rw [pure_bind]
  cases ok with
  | false => exact .inr ⟨rfl, fun b' hb' => by simpa using hP.2 hb'.2⟩
  | true => exact .inl ⟨b, rfl, rfl, hP.1 rfl⟩

theorem foldlM_pure_of {σ : Type} {f : σ → α → m σ} {g : σ → α → σ} {s : σ}
    (h : ∀ a ∈ l, ∀ s, f s a = pure (g s a)) : l.foldlM f s = pure (l.foldl g s) := by
  induction l generalizing s with
  | nil => rfl
  | cons a l ih =>
    rw [foldlM_cons, h a mem_cons_self, pure_bind,
      ih fun a ha => h a (mem_cons_of_mem _ ha), foldl_cons]

/-! ## Loops that may go wrong -/

/-- In a loop that goes on as long as `go` holds, each element that it comes to fits. -/
def LoopFits (fits go : α → Prop) : List α → Prop
  | [] => True
  | a :: l => fits a ∧ (go a → LoopFits fits go l)

variable {fits q : α → Prop}

/-- A loop whose body answers only where the element fits. -/
theorem allM_loopFits {p : α → Option Bool} (hfit : ∀ a, fits a → Settles (p a) (q a))
    (hwrong : ∀ a, ¬ fits a → p a = none) :
    (LoopFits fits q l → Settles (l.allM p) (∀ a ∈ l, q a)) ∧
      (¬ LoopFits fits q l → l.allM p = none) := by
  induction l with
  | nil => exact ⟨fun _ => ⟨true, rfl, by simp⟩, fun h => absurd trivial h⟩
  | cons a l ih =>
    rw [allM_cons, LoopFits, forall_mem_cons]
    by_cases ha : fits a
    · obtain ⟨b, hb, hq⟩ := hfit a ha
      rw [hb]
      cases b with
      | false =>
        have hnq : ¬ q a := fun h => by simpa using hq.2 h
        exact ⟨fun _ => .no fun h => hnq h.1, fun h => absurd ⟨ha, fun h => absurd h hnq⟩ h⟩
      | true =>
        have hqa : q a := hq.1 rfl
        exact ⟨fun h => (ih.1 (h.2 hqa)).congr ⟨fun h => ⟨hqa, h⟩, fun h => h.2⟩,
          fun h => ih.2 fun hl => h ⟨ha, fun _ => hl⟩⟩
    · rw [hwrong a ha]
      exact ⟨fun h => absurd h.1 ha, fun _ => rfl⟩

theorem findM_loopFits {p : α → Option Bool} (hfit : ∀ a, fits a → Settles (p a) (q a))
    (hwrong : ∀ a, ¬ fits a → p a = none) :
    (LoopFits fits (fun a => ¬ q a) l → Finds (l.findM? p) fun a => a ∈ l ∧ q a) ∧
      (¬ LoopFits fits (fun a => ¬ q a) l → l.findM? p = none) := by
  induction l with
  | nil => exact ⟨fun _ => .inr ⟨rfl, by simp⟩, fun h => absurd trivial h⟩
  | cons a l ih =>
    rw [findM?, LoopFits]
    by_cases ha : fits a
    · obtain ⟨b, hb, hq⟩ := hfit a ha
      rw [hb]
      cases b with
      | true =>
        have hqa : q a := hq.1 rfl
        exact ⟨fun _ => .inl ⟨a, rfl, mem_cons_self, hqa⟩,
          fun h => absurd ⟨ha, fun h => absurd hqa h⟩ h⟩
      | false =>
        have hnq : ¬ q a := fun h => by simpa using hq.2 h
        refine ⟨fun h => (ih.1 (h.2 hnq)).congr fun b => ?_, fun h => ih.2 fun hl =>
          h ⟨ha, fun _ => hl⟩⟩
        rw [mem_cons]
        constructor
        · exact fun h => ⟨.inr h.1, h.2⟩
        · rintro ⟨rfl | hb, hqb⟩
          · exact absurd hqb hnq
          · exact ⟨hb, hqb⟩
    · rw [hwrong a ha]
      exact ⟨fun h => absurd h.1 ha, fun _ => rfl⟩

end Library
