import EightyNine.Fx89.Solve
import Mathlib.Data.Finset.Dedup

/-!
# The store of a context

What the solver knows is the bindings and the facts of the variables, the
*store*; watchers, worklist, trail and conflict only direct it.  Rows are read in
a store, along the chain of bindings from a tail to its end (`Chain`).

Bindings lead from older variables to newer ones (`Store.Ordered`), so that every
chain ends and the loop of `fx__row_normalize` returns (`Store.Ordered.foldTail`).
-/

namespace Fx89

open Option

variable {α : Type}

/-! ## Heads -/

section Heads

variable [LinearOrder α]

theorem mem_compactUnique {a : α} {as : List α} {last : Option α} :
    a ∈ compactUnique last as ∨ last = some a ↔ a ∈ as ∨ last = some a := by
  induction as generalizing last with
  | nil => simp [compactUnique]
  | cons b as ih =>
    unfold compactUnique
    split_ifs with hb
    · rw [ih]
      simp only [List.mem_cons]
      constructor
      · rintro (h | h)
        · exact .inl (.inr h)
        · exact .inr h
      · rintro ((rfl | h) | h)
        · exact .inr hb
        · exact .inl h
        · exact .inr h
    · have := @ih (some b)
      simp only [List.mem_cons, some.injEq] at this ⊢
      constructor
      · rintro ((rfl | h) | h)
        · exact .inl (.inl rfl)
        · rcases this.1 (.inl h) with h | rfl
          · exact .inl (.inr h)
          · exact .inl (.inl rfl)
        · exact .inr h
      · rintro ((rfl | h) | h)
        · exact .inl (.inl rfl)
        · rcases this.2 (.inl h) with h | rfl
          · exact .inl (.inr h)
          · exact .inl (.inl rfl)
        · exact .inr h

@[simp] theorem mem_buildHead {a : α} {as : List α} : a ∈ buildHead as ↔ a ∈ as := by
  have h : a ∈ compactUnique none (as.insertionSort (· ≤ ·)) ∨ none = some a ↔
      a ∈ as.insertionSort (· ≤ ·) ∨ none = some a := mem_compactUnique
  simpa [buildHead] using h

@[simp] theorem toFinset_buildHead (as : List α) : (buildHead as).toFinset = as.toFinset := by
  ext a
  simp

@[simp] theorem rowMake_tail (as : List α) (t : Option Nat) : (rowMake as t).tail = t := rfl

@[simp] theorem mem_rowMake {a : α} {as : List α} {t : Option Nat} :
    a ∈ (rowMake as t).head ↔ a ∈ as := mem_buildHead

end Heads

/-! ## Stores -/

/-- The bindings and the facts of the variables. -/
structure Store (α : Type) where
  nvars : Nat
  binding : Nat → Option (Row α)
  facts : Nat → Side → List α

/-- What a context knows of its variables. -/
def Ctx.store (c : Ctx α) : Store α :=
  ⟨c.nvars, fun v => (c.vars v).binding, fun v => (c.vars v).facts⟩

namespace Store

/-- One more fact. -/
def push (S : Store α) (s : Side) (v : Nat) (a : α) : Store α :=
  { S with facts := fun w t => if w = v ∧ t = s then S.facts w t ++ [a] else S.facts w t }

/-- One more binding. -/
def bind (S : Store α) (v : Nat) (b : Row α) : Store α :=
  { S with binding := fun w => if w = v then some b else S.binding w }

/-- One more variable, of which nothing is known. -/
def grow (S : Store α) : Store α where
  nvars := S.nvars + 1
  binding w := if w = S.nvars then none else S.binding w
  facts w t := if w = S.nvars then [] else S.facts w t

/-- `fold_all` reads the store only. -/
def foldTail (S : Store α) : Nat → Nat → Option (List α × Option Nat)
  | 0, _ => none
  | fuel + 1, v =>
    match S.binding v with
    | none => some ([], some v)
    | some b =>
      match b.tail with
      | none => some (b.head, none)
      | some t => (foldTail S fuel t).map fun p => (b.head ++ p.1, p.2)

/-- The heads from a variable on, and the variable or closed row at the end. -/
inductive Chain (S : Store α) : Nat → List α → Option Nat → Prop
  | stop {v : Nat} (hb : S.binding v = none) : Chain S v [] (some v)
  | closed {v : Nat} {b : Row α} (hb : S.binding v = some b) (ht : b.tail = none) :
      Chain S v b.head none
  | step {v t : Nat} {b : Row α} {hs : List α} {e : Option Nat} (hb : S.binding v = some b)
      (ht : b.tail = some t) (rest : Chain S t hs e) : Chain S v (b.head ++ hs) e

/-- Bindings lead to newer variables, and nothing is known of the variables that are
not there yet. -/
structure Ordered (S : Store α) : Prop where
  lt : ∀ {v b t}, S.binding v = some b → b.tail = some t → v < t ∧ t < S.nvars
  blank : ∀ {v}, S.nvars ≤ v → S.binding v = none
  blankFacts : ∀ {v s}, S.nvars ≤ v → S.facts v s = []

/-- No variable has an atom on both sides. -/
def Consistent (S : Store α) : Prop :=
  ∀ v s a, a ∈ S.facts v s → a ∉ S.facts v s.other

/-- All the atoms of a store are in `U`. -/
structure Within (U : α → Prop) (S : Store α) : Prop where
  binding : ∀ {v b}, S.binding v = some b → ∀ a ∈ b.head, U a
  facts : ∀ {v s a}, a ∈ S.facts v s → U a

theorem within_true (S : Store α) : S.Within fun _ => True :=
  ⟨fun _ _ _ => trivial, fun _ => trivial⟩

/-- What one store knows, the other knows. -/
structure Le (S T : Store α) : Prop where
  nvars : S.nvars ≤ T.nvars
  binding : ∀ {v b}, S.binding v = some b → T.binding v = some b
  facts : ∀ {v s a}, a ∈ S.facts v s → a ∈ T.facts v s

variable {S T : Store α} {v : Nat} {hs : List α} {e : Option Nat}

theorem Le.refl (S : Store α) : S.Le S := ⟨le_rfl, id, id⟩

theorem Le.trans {U : Store α} (h : S.Le T) (h' : T.Le U) : S.Le U :=
  ⟨h.nvars.trans h'.nvars, fun hb => h'.binding (h.binding hb), fun hf => h'.facts (h.facts hf)⟩

theorem chain_of_foldTail {fuel : Nat} (h : S.foldTail fuel v = some (hs, e)) :
    S.Chain v hs e := by
  induction fuel generalizing v hs e with
  | zero => simp [foldTail] at h
  | succ fuel ih =>
    unfold foldTail at h
    cases hb : S.binding v with
    | none =>
      simp only [hb, some.injEq, Prod.mk.injEq] at h
      obtain ⟨rfl, rfl⟩ := h
      exact .stop hb
    | some b =>
      cases ht : b.tail with
      | none =>
        simp only [hb, ht, some.injEq, Prod.mk.injEq] at h
        obtain ⟨rfl, rfl⟩ := h
        exact .closed hb ht
      | some t =>
        simp only [hb, ht, map_eq_some_iff, Prod.mk.injEq] at h
        obtain ⟨p, hp, rfl, rfl⟩ := h
        exact .step hb ht (ih hp)

theorem Chain.unique {hs' : List α} {e' : Option Nat} (h : S.Chain v hs e)
    (h' : S.Chain v hs' e') : hs = hs' ∧ e = e' := by
  induction h generalizing hs' e' with
  | stop hb =>
    cases h' with
    | stop => exact ⟨rfl, rfl⟩
    | closed hb' | step hb' => simp [hb] at hb'
  | closed hb ht =>
    cases h' with
    | stop hb' => simp [hb] at hb'
    | closed hb' | step hb' ht' => simp_all
  | step hb ht rest ih =>
    cases h' with
    | stop hb' => simp [hb] at hb'
    | closed hb' ht' => simp_all
    | step hb' ht' rest' =>
      obtain rfl := some.inj (hb.symm.trans hb')
      obtain rfl := some.inj (ht.symm.trans ht')
      obtain ⟨rfl, rfl⟩ := ih rest'
      exact ⟨rfl, rfl⟩

/-- A chain that does not end in a closed row ends in an unbound variable. -/
theorem Chain.unbound {u : Nat} (h : S.Chain v hs (some u)) : S.binding u = none := by
  generalize he : some u = e at h
  induction h with
  | stop hb => exact some.inj he ▸ hb
  | closed => simp at he
  | step _ _ _ ih => exact ih he

theorem Chain.lt_nvars {u : Nat} (hS : S.Ordered) (hv : v < S.nvars)
    (h : S.Chain v hs (some u)) : u < S.nvars := by
  generalize he : some u = e at h
  induction h with
  | stop => exact some.inj he ▸ hv
  | closed => simp at he
  | step hb ht _ ih => exact ih (hS.lt hb ht).2 he

theorem Chain.within {U : α → Prop} (hS : S.Within U) (h : S.Chain v hs e) :
    ∀ a ∈ hs, U a := by
  induction h with
  | stop => exact fun a ha => absurd ha List.not_mem_nil
  | closed hb _ => exact hS.binding hb
  | step hb _ _ ih =>
    intro a ha
    rcases List.mem_append.1 ha with ha | ha
    · exact hS.binding hb a ha
    · exact ih a ha

/-- Every chain ends: from a variable on, it visits newer variables only. -/
theorem Ordered.foldTail (hS : S.Ordered) {fuel : Nat} (hpos : 0 < fuel)
    (hf : S.nvars ≤ v + fuel) : ∃ hs e, S.foldTail fuel v = some (hs, e) := by
  induction fuel generalizing v with
  | zero => exact absurd hpos (lt_irrefl 0)
  | succ fuel ih =>
    unfold Store.foldTail
    cases hb : S.binding v with
    | none => exact ⟨[], some v, rfl⟩
    | some b =>
      cases ht : b.tail with
      | none => exact ⟨b.head, none, by simp [ht]⟩
      | some t =>
        obtain ⟨hvt, htn⟩ := hS.lt hb ht
        obtain ⟨hs, e, h⟩ := @ih t (by omega) (by omega)
        exact ⟨b.head ++ hs, e, by simp [ht, h]⟩

end Store

end Fx89
