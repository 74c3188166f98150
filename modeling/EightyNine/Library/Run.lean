import Mathlib.Data.List.Basic

/-!
# Runs that emit outputs

A run is a sequence of steps from a start state, together with everything the
steps emitted, in order.  An invariant of single steps is an invariant of runs
(`Run.inv`), also when it speaks of the outputs so far (`Run.invOut`).
-/

namespace Library

variable {σ ο : Type}

/-- The states a run reaches from `a`, with the outputs on the way. -/
inductive Run (step : σ → List ο → σ → Prop) (a : σ) : List ο → σ → Prop
  | refl : Run step a [] a
  | snoc {out o : List ο} {b c : σ} (run : Run step a out b) (last : step b o c) :
      Run step a (out ++ o) c

variable {step step' : σ → List ο → σ → Prop} {a b : σ} {out : List ο}

/-- What holds at the start and after every step holds throughout. -/
theorem Run.inv (h : Run step a out b) {I : σ → Prop} (h0 : I a)
    (hs : ∀ b o c, I b → step b o c → I c) : I b := by
  induction h with
  | refl => exact h0
  | snoc _ last ih => exact hs _ _ _ ih last

/-- An invariant of the state and of the outputs so far. -/
theorem Run.invOut (h : Run step a out b) {I : List ο → σ → Prop} (h0 : I [] a)
    (hs : ∀ out b o c, I out b → step b o c → I (out ++ o) c) : I out b := by
  induction h with
  | refl => exact h0
  | snoc _ last ih => exact hs _ _ _ _ ih last

theorem Run.trans (h : Run step a out b) {out' : List ο} {c : σ} (h' : Run step b out' c) :
    Run step a (out ++ out') c := by
  induction h' with
  | refl =>
    rw [List.append_nil]
    exact h
  | snoc _ last ih =>
    rw [← List.append_assoc]
    exact .snoc ih last

/-! ## Runs of given inputs -/

variable {ι : Type}

/-- The steps of the inputs of a list in order, with what they emit; `none` when one is not
possible. -/
def play (move : σ → ι → Option (List ο × σ)) : σ → List ι → Option (List ο × σ)
  | a, [] => some ([], a)
  | a, x :: xs =>
    match move a x with
    | none => none
    | some (o, b) => (play move b xs).map fun r => (o ++ r.1, r.2)

theorem Run.of_play {move : σ → ι → Option (List ο × σ)} {xs : List ι}
    (hplay : play move a xs = some (out, b))
    (hmove : ∀ x ∈ xs, ∀ a o b, move a x = some (o, b) → step a o b) : Run step a out b := by
  induction xs generalizing a out with
  | nil =>
    cases hplay
    exact .refl
  | cons x xs ih =>
    rw [play] at hplay
    cases hx : move a x with
    | none =>
      rw [hx] at hplay
      cases hplay
    | some r =>
      obtain ⟨o, a'⟩ := r
      rw [hx] at hplay
      obtain ⟨⟨out', b'⟩, hrest, heq⟩ := Option.map_eq_some_iff.mp hplay
      obtain ⟨rfl, rfl⟩ := Prod.mk.inj heq
      have hfirst : Run step a ([] ++ o) a' := .snoc .refl (hmove x List.mem_cons_self _ _ _ hx)
      exact hfirst.trans (ih hrest fun y hy => hmove y (List.mem_cons_of_mem _ hy))

end Library
