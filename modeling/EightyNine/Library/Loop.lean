import Mathlib.Order.Nat

/-!
# Loops over a state

The loops of an imperative program as functions of its state: counting up
(`forUp`), and a `while` whose body may go wrong (`whileLoop`).  A `while` is given a bound on its passes and answers `none` when
the bound is reached, so that a program's `while` returns when a measure of the
state falls (`whileLoop_spec`).
-/

namespace Library

variable {σ : Type}

/-- `f i, f (i + 1), ..` on the state, `k` times. -/
def forUpGo (f : Nat → σ → σ) : Nat → Nat → σ → σ
  | _, 0, s => s
  | i, k + 1, s => forUpGo f (i + 1) k (f i s)

/-- `for (i = lo; i < hi; ++i)`. -/
def forUp (lo hi : Nat) (f : Nat → σ → σ) (s : σ) : σ :=
  forUpGo f lo (hi - lo) s

/-- `while (cond) body`, with a bound on its passes. -/
def whileLoop (cond : σ → Bool) (body : σ → Option σ) : Nat → σ → Option σ
  | 0, _ => none
  | fuel + 1, s => if cond s then (body s).bind (whileLoop cond body fuel) else some s

variable {cond : σ → Bool} {body : σ → Option σ} {fuel : Nat}

/-- A `while` ends outside its condition. -/
theorem whileLoop_done {s t : σ}
    (h : whileLoop cond body fuel s = some t) : cond t = false := by
  induction fuel generalizing s with
  | zero => cases h
  | succ fuel ih =>
    rw [whileLoop] at h
    split at h
    next hc =>
      obtain ⟨s', -, hs'⟩ := Option.bind_eq_some_iff.1 h
      exact ih hs'
    next hc =>
      obtain rfl := Option.some.inj h
      exact Bool.eq_false_iff.2 hc

variable {P : σ → Prop}

/-- What every pass keeps holds where a `while` ends. -/
theorem whileLoop_keeps (hs : ∀ s s', P s → cond s = true → body s = some s' → P s') {s t : σ}
    (h0 : P s) (h : whileLoop cond body fuel s = some t) : P t := by
  induction fuel generalizing s with
  | zero => cases h
  | succ fuel ih =>
    rw [whileLoop] at h
    split at h
    next hc =>
      obtain ⟨s', hbody, hs'⟩ := Option.bind_eq_some_iff.1 h
      exact ih (hs s s' h0 hc hbody) hs'
    next hc =>
      obtain rfl := Option.some.inj h
      exact h0

/-- What a pass hands on to the next, the last hands on to the end. -/
theorem forUp_inv {P : Nat → σ → Prop} {lo hi : Nat} {f : Nat → σ → σ} {s : σ}
    (hle : lo ≤ hi) (h0 : P lo s)
    (hs : ∀ i s, lo ≤ i → i < hi → P i s → P (i + 1) (f i s)) : P hi (forUp lo hi f s) := by
  have hgo : ∀ (k i : Nat) (s : σ), lo ≤ i → i + k = hi → P i s → P hi (forUpGo f i k s) := by
    intro k
    induction k with
    | zero =>
      rintro i s - rfl h
      exact h
    | succ k ih =>
      intro i s hi hk h
      exact ih (i + 1) (f i s) (by omega) (by omega) (hs i s hi (by omega) h)
  exact hgo (hi - lo) lo s le_rfl (by omega) h0

/-- A loop whose passes keep `P` and make the measure fall ends in `P`, outside its
condition. -/
theorem whileLoop_spec (μ : σ → Nat)
    (hs : ∀ s, P s → cond s = true → ∃ s', body s = some s' ∧ P s' ∧ μ s' < μ s)
    {s : σ} (h0 : P s) (hf : μ s < fuel) :
    ∃ s', whileLoop cond body fuel s = some s' ∧ P s' ∧ cond s' = false := by
  induction fuel generalizing s with
  | zero => exact absurd hf (Nat.not_lt_zero _)
  | succ fuel ih =>
    cases hc : cond s with
    | false => exact ⟨s, by simp [whileLoop, hc], h0, hc⟩
    | true =>
      obtain ⟨s', hb, hP, hμ⟩ := hs s h0 hc
      obtain ⟨t, ht, hend⟩ := ih hP (by omega)
      exact ⟨t, by simp [whileLoop, hc, hb, ht], hend⟩

end Library

/-!
## Draining a source

A step hands out one item and the next state, or stops with a report.  Draining
repeats it until it stops.  What comes out is determined by the start.
-/

namespace Library

variable {ε σ α : Type} {step : σ → Except ε (α × σ)} {s t : σ} {a : α} {out out' : List α} {e e' : ε}

/-- From `s` the step hands out `out`, and then stops with `e`. -/
inductive Drains (step : σ → Except ε (α × σ)) : σ → List α → ε → Prop
  | stop {s : σ} {e : ε} : step s = .error e → Drains step s [] e
  | item {s t : σ} {a : α} {out : List α} {e : ε} :
      step s = .ok (a, t) → Drains step t out e → Drains step s (a :: out) e

theorem Drains.unique (h : Drains step s out e) (h' : Drains step s out' e') :
    out' = out ∧ e' = e := by
  induction h generalizing out' with
  | stop hs =>
    cases h' with
    | stop hs' =>
      rw [hs] at hs'
      cases hs'
      exact ⟨rfl, rfl⟩
    | item hs' _ =>
      rw [hs] at hs'
      cases hs'
  | item hs _ ih =>
    cases h' with
    | stop hs' =>
      rw [hs] at hs'
      cases hs'
    | item hs' rest =>
      rw [hs] at hs'
      cases hs'
      obtain ⟨rfl, rfl⟩ := ih rest
      exact ⟨rfl, rfl⟩

theorem Drains.iff (h : Drains step s out e) : Drains step s out' e' ↔ out' = out ∧ e' = e := by
  constructor
  · exact h.unique
  · rintro ⟨rfl, rfl⟩
    exact h

end Library
