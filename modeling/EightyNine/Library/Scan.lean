/-!
# Loops over a shrinking input

A reader runs one step again and again.  A step takes an accumulator and the
input that is left, and reports another round or the result, each with the input
it leaves.  When every further round has less input, the loop ends on its own, and
`scan_eq` unrolls it without a bound in sight.
-/

namespace Library

variable {ε σ τ α : Type}

/-- What a step reports. -/
inductive Round (σ α : Type) where
  | again (acc : σ)
  | done (result : α)

abbrev Step (ε σ τ α : Type) := σ → List τ → Except ε (Round σ α × List τ)

/-- The loop, cut off with `out` after `n` rounds. -/
def scanFor (out : ε) (step : Step ε σ τ α) : Nat → σ → List τ → Except ε (α × List τ)
  | 0, _, _ => .error out
  | n + 1, acc, s =>
    match step acc s with
    | .error e => .error e
    | .ok (.done a, r) => .ok (a, r)
    | .ok (.again acc', r) => scanFor out step n acc' r

/-- The loop, with one round more than there is input. -/
def scan (out : ε) (step : Step ε σ τ α) (acc : σ) (s : List τ) : Except ε (α × List τ) :=
  scanFor out step (s.length + 1) acc s

/-- Another round always has less input. -/
def Consumes (step : Step ε σ τ α) : Prop :=
  ∀ acc s acc' r, step acc s = .ok (.again acc', r) → r.length < s.length

section

variable {out : ε} {step : Step ε σ τ α}

theorem scanFor_eq (hc : Consumes step) :
    ∀ {n m : Nat} {acc : σ} {s : List τ}, s.length < n → s.length < m →
      scanFor out step n acc s = scanFor out step m acc s := by
  intro n
  induction n with
  | zero => intro m acc s hn; omega
  | succ n ih =>
    intro m acc s hn hm
    cases m with
    | zero => omega
    | succ m =>
      rw [scanFor, scanFor]
      cases hs : step acc s with
      | error e => rfl
      | ok p =>
        obtain ⟨round, r⟩ := p
        cases round with
        | done a => rfl
        | again acc' =>
          have hlt := hc _ _ _ _ hs
          exact ih (by omega) (by omega)

theorem scan_eq (hc : Consumes step) (acc : σ) (s : List τ) :
    scan out step acc s = match step acc s with
      | .error e => .error e
      | .ok (.done a, r) => .ok (a, r)
      | .ok (.again acc', r) => scan out step acc' r := by
  rw [scan, scanFor]
  cases hs : step acc s with
  | error e => rfl
  | ok p =>
    obtain ⟨round, r⟩ := p
    cases round with
    | done a => rfl
    | again acc' => exact scanFor_eq hc (hc _ _ _ _ hs) (by omega)

theorem scan_done (hc : Consumes step) {acc : σ} {s r : List τ} {a : α}
    (h : step acc s = .ok (.done a, r)) : scan out step acc s = .ok (a, r) := by
  rw [scan_eq hc, h]

theorem scan_again (hc : Consumes step) {acc acc' : σ} {s r : List τ}
    (h : step acc s = .ok (.again acc', r)) : scan out step acc s = scan out step acc' r := by
  rw [scan_eq hc, h]

/-- What a loop that ends has done, from its last round back to its first. -/
theorem scan_induct {Q : σ → List τ → α → List τ → Prop}
    (hdone : ∀ {acc s a r}, step acc s = .ok (.done a, r) → Q acc s a r)
    (hagain : ∀ {acc s acc' s' a r}, step acc s = .ok (.again acc', s') → Q acc' s' a r →
      Q acc s a r)
    {acc : σ} {s r : List τ} {a : α} (h : scan out step acc s = .ok (a, r)) : Q acc s a r := by
  suffices hfor : ∀ n acc s, scanFor out step n acc s = .ok (a, r) → Q acc s a r from
    hfor _ _ _ h
  intro n
  induction n with
  | zero => intro acc s h; cases h
  | succ n ih =>
    intro acc s h
    rw [scanFor] at h
    cases hs : step acc s with
    | error e => rw [hs] at h; cases h
    | ok p =>
      obtain ⟨round, s'⟩ := p
      rw [hs] at h
      cases round with
      | done a' => cases h; exact hdone hs
      | again acc' => exact hagain hs (ih acc' s' h)

/-- A loop that ends on its own fails only as one of its steps does. -/
theorem scan_error {good : List τ → Prop} (hc : Consumes step)
    (hgood : ∀ {acc s acc' r}, step acc s = .ok (.again acc', r) → good s → good r) {e : ε}
    (s : List τ) :
    ∀ acc, good s → scan out step acc s = .error e → ∃ acc' s', good s' ∧ step acc' s' = .error e := by
  induction hn : s.length using Nat.strongRecOn generalizing s with
  | ind n ih =>
    intro acc hs h
    rw [scan_eq hc] at h
    cases hstep : step acc s with
    | error e' =>
      rw [hstep] at h
      cases h
      exact ⟨acc, s, hs, hstep⟩
    | ok p =>
      obtain ⟨round, r⟩ := p
      rw [hstep] at h
      cases round with
      | done a => cases h
      | again acc' =>
        exact ih r.length (hn ▸ hc _ _ _ _ hstep) r rfl acc' (hgood hstep hs) h

end

end Library
