import EightyNine.Library.Loop
import Mathlib.Tactic.SplitIfs

/-!
# Arithmetic in a range

The machine integers of a language in which a result that does not fit is an error:
`IntRange` is a type of such integers, and its operations answer with a fault when the
result lies outside.  A computation is `Checked`; `Gives x P` says that it ends
without a fault, in a value with the property `P`.  Its rules follow the text of a
program: one for each operation, for sequence and for the loops.
-/

namespace Library

/-- What stops a computation: a result out of range, a division by zero, a value below
zero where the program keeps a natural, or the bound on the passes of a loop. -/
inductive Fault
  | overflow
  | zeroDivisor
  | negative
  | bound

abbrev Checked (α : Type) := Except Fault α

/-- The computation ends in a value with the property. -/
def Gives {α : Type} (x : Checked α) (P : α → Prop) : Prop := ∃ a, x = .ok a ∧ P a

section Rules

variable {α β : Type} {P Q : α → Prop} {x : Checked α}

theorem Gives.mono (h : Gives x P) (hPQ : ∀ a, P a → Q a) : Gives x Q := by
  obtain ⟨a, hx, ha⟩ := h
  exact ⟨a, hx, hPQ a ha⟩

variable {R : β → Prop}

theorem Gives.bind {f : α → Checked β} (h : Gives x P)
    (hf : ∀ a, P a → Gives (f a) R) : Gives (x >>= f) R := by
  obtain ⟨a, rfl, ha⟩ := h
  exact hf a ha

theorem Gives.ite {c : Prop} [Decidable c] {y : Checked α} (hx : c → Gives x P)
    (hy : ¬c → Gives y P) : Gives (if c then x else y) P := by
  split
  next hc => exact hx hc
  next hc => exact hy hc

theorem gives_eq {a : α} : Gives x (· = a) ↔ x = .ok a := by
  constructor
  · rintro ⟨b, hx, rfl⟩
    exact hx
  · exact fun h => ⟨a, h, rfl⟩

@[simp] theorem gives_ok {a : α} : Gives (.ok a) P ↔ P a := by
  constructor
  · rintro ⟨b, hb, h⟩
    obtain rfl := Except.ok.inj hb
    exact h
  · exact fun h => ⟨a, rfl, h⟩

@[simp] theorem gives_pure {a : α} : Gives (pure a) P ↔ P a :=
  gives_ok

variable {e : Fault}

@[simp] theorem not_gives_error : ¬Gives (.error e) P := by
  rintro ⟨a, ha, -⟩
  cases ha

@[simp] theorem gives_bind {f : α → Checked β} :
    Gives (x >>= f) R ↔ Gives x fun a => Gives (f a) R := by
  cases x with
  | ok a =>
    rw [gives_ok]
    exact Iff.rfl
  | error e => exact iff_of_false not_gives_error not_gives_error

@[simp] theorem ok_bind {a : α} {f : α → Checked β} : ((.ok a : Checked α) >>= f) = f a := rfl

/-- A computation of which one step ends in a fault ends in that fault, when the steps
before it do not end in another. -/
theorem Gives.bind_error {f : α → Checked β} (h : Gives x P)
    (hf : ∀ a, P a → f a = .error e) : (x >>= f) = .error e := by
  obtain ⟨a, rfl, ha⟩ := h
  exact hf a ha

end Rules

/-- The values of a machine integer type. -/
structure IntRange where
  lo : Int
  hi : Int

namespace IntRange

variable (r : IntRange)

/-- The value is one of the type. -/
def Has (v : Int) : Prop := r.lo ≤ v ∧ v ≤ r.hi

instance decidableHas (v : Int) : Decidable (r.Has v) :=
  inferInstanceAs (Decidable (_ ∧ _))

/-- The value of an expression of the type. -/
def eval (v : Int) : Checked Int := if r.Has v then .ok v else .error .overflow

def add (a b : Int) : Checked Int := r.eval (a + b)

def sub (a b : Int) : Checked Int := r.eval (a - b)

def mul (a b : Int) : Checked Int := r.eval (a * b)

/-- The remainder that goes with division towards zero. -/
def rem (a b : Int) : Checked Int :=
  if b = 0 then .error .zeroDivisor else r.eval (a.tmod b)

/-- Division towards zero. -/
def div (a b : Int) : Checked Int :=
  if b = 0 then .error .zeroDivisor else r.eval (a.tdiv b)

variable {r}

variable {v : Int}

@[simp] theorem gives_eval {P : Int → Prop} :
    Gives (r.eval v) P ↔ r.Has v ∧ P v := by
  unfold eval
  split
  next h => simp [h]
  next h => simp [h]

variable {a b : Int}

@[simp] theorem gives_add {P : Int → Prop} :
    Gives (r.add a b) P ↔ r.Has (a + b) ∧ P (a + b) :=
  gives_eval

@[simp] theorem gives_sub {P : Int → Prop} :
    Gives (r.sub a b) P ↔ r.Has (a - b) ∧ P (a - b) :=
  gives_eval

@[simp] theorem gives_mul {P : Int → Prop} :
    Gives (r.mul a b) P ↔ r.Has (a * b) ∧ P (a * b) :=
  gives_eval

@[simp] theorem gives_rem {P : Int → Prop} :
    Gives (r.rem a b) P ↔ b ≠ 0 ∧ r.Has (a.tmod b) ∧ P (a.tmod b) := by
  unfold rem
  split
  next h => simp [h]
  next h => simp [h]

@[simp] theorem gives_div {P : Int → Prop} :
    Gives (r.div a b) P ↔ b ≠ 0 ∧ r.Has (a.tdiv b) ∧ P (a.tdiv b) := by
  unfold div
  split
  next h => simp [h]
  next h => simp [h]

theorem eval_ok (h : r.Has v) : r.eval v = .ok v := if_pos h

theorem eval_overflows (h : r.hi < v) : r.eval v = .error .overflow :=
  if_neg fun hv => absurd hv.2 (Int.not_le.mpr h)

/-- What follows an operation may be the one that overflows. -/
theorem eval_bind_overflows {α : Type} {f : Int → Checked α}
    (h : f v = .error .overflow) : (r.eval v >>= f) = .error .overflow := by
  unfold eval
  split
  · exact h
  · rfl

end IntRange

/-- A value that the program keeps as a natural. -/
def toNatural (v : Int) : Checked Nat := if 0 ≤ v then .ok v.toNat else .error .negative

@[simp] theorem gives_toNatural {P : Nat → Prop} :
    Gives (toNatural v) P ↔ 0 ≤ v ∧ P v.toNat := by
  unfold toNatural
  split
  next h => simp [h]
  next h => simp [h]

/-! ## Loops -/

namespace IntRange

variable (r : IntRange) {σ : Type}

/-- The passes `i, i + 1, ..`, `k` of them.  After each the counter moves on. -/
def forUpGo (f : Nat → σ → Checked σ) : Nat → Nat → σ → Checked σ
  | _, 0, s => .ok s
  | i, k + 1, s => do
    let s ← f i s
    let _ ← r.add i 1
    forUpGo f (i + 1) k s

/-- `for (i = lo; i < hi; ++i)`. -/
def forUp (lo hi : Nat) (f : Nat → σ → Checked σ) (s : σ) : Checked σ :=
  r.forUpGo f lo (hi - lo) s

/-- `for (i = k - 1; i >= 0; --i)`. -/
def forDown (f : Nat → σ → Checked σ) : Nat → σ → Checked σ
  | 0, s => .ok s
  | k + 1, s => do
    let s ← f k s
    let _ ← r.sub k 1
    forDown f k s

/-- A `for` whose body may leave it. -/
def forBreakGo (f : Nat → σ → Checked (ForInStep σ)) : Nat → Nat → σ → Checked σ
  | _, 0, s => .ok s
  | i, k + 1, s => do
    match ← f i s with
    | .done s => return s
    | .yield s =>
      let _ ← r.add i 1
      forBreakGo f (i + 1) k s

/-- `for (i = lo; i < hi; ++i)` with a `break` or a `return` in its body. -/
def forBreak (lo hi : Nat) (f : Nat → σ → Checked (ForInStep σ)) (s : σ) : Checked σ :=
  r.forBreakGo f lo (hi - lo) s

variable {r}

variable {f : Nat → σ → Checked σ} {I : Nat → σ → Prop} {lo hi : Nat} {s : σ}

/-- What a pass hands on to the next, the last hands on to the end. -/
theorem forUp_gives (hlo : r.lo ≤ 0) (hhi : hi ≤ r.hi) (h0 : I lo s)
    (hs : ∀ i s, lo ≤ i → i < hi → I i s → Gives (f i s) (I (i + 1))) :
    Gives (r.forUp lo hi f s) (I (max lo hi)) := by
  have hgo : ∀ (k i : Nat) (s : σ), lo ≤ i → i + k = max lo hi → I i s →
      Gives (r.forUpGo f i k s) (I (max lo hi)) := by
    intro k
    induction k with
    | zero =>
      intro i s _ hk h
      rw [← hk]
      exact gives_ok.mpr h
    | succ k ih =>
      intro i s hi hk h
      refine (hs i s hi (by omega) h).bind fun s' hs' => ?_
      rw [gives_bind, gives_add]
      exact ⟨⟨by omega, by omega⟩, ih (i + 1) s' (by omega) (by omega) hs'⟩
  exact hgo (hi - lo) lo s le_rfl (by omega) h0

/-- A loop whose passes do what those of an unchecked loop do ends as that one. -/
theorem forUp_eq {g : Nat → σ → σ}
    (hlo : r.lo ≤ 0) (hhi : hi ≤ r.hi) (hle : lo ≤ hi) (h0 : I lo s)
    (hs : ∀ i s, lo ≤ i → i < hi → I i s → f i s = .ok (g i s) ∧ I (i + 1) (g i s)) :
    r.forUp lo hi f s = .ok (Library.forUp lo hi g s) := by
  have hgo : ∀ (k i : Nat) (s : σ), lo ≤ i → i + k = hi → I i s →
      r.forUpGo f i k s = .ok (Library.forUpGo g i k s) := by
    intro k
    induction k with
    | zero => exact fun i s _ _ _ => rfl
    | succ k ih =>
      intro i s hi hk h
      obtain ⟨hf, hI⟩ := hs i s hi (by omega) h
      have hnext : r.add i 1 = .ok ((i : Int) + 1) := eval_ok ⟨by omega, by omega⟩
      rw [forUpGo, hf, Library.forUpGo, ← ih (i + 1) (g i s) (by omega) (by omega) hI]
      show (r.add i 1 >>= fun _ => _) = _
      rw [hnext]
      rfl
  exact hgo (hi - lo) lo s le_rfl (by omega) h0

theorem forUp_eq_of_some
    {g : Nat → σ → Option σ} {t : σ} (hlo : r.lo ≤ 0) (hhi : hi ≤ r.hi) (h0 : I lo s)
    (hs : ∀ i s s', lo ≤ i → i < hi → I i s → g i s = some s' → f i s = .ok s' ∧ I (i + 1) s')
    (h : Library.forUp lo hi (fun i o => o.bind (g i)) (some s) = some t) :
    r.forUp lo hi f s = .ok t := by
  have hnone : ∀ (k i : Nat), Library.forUpGo (fun i o => o.bind (g i)) i k none = none := by
    intro k
    induction k with
    | zero => exact fun _ => rfl
    | succ k ih => exact fun i => ih (i + 1)
  have hgo : ∀ (k i : Nat) (s : σ), lo ≤ i → i + k ≤ max lo hi → I i s →
      Library.forUpGo (fun i o => o.bind (g i)) i k (some s) = some t →
      r.forUpGo f i k s = .ok t := by
    intro k
    induction k with
    | zero =>
      intro i s _ _ _ h
      obtain rfl := Option.some.inj h
      rfl
    | succ k ih =>
      intro i s hi hk hI h
      rw [Library.forUpGo, Option.bind_some] at h
      cases hg : g i s with
      | none =>
        rw [hg, hnone] at h
        cases h
      | some s' =>
        rw [hg] at h
        obtain ⟨hf, hI'⟩ := hs i s s' hi (by omega) hI hg
        have hnext : r.add i 1 = .ok ((i : Int) + 1) := eval_ok ⟨by omega, by omega⟩
        rw [forUpGo, hf, ← ih (i + 1) s' (by omega) (by omega) hI' h]
        show (r.add i 1 >>= fun _ => _) = _
        rw [hnext]
        rfl
  exact hgo (hi - lo) lo s le_rfl (by omega) h0 h

variable {k : Nat}

theorem forDown_gives (hlo : r.lo ≤ -1) (hhi : k ≤ r.hi) (h0 : I k s)
    (hs : ∀ i s, i < k → I (i + 1) s → Gives (f i s) (I i)) :
    Gives (r.forDown f k s) (I 0) := by
  induction k generalizing s with
  | zero => exact gives_ok.mpr h0
  | succ k ih =>
    refine (hs k s k.lt_succ_self h0).bind fun s' hs' => ?_
    rw [gives_bind, gives_sub]
    exact ⟨⟨by omega, by omega⟩, ih (by omega) hs' fun i s hi => hs i s (by omega)⟩

variable {i : Nat} {s' : σ}

theorem forBreakGo_done {f : Nat → σ → Checked (ForInStep σ)}
    (h : f i s = .ok (.done s')) : r.forBreakGo f i (k + 1) s = .ok s' := by
  rw [forBreakGo, h]
  rfl

theorem forBreakGo_yield {f : Nat → σ → Checked (ForInStep σ)}
    (h : f i s = .ok (.yield s')) (hi : r.Has (i + 1)) :
    r.forBreakGo f i (k + 1) s = r.forBreakGo f (i + 1) k s' := by
  have hnext : r.add i 1 = .ok ((i : Int) + 1) := eval_ok hi
  rw [forBreakGo, h, ok_bind]
  show (r.add i 1 >>= fun _ => _) = _
  rw [hnext, ok_bind]

/-- A loop that leaves early ends in what its last pass or the leaving one hands on. -/
theorem forBreak_gives {P : σ → Prop}
    {f : Nat → σ → Checked (ForInStep σ)}
    (hlo : r.lo ≤ 0) (hhi : hi ≤ r.hi) (h0 : I lo s)
    (hs : ∀ i s, lo ≤ i → i < hi → I i s → Gives (f i s) fun o =>
      (∃ s', o = .done s' ∧ P s') ∨ ∃ s', o = .yield s' ∧ I (i + 1) s')
    (hend : ∀ i s, I i s → hi ≤ i → P s) :
    Gives (r.forBreak lo hi f s) P := by
  have hgo : ∀ (k i : Nat) (s : σ), lo ≤ i → k = hi - i → I i s →
      Gives (r.forBreakGo f i k s) P := by
    intro k
    induction k with
    | zero =>
      intro i s _ hk h
      exact gives_ok.mpr (hend i s h (by omega))
    | succ k ih =>
      intro i s hi hk h
      refine (hs i s hi (by omega) h).bind fun o ho => ?_
      rcases ho with ⟨s', rfl, hs'⟩ | ⟨s', rfl, hs'⟩
      · exact gives_pure.mpr hs'
      · show Gives (r.add i 1 >>= fun _ => _) P
        rw [gives_bind, gives_add]
        exact ⟨⟨by omega, by omega⟩, ih (i + 1) s' (by omega) (by omega) hs'⟩
  exact hgo (hi - lo) lo s le_rfl rfl h0

end IntRange

/-- `while (cond) body`, with a bound on its passes. -/
def whileChecked {σ : Type} (cond : σ → Bool) (body : σ → Checked σ) : Nat → σ → Checked σ
  | 0, _ => .error .bound
  | fuel + 1, s => if cond s then body s >>= whileChecked cond body fuel else .ok s

/-- A `while` whose passes do what those of an unchecked one do ends as that one. -/
theorem whileChecked_eq {σ : Type} {I : σ → Prop} {cond : σ → Bool} {f : σ → Checked σ}
    {g : σ → Option σ} {fuel : Nat} {s t : σ} (h0 : I s)
    (hs : ∀ s s', I s → cond s = true → g s = some s' → f s = .ok s' ∧ I s')
    (h : whileLoop cond g fuel s = some t) : whileChecked cond f fuel s = .ok t ∧ I t := by
  induction fuel generalizing s with
  | zero => cases h
  | succ fuel ih =>
    rw [whileLoop] at h
    rw [whileChecked]
    cases hc : cond s with
    | false =>
      rw [hc] at h
      obtain rfl := Option.some.inj h
      exact ⟨rfl, h0⟩
    | true =>
      rw [hc, if_pos rfl] at h
      obtain ⟨s', hg, h⟩ := Option.bind_eq_some_iff.mp h
      obtain ⟨hf, hI⟩ := hs s s' h0 hc hg
      rw [if_pos rfl, hf]
      exact ih hI h

end Library
