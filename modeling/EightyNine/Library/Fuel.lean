import Mathlib.Order.Nat

/-!
# Computations that return

A recursive function of a program is modelled with fuel, and answers `none` when
the fuel runs out.  It returns when it answers the same from some amount of fuel
on.  Returning composes (`Returns.bind`), so that a recursion returns when its
calls do.  Where every operation keeps its answers with more fuel (`Extends`), one
answer is the answer from there on.
-/

namespace Library

variable {α β : Type}

/-- From some amount of fuel on, the answer is `a`. -/
def Returns (f : Nat → Option α) (a : α) : Prop :=
  ∃ n, ∀ m, n ≤ m → f m = some a

namespace Returns

variable {f : Nat → Option α} {a : α}

theorem pure (a : α) : Returns (fun _ => some a) a :=
  ⟨0, fun _ _ => rfl⟩

theorem succ (h : Returns (fun n => f (n + 1)) a) : Returns f a := by
  obtain ⟨n, hn⟩ := h
  refine ⟨n + 1, fun m hm => ?_⟩
  obtain ⟨k, rfl⟩ : ∃ k, m = k + 1 := ⟨m - 1, by omega⟩
  exact hn k (by omega)

theorem bind {g : Nat → α → Option β} {b : β} (hf : Returns f a)
    (hg : Returns (fun n => g n a) b) : Returns (fun n => f n >>= g n) b := by
  obtain ⟨n, hn⟩ := hf
  obtain ⟨k, hk⟩ := hg
  refine ⟨max n k, fun m hm => ?_⟩
  show (f m).bind (g m) = some b
  rw [hn m (le_trans (Nat.le_max_left n k) hm)]
  exact hk m (le_trans (Nat.le_max_right n k) hm)

theorem unique {b : α} (ha : Returns f a) (hb : Returns f b) : a = b := by
  obtain ⟨n, hn⟩ := ha
  obtain ⟨k, hk⟩ := hb
  have h := hn (max n k) (Nat.le_max_left n k)
  rw [hk _ (Nat.le_max_right n k)] at h
  exact (Option.some.inj h).symm

end Returns

/-! ## More fuel -/

variable {α β : Type} {o o' : Option α} {k k' : α → Option β} {f : Nat → Option α} {a : α}

/-- What the first answers, the second answers too. -/
def Extends (o o' : Option α) : Prop := ∀ a, o = some a → o' = some a

namespace Extends

theorem refl (o : Option α) : Extends o o := fun _ h => h

theorem none (o : Option α) : Extends Option.none o := fun _ h => (by cases h)

theorem bind (h : Extends o o') (hk : ∀ a, Extends (k a) (k' a)) :
    Extends (o >>= k) (o' >>= k') := by
  intro b hb
  obtain ⟨a, ha, hka⟩ := Option.bind_eq_some_iff.mp hb
  rw [h a ha]
  exact hk a b hka

theorem ite {p : Prop} [Decidable p] {e e' : Option α} (h : Extends o o') (he : Extends e e') :
    Extends (if p then o else e) (if p then o' else e') := by
  by_cases hp : p
  · rwa [if_pos hp, if_pos hp]
  · rwa [if_neg hp, if_neg hp]

end Extends

theorem returns_of_extends (hf : ∀ n, Extends (f n) (f (n + 1))) {n : Nat} (h : f n = some a) :
    Returns f a := by
  refine ⟨n, fun m hm => ?_⟩
  induction m, hm using Nat.le_induction with
  | base => exact h
  | succ m _ ih => exact hf m a ih

end Library

/-!
# Decisions that return

A question of a program is answered by a function with fuel.  It tells whether a
proposition holds when it returns, and says yes just when the proposition does.
Such functions compose as the program asks one question after the other.
-/

namespace Library

variable {α β : Type} {f g : Nat → Option Bool} {P Q : Prop}

/-- The function returns, and its answer is whether `P`. -/
def Whether (f : Nat → Option Bool) (P : Prop) : Prop := ∃ v, Returns f v ∧ (v = true ↔ P)

namespace Whether

theorem some {b : Bool} (h : b = true ↔ P) : Whether (fun _ => some b) P :=
  ⟨b, .pure b, h⟩

theorem yes (h : P) : Whether (fun _ => Option.some true) P := some (iff_of_true rfl h)

theorem no (h : ¬P) : Whether (fun _ => Option.some false) P := some (iff_of_false (by decide) h)

theorem congr (h : Whether f P) (hPQ : P ↔ Q) : Whether f Q := by
  obtain ⟨v, hv, hvP⟩ := h
  exact ⟨v, hv, hvP.trans hPQ⟩

theorem succ (h : Whether (fun n => f (n + 1)) P) : Whether f P := by
  obtain ⟨v, hv, hvP⟩ := h
  exact ⟨v, hv.succ, hvP⟩

theorem and (hf : Whether f P) (hg : P → Whether g Q) :
    Whether (fun n => do if ← f n then g n else Option.some false) (P ∧ Q) := by
  obtain ⟨v, hv, hvP⟩ := hf
  cases v with
  | true =>
    have hP := hvP.mp rfl
    obtain ⟨w, hw, hwQ⟩ := hg hP
    exact ⟨w, hv.bind hw, hwQ.trans (and_iff_right hP).symm⟩
  | false =>
    have hP : ¬P := fun h => absurd (hvP.mpr h) (by decide)
    exact ⟨false, hv.bind (.pure false), iff_of_false (by decide) fun h => hP h.1⟩

theorem or (hf : Whether f P) (hg : ¬P → Whether g Q) :
    Whether (fun n => do if ← f n then Option.some true else g n) (P ∨ Q) := by
  obtain ⟨v, hv, hvP⟩ := hf
  cases v with
  | true => exact ⟨true, hv.bind (.pure true), iff_of_true rfl (.inl (hvP.mp rfl))⟩
  | false =>
    have hP : ¬P := fun h => absurd (hvP.mpr h) (by decide)
    obtain ⟨w, hw, hwQ⟩ := hg hP
    exact ⟨w, hv.bind hw, hwQ.trans (or_iff_right hP).symm⟩

theorem same (hP : Whether f P) (hQ : Whether f Q) : P ↔ Q := by
  obtain ⟨v, hv, hvP⟩ := hP
  obtain ⟨w, hw, hwQ⟩ := hQ
  rw [← hvP, ← hwQ, hv.unique hw]

theorem alike (hf : Whether f P) (hg : Whether g P) : ∃ v, Returns f v ∧ Returns g v := by
  obtain ⟨v, hv, hvP⟩ := hf
  obtain ⟨w, hw, hwP⟩ := hg
  have h : v = w := Bool.eq_iff_iff.mpr (hvP.trans hwP.symm)
  subst h
  exact ⟨v, hv, hw⟩

theorem returns_true (h : Whether f P) : Returns f true ↔ P := by
  obtain ⟨v, hv, hvP⟩ := h
  rw [← hvP]
  constructor
  · exact fun ht => hv.unique ht
  · rintro rfl
    exact hv

end Whether

end Library
