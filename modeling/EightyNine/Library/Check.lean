import Mathlib.Order.Nat

/-!
# Checks that may go wrong

A check of a program answers yes or no, or reads where it may not and answers
nothing.  `Decides` says that it answers and what its answer means.  A check that is
made only after another has passed may rely on what the other one decides, so a later
pass may be safe for no other reason than that an earlier one succeeded
(`Decides.andThen`).
-/

namespace Library

/-- The check answers, and with yes exactly when `P` holds. -/
def Decides (c : Option Bool) (P : Prop) : Prop :=
  ∃ b, c = some b ∧ (b = true ↔ P)

/-- `if (c == 0) return 0; d`. -/
def checkThen (c d : Option Bool) : Option Bool :=
  match c with
  | none => none
  | some false => some false
  | some true => d

/-- The checks `p i, p (i + 1), ..`, `k` of them, up to the first that fails. -/
def checkFrom (p : Nat → Option Bool) : Nat → Nat → Option Bool
  | _, 0 => some true
  | i, k + 1 => checkThen (p i) (checkFrom p (i + 1) k)

/-- `for (i = 0; i < n; ++i) if (p(i) == 0) return 0; return 1`. -/
def checkAll (n : Nat) (p : Nat → Option Bool) : Option Bool :=
  checkFrom p 0 n

variable {c d : Option Bool} {P Q : Prop}

theorem Decides.congr (h : Decides c P) (e : P ↔ Q) : Decides c Q := by
  obtain ⟨b, hc, hb⟩ := h
  exact ⟨b, hc, hb.trans e⟩

theorem Decides.iff (h : Decides c P) : c = some true ↔ P := by
  obtain ⟨b, rfl, hb⟩ := h
  rw [Option.some_inj, hb]

theorem Decides.yes (h : P) : Decides (some true) P :=
  ⟨true, rfl, iff_of_true rfl h⟩

theorem Decides.no (h : ¬ P) : Decides (some false) P :=
  ⟨false, rfl, iff_of_false (by simp) h⟩

/-- The second check is made only where the first one passes. -/
theorem Decides.andThen (hc : Decides c P) (hd : P → Decides d Q) :
    Decides (checkThen c d) (P ∧ Q) := by
  obtain ⟨b, rfl, hb⟩ := hc
  cases b with
  | false => exact .no fun h => absurd (hb.2 h.1) (by simp)
  | true =>
    have hP : P := hb.1 rfl
    exact (hd hP).congr ⟨fun h => ⟨hP, h⟩, And.right⟩

theorem Decides.from {p : Nat → Option Bool} {R : Nat → Prop} {i k : Nat}
    (h : ∀ j, i ≤ j → j < i + k → Decides (p j) (R j)) :
    Decides (checkFrom p i k) (∀ j, i ≤ j → j < i + k → R j) := by
  induction k generalizing i with
  | zero => exact .yes fun j hj hj' => by omega
  | succ k ih =>
    have hhead := h i le_rfl (by omega)
    have htail := ih (i := i + 1) fun j hj hj' => h j (by omega) (by omega)
    refine (hhead.andThen fun _ => htail).congr ⟨?_, ?_⟩
    · intro hR j hj hj'
      rcases Nat.eq_or_lt_of_le hj with rfl | hlt
      · exact hR.1
      · exact hR.2 j hlt (by omega)
    · intro hR
      exact ⟨hR i le_rfl (by omega), fun j hj hj' => hR j (by omega) (by omega)⟩

theorem Decides.all {p : Nat → Option Bool} {R : Nat → Prop} {n : Nat}
    (h : ∀ i, i < n → Decides (p i) (R i)) : Decides (checkAll n p) (∀ i, i < n → R i) := by
  have hfrom := Decides.from (i := 0) (k := n) (p := p) (R := R) fun j _ hj => h j (by omega)
  refine hfrom.congr ⟨fun hR j hj => hR j (Nat.zero_le _) (by omega), fun hR j _ hj => ?_⟩
  exact hR j (by omega)

end Library
