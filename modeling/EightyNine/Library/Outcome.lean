import Mathlib.Order.Nat

/-!
# Computations with an error

What a computation that succeeds says of its parts: of a sequence, and of a loop
that checks the elements of a list.
-/

namespace Library

open List

variable {ε α β : Type}

/-- A computation that succeeds did so in both of its parts. -/
theorem bind_ok {x : Except ε α} {f : α → Except ε β} {b : β} (h : x >>= f = .ok b) :
    ∃ a, x = .ok a ∧ f a = .ok b := by
  cases x with
  | error e => cases h
  | ok a => exact ⟨a, rfl, h⟩

theorem forM_ok {f : α → Except ε Unit} {l : List α} (h : l.forM f = .ok ()) :
    ∀ a ∈ l, f a = .ok () := by
  induction l with
  | nil =>
    intro a ha
    cases ha
  | cons a l ih =>
    rw [forM_eq_forM, forM_cons] at h
    obtain ⟨_, ha, hl⟩ := bind_ok h
    intro b hb
    rcases mem_cons.mp hb with rfl | hb
    · exact ha
    · exact ih hl b hb

theorem forM_eq_ok {f : α → Except ε Unit} {l : List α} (h : ∀ a ∈ l, f a = .ok ()) :
    l.forM f = .ok () := by
  induction l with
  | nil => rfl
  | cons a l ih =>
    rw [forM_eq_forM, forM_cons, h a mem_cons_self]
    exact ih fun b hb => h b (mem_cons_of_mem _ hb)

end Library
