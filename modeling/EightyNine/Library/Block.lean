import EightyNine.Library.Loop
import Mathlib.Logic.Function.Basic

/-!
# A block of memory

A block has a cell for every offset and remembers which offsets were written.
`Holds` says what list its first cells spell, and `Within` that no write went
beyond a bound.  The rules follow the two ways a program writes: after the list
(`Holds.putAll`) and over one of its elements (`Holds.put`).
-/

namespace Library

open Function List

variable {α : Type}

/-- The cells, and the offsets written so far, last first. -/
structure Block (α : Type) where
  get : Nat → α
  writes : List Nat

namespace Block

variable {b : Block α} {l l' pre post : List α} {a x : α} {i m n : Nat}

/-- A block that nothing was written to. -/
def fresh (get : Nat → α) : Block α := ⟨get, []⟩

def put (b : Block α) (i : Nat) (a : α) : Block α :=
  ⟨update b.get i a, i :: b.writes⟩

/-- The elements of a list, one after the other. -/
def putAll (b : Block α) (i : Nat) : List α → Block α
  | [] => b
  | a :: l => (b.put i a).putAll (i + 1) l

/-- The first cells spell the list. -/
def Holds (b : Block α) (l : List α) : Prop := ∀ i a, l[i]? = some a → b.get i = a

/-- Every write was below the bound. -/
def Within (b : Block α) (n : Nat) : Prop := ∀ i ∈ b.writes, i < n

@[simp] theorem within_fresh (get : Nat → α) (n : Nat) : (fresh get).Within n := by
  intro i hi
  cases hi

theorem Within.mono (h : b.Within m) (hmn : m ≤ n) : b.Within n :=
  fun i hi => lt_of_lt_of_le (h i hi) hmn

theorem Within.put (h : b.Within n) (hi : i < n) : (b.put i a).Within n := by
  intro j hj
  rcases mem_cons.mp hj with rfl | hj
  · exact hi
  · exact h j hj

theorem Within.putAll (h : b.Within n) (hi : i + l.length ≤ n) : (b.putAll i l).Within n := by
  induction l generalizing b i with
  | nil => exact h
  | cons a l ih =>
    rw [length_cons] at hi
    exact ih (h.put (by omega)) (by omega)

theorem writes_putAll : (b.putAll i l).writes.length = b.writes.length + l.length := by
  induction l generalizing b i with
  | nil => rfl
  | cons a l ih =>
    rw [Block.putAll, ih, length_cons]
    show b.writes.length + 1 + l.length = _
    omega

theorem holds_nil : b.Holds [] := fun _ _ h => by cases h

theorem Holds.get (h : b.Holds (pre ++ x :: post)) : b.get pre.length = x :=
  h pre.length x (by simp)

theorem Holds.put (h : b.Holds (pre ++ x :: post)) :
    (b.put pre.length a).Holds (pre ++ a :: post) := by
  intro i y hi
  show update b.get pre.length a i = y
  rcases lt_trichotomy i pre.length with hlt | rfl | hgt
  · rw [update_of_ne hlt.ne]
    refine h i y ?_
    rw [getElem?_append_left hlt] at hi ⊢
    exact hi
  · rw [update_self]
    simpa using hi
  · rw [update_of_ne hgt.ne']
    refine h i y ?_
    obtain ⟨k, rfl⟩ : ∃ k, i = pre.length + (k + 1) := ⟨i - pre.length - 1, by omega⟩
    simpa [getElem?_append_right] using hi

theorem Holds.set (h : b.Holds l) (hi : i < l.length) : (b.put i a).Holds (l.set i a) := by
  obtain ⟨pre, x, post, rfl, rfl⟩ : ∃ pre x post, l = pre ++ x :: post ∧ pre.length = i :=
    ⟨l.take i, l[i], l.drop (i + 1), by simp, by simp; omega⟩
  rw [set_append_right _ _ le_rfl, Nat.sub_self, set_cons_zero]
  exact h.put

theorem get_put_of_ne {j : Nat} (h : j ≠ i) : (b.put i a).get j = b.get j :=
  update_of_ne h _ _

theorem Holds.snoc (h : b.Holds l) : (b.put l.length a).Holds (l ++ [a]) := by
  intro i y hi
  show update b.get l.length a i = y
  rcases lt_or_ge i l.length with hlt | hge
  · rw [update_of_ne hlt.ne]
    refine h i y ?_
    rwa [getElem?_append_left hlt] at hi
  · have hi' := (List.getElem?_eq_some_iff.mp hi).1
    rw [length_append, length_singleton] at hi'
    obtain rfl : i = l.length := by omega
    rw [update_self]
    simpa using hi

/-- A loop over the cells of a list is a loop over the list. -/
theorem Holds.forUp {σ : Type} (h : b.Holds l) (f : σ → α → σ) (s : σ) :
    Library.forUp 0 l.length (fun i s => f s (b.get i)) s = l.foldl f s := by
  have hgo : ∀ (post pre : List α) (s : σ), pre ++ post = l →
      Library.forUpGo (fun i s => f s (b.get i)) pre.length post.length s = post.foldl f s := by
    intro post
    induction post with
    | nil => exact fun _ _ _ => rfl
    | cons x post ih =>
      rintro pre s rfl
      have hnext := ih (pre ++ [x]) (f s x) (by simp)
      rw [length_append] at hnext
      rw [length_cons, Library.forUpGo, h.get, foldl_cons]
      exact hnext
  exact hgo l [] s rfl

theorem Holds.putAll (h : b.Holds l) : (b.putAll l.length l').Holds (l ++ l') := by
  induction l' generalizing b l with
  | nil => rwa [append_nil]
  | cons a l' ih =>
    have hnext := ih (h.snoc (a := a))
    rwa [length_append, append_assoc] at hnext

end Block

end Library
