import Mathlib.Data.List.Perm.Basic
import Mathlib.Data.List.Nodup

/-!
# Lists with keys

Where no two items have the same key, the first item with a key is the only one, so that
the order of the list does not matter to a look-up.
-/

namespace Library

variable {α κ : Type} [BEq κ] [LawfulBEq κ] {key : α → κ} {l l' : List α} {k : κ} {x : α}

/-- The first item with a key. -/
def lookupKey (key : α → κ) (l : List α) (k : κ) : Option α := l.find? (fun x => key x == k)

theorem lookupKey_mem (h : lookupKey key l k = some x) : x ∈ l ∧ key x = k := by
  have hfind : l.find? (fun x => key x == k) = some x := h
  have hk := List.find?_some hfind
  exact ⟨List.mem_of_find?_eq_some hfind, eq_of_beq hk⟩

theorem lookupKey_eq_none : lookupKey key l k = none ↔ ∀ x ∈ l, key x ≠ k := by
  rw [lookupKey, List.find?_eq_none]
  simp

theorem lookupKey_ne_none : lookupKey key l k ≠ none ↔ ∃ x ∈ l, key x = k := by
  rw [Ne, lookupKey_eq_none]
  push Not
  rfl

theorem lookupKey_iff (hn : (l.map key).Nodup) :
    lookupKey key l k = some x ↔ x ∈ l ∧ key x = k := by
  refine ⟨lookupKey_mem, fun ⟨hx, hk⟩ => ?_⟩
  cases hfind : lookupKey key l k with
  | none => exact absurd hk (lookupKey_eq_none.mp hfind x hx)
  | some y =>
    obtain ⟨hy, hky⟩ := lookupKey_mem hfind
    rw [List.inj_on_of_nodup_map hn hx hy (hk.trans hky.symm)]

theorem lookupKey_perm (hp : l.Perm l') (hn : (l.map key).Nodup) :
    lookupKey key l' k = lookupKey key l k := by
  have hn' : (l'.map key).Nodup := (hp.map key).nodup_iff.mp hn
  cases hfind : lookupKey key l k with
  | none => exact lookupKey_eq_none.mpr fun x hx => lookupKey_eq_none.mp hfind x (hp.mem_iff.mpr hx)
  | some x =>
    obtain ⟨hx, hk⟩ := lookupKey_mem hfind
    exact (lookupKey_iff hn').mpr ⟨hp.mem_iff.mp hx, hk⟩

end Library
