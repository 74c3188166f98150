import Mathlib.Data.List.Nodup

/-!
# Live blocks

A program keeps the blocks it has handed out in a linked list, the last first, and
finds a block by its address.  A block is updated in place or unlinked, and the other
blocks are left alone.
-/

namespace Library

open List

/-- The live blocks and their addresses. -/
abbrev Links (β : Type) := List (Nat × β)

namespace Links

variable {β : Type}

/-- What the block at `m` holds. -/
def find (l : Links β) (m : Nat) : Option β := l.lookup m

/-- Whether a block at `m` is linked. -/
def owns (l : Links β) (m : Nat) : Bool := l.any fun link => link.1 == m

/-- The addresses of the blocks. -/
def addresses (l : Links β) : List Nat := l.map Prod.fst

/-- The block at `m` is written. -/
def update (l : Links β) (m : Nat) (f : β → β) : Links β :=
  l.map fun link => if link.1 = m then (m, f link.2) else link

/-- The first block at `m` is unlinked. -/
def unlink (l : Links β) (m : Nat) : Links β := l.eraseP fun link => link.1 == m

variable {l : Links β} {f : β → β} {b : β} {m p : Nat}

@[simp] theorem find_cons_self : find ((m, b) :: l) m = some b := by
  simp [find]

theorem find_cons_ne (h : p ≠ m) : find ((m, b) :: l) p = l.find p := by
  rw [find, lookup_cons, beq_false_of_ne h]
  rfl

theorem owns_eq : l.owns m = (l.find m).isSome := by
  induction l with
  | nil => rfl
  | cons link l ih =>
    obtain ⟨p, b⟩ := link
    by_cases hp : m = p
    · simp [owns, hp]
    · rw [find_cons_ne hp, ← ih, owns, any_cons, beq_false_of_ne (Ne.symm hp)]
      rfl

theorem mem_of_find (h : l.find m = some b) : (m, b) ∈ l := by
  obtain ⟨pre, post, rfl, -⟩ := lookup_eq_some_iff.1 h
  exact mem_append_right _ mem_cons_self

theorem find_of_mem (hl : l.addresses.Nodup) {link : Nat × β} (h : link ∈ l) :
    l.find link.1 = some link.2 := by
  induction l with
  | nil => cases h
  | cons first l ih =>
    obtain ⟨hfirst, hl⟩ := nodup_cons.1 hl
    rcases mem_cons.1 h with rfl | h
    · exact find_cons_self
    · have hne : link.1 ≠ first.1 := by
        intro heq
        exact hfirst (heq ▸ mem_map_of_mem h)
      exact (find_cons_ne hne).trans (ih hl h)

theorem mem_addresses_of_find (h : l.find m = some b) : m ∈ l.addresses :=
  mem_map_of_mem (f := Prod.fst) (mem_of_find h)

theorem addresses_update : (l.update m f).addresses = l.addresses := by
  rw [addresses, update, map_map, addresses]
  refine map_congr_left fun link _ => ?_
  simp only [Function.comp_apply]
  split_ifs with hm
  · exact hm.symm
  · rfl

theorem find_update : (l.update m f).find p = (l.find p).map fun b => if p = m then f b else b := by
  induction l with
  | nil => rfl
  | cons link l ih =>
    obtain ⟨q, b⟩ := link
    by_cases hp : p = q
    · subst hp
      by_cases hm : p = m
      · subst hm
        simp [update]
      · simp [update, hm]
    · rw [find_cons_ne hp, ← ih, update, map_cons]
      by_cases hm : q = m
      · rw [if_pos hm, ← hm]
        exact find_cons_ne hp
      · rw [if_neg hm]
        exact find_cons_ne hp

theorem find_of_find_update {b' : β} (h : (l.update m f).find p = some b') :
    ∃ b, l.find p = some b ∧ (b' = b ∨ b' = f b) := by
  rw [find_update] at h
  obtain ⟨b, hb, rfl⟩ := Option.map_eq_some_iff.1 h
  refine ⟨b, hb, ?_⟩
  split_ifs
  · exact .inr rfl
  · exact .inl rfl

theorem find_update_of_find (h : l.find p = some b) :
    (l.update m f).find p = some b ∨ (l.update m f).find p = some (f b) := by
  rw [find_update, h, Option.map_some]
  split_ifs
  · exact .inr rfl
  · exact .inl rfl

theorem mem_update {link : Nat × β} (h : link ∈ l.update m f) :
    ∃ link' ∈ l, link'.1 = link.1 ∧ (link.2 = link'.2 ∨ link.2 = f link'.2) := by
  obtain ⟨link', hmem, heq⟩ := mem_map.1 h
  split_ifs at heq with hm
  · subst heq
    exact ⟨link', hmem, hm, .inr rfl⟩
  · subst heq
    exact ⟨link', hmem, rfl, .inl rfl⟩

theorem unlink_sublist : (l.unlink m).Sublist l := eraseP_sublist

theorem find_unlink_ne (h : p ≠ m) : (l.unlink m).find p = l.find p := by
  induction l with
  | nil => rfl
  | cons link l ih =>
    obtain ⟨q, b⟩ := link
    by_cases hq : q = m
    · subst hq
      rw [unlink, eraseP_cons_of_pos (by simp), find_cons_ne h]
    · rw [unlink, eraseP_cons_of_neg (by simpa using hq)]
      by_cases hp : p = q
      · subst hp
        rw [find_cons_self, find_cons_self]
      · rw [find_cons_ne hp, find_cons_ne hp]
        exact ih

theorem find_unlink_self (h : l.addresses.Nodup) : (l.unlink m).find m = none := by
  induction l with
  | nil => rfl
  | cons link l ih =>
    obtain ⟨q, b⟩ := link
    obtain ⟨hq, hl⟩ := nodup_cons.1 h
    by_cases hm : q = m
    · subst hm
      rw [unlink, eraseP_cons_of_pos (by simp)]
      cases hfind : find l q with
      | none => rfl
      | some b => exact absurd (mem_addresses_of_find hfind) hq
    · rw [unlink, eraseP_cons_of_neg (by simpa using hm), find_cons_ne (Ne.symm hm)]
      exact ih hl

theorem find_of_find_unlink (hl : l.addresses.Nodup) (h : (l.unlink m).find p = some b) :
    l.find p = some b := by
  by_cases hp : p = m
  · rw [hp, find_unlink_self hl] at h
    cases h
  · rwa [find_unlink_ne hp] at h

theorem find_unlink_of_find (hl : l.addresses.Nodup) (h : l.find p = some b) :
    (l.unlink m).find p = some b ∨ (l.unlink m).find p = none := by
  by_cases hp : p = m
  · rw [hp]
    exact .inr (find_unlink_self hl)
  · exact .inl ((find_unlink_ne hp).trans h)

theorem length_unlink (h : l.find m = some b) : (l.unlink m).length + 1 = l.length := by
  have hany : l.any (fun link => link.1 == m) = true := by
    have := owns_eq (l := l) (m := m)
    rwa [h] at this
  rw [unlink, length_eraseP, hany, if_pos rfl]
  have := length_pos_of_mem (mem_of_find h)
  omega

end Links

end Library
