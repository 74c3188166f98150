import Mathlib.Data.Finset.Card

/-!
# Counting for uniqueness

A finite search can show that each target has a source without ever looking for a
second one: where every source has one target, as many sources as targets leave no
target with two (`bijective_iff`).  The number of targets may be computed modulo a
bound that the number of sources does not reach (`length_eq_of_mod`).
-/

namespace Library

open List

variable {α β : Type*} {l : List α} {t : List β} {R : α → β → Prop}

theorem length_le_of_onto (ht : t.Nodup) (hfun : ∀ a ∈ l, ∀ b b', R a b → R a b' → b = b')
    (honto : ∀ b ∈ t, ∃ a ∈ l, R a b) : t.length ≤ l.length := by
  classical
  obtain hα | hα := isEmpty_or_nonempty α
  · have htnil : t = [] := by
      refine eq_nil_iff_forall_not_mem.2 fun b hb => ?_
      obtain ⟨a, -⟩ := honto b hb
      exact isEmptyElim a
    simp [htnil]
  choose! f hf hR using honto
  have hinj : Set.InjOn f (t.toFinset : Set β) := by
    intro b hb b' hb' heq
    have hb := mem_toFinset.1 (Finset.mem_coe.1 hb)
    have hb' := mem_toFinset.1 (Finset.mem_coe.1 hb')
    exact hfun _ (hf b hb) b b' (hR b hb) (heq ▸ hR b' hb')
  have hmaps : ∀ b ∈ t.toFinset, f b ∈ l.toFinset := by
    intro b hb
    exact mem_toFinset.2 (hf b (mem_toFinset.1 hb))
  calc t.length = t.toFinset.card := (toFinset_card_of_nodup ht).symm
    _ ≤ l.toFinset.card := Finset.card_le_card_of_injOn f hmaps hinj
    _ ≤ l.length := toFinset_card_le l

/-- As many sources as targets and all targets hit: that is one source for each. -/
theorem bijective_iff (hl : l.Nodup) (ht : t.Nodup) (htot : ∀ a ∈ l, ∃ b ∈ t, R a b)
    (hfun : ∀ a ∈ l, ∀ b b', R a b → R a b' → b = b') :
    (l.length = t.length ∧ ∀ b ∈ t, ∃ a ∈ l, R a b) ↔ ∀ b ∈ t, ∃! a, a ∈ l ∧ R a b := by
  classical
  obtain hβ | hβ := isEmpty_or_nonempty β
  · have htnil : t = [] := eq_nil_iff_forall_not_mem.2 fun b => isEmptyElim b
    have hlnil : l = [] := by
      refine eq_nil_iff_forall_not_mem.2 fun a ha => ?_
      obtain ⟨b, -⟩ := htot a ha
      exact isEmptyElim b
    simp [htnil, hlnil]
  choose! f hf hR using htot
  have huniq : ∀ a ∈ l, ∀ b, R a b ↔ f a = b := by
    intro a ha b
    exact ⟨hfun a ha _ _ (hR a ha), fun h => h ▸ hR a ha⟩
  have hmaps : Set.MapsTo f (l.toFinset : Set α) (t.toFinset : Set β) := by
    intro a ha
    exact mem_toFinset.2 (hf a (mem_toFinset.1 ha))
  rw [← toFinset_card_of_nodup hl, ← toFinset_card_of_nodup ht]
  constructor
  · rintro ⟨hcard, honto⟩ b hb
    obtain ⟨a, ha, hab⟩ := honto b hb
    have hsurj : Set.SurjOn f (l.toFinset : Set α) (t.toFinset : Set β) := by
      intro b hb
      obtain ⟨a, ha, hab⟩ := honto b (mem_toFinset.1 hb)
      exact ⟨a, mem_toFinset.2 ha, (huniq a ha b).1 hab⟩
    have hinj := Finset.injOn_of_surjOn_of_card_le f hmaps hsurj hcard.le
    refine ⟨a, ⟨ha, hab⟩, ?_⟩
    rintro a' ⟨ha', hab'⟩
    refine hinj (mem_toFinset.2 ha') (mem_toFinset.2 ha) ?_
    rw [(huniq a' ha' b).1 hab', (huniq a ha b).1 hab]
  · intro hone
    refine ⟨le_antisymm ?_ ?_, ?_⟩
    · refine Finset.card_le_card_of_injOn f hmaps ?_
      intro a ha a' ha' heq
      have ha := mem_toFinset.1 (Finset.mem_coe.1 ha)
      have ha' := mem_toFinset.1 (Finset.mem_coe.1 ha')
      exact (hone _ (hf a ha)).unique ⟨ha, hR a ha⟩ ⟨ha', heq ▸ hR a' ha'⟩
    · rw [toFinset_card_of_nodup hl, toFinset_card_of_nodup ht]
      refine length_le_of_onto ht hfun fun b hb => ?_
      obtain ⟨a, ha, -⟩ := hone b hb
      exact ⟨a, ha⟩
    · intro b hb
      obtain ⟨a, ha, -⟩ := hone b hb
      exact ⟨a, ha⟩

/-- The same with the targets counted modulo `M`. -/
theorem bijective_iff_mod {M : Nat} (hM : l.length < M) (hl : l.Nodup) (ht : t.Nodup)
    (htot : ∀ a ∈ l, ∃ b ∈ t, R a b) (hfun : ∀ a ∈ l, ∀ b b', R a b → R a b' → b = b') :
    (l.length = t.length % M ∧ ∀ b ∈ t, ∃ a ∈ l, R a b) ↔ ∀ b ∈ t, ∃! a, a ∈ l ∧ R a b := by
  rw [← bijective_iff hl ht htot hfun]
  refine and_congr_left fun honto => ?_
  have hle : t.length ≤ l.length := length_le_of_onto ht hfun honto
  rw [Nat.mod_eq_of_lt (hle.trans_lt hM)]

theorem countP_eq_one_iff {p : α → Bool} (hl : l.Nodup) :
    l.countP p = 1 ↔ ∃! a, a ∈ l ∧ p a = true := by
  rw [countP_eq_length_filter, length_eq_one_iff]
  constructor
  · rintro ⟨a, ha⟩
    have hmem : ∀ b, b ∈ l ∧ p b = true ↔ b = a := by
      intro b
      rw [← mem_filter, ha, mem_singleton]
    exact ⟨a, (hmem a).2 rfl, fun b hb => (hmem b).1 hb⟩
  · rintro ⟨a, ha, huniq⟩
    refine ⟨a, perm_singleton.1 ?_⟩
    refine (perm_ext_iff_of_nodup (hl.filter p) (nodup_singleton a)).2 fun b => ?_
    rw [mem_filter, mem_singleton]
    exact ⟨huniq b, fun h => h ▸ ha⟩

end Library
