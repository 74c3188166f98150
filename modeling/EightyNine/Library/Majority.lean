import Mathlib.Data.List.Nodup
import Mathlib.Data.List.Count
import Mathlib.Data.List.Perm.Subperm

/-!
# Majorities of a member list

A majority is a list of distinct members, more than half of them, on which a
property holds.  Two majorities share a member (`Majority.inter`), which is all
a quorum argument needs.
-/

namespace Library

open List

variable {α β : Type}

/-- More than half of the members have the property. -/
def Majority (members : List α) (S : α → Prop) : Prop :=
  ∃ Q : List α, Q.Nodup ∧ (∀ v ∈ Q, v ∈ members) ∧ members.length / 2 + 1 ≤ Q.length ∧
    ∀ v ∈ Q, S v

variable {members : List α} {S T : α → Prop}

theorem Majority.mono (h : Majority members S)
    (hST : ∀ v ∈ members, S v → T v) : Majority members T := by
  obtain ⟨Q, hnd, hsub, hlen, hS⟩ := h
  exact ⟨Q, hnd, hsub, hlen, fun v hv => hST v (hsub v hv) (hS v hv)⟩

theorem Majority.inter (hS : Majority members S) (hT : Majority members T) :
    ∃ v ∈ members, S v ∧ T v := by
  obtain ⟨Q, hQ, hQsub, hQlen, hQS⟩ := hS
  obtain ⟨R, hR, hRsub, hRlen, hRT⟩ := hT
  by_contra hno
  have hdisj : List.Disjoint Q R := by
    intro v hvQ hvR
    exact hno ⟨v, hQsub v hvQ, hQS v hvQ, hRT v hvR⟩
  have hnd : (Q ++ R).Nodup := List.Nodup.append hQ hR hdisj
  have hsub : Q ++ R ⊆ members := by
    intro v hv
    rcases mem_append.1 hv with h | h
    · exact hQsub v h
    · exact hRsub v h
  have hle := (subperm_of_subset hnd hsub).length_le
  rw [length_append] at hle
  omega

theorem Majority.of_countP_zip {flags : List β}
    (hnd : members.Nodup) (hlen : members.length ≤ flags.length) (p : α × β → Bool)
    (hcount : members.length / 2 + 1 ≤ (members.zip flags).countP p)
    (hS : ∀ v f, (v, f) ∈ members.zip flags → p (v, f) = true → S v) :
    Majority members S := by
  have hsub : List.Sublist (((members.zip flags).filter p).map Prod.fst) members := by
    have h1 : List.Sublist ((members.zip flags).filter p) (members.zip flags) :=
      filter_sublist
    have h2 := h1.map Prod.fst
    rwa [map_fst_zip hlen] at h2
  refine ⟨((members.zip flags).filter p).map Prod.fst, hsub.nodup hnd,
    fun v hv => hsub.subset hv, ?_, ?_⟩
  · rw [length_map, ← countP_eq_length_filter]
    exact hcount
  · intro v hv
    obtain ⟨⟨v', f⟩, hmem, rfl⟩ := mem_map.1 hv
    rw [mem_filter] at hmem
    exact hS v' f hmem.1 hmem.2

end Library
