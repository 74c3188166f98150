import Mathlib.Data.List.Nodup
import Mathlib.Order.Nat

/-!
# Blocks of memory

An allocator that may refuse names each block it hands out by the request it answers.
Freeing a block that is not live is an error of the program, so a program that comes to
its end has freed no block twice.  `Owes` says what a part of a program is left with: of
the blocks that were handed out meanwhile it keeps some, and has freed each other one
exactly once.
-/

namespace Library

open List

/-- How often the allocator was asked, which blocks are live and which were freed. -/
structure Blocks where
  asked : Nat
  live : List Nat
  freed : List Nat

/-- A request, which the allocator may refuse. -/
def Blocks.alloc (grants : Nat → Bool) (h : Blocks) : Option Nat × Blocks :=
  if grants h.asked then (some h.asked, { h with asked := h.asked + 1, live := h.asked :: h.live })
  else (none, { h with asked := h.asked + 1 })

/-- `free`, which does nothing to `NULL`. -/
def Blocks.free (h : Blocks) : Option Nat → Option Blocks
  | none => some h
  | some b =>
    if b ∈ h.live then some { h with live := h.live.erase b, freed := b :: h.freed } else none

/-- One `free` after the other. -/
def Blocks.freeAll (h : Blocks) (ptrs : List (Option Nat)) : Option Blocks :=
  ptrs.foldlM Blocks.free h

/-- The blocks handed out from request `lo` up to request `hi`. -/
def granted (grants : Nat → Bool) (lo hi : Nat) : List Nat :=
  (range' lo (hi - lo)).filter grants

/-- Of the blocks handed out since `h`, those in `own` are kept and each other one was freed. -/
structure Owes (grants : Nat → Bool) (h h' : Blocks) (own : List Nat) : Prop where
  le : h.asked ≤ h'.asked
  live : h'.live.Perm (own ++ h.live)
  freed : ∃ bs, h'.freed = bs ++ h.freed ∧ (bs ++ own).Perm (granted grants h.asked h'.asked)

variable {grants : Nat → Bool} {h h' h'' : Blocks} {own own' : List Nat} {lo hi b : Nat}

theorem granted_self : granted grants lo lo = [] := by
  simp [granted]

theorem granted_succ (hle : lo ≤ hi) : granted grants lo (hi + 1) =
    granted grants lo hi ++ if grants hi then [hi] else [] := by
  rw [granted, granted, show hi + 1 - lo = (hi - lo) + 1 by omega, range'_concat,
    filter_append, show lo + 1 * (hi - lo) = hi by omega]
  cases hg : grants hi <;> simp [hg]

theorem granted_append {mid : Nat} (hlo : lo ≤ mid) (hhi : mid ≤ hi) :
    granted grants lo hi = granted grants lo mid ++ granted grants mid hi := by
  have hrange := @List.range'_append_1 lo (mid - lo) (hi - mid)
  rw [show lo + (mid - lo) = mid by omega, show mid - lo + (hi - mid) = hi - lo by omega] at hrange
  rw [granted, granted, granted, ← filter_append, hrange]

theorem granted_nodup : (granted grants lo hi).Nodup :=
  List.Nodup.filter _ nodup_range'

namespace Owes

theorem refl : Owes grants h h [] :=
  ⟨le_rfl, .refl _, [], rfl, by simp [granted_self]⟩

theorem perm (ho : Owes grants h h' own) (hp : own.Perm own') : Owes grants h h' own' := by
  obtain ⟨bs, hfreed, hall⟩ := ho.freed
  exact ⟨ho.le, ho.live.trans (hp.append_right _), bs, hfreed, (hp.symm.append_left bs).trans hall⟩

theorem trans (h₁ : Owes grants h h' own) (h₂ : Owes grants h' h'' own') :
    Owes grants h h'' (own' ++ own) := by
  obtain ⟨bs, hfreed, hall⟩ := h₁.freed
  obtain ⟨bs', hfreed', hall'⟩ := h₂.freed
  refine ⟨h₁.le.trans h₂.le, ?_, bs' ++ bs, by rw [hfreed', hfreed, append_assoc], ?_⟩
  · rw [append_assoc]
    exact h₂.live.trans (h₁.live.append_left own')
  · rw [granted_append h₁.le h₂.le]
    refine .trans ?_ (hall.append hall')
    rw [perm_iff_count]
    intro b
    simp only [count_append]
    omega

theorem alloc_some (ho : Owes grants h h' own) (ha : h'.alloc grants = (some b, h'')) :
    Owes grants h h'' (b :: own) ∧ h''.asked = h'.asked + 1 ∧ grants h'.asked = true := by
  rw [Blocks.alloc] at ha
  split at ha
  next hg =>
    cases ha
    obtain ⟨bs, hfreed, hall⟩ := ho.freed
    refine ⟨⟨ho.le.trans (Nat.le_succ _), ho.live.cons _, bs, hfreed, ?_⟩, rfl, hg⟩
    rw [granted_succ ho.le, if_pos hg]
    exact (perm_middle.trans (hall.cons _)).trans (perm_append_singleton _ _).symm
  next => cases ha

theorem alloc_none (ho : Owes grants h h' own) (ha : h'.alloc grants = (none, h'')) :
    Owes grants h h'' own ∧ h''.asked = h'.asked + 1 ∧ grants h'.asked = false := by
  rw [Blocks.alloc] at ha
  split at ha
  next => cases ha
  next hg =>
    cases ha
    obtain ⟨bs, hfreed, hall⟩ := ho.freed
    refine ⟨⟨ho.le.trans (Nat.le_succ _), ho.live, bs, hfreed, ?_⟩, rfl, by simpa using hg⟩
    rw [granted_succ ho.le, if_neg hg, append_nil]
    exact hall

theorem free (ho : Owes grants h h' (b :: own)) :
    ∃ h'', h'.free (some b) = some h'' ∧ Owes grants h h'' own ∧ h''.asked = h'.asked := by
  have hmem : b ∈ h'.live := ho.live.mem_iff.2 mem_cons_self
  obtain ⟨bs, hfreed, hall⟩ := ho.freed
  refine ⟨_, if_pos hmem, ⟨ho.le, ?_, b :: bs, ?_, ?_⟩, rfl⟩
  · exact (ho.live.erase b).trans (by simp)
  · rw [hfreed]
    rfl
  · exact perm_middle.symm.trans hall

theorem freeAll {ptrs : List (Option Nat)} (ho : Owes grants h h' (ptrs.flatMap Option.toList ++ own)) :
    ∃ h'', h'.freeAll ptrs = some h'' ∧ Owes grants h h'' own ∧ h''.asked = h'.asked := by
  induction ptrs generalizing h' with
  | nil => exact ⟨h', rfl, ho, rfl⟩
  | cons p ptrs ih =>
    cases p with
    | none =>
      obtain ⟨h'', hfree, ho'', hasked⟩ := ih ho
      exact ⟨h'', by rw [Blocks.freeAll, foldlM_cons]; exact hfree, ho'', hasked⟩
    | some b =>
      have hhead : Owes grants h h' (b :: (ptrs.flatMap Option.toList ++ own)) := ho
      obtain ⟨h₁, hfree, ho₁, hasked₁⟩ := hhead.free
      obtain ⟨h'', hrest, ho'', hasked⟩ := ih ho₁
      refine ⟨h'', ?_, ho'', hasked.trans hasked₁⟩
      rw [Blocks.freeAll, foldlM_cons, hfree]
      exact hrest

end Owes

/-- The program asks `n` times, unless one of the requests is refused: then it fails. -/
def Answered (grants : Nat → Bool) (h h' : Blocks) (n : Nat) (ok : Prop) : Prop :=
  (ok ∧ h'.asked = h.asked + n ∧ ∀ i < n, grants (h.asked + i) = true) ∨
    (¬ ok ∧ ∃ i < n, grants (h.asked + i) = false)

namespace Answered

variable {n k : Nat} {ok ok' : Prop}

theorem none (hok : ok) (hasked : h'.asked = h.asked) : Answered grants h h' 0 ok :=
  .inl ⟨hok, hasked, fun i hi => absurd hi (Nat.not_lt_zero i)⟩

theorem yes (hok : ok) (hasked : h'.asked = h.asked + 1) (hg : grants h.asked = true) :
    Answered grants h h' 1 ok := by
  refine .inl ⟨hok, hasked, fun i hi => ?_⟩
  obtain rfl : i = 0 := by omega
  exact hg

theorem no (hok : ¬ ok) (hg : grants h.asked = false) : Answered grants h h' 1 ok :=
  .inr ⟨hok, 0, Nat.zero_lt_one, hg⟩

/-- One part after the other, which is not come to where the first fails. -/
theorem andThen (h₁ : Answered grants h h' n ok)
    (h₂ : ok → h'.asked = h.asked + n → Answered grants h' h'' k ok') (hfail : ¬ ok → ¬ ok') :
    Answered grants h h'' (n + k) ok' := by
  rcases h₁ with ⟨hok, hasked, hall⟩ | ⟨hno, i, hi, hg⟩
  · rcases h₂ hok hasked with ⟨hok', hasked', hall'⟩ | ⟨hno', i, hi, hg⟩
    · refine .inl ⟨hok', by omega, fun i hi => ?_⟩
      by_cases hin : i < n
      · exact hall i hin
      · have := hall' (i - n) (by omega)
        rwa [hasked, show h.asked + n + (i - n) = h.asked + i by omega] at this
    · refine .inr ⟨hno', n + i, by omega, ?_⟩
      rwa [hasked, Nat.add_assoc] at hg
  · exact .inr ⟨hfail hno, i, by omega, hg⟩

theorem iff (ha : Answered grants h h' n ok) : ok ↔ ∀ i < n, grants (h.asked + i) = true := by
  rcases ha with ⟨hok, -, hall⟩ | ⟨hno, i, hi, hg⟩
  · exact ⟨fun _ => hall, fun _ => hok⟩
  · exact ⟨fun hok => absurd hok hno, fun hall => absurd (hall i hi) (by simp [hg])⟩

theorem congr (ha : Answered grants h h' n ok) (e : ok ↔ ok') : Answered grants h h' n ok' := by
  rwa [Answered, ← e]

/-- What is done later without a request does not matter. -/
theorem later (ha : Answered grants h h' n ok) (hasked : ok → h''.asked = h'.asked) :
    Answered grants h h'' n ok := by
  rcases ha with ⟨hok, hasked', hall⟩ | hno
  · exact .inl ⟨hok, (hasked hok).trans hasked', hall⟩
  · exact .inr hno

end Answered

end Library
