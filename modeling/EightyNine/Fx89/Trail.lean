import EightyNine.Fx89.Effect

/-!
# The trail

While a checkpoint is open, every push of a fact and every binding leaves a record
that undoes it: undoing the records a call has left, the newest first, gives back
the bindings and the facts from before it (`Traced`).  Without a checkpoint nothing
is recorded, and nothing need be.

A variable is bound once, so the records of bindings all say that it was unbound
(`Traced.fresh`).
-/

namespace Fx89

open List

variable {α : Type}

namespace Store

/-- The same bindings and facts, whatever the number of variables. -/
structure Same (S T : Store α) : Prop where
  binding : S.binding = T.binding
  facts : S.facts = T.facts

/-- What undoing a record does to the store. -/
def undo (S : Store α) : TrailRec α → Store α
  | .bind v prev => { S with binding := fun w => if w = v then prev else S.binding w }
  | .fact s v =>
    { S with
      facts := fun w t => if w = v ∧ t = s then (S.facts w t).dropLast else S.facts w t }
  | .state _ _ => S
  | .conflict _ => S

/-- Undoing records, the newest first. -/
def rewind (S : Store α) (recs : List (TrailRec α)) : Store α := recs.foldl undo S

variable {S T : Store α}

theorem Same.refl (S : Store α) : Same S S := ⟨rfl, rfl⟩

theorem Same.trans {U : Store α} (h : Same S T) (h' : Same T U) : Same S U :=
  ⟨h.binding.trans h'.binding, h.facts.trans h'.facts⟩

theorem Same.undo (h : Same S T) (rec : TrailRec α) : Same (S.undo rec) (T.undo rec) := by
  cases rec with
  | bind v prev => exact ⟨by simp only [Store.undo, h.binding], h.facts⟩
  | fact s v => exact ⟨h.binding, by simp only [Store.undo, h.facts]⟩
  | state k prev | conflict prev => exact h

theorem Same.rewind (h : Same S T) (recs : List (TrailRec α)) :
    Same (S.rewind recs) (T.rewind recs) := by
  induction recs generalizing S T with
  | nil => exact h
  | cons rec recs ih => exact ih (h.undo rec)

theorem rewind_append (recs recs' : List (TrailRec α)) :
    S.rewind (recs ++ recs') = (S.rewind recs).rewind recs' := foldl_append

/-- Records that say of every binding that there was none before. -/
def Fresh (recs : List (TrailRec α)) : Prop := ∀ v prev, TrailRec.bind v prev ∈ recs → prev = none

theorem undo_push (S : Store α) (s : Side) (v : Nat) (a : α) :
    Same ((S.push s v a).undo (.fact s v)) S := by
  refine ⟨rfl, ?_⟩
  funext w t
  simp only [undo, push]
  split_ifs <;> simp

theorem undo_bind (S : Store α) (v : Nat) (b : Row α) :
    Same ((S.bind v b).undo (.bind v (S.binding v))) S := by
  refine ⟨?_, rfl⟩
  funext w
  simp only [undo, bind]
  split_ifs with h
  · exact h ▸ rfl
  · rfl

theorem same_grow (hS : S.Ordered) : Same S.grow S := by
  refine ⟨?_, ?_⟩
  · funext v
    simp only [grow]
    split_ifs with h
    · exact (hS.blank h.ge).symm
    · rfl
  · funext v s
    simp only [grow]
    split_ifs with h
    · exact (hS.blankFacts h.ge).symm
    · rfl

end Store

namespace Ctx

variable {c c' c'' : Ctx α} {U : α → Prop} {free : Prop} {k : Nat}

/-- The records a change has left undo it, if a checkpoint is open. -/
structure Undone (c c' : Ctx α) (recs : List (TrailRec α)) : Prop where
  trail : c'.trail = recs ++ c.trail
  fresh : Store.Fresh recs
  same : c.checkpoints ≠ [] → Store.Same (c'.store.rewind recs) c.store

/-- A change that leaves what undoes it on the trail. -/
structure Traced (c c' : Ctx α) : Prop where
  checkpoints : c'.checkpoints = c.checkpoints
  undone : ∃ recs, Undone c c' recs

theorem traced_of_store (hcp : c'.checkpoints = c.checkpoints) (ht : c'.trail = c.trail)
    (hs : Store.Same c'.store c.store) : Traced c c' :=
  ⟨hcp, [], ht, fun _ _ h => absurd h not_mem_nil, fun _ => hs⟩

theorem Traced.refl : Traced c c := traced_of_store rfl rfl (.refl _)

theorem Traced.trans (h : Traced c c') (h' : Traced c' c'') : Traced c c'' := by
  obtain ⟨hcp, recs, ht, hf, hs⟩ := h
  obtain ⟨hcp', recs', ht', hf', hs'⟩ := h'
  refine ⟨hcp'.trans hcp, recs' ++ recs, ?_, ?_, fun hne => ?_⟩
  · rw [ht', ht, append_assoc]
  · intro v prev hm
    exact (mem_append.1 hm).elim (hf' v prev) (hf v prev)
  · rw [Store.rewind_append]
    exact ((hs' (hcp ▸ hne)).rewind recs).trans (hs hne)

/-- One record, left by a change of the store it undoes. -/
theorem traced_record (d : Ctx α) (rec : TrailRec α) (hcp : c'.checkpoints = c.checkpoints)
    (hd : d.trail = c.trail) (hdcp : d.checkpoints = c.checkpoints)
    (ht : c'.trail = (d.trailAppend rec).trail) (hf : ∀ v prev, rec = .bind v prev → prev = none)
    (hs : Store.Same (c'.store.undo rec) c.store) : Traced c c' := by
  refine ⟨hcp, ?_⟩
  unfold trailAppend at ht
  split_ifs at ht with h
  · refine ⟨[], ht.trans hd, fun _ _ h => absurd h not_mem_nil, fun hne => ?_⟩
    exact absurd (hdcp.symm.trans h) hne
  · refine ⟨[rec], ?_, ?_, fun _ => hs⟩
    · rw [ht]
      exact congrArg (rec :: ·) hd
    · intro v prev hm
      exact hf v prev (mem_singleton.1 hm).symm

theorem trail_solveNotify (v : Nat) : (c.solveNotify v).trail = c.trail := by
  obtain ⟨queue, h⟩ := c.solveNotify_eq v
  rw [h]

theorem Step.traced (h : Step U free k c c') : Traced c c' := by
  have hcp : c'.checkpoints = c.checkpoints := h.sameFrame.checkpoints
  cases h with
  | @push s v a =>
    refine traced_record (c.setVar v ((c.vars v).push a s)) (.fact s v) hcp rfl rfl
      (trail_solveNotify v) (fun w prev h => by simp at h) ?_
    rw [store_pushFact]
    exact Store.undo_push _ _ _ _
  | @bind v b _ _ hb _ =>
    refine traced_record c (.bind v (c.vars v).binding) hcp rfl rfl ?_ (fun w prev h => ?_) ?_
    · exact trail_solveNotify v
    · obtain ⟨-, rfl⟩ := TrailRec.bind.inj h
      exact hb
    · rw [store_setBinding]
      exact Store.undo_bind _ _ _
  | conflict kind p q =>
    refine traced_record c (.conflict c.conflict) hcp rfl rfl rfl
      (fun w prev h => by simp at h) ?_
    rw [store_recordConflict]
    exact .refl _
  | state s => exact traced_of_store hcp rfl (.refl _)
  | record s =>
    refine traced_record c (.state k s) hcp rfl rfl rfl (fun w prev h => by simp at h) ?_
    rw [store_trailAppend]
    exact .refl _

theorem Steps.traced (h : Steps U free k c c') : Traced c c' := by
  induction h with
  | refl => exact .refl
  | tail _ last ih => exact ih.trans last.traced

theorem traced_varNew (hS : c.store.Ordered) : Traced c c.varNew.2 := by
  refine traced_of_store rfl rfl ?_
  rw [store_varNew]
  exact Store.same_grow hS

end Ctx

end Fx89
