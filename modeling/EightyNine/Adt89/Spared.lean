import EightyNine.Adt89.MatchOk

/-!
# Analyses under allocation failure

`analyses_spared` says that the answer of an analysis stands as long as no row is lost.
-/

namespace Adt89

open Library List Option

/-! ## The requests of an analysis -/

/-- The requests of `adt_match_exhaustive`. -/
def exhaustiveRequests (ctx : Ctx) (fuel : Nat) (t : TypeRef) (ps : List Pattern) :
    List Purpose :=
  [.checked, .checked, .checked] ++
    ((startNode t ps .null).requests ctx fuel).elim [] Prod.snd

/-- The requests of the loop of `adt_match_redundant`. -/
def loopRequests (ctx : Ctx) (fuel : Nat) (fam : TypeRef) (earlier : List Pattern) :
    List Pattern → List Purpose
  | [] => []
  | p :: rest =>
    [.checked, .checked] ++ match (startNode fam earlier p).requests ctx fuel with
      | none => []
      | some r => r.2 ++
          if r.1 = .nomem then [] else loopRequests ctx fuel fam (earlier ++ [p]) rest

/-- The requests of `adt_match_redundant`. -/
def redundantRequests (ctx : Ctx) (fuel : Nat) (ps : List Pattern) : List Purpose :=
  (takeCtorFamily ps).elim [] fun fam => loopRequests ctx fuel fam [] ps

/-- No row is lost: before any request for a row under its own constructor is refused, one
is whose failure ends the analysis. -/
def Spared (mem : Nat → Bool) (reqs : List Purpose) : Prop := fate mem 0 reqs ≠ .lost

instance sparedDecidable (mem : Nat → Bool) (reqs : List Purpose) : Decidable (Spared mem reqs) :=
  inferInstanceAs (Decidable (fate mem 0 reqs ≠ .lost))

variable {ctx : Ctx} {mem : Nat → Bool}

/-! ## The analyses -/

variable {fuel : Nat} {t : TypeRef} {ps : List Pattern}

/-- What `adt_match_exhaustive` makes of the answer of `adt_i_useful`. -/
def exhaustiveAnswer : Useful → Except Failure MatchResult
  | .nomem => .error ⟨.nomem, none⟩
  | .no => .ok .exhaustive
  | .yes => .ok .nonexhaustive

theorem exhaustiveQuery_follows (mem : Nat → Bool) (hps : ∀ p ∈ ps, p.Built ctx) :
    Follows mem (.error ⟨.nomem, none⟩) (exhaustiveQuery mem ctx fuel t ps)
      (((startNode t ps .null).requests ctx fuel).map fun r =>
        (exhaustiveAnswer r.1, exhaustiveRequests ctx fuel t ps)) := by
  have huseful := useful_follows mem fuel (startNode_ok (t := t) hps (p := .null) trivial)
  rw [exhaustiveQuery]
  refine (congrArg (Follows mem _ _) ?_).mp
    (huseful.bind (g := fun r => some (exhaustiveAnswer r, [])) (fun r _ => ?_) rfl).check.check.check
  · cases hr : (startNode t ps .null).requests ctx fuel <;> simp [hr, after, exhaustiveRequests]
  · cases r.1 <;> exact .pure _

theorem redundantLoop_follows (fuel : Nat) (fam : TypeRef) {rest : List Pattern} :
    ∀ {earlier : List Pattern}, (∀ p ∈ earlier, p.Built ctx) → (∀ p ∈ rest, p.Built ctx) →
      ∃ o, (∀ mem, Follows mem (.error ⟨.nomem, none⟩)
          (redundantLoop mem ctx fuel fam earlier rest) o) ∧
        ∀ r, o = some r → r.2 = loopRequests ctx fuel fam earlier rest := by
  induction rest with
  | nil =>
    exact fun _ _ => ⟨some (.ok [], []), fun mem => .pure _, fun r hr => some.inj hr ▸ rfl⟩
  | cons p rest ih =>
    intro earlier he hr
    have hp := hr p mem_cons_self
    have he' : ∀ q ∈ earlier ++ [p], q.Built ctx := by
      intro q hq
      rcases mem_append.mp hq with hq | hq
      · exact he q hq
      · exact mem_singleton.mp hq ▸ hp
    obtain ⟨o, hrest, hreqs⟩ := ih he' fun q hq => hr q (mem_cons_of_mem p hq)
    let go (r : Useful) : Option (Except Failure (List Bool) × List Purpose) :=
      if r = .nomem then some (.error ⟨.nomem, none⟩, [])
      else o.map fun r' => (r'.1.map (decide (r = .no) :: ·), r'.2)
    refine ⟨(after [.checked] (after [.checked] ((startNode fam earlier p).requests ctx fuel))).bind
      fun r => after r.2 (go r.1), fun mem => ?_, fun r hr => ?_⟩
    · have huseful := useful_follows mem fuel (startNode_ok (t := fam) he hp)
      refine huseful.check.check.bind (fun r _ => ?_) rfl
      by_cases hno : r.1 = .nomem
      · simp only [go, if_pos hno]
        exact .pure _
      · simp only [go, if_neg hno]
        refine (congrArg (Follows mem _ _) ?_).mp ((hrest mem).bind
          (g := fun out => some (out.map (decide (r.1 = .no) :: ·), [])) (fun r' _ => .pure _) rfl)
        cases o <;> simp [after]
    · rw [loopRequests]
      cases hreq : (startNode fam earlier p).requests ctx fuel with
      | none => simp [hreq, after] at hr
      | some r₀ =>
        simp only [hreq, after, map_some, bind_some, go] at hr
        split at hr
        · cases hr
          simp_all
        · obtain ⟨r', hr', rfl⟩ := map_eq_some_iff.mp hr
          obtain ⟨r'', hr'', rfl⟩ := map_eq_some_iff.mp hr'
          simp_all

/-- As long as no row is lost, an analysis that returns without refusals returns with them,
and answers `NOMEM` or the same. -/
theorem analyses_spared {t : TypeRef} {ps : List Pattern} (hps : ∀ p ∈ ps, p.Built ctx)
    (mem : Nat → Bool) (fuel : Nat) :
    (∀ result, matchExhaustive (fun _ => true) ctx fuel t ps = some result →
      Spared mem (exhaustiveRequests ctx fuel t ps) →
      matchExhaustive mem ctx fuel t ps = some (.error ⟨.nomem, none⟩) ∨
        matchExhaustive mem ctx fuel t ps = some result) ∧
    (∀ result, matchRedundant (fun _ => true) ctx fuel ps = some result →
      Spared mem (redundantRequests ctx fuel ps) →
      matchRedundant mem ctx fuel ps = some (.error ⟨.nomem, none⟩) ∨
        matchRedundant mem ctx fuel ps = some result) := by
  constructor
  · intro result h hmem
    rw [matchExhaustive, bind_eq_bind, bind_eq_some_iff] at h
    obtain ⟨d, hd, h⟩ := h
    rw [matchExhaustive, hd, bind_eq_bind, bind_some]
    split at h
    next hsealed =>
      rw [if_pos hsealed]
      exact .inr h
    next hsealed =>
      rw [if_neg hsealed]
      cases hcheck : ps.forM (checkPattern t) with
      | error e =>
        rw [hcheck] at h
        exact .inr h
      | ok _ =>
        rw [hcheck] at h
        obtain ⟨out, hout, rfl⟩ := map_eq_some_iff.mp h
        obtain ⟨r, hr, hanswer⟩ := (exhaustiveQuery_follows _ hps).answers hout
        obtain ⟨r', hr', rfl⟩ := map_eq_some_iff.mp hr
        have hfollows : Follows mem _ (exhaustiveQuery mem ctx fuel t ps) _ :=
          exhaustiveQuery_follows mem hps
        rw [hr'] at hfollows
        obtain ⟨n', hq | hq⟩ := hfollows.spared hmem
        · exact .inl (by simp only [StateT.run', hq]; rfl)
        · exact .inr (by simp only [StateT.run', hq, hanswer]; rfl)
  · intro result h hmem
    rw [matchRedundant] at h ⊢
    rw [Spared, redundantRequests] at hmem
    cases hfam : takeCtorFamily ps with
    | none =>
      rw [hfam] at h
      exact .inr h
    | some fam =>
      rw [hfam] at h hmem
      obtain ⟨out, hout, rfl⟩ := map_eq_some_iff.mp h
      obtain ⟨o, hfollows, hreqs⟩ := redundantLoop_follows fuel fam
        (fun q hq => absurd hq not_mem_nil) hps
      obtain ⟨r, rfl, hanswer⟩ := (hfollows _).answers hout
      rw [Option.elim, ← hreqs r rfl] at hmem
      obtain ⟨n', hq | hq⟩ := (hfollows mem).spared hmem
      · exact .inl (by simp only [StateT.run', hq]; rfl)
      · exact .inr (by simp only [StateT.run', hq, hanswer]; rfl)

/-- The requests for the rows of other constructors are refused, which changes nothing. -/
theorem analyses_spared_nilConsSome :
    (matchExhaustive (fun n => n ≠ 6) listCtx 10 0 nilConsSome = some (.error ⟨.nomem, none⟩) ∨
      matchExhaustive (fun n => n ≠ 6) listCtx 10 0 nilConsSome = some (.ok .exhaustive)) ∧
    (matchRedundant (fun n => n ≠ 8) listCtx 10 nilConsSome = some (.error ⟨.nomem, none⟩) ∨
      matchRedundant (fun n => n ≠ 8) listCtx 10 nilConsSome = some (.ok [false, false])) := by
  have hps : ∀ p ∈ nilConsSome, p.Built listCtx := fun p hp => (nilConsSome_typed p hp).built
  exact ⟨(analyses_spared hps (fun n => n ≠ 6) 10).1 _ nilConsSome_result (by decide),
    (analyses_spared (t := 0) hps (fun n => n ≠ 8) 10).2 _ rfl (by decide)⟩

/-- `None` and `Some _`. -/
def noneSome : List Pattern := [.ctor ⟨1, 0⟩ [], .ctor ⟨1, 1⟩ [.wildcard]]

/-- The row `None` is lost: the type is called nonexhaustive, and a second `None` is not
called redundant. -/
theorem noneSome_lost :
    (matchExhaustive (fun _ => true) listCtx 10 1 noneSome = some (.ok .exhaustive) ∧
      matchExhaustive (fun n => n ≠ 4) listCtx 10 1 noneSome = some (.ok .nonexhaustive)) ∧
    (matchRedundant (fun _ => true) listCtx 10 [.ctor ⟨1, 0⟩ [], .ctor ⟨1, 0⟩ []] =
        some (.ok [false, true]) ∧
      matchRedundant (fun n => n ≠ 8) listCtx 10 [.ctor ⟨1, 0⟩ [], .ctor ⟨1, 0⟩ []] =
        some (.ok [false, false])) :=
  ⟨⟨rfl, rfl⟩, rfl, rfl⟩

end Adt89
