import EightyNine.Fsm89.Fsm

/-!
# libfsm89: validated definitions

The validator answers with the first of eight stages that a definition fails.  What passes
is a deterministic machine: a state and an event have one edge at most, whose effects are
those of the step, and no run meets a state that is not declared.  The order of the tables
does not matter.
-/

namespace Fsm89

open List

open Library (lookupKey lookupKey_eq_none lookupKey_iff lookupKey_mem lookupKey_ne_none
  lookupKey_perm)

variable {d d' : Def} {s t : StateDef} {e : Edge} {state event : Nat} {st : Status}

/-! ## What a definition is asked for -/

/-- An effect span that is empty or has its effects. -/
def SpanOk (span : Effects) : Prop := span.n = 0 ∨ span.v ≠ none

/-- A declared state. -/
def Declared (d : Def) (id : Nat) : Prop := ∃ s ∈ d.states.elems, s.id = id

/-- What the stages of the validator ask for, with the status of each. -/
def stages : Option Def → List (Prop × Status)
  | none => [(False, .edef)]
  | some d => [
      (d.states.n ≠ 0 ∧ d.states.v ≠ none ∧ (d.edges.n = 0 ∨ d.edges.v ≠ none), .edef),
      (∀ s ∈ d.states.elems, SpanOk s.leave ∧ SpanOk s.enter, .eeffects),
      (d.states.elems.Pairwise (fun s t => s.id ≠ t.id), .edupState),
      (Declared d d.initial, .einitial),
      (∀ e ∈ d.edges.elems, SpanOk e.effects, .eeffects),
      (∀ e ∈ d.edges.elems, Declared d e.src, .eedgeFrom),
      (∀ e ∈ d.edges.elems, Declared d e.dst, .eedgeTo),
      (d.edges.elems.Pairwise (fun e f => ¬ (e.src = f.src ∧ e.event = f.event)), .edupEdge)]

/-- The status of the first stage that fails. -/
inductive FirstViolated : List (Prop × Status) → Status → Prop
  | done : FirstViolated [] .ok
  | here {p : Prop} {st : Status} {rest : List (Prop × Status)} (h : ¬ p) :
      FirstViolated ((p, st) :: rest) st
  | there {p : Prop} {st st' : Status} {rest : List (Prop × Status)} (h : p)
      (later : FirstViolated rest st') : FirstViolated ((p, st) :: rest) st'

theorem FirstViolated.unique {l : List (Prop × Status)} {st st' : Status}
    (h : FirstViolated l st) (h' : FirstViolated l st') : st = st' := by
  induction h with
  | done => cases h'; rfl
  | here h =>
    cases h' with
    | here => rfl
    | there hp => exact absurd hp h
  | there hp _ ih =>
    cases h' with
    | here h => exact absurd hp h
    | there _ later => exact ih later

/-- An answer to whether `p` holds: `ok`, or else `err`. -/
inductive Tells (p : Prop) (err : Status) : Status → Prop
  | ok (h : p) : Tells p err .ok
  | err (h : ¬ p) : Tells p err err

/-- Stages that answer what they ask for. -/
inductive Answers : List (Prop × Status) → List Status → Prop
  | nil : Answers [] []
  | cons {p : Prop} {st err : Status} {rest : List (Prop × Status)} {sts : List Status}
      (tells : Tells p err st) (hne : err ≠ .ok) (later : Answers rest sts) :
      Answers ((p, err) :: rest) (st :: sts)

theorem firstFailure_first {l : List (Prop × Status)} {sts : List Status} (h : Answers l sts) :
    FirstViolated l (firstFailure sts) := by
  induction h with
  | nil => exact .done
  | cons tells hne _ ih =>
    rw [firstFailure]
    cases tells with
    | ok hp =>
      rw [if_neg (fun h => h rfl)]
      exact .there hp ih
    | err hp =>
      rw [if_pos hne]
      exact .here hp

/-! ## The stages -/

theorem Tells.of_iff {p q : Prop} {err st : Status} (h : Tells p err st) (hpq : p ↔ q) :
    Tells q err st := by
  cases h with
  | ok hp => exact .ok (hpq.mp hp)
  | err hp => exact .err (fun hq => hp (hpq.mpr hq))

theorem tells_ite {c : Bool} {p : Prop} {err : Status} (h : c = true ↔ ¬ p) :
    Tells p err (if c then err else .ok) := by
  split
  · exact .err (h.mp ‹_›)
  · exact .ok (Classical.not_not.mp (fun hp => ‹¬ _› (h.mpr hp)))

theorem spanOk_iff (span : Effects) : spanOk span = true ↔ SpanOk span := by
  unfold spanOk SpanOk
  split
  · simp_all
  · cases span.v <;> simp_all

theorem isNone_findState (d : Def) (id : Nat) :
    (findState d id).isNone = true ↔ ¬ Declared d id := by
  rw [Option.isNone_iff_eq_none, findState, lookupKey_eq_none, Declared]
  push Not
  rfl

theorem checkTop_tells (d : Def) : Tells
    (d.states.n ≠ 0 ∧ d.states.v ≠ none ∧ (d.edges.n = 0 ∨ d.edges.v ≠ none)) .edef
    (checkTop (some d)) := by
  unfold checkTop
  dsimp only
  split
  · exact .err (fun h => h.1 ‹_›)
  · split
    · exact .err (fun h => h.2.1 (Option.isNone_iff_eq_none.mp ‹_›))
    · rename_i hn hv
      have hv : d.states.v ≠ none := fun h => hv (Option.isNone_iff_eq_none.mpr h)
      split
      · exact .ok ⟨hn, hv, .inl ‹_›⟩
      · rename_i hen
        split
        · exact .err (fun h => h.2.2.elim hen (fun h => h (Option.isNone_iff_eq_none.mp ‹_›)))
        · exact .ok ⟨hn, hv, .inr (fun h => ‹¬ _› (Option.isNone_iff_eq_none.mpr h))⟩

theorem checkStateSpansFrom_tells (l : List StateDef) :
    Tells (∀ s ∈ l, SpanOk s.leave ∧ SpanOk s.enter) .eeffects (checkStateSpansFrom l) := by
  induction l with
  | nil => exact .ok (by simp)
  | cons s l ih =>
    rw [checkStateSpansFrom]
    cases hleave : spanOk s.leave with
    | false =>
      refine .err (fun h => ?_)
      rw [(spanOk_iff _).mpr (h s mem_cons_self).1] at hleave
      cases hleave
    | true =>
      cases henter : spanOk s.enter with
      | false =>
        refine .err (fun h => ?_)
        rw [(spanOk_iff _).mpr (h s mem_cons_self).2] at henter
        cases henter
      | true =>
        refine Tells.of_iff ih ?_
        rw [forall_mem_cons, ← spanOk_iff s.leave, ← spanOk_iff s.enter]
        simp [hleave, henter]

theorem checkDupStatesFrom_tells (l : List StateDef) :
    Tells (l.Pairwise (fun s t => s.id ≠ t.id)) .edupState (checkDupStatesFrom l) := by
  induction l with
  | nil => exact .ok .nil
  | cons s l ih =>
    rw [checkDupStatesFrom, pairwise_cons]
    split
    · rename_i hdup
      obtain ⟨t, ht, heq⟩ := any_eq_true.mp hdup
      exact .err (fun h => h.1 t ht (eq_of_beq heq))
    · rename_i hdup
      refine ih.of_iff ⟨fun h => ⟨fun t ht heq => ?_, h⟩, fun h => h.2⟩
      exact hdup (any_eq_true.mpr ⟨t, ht, beq_iff_eq.mpr heq⟩)

theorem checkDupEdgesFrom_tells (l : List Edge) :
    Tells (l.Pairwise (fun e f => ¬ (e.src = f.src ∧ e.event = f.event))) .edupEdge
      (checkDupEdgesFrom l) := by
  induction l with
  | nil => exact .ok .nil
  | cons e l ih =>
    rw [checkDupEdgesFrom, pairwise_cons]
    split
    · rename_i hdup
      obtain ⟨f, hf, heq⟩ := any_eq_true.mp hdup
      exact .err (fun h => h.1 f hf (by simpa using heq))
    · rename_i hdup
      refine ih.of_iff ⟨fun h => ⟨fun f hf heq => ?_, h⟩, fun h => h.2⟩
      exact hdup (any_eq_true.mpr ⟨f, hf, by simpa using heq⟩)

theorem checkInitial_tells (d : Def) : Tells (Declared d d.initial) .einitial (checkInitial d) := by
  unfold checkInitial
  split
  · rename_i h
    obtain ⟨s, hs, heq⟩ := any_eq_true.mp h
    exact .ok ⟨s, hs, eq_of_beq heq⟩
  · rename_i h
    exact .err (fun ⟨s, hs, heq⟩ => h (any_eq_true.mpr ⟨s, hs, beq_iff_eq.mpr heq⟩))

theorem tells_edges {bad : Edge → Bool} {P : Edge → Prop} {err : Status} (l : List Edge)
    (h : ∀ e, bad e = true ↔ ¬ P e) : Tells (∀ e ∈ l, P e) err (if l.any bad then err else .ok) := by
  refine tells_ite ?_
  rw [any_eq_true]
  push Not
  exact exists_congr fun e => and_congr_right fun _ => h e

/-- The validator answers with the first stage that fails. -/
theorem validate_first (d : Option Def) : FirstViolated (stages d) (validate d) := by
  cases d with
  | none => exact .here id
  | some d =>
    refine firstFailure_first ?_
    refine .cons (checkTop_tells d) (by decide) ?_
    refine .cons (checkStateSpansFrom_tells _) (by decide) ?_
    refine .cons (checkDupStatesFrom_tells _) (by decide) ?_
    refine .cons (checkInitial_tells d) (by decide) ?_
    refine .cons (tells_edges _ fun e => ?_) (by decide) ?_
    · rw [Bool.not_eq_true', ← Bool.not_eq_true, spanOk_iff]
    refine .cons (tells_edges _ fun e => isNone_findState d e.src) (by decide) ?_
    refine .cons (tells_edges _ fun e => isNone_findState d e.dst) (by decide) ?_
    exact .cons (checkDupEdgesFrom_tells _) (by decide) .nil

/-! ## Valid definitions -/

/-- What all stages together ask for. -/
structure Valid (d : Def) : Prop where
  top : d.states.n ≠ 0 ∧ d.states.v ≠ none ∧ (d.edges.n = 0 ∨ d.edges.v ≠ none)
  stateSpans : ∀ s ∈ d.states.elems, SpanOk s.leave ∧ SpanOk s.enter
  ids : d.states.elems.Pairwise (fun s t => s.id ≠ t.id)
  initial : Declared d d.initial
  edgeSpans : ∀ e ∈ d.edges.elems, SpanOk e.effects
  src : ∀ e ∈ d.edges.elems, Declared d e.src
  dst : ∀ e ∈ d.edges.elems, Declared d e.dst
  keys : d.edges.elems.Pairwise (fun e f => ¬ (e.src = f.src ∧ e.event = f.event))

theorem firstViolated_ok {l : List (Prop × Status)} (hne : ∀ x ∈ l, x.2 ≠ .ok) :
    FirstViolated l .ok ↔ ∀ x ∈ l, x.1 := by
  induction l with
  | nil => exact iff_of_true .done (by simp)
  | cons x l ih =>
    have ih := ih (fun y hy => hne y (mem_cons_of_mem x hy))
    rw [forall_mem_cons, ← ih]
    constructor
    · intro h
      generalize hst : Status.ok = st at h
      cases h with
      | here => exact absurd hst.symm (hne _ mem_cons_self)
      | there hp later => exact ⟨hp, hst ▸ later⟩
    · exact fun h => .there h.1 h.2

theorem validate_ok : validate (some d) = .ok ↔ Valid d := by
  have hfirst : validate (some d) = .ok ↔ FirstViolated (stages (some d)) .ok :=
    ⟨fun h => h ▸ validate_first (some d), fun h => (validate_first (some d)).unique h⟩
  rw [hfirst, firstViolated_ok (by simp [stages])]
  constructor
  · intro h
    simp only [stages, forall_mem_cons] at h
    obtain ⟨h1, h2, h3, h4, h5, h6, h7, h8, -⟩ := h
    exact ⟨h1, h2, h3, h4, h5, h6, h7, h8⟩
  · rintro ⟨h1, h2, h3, h4, h5, h6, h7, h8⟩
    simp only [stages, forall_mem_cons]
    exact ⟨h1, h2, h3, h4, h5, h6, h7, h8, by simp⟩

theorem Valid.ids_nodup (hv : Valid d) : (d.states.elems.map StateDef.id).Nodup :=
  pairwise_map.mpr hv.ids

theorem Valid.keys_nodup (hv : Valid d) :
    (d.edges.elems.map (fun e => (e.src, e.event))).Nodup :=
  pairwise_map.mpr (hv.keys.imp fun h heq => h (Prod.mk.injEq _ _ _ _ ▸ heq))

/-! ## Steps -/

/-- What a step does: the unique edge of the state and the event is taken, or there is none. -/
inductive Moves (d : Def) (state event : Nat) (result : StepResult) :
    Status → Nat → StepResult → Prop
  | move {e : Edge} {source dest : StateDef} (he : e ∈ d.edges.elems)
      (hkey : e.src = state ∧ e.event = event)
      (unique : ∀ f ∈ d.edges.elems, f.src = state ∧ f.event = event → f = e)
      (hsource : source ∈ d.states.elems) (hsourceId : source.id = state)
      (hdest : dest ∈ d.states.elems) (hdestId : dest.id = e.dst) :
      Moves d state event result .ok e.dst
        ⟨state, event, e.dst, source.leave, e.effects, dest.enter⟩
  | stay (hnone : ∀ e ∈ d.edges.elems, ¬ (e.src = state ∧ e.event = event)) :
      Moves d state event result .noTransition state result

/-- A run: the statuses, states and results of the events. -/
inductive Driven (d : Def) : Nat → StepResult → List Nat → List (Status × Nat × StepResult) → Prop
  | nil {state : Nat} {result : StepResult} : Driven d state result [] []
  | cons {state state' event : Nat} {st : Status} {result result' : StepResult}
      {events : List Nat} {rest : List (Status × Nat × StepResult)}
      (moves : Moves d state event result st state' result') (declared : Declared d state')
      (later : Driven d state' result' events rest) :
      Driven d state result (event :: events) ((st, state', result') :: rest)

theorem findState_declared {id : Nat} (h : Declared d id) :
    ∃ s, findState d id = some s ∧ s ∈ d.states.elems ∧ s.id = id := by
  obtain ⟨s, hs⟩ := Option.ne_none_iff_exists'.mp (lookupKey_ne_none.mpr h)
  exact ⟨s, hs, lookupKey_mem hs⟩

/-- From a declared state a step is one of the machine, to a declared state. -/
theorem step_moves (hv : Valid d) (hs : Declared d state) (event : Nat) (result : StepResult) :
    ∃ st result', step d state event result = some (st, result') ∧
      Moves d state event result st (if st = .ok then result'.dst else state) result' ∧
      Declared d (if st = .ok then result'.dst else state) := by
  obtain ⟨source, hfind, hsource, hid⟩ := findState_declared hs
  cases hedge : findEdge d state event with
  | none =>
    refine ⟨.noTransition, result, by simp [step, hfind, hedge], .stay fun e he hkey => ?_, hs⟩
    exact lookupKey_eq_none.mp hedge e he (by rw [hkey.1, hkey.2])
  | some e =>
    obtain ⟨he, hkey⟩ := lookupKey_mem hedge
    obtain ⟨dest, hfindDest, hdest, hdestId⟩ := findState_declared (hv.dst e he)
    have hunique : ∀ f ∈ d.edges.elems, f.src = state ∧ f.event = event → f = e := by
      intro f hf hfkey
      have hfk : (f.src, f.event) = (state, event) := by rw [hfkey.1, hfkey.2]
      have := (lookupKey_iff hv.keys_nodup).mpr ⟨hf, hfk⟩
      exact Option.some.inj (this.symm.trans hedge)
    refine ⟨.ok, ⟨state, event, e.dst, source.leave, e.effects, dest.enter⟩,
      by simp [step, hfind, hedge, hfindDest], ?_, hv.dst e he⟩
    exact .move he (Prod.mk.inj hkey) hunique hsource hid hdest hdestId

/-- Runs from a declared state are those of the machine. -/
theorem drive_driven (hv : Valid d) (events : List Nat) (hs : Declared d state)
    (result : StepResult) :
    ∃ out, drive d state result events = some out ∧ Driven d state result events out := by
  induction events generalizing state result with
  | nil => exact ⟨[], rfl, .nil⟩
  | cons event events ih =>
    obtain ⟨st, result', hstep, hmoves, hdecl⟩ := step_moves hv hs event result
    obtain ⟨rest, hrest, hlater⟩ := ih hdecl result'
    exact ⟨_, by rw [drive, hstep]; simp [hrest], .cons hmoves hdecl hlater⟩

/-! ## Reordering -/

/-- The same table in another order. -/
def Table.Reordered {α : Type} (t t' : Table α) : Prop :=
  t'.n = t.n ∧ (t'.v = none ↔ t.v = none) ∧ t.elems.Perm t'.elems

/-- The same definition with its tables in another order. -/
structure Reordered (d d' : Def) : Prop where
  states : d.states.Reordered d'.states
  edges : d.edges.Reordered d'.edges
  initial : d'.initial = d.initial

theorem Reordered.declared (h : Reordered d d') (id : Nat) : Declared d' id ↔ Declared d id :=
  exists_congr fun _ => and_congr_left fun _ => h.states.2.2.mem_iff.symm

theorem Reordered.valid (h : Reordered d d') (hv : Valid d) : Valid d' := by
  have hstates := h.states.2.2
  have hedges := h.edges.2.2
  refine ⟨?_, fun s hs => hv.stateSpans s (hstates.mem_iff.mpr hs), ?_, ?_,
    fun e he => hv.edgeSpans e (hedges.mem_iff.mpr he), ?_, ?_, ?_⟩
  · rw [h.states.1, h.edges.1]
    exact ⟨hv.top.1, fun h0 => hv.top.2.1 (h.states.2.1.mp h0),
      hv.top.2.2.imp_right fun hne h0 => hne (h.edges.2.1.mp h0)⟩
  · exact pairwise_map.mp ((hstates.map StateDef.id).nodup_iff.mp hv.ids_nodup)
  · rw [h.initial, h.declared]
    exact hv.initial
  · exact fun e he => (h.declared _).mpr (hv.src e (hedges.mem_iff.mpr he))
  · exact fun e he => (h.declared _).mpr (hv.dst e (hedges.mem_iff.mpr he))
  · have hnodup := (hedges.map (fun e => (e.src, e.event))).nodup_iff.mp hv.keys_nodup
    exact (pairwise_map.mp hnodup).imp fun hne hkey => hne (Prod.ext hkey.1 hkey.2)

theorem Reordered.findState (h : Reordered d d') (hv : Valid d) (id : Nat) :
    Fsm89.findState d' id = Fsm89.findState d id :=
  lookupKey_perm h.states.2.2 hv.ids_nodup

theorem Reordered.findEdge (h : Reordered d d') (hv : Valid d) (src event : Nat) :
    Fsm89.findEdge d' src event = Fsm89.findEdge d src event :=
  lookupKey_perm h.edges.2.2 hv.keys_nodup

theorem Reordered.start (h : Reordered d d') (hv : Valid d) : Fsm89.start d' = Fsm89.start d := by
  rw [Fsm89.start, h.initial, h.findState hv]
  rfl

theorem Reordered.accepting (h : Reordered d d') (hv : Valid d) (state : Nat) :
    Fsm89.accepting d' state = Fsm89.accepting d state := by
  rw [Fsm89.accepting, h.findState hv]
  rfl

theorem Reordered.step (h : Reordered d d') (hv : Valid d) (state event : Nat)
    (result : StepResult) : Fsm89.step d' state event result = Fsm89.step d state event result := by
  simp only [Fsm89.step, h.findState hv, h.findEdge hv]

theorem Reordered.drive (h : Reordered d d') (hv : Valid d) (events : List Nat) (state : Nat)
    (result : StepResult) : Fsm89.drive d' state result events = Fsm89.drive d state result events := by
  induction events generalizing state result with
  | nil => rfl
  | cons event events ih => simp only [Fsm89.drive, h.step hv, ih]

/-! ## Validated machines -/

/-- The validator answers with the first stage that fails, and `ok` for well-formed definitions
only.  What it accepts runs as a deterministic machine, whatever the events and the order of
the tables. -/
theorem validated_deterministic :
    (∀ d st, validate d = st ↔ FirstViolated (stages d) st) ∧
    (∀ d, validate (some d) = .ok ↔ Valid d) ∧
    ∀ d, validate (some d) = .ok →
      (∃ s ∈ d.states.elems, s.id = d.initial ∧ start d = some (.ok, d.initial, s.enter)) ∧
      (∀ events result, ∃ out, drive d d.initial result events = some out ∧
        Driven d d.initial result events out) ∧
      ∀ d', Reordered d d' → validate (some d') = .ok ∧ start d' = start d ∧
        (∀ state, accepting d' state = accepting d state) ∧
        ∀ events state result, drive d' state result events = drive d state result events := by
  refine ⟨fun d st => ⟨fun h => h ▸ validate_first d, fun h => (validate_first d).unique h⟩,
    fun _ => validate_ok, fun d hok => ?_⟩
  have hv := validate_ok.mp hok
  refine ⟨?_, fun events result => drive_driven hv events hv.initial result, fun d' h => ?_⟩
  · obtain ⟨s, hfind, hs, hid⟩ := findState_declared hv.initial
    exact ⟨s, hs, hid, by rw [start, hfind]; rfl⟩
  · exact ⟨validate_ok.mpr (h.valid hv), h.start hv, h.accepting hv,
      fun events state result => h.drive hv events state result⟩

/-- An array of effects. -/
def effects (l : List Nat) : Effects := ⟨some l, l.length, fun _ h => Option.some.inj h ▸ rfl⟩

/-- A turnstile: a coin (event 0) unlocks it (state 1), a push (event 1) locks it (state 0). -/
def turnstile : Def where
  states := ⟨some [⟨0, effects [], effects [10], 1⟩, ⟨1, effects [], effects [11], 0⟩], 2,
    fun _ h => Option.some.inj h ▸ rfl⟩
  edges := ⟨some [⟨0, 0, 1, effects [20]⟩, ⟨1, 1, 0, effects []⟩], 2,
    fun _ h => Option.some.inj h ▸ rfl⟩
  initial := 0

/-- Two coins and a push. -/
theorem validated_deterministic_turnstile :
    ∃ out, drive turnstile 0 ⟨0, 0, 0, effects [], effects [], effects []⟩ [0, 0, 1] = some out ∧
      Driven turnstile 0 ⟨0, 0, 0, effects [], effects [], effects []⟩ [0, 0, 1] out :=
  (validated_deterministic.2.2 turnstile (by decide)).2.1 [0, 0, 1]
    ⟨0, 0, 0, effects [], effects [], effects []⟩

end Fsm89
