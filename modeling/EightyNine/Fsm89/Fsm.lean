import EightyNine.Library.Keyed

/-!
# libfsm89

Definitions of labelled transition systems as tables of states and edges, the validator
and the step.  A pointer to an array with its count is a `Table`; the type of identifiers
and effects does not matter beyond its equality.  A dereference of `NULL` has no result.
-/

namespace Fsm89

open Library (lookupKey)

/-- An array behind a pointer that may be `NULL`, and its count. -/
structure Table (α : Type) where
  v : Option (List α)
  n : Nat
  count : ∀ l, v = some l → l.length = n

/-- The elements that the count speaks of. -/
def Table.elems {α : Type} (t : Table α) : List α := t.v.getD []

/-- `fsm89_effects`. -/
abbrev Effects := Table Nat

/-- `fsm89_state_def`. -/
structure StateDef where
  id : Nat
  leave : Effects
  enter : Effects
  accepting : Int

/-- `fsm89_edge`. -/
structure Edge where
  src : Nat
  event : Nat
  dst : Nat
  effects : Effects

/-- `fsm89_def`. -/
structure Def where
  states : Table StateDef
  edges : Table Edge
  initial : Nat

/-- `fsm89_step_result`. -/
structure StepResult where
  src : Nat
  event : Nat
  dst : Nat
  leave : Effects
  edge : Effects
  enter : Effects

/-- `fsm89_status`. -/
inductive Status where
  | ok
  | noTransition
  | estate
  | edef
  | eeffects
  | edupState
  | einitial
  | eedgeFrom
  | eedgeTo
  | edupEdge
  deriving DecidableEq

/-! ## Look-ups -/

/-- `fsm89__span_ok`. -/
def spanOk (span : Effects) : Bool :=
  if span.n = 0 then true
  else if span.v.isNone then false
  else true

/-- `fsm89__find_state`. -/
def findState (d : Def) (id : Nat) : Option StateDef := lookupKey StateDef.id d.states.elems id

/-- `fsm89__find_edge`. -/
def findEdge (d : Def) (src event : Nat) : Option Edge :=
  lookupKey (fun e => (e.src, e.event)) d.edges.elems (src, event)

/-! ## Validation -/

/-- `check_top`. -/
def checkTop : Option Def → Status
  | none => .edef
  | some d =>
    if d.states.n = 0 then .edef
    else if d.states.v.isNone then .edef
    else if d.edges.n = 0 then .ok
    else if d.edges.v.isNone then .edef
    else .ok

/-- The loop of `check_state_spans`. -/
def checkStateSpansFrom : List StateDef → Status
  | [] => .ok
  | s :: rest =>
    if !spanOk s.leave then .eeffects
    else if !spanOk s.enter then .eeffects
    else checkStateSpansFrom rest

/-- `check_state_spans`. -/
def checkStateSpans (d : Def) : Status := checkStateSpansFrom d.states.elems

/-- The loops of `check_dup_states`. -/
def checkDupStatesFrom : List StateDef → Status
  | [] => .ok
  | s :: rest =>
    if rest.any (fun t => s.id == t.id) then .edupState else checkDupStatesFrom rest

/-- `check_dup_states`. -/
def checkDupStates (d : Def) : Status := checkDupStatesFrom d.states.elems

/-- `check_initial`. -/
def checkInitial (d : Def) : Status :=
  if d.states.elems.any (fun s => s.id == d.initial) then .ok else .einitial

/-- `check_edge_spans`. -/
def checkEdgeSpans (d : Def) : Status :=
  if d.edges.elems.any (fun e => !spanOk e.effects) then .eeffects else .ok

/-- `check_edge_from`. -/
def checkEdgeFrom (d : Def) : Status :=
  if d.edges.elems.any (fun e => (findState d e.src).isNone) then .eedgeFrom else .ok

/-- `check_edge_to`. -/
def checkEdgeTo (d : Def) : Status :=
  if d.edges.elems.any (fun e => (findState d e.dst).isNone) then .eedgeTo else .ok

/-- The loops of `check_dup_edges`. -/
def checkDupEdgesFrom : List Edge → Status
  | [] => .ok
  | e :: rest =>
    if rest.any (fun f => e.src == f.src && e.event == f.event) then .edupEdge
    else checkDupEdgesFrom rest

/-- `check_dup_edges`. -/
def checkDupEdges (d : Def) : Status := checkDupEdgesFrom d.edges.elems

/-- The first status of several stages that is not `ok`. -/
def firstFailure : List Status → Status
  | [] => .ok
  | st :: rest => if st ≠ .ok then st else firstFailure rest

/-- `fsm89_validate`. -/
def validate (d : Option Def) : Status :=
  match d with
  | none => checkTop none
  | some d =>
    firstFailure [checkTop (some d), checkStateSpans d, checkDupStates d, checkInitial d,
      checkEdgeSpans d, checkEdgeFrom d, checkEdgeTo d, checkDupEdges d]

/-! ## Running -/

/-- `fsm89_start`: the state and its effects. -/
def start (d : Def) : Option (Status × Nat × Effects) := do
  let initial ← findState d d.initial
  return (.ok, d.initial, initial.enter)

/-- `fsm89_accepting`. -/
def accepting (d : Def) (state : Nat) : Int :=
  match findState d state with
  | none => 0
  | some s => s.accepting

/-- `fsm89_step`, with the result before and after. -/
def step (d : Def) (state event : Nat) (result : StepResult) : Option (Status × StepResult) :=
  match findState d state with
  | none => some (.estate, result)
  | some source =>
    match findEdge d state event with
    | none => some (.noTransition, result)
    | some edge => do
      let dest ← findState d edge.dst
      return (.ok, ⟨state, event, edge.dst, source.leave, edge.effects, dest.enter⟩)

/-- A caller that commits every transition: for each event the status, the state behind it and
the result. -/
def drive (d : Def) (state : Nat) (result : StepResult) :
    List Nat → Option (List (Status × Nat × StepResult))
  | [] => some []
  | event :: events => do
    let (st, result) ← step d state event result
    let state := if st = .ok then result.dst else state
    let rest ← drive d state result events
    return (st, state, result) :: rest

end Fsm89
