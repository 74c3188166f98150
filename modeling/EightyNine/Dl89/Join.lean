import EightyNine.Dl89.Types

/-!
# Joining the body of a rule

The body atoms of a rule are evaluated from left to right with backtracking.  A
position scans the store, and one position may go through the tuples of a delta
instead.  A complete match emits the head, and a tuple the store did not have is
recorded in the sink.  The store is a table of callbacks over a state of its
own.
-/

namespace Dl89

/-! ## Delta tables -/

/-- `dl89_delta`. -/
structure Delta where
  relation : Rel
  arity : Nat
  tuples : List (List Const)

/-- `dl89_delta_table`. -/
structure DeltaTable where
  entries : List Delta
  total : Nat

/-- `table_init`. -/
def DeltaTable.init : DeltaTable := ⟨[], 0⟩

def Delta.isFor (d : Delta) (relation : Rel) (arity : Nat) : Bool :=
  d.relation == relation && d.arity == arity

/-- `dl89_delta_table_clear`. -/
def deltaTableClear (table : DeltaTable) : DeltaTable :=
  ⟨table.entries.map fun d => { d with tuples := [] }, 0⟩

/-- `dl89_delta_find`. -/
def deltaFind (table : DeltaTable) (relation : Rel) (arity : Nat) : Option Delta :=
  table.entries.find? fun d => d.isFor relation arity

/-- The entry of `delta_index`, or a new one, with one more tuple. -/
def recordEntry (relation : Rel) (arity : Nat) (tuple : List Const) : List Delta → List Delta
  | [] => [⟨relation, arity, [tuple]⟩]
  | d :: ds =>
    if d.isFor relation arity then { d with tuples := d.tuples ++ [tuple] } :: ds
    else d :: recordEntry relation arity tuple ds

/-- `dl89_delta_record`. -/
def deltaRecord (table : DeltaTable) (relation : Rel) (arity : Nat) (tuple : List Const) :
    DeltaTable :=
  ⟨recordEntry relation arity tuple table.entries, table.total + 1⟩

/-! ## The store -/

/-- `dl89_store_ops`, with the return codes.  `insert` also tells whether the
tuple is new, and `scanNext` answers no tuple at the end of the scan. -/
structure StoreOps (σ ι : Type) where
  insert : σ → Rel → Nat → List Const → σ × Int × Bool
  scanOpen : σ → Rel → Nat → List Const → List Bool → σ × Int × Option ι
  scanNext : σ → ι → σ × Int × Option (List Const)
  scanClose : σ → ι → σ

variable {σ ι : Type}

/-- What a join changes. -/
structure Join (σ : Type) where
  store : σ
  scratch : Scratch
  sink : DeltaTable

/-! ## Bindings and unification -/

/-- `head_value`. -/
def headValue (env : Nat → Const) : CTerm → Const
  | .const c => c
  | .slot i => env i

/-- `bind_position`. -/
def bindPosition (s : Scratch) : CTerm → Const × Bool
  | .const c => (c, true)
  | .slot i => if s.bound i then (s.env i, true) else (0, false)

/-- `build_bindings`. -/
def buildBindings (s : Scratch) (atom : CAtom) : Scratch :=
  { s with
    values := atom.terms.map fun t => (bindPosition s t).1
    bvalues := atom.terms.map fun t => (bindPosition s t).2 }

/-- `unbind_one`. -/
def unbindOne (s : Scratch) (slot : Nat) : Scratch :=
  { s with bound := fun i => if i = slot then false else s.bound i }

/-- `unbind`: the first `count` entries of the log at `base`. -/
def unbind (s : Scratch) (base : Nat) : Nat → Scratch
  | 0 => s
  | count + 1 => unbindOne (unbind s base count) (s.boundLog (base + count))

/-- `clear_bound`. -/
def clearBound (s : Scratch) : Scratch := { s with bound := fun _ => false }

/-- `unify_position`: a slot bound here is entry `n` of the log at `base`. -/
def unifyPosition (s : Scratch) (base n : Nat) (term : CTerm) (value : Const) :
    Scratch × Nat × Bool :=
  match term with
  | .const c => (s, n, value == c)
  | .slot i =>
    if s.bound i then (s, n, s.env i == value)
    else
      ({ s with
          env := fun j => if j = i then value else s.env j
          bound := fun j => if j = i then true else s.bound j
          boundLog := fun j => if j = base + n then i else s.boundLog j }, n + 1, true)

/-- `unify_tuple`: the slots bound and whether the tuple matched. -/
def unifyTuple (base : Nat) : List CTerm → List Const → Scratch → Nat → Scratch × Nat × Bool
  | [], _, s, n => (s, n, true)
  | t :: ts, tuple, s, n =>
    match unifyPosition s base n t (tuple.headD 0) with
    | (s, n, true) => unifyTuple base ts tuple.tail s n
    | (s, n, false) => (s, n, false)

/-! ## The join -/

/-- `emit_head`. -/
def emitHead (ops : StoreOps σ ι) (code : Code) (st : Join σ) : Status × Join σ :=
  let tuple := code.head.terms.map (headValue st.scratch.env)
  let (store, rc, inserted) := ops.insert st.store code.head.relation code.head.arity tuple
  let st := { st with store := store, scratch := { st.scratch with tuple := tuple } }
  if rc ≠ 0 then (.estore, st)
  else if inserted then
    (.ok, { st with sink := deltaRecord st.sink code.head.relation code.head.arity tuple })
  else (.ok, st)

/-- `delta_step`, and the part of `scan_one` after a tuple is read. -/
def deltaStep (code : Code) (atom : CAtom) (depth : Nat)
    (inner : Join σ → Option (Status × Join σ)) (tuple : List Const) (st : Join σ) :
    Option (Status × Join σ) := do
  let base := depth * code.tupleCap
  let (scratch, boundCount, matched) := unifyTuple base atom.terms tuple st.scratch 0
  let st := { st with scratch := scratch }
  let (status, st) ← if matched then inner st else pure (.ok, st)
  pure (status, { st with scratch := unbind st.scratch base boundCount })

/-- The loop of `scan_atom` over `scan_one`. -/
def scanLoop (ops : StoreOps σ ι) (code : Code) (atom : CAtom) (depth : Nat)
    (inner : Nat → Join σ → Option (Status × Join σ)) (scan : ι) :
    Nat → Join σ → Option (Status × Join σ)
  | 0, _ => none
  | fuel + 1, st => do
    let (store, rc, found) := ops.scanNext st.store scan
    let st := { st with store := store }
    if rc ≠ 0 then pure (.estore, st)
    else
      match found with
      | none => pure (.ok, st)
      | some tuple =>
        let st := { st with scratch := { st.scratch with tuple := tuple } }
        let (status, st) ← deltaStep code atom depth (inner fuel) tuple st
        if status = .ok then scanLoop ops code atom depth inner scan fuel st
        else pure (status, st)

/-- `scan_atom`. -/
def scanAtom (ops : StoreOps σ ι) (code : Code) (atom : CAtom) (depth : Nat)
    (inner : Nat → Join σ → Option (Status × Join σ)) (fuel : Nat) (st : Join σ) :
    Option (Status × Join σ) := do
  let st := { st with scratch := buildBindings st.scratch atom }
  let (store, rc, scan) :=
    ops.scanOpen st.store atom.relation atom.arity st.scratch.values st.scratch.bvalues
  let st := { st with store := store }
  if rc ≠ 0 then pure (.estore, st)
  else
    match scan with
    | none => pure (.estore, st)
    | some scan =>
      let (status, st) ← scanLoop ops code atom depth inner scan fuel st
      pure (status, { st with store := ops.scanClose st.store scan })

/-- `delta_atom`. -/
def deltaAtom (code : Code) (atom : CAtom) (depth : Nat)
    (inner : Join σ → Option (Status × Join σ)) :
    List (List Const) → Join σ → Option (Status × Join σ)
  | [], st => some (.ok, st)
  | tuple :: tuples, st => do
    let (status, st) ← deltaStep code atom depth inner tuple st
    if status = .ok then deltaAtom code atom depth inner tuples st else pure (status, st)

/-- `eval_body` on the atoms from `depth` on. -/
def evalBody (ops : StoreOps σ ι) (code : Code) (delta : Option Delta) (deltaPos : Nat) :
    List CAtom → Nat → Nat → Join σ → Option (Status × Join σ)
  | [], _, _, st => some (emitHead ops code st)
  | atom :: rest, depth, fuel, st =>
    let inner := fun fuel st => evalBody ops code delta deltaPos rest (depth + 1) fuel st
    match delta with
    | none => scanAtom ops code atom depth inner fuel st
    | some d =>
      if depth = deltaPos then deltaAtom code atom depth (inner fuel) d.tuples st
      else scanAtom ops code atom depth inner fuel st

/-- `dl89_join_rule`. -/
def joinRule (ops : StoreOps σ ι) (fuel : Nat) (rule : CRule) (store : σ) (sink : DeltaTable)
    (delta : Option Delta) (deltaPos : Nat) : Option (Status × CRule × σ × DeltaTable) := do
  let (status, st) ← evalBody ops rule.code delta deltaPos rule.code.body 0 fuel
    ⟨store, clearBound rule.scratch, sink⟩
  pure (status, { rule with scratch := st.scratch }, st.store, st.sink)

end Dl89

/-!
# Semi-naive evaluation

Round 0 evaluates every rule over the store.  Each later round evaluates, for
every rule and every derivable body position, the variant whose scan at that
position goes through the delta of the previous round.  The run stops when a
round derives nothing new.
-/

namespace Dl89

variable {σ ι : Type}

/-- What a round changes: the rules' scratch, the store and the sink. -/
abbrev Round (σ : Type) := Status × List CRule × σ × DeltaTable

/-- `relation_is_idb`. -/
def relationIsIdb (rules : List CRule) (relation : Rel) : Bool :=
  rules.any fun r => r.code.head.relation == relation

/-- `run_variant` at the body position `pos` with the given atom. -/
def runVariant (ops : StoreOps σ ι) (fuel : Nat) (idb : Rel → Bool) (delta : DeltaTable)
    (rule : CRule) (pos : Nat) (atom : CAtom) (store : σ) (next : DeltaTable) :
    Option (Status × CRule × σ × DeltaTable) :=
  if idb atom.relation then
    match deltaFind delta atom.relation atom.arity with
    | none => some (.ok, rule, store, next)
    | some facts => joinRule ops fuel rule store next (some facts) pos
  else some (.ok, rule, store, next)

/-- The inner loop of `run_round`, over the body positions from `pos` on. -/
def runVariants (ops : StoreOps σ ι) (fuel : Nat) (idb : Rel → Bool) (delta : DeltaTable) :
    List CAtom → Nat → CRule → σ → DeltaTable → Option (Status × CRule × σ × DeltaTable)
  | [], _, rule, store, next => some (.ok, rule, store, next)
  | atom :: body, pos, rule, store, next => do
    let (status, rule, store, next) ← runVariant ops fuel idb delta rule pos atom store next
    if status = .ok then runVariants ops fuel idb delta body (pos + 1) rule store next
    else pure (status, rule, store, next)

/-- A loop over the rules that stops at the first failure. -/
def eachRule (run : CRule → σ → DeltaTable → Option (Status × CRule × σ × DeltaTable)) :
    List CRule → σ → DeltaTable → Option (Round σ)
  | [], store, sink => some (.ok, [], store, sink)
  | rule :: rules, store, sink => do
    let (status, rule, store, sink) ← run rule store sink
    if status = .ok then do
      let (status, rules, store, sink) ← eachRule run rules store sink
      pure (status, rule :: rules, store, sink)
    else pure (status, rule :: rules, store, sink)

/-- `run_round`. -/
def runRound (ops : StoreOps σ ι) (fuel : Nat) (rules : List CRule) (store : σ)
    (delta next : DeltaTable) : Option (Round σ) :=
  eachRule (fun rule => runVariants ops fuel (relationIsIdb rules) delta rule.code.body 0 rule)
    rules store next

/-- The loop of `dl89_fixpoint_run` over `fixpoint_step`, which swaps the tables. -/
def fixpointLoop (ops : StoreOps σ ι) :
    Nat → List CRule → σ → DeltaTable → DeltaTable → Option (Status × List CRule × σ)
  | 0, _, _, _, _ => none
  | fuel + 1, rules, store, delta, next =>
    if delta.total > 0 then do
      let (status, rules, store, next) ← runRound ops fuel rules store delta next
      if status = .ok then fixpointLoop ops fuel rules store next (deltaTableClear delta)
      else pure (status, rules, store)
    else some (.ok, rules, store)

/-- `dl89_fixpoint_run`. -/
def fixpointRun (ops : StoreOps σ ι) (fuel : Nat) (rules : List CRule) (store : σ) :
    Option (Status × List CRule × σ) := do
  let (status, rules, store, delta) ←
    eachRule (fun rule store sink => joinRule ops fuel rule store sink none 0) rules store .init
  if status = .ok then fixpointLoop ops fuel rules store delta .init
  else pure (status, rules, store)

/-- `dl89_eval_run`. -/
def evalRun (ops : StoreOps σ ι) (fuel : Nat) (e : Eval) (store : σ) :
    Option (Status × Eval × σ) :=
  if e.running then some (.ebusy, e, store)
  else do
    let (status, rules, store) ← fixpointRun ops fuel e.rules store
    pure (status, { e with rules := rules, running := false }, store)

/-- `dl89_eval_add_fact`. -/
def evalAddFact (ops : StoreOps σ ι) (e : Eval) (store : σ) (relation : Rel)
    (tuple : List Const) : Status × Eval × σ :=
  if e.running then (.ebusy, e, store)
  else
    let insert (added : Eval) : Status × Eval × σ :=
      let (store, rc, _) := ops.insert store relation tuple.length tuple
      if rc ≠ 0 then (.estore, e, store) else (.ok, added, store)
    match registryFind e.arities relation with
    | none => insert { e with arities := e.arities ++ [⟨relation, tuple.length⟩] }
    | some entry => if entry.arity ≠ tuple.length then (.eprogram, e, store) else insert e

end Dl89
