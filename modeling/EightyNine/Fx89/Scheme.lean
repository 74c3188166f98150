import EightyNine.Fx89.Solve

/-!
# Schemes

A scheme is a row frozen over some of its variables, together with their facts
and with pending subsets and joins over them.  Instantiating it makes fresh
variables, gives them the facts, posts the constraints and hands out the row.
-/

namespace Fx89

variable {α : Type} [LinearOrder α]

/-- `fx_var_tmpl`. -/
structure VarTmpl (α : Type) where
  required : List α
  forbidden : List α
  deriving DecidableEq

/-- The tail of a row template: closed, a quantified slot, or `FX_SLOT_NONE`. -/
inductive TailTmpl where
  | closed
  | slot (i : Nat)
  | outer
  deriving DecidableEq

/-- `fx_row_tmpl`. -/
structure RowTmpl (α : Type) where
  head : List α
  tail : TailTmpl
  deriving DecidableEq

/-- `fx_cons_tmpl`; an equality has a template too, and no instance. -/
inductive ConsTmpl (α : Type) where
  | equal (a b : RowTmpl α)
  | subset (a b : RowTmpl α)
  | join (a b extra : RowTmpl α)
  deriving DecidableEq

/-- `fx_scheme`, less the live objects it keeps for inspection. -/
structure Scheme (α : Type) where
  slots : List (VarTmpl α)
  cons : List (ConsTmpl α)
  body : RowTmpl α
  deriving DecidableEq

/-! ## Freezing -/

/-- `slot_of`. -/
def slotOf (tail : Nat) (qv : List Nat) : Option Nat :=
  if tail ∈ qv then some (qv.idxOf tail) else none

/-- `snapshot_row`. -/
def snapshotRow (c : Ctx α) (qv : List Nat) (allowOuter : Bool) (row : Row α) :
    Except Status (RowTmpl α) :=
  let n := c.normalize row
  match n.tail with
  | none => .ok ⟨n.head, .closed⟩
  | some tail =>
    match slotOf tail qv with
    | some i => .ok ⟨n.head, .slot i⟩
    | none => if allowOuter then .ok ⟨n.head, .outer⟩ else .error .errInvalid

/-- `snapshot_cons`.  Membership and lacks have no row `a`, which the source reads
here all the same; such a call has no result. -/
def snapshotCons (c : Ctx α) (qv : List Nat) (k : Nat) : Option (Except Status (ConsTmpl α)) :=
  match (c.constraints k).goal with
  | .equal a b => some do
      return .equal (← snapshotRow c qv false a) (← snapshotRow c qv false b)
  | .subset a b => some do
      return .subset (← snapshotRow c qv false a) (← snapshotRow c qv false b)
  | .join a b extra => some do
      return .join (← snapshotRow c qv false a) (← snapshotRow c qv false b)
        (← snapshotRow c qv false extra)
  | .member _ _ => none
  | .lacks _ _ => none

/-- `snapshot_facts`. -/
def snapshotFacts (c : Ctx α) (v : Nat) : VarTmpl α :=
  ⟨(c.vars v).required, (c.vars v).forbidden⟩

/-- `capture_cons_all`. -/
def captureConsAll (c : Ctx α) (qv : List Nat) : List Nat → Option (Except Status (List (ConsTmpl α)))
  | [] => some (.ok [])
  | k :: ks =>
    match snapshotCons c qv k with
    | none => none
    | some (.error st) => some (.error st)
    | some (.ok t) => (captureConsAll c qv ks).map fun ts => ts.map (t :: ·)

/-- `scheme_build`. -/
def schemeBuild (c : Ctx α) (vars : List Nat) (body : Row α) (cons : List Nat)
    (allowOuter : Bool) : Option (Except Status (Scheme α)) :=
  match snapshotRow c vars allowOuter body with
  | .error st => some (.error st)
  | .ok bodyTmpl =>
    (captureConsAll c vars cons).map fun ts =>
      ts.map fun ts => ⟨vars.map (snapshotFacts c), ts, bodyTmpl⟩

/-- `fx_scheme_new`. -/
def schemeNew (vars : List Nat) (body : Row α) (cons : List Nat) (c : Ctx α) :
    Option (Except Status (Scheme α)) :=
  if vars.Nodup then schemeBuild c vars body cons false else some (.error .errInvalid)

/-- `row_in_vars`. -/
def rowInVars (c : Ctx α) (gv : Nat) (row : Row α) : Bool :=
  match (c.normalize row).tail with
  | none => true
  | some v => v = gv

/-- `eligible_one`: a pending subset or join all of whose rows are over the variable. -/
def eligibleOne (c : Ctx α) (gv k : Nat) : Bool :=
  let x := c.constraints k
  match x.goal with
  | .subset _ _ | .join _ _ _ =>
    x.state = .pending ∧ x.goal.operands.all (rowInVars c gv)
  | _ => false

/-- `fx_generalize`. -/
def generalize (body : Row α) (nongeneralizable : List Nat) (c : Ctx α) :
    Option (Except Status (Scheme α)) :=
  match (c.normalize body).tail with
  | none => schemeBuild c [] body [] true
  | some tv =>
    if tv ∈ nongeneralizable then schemeBuild c [] body [] true
    else schemeBuild c [tv] body (c.listed.filter (eligibleOne c tv)) true

/-! ## Instantiation -/

/-- `fresh_all`. -/
def freshAll : Nat → Ctx α → List Nat × Ctx α
  | 0, c => ([], c)
  | n + 1, c =>
    let (v, c) := c.varNew
    let (vs, c) := freshAll n c
    (v :: vs, c)

/-- `restore_slot`. -/
def restoreSlot (p : Nat × VarTmpl α) (c : Ctx α) : Outcome α :=
  Outcome.andThen (forAll p.2.required (fun a c => c.varRequire p.1 a) c)
    (forAll p.2.forbidden fun a c => c.varForbid p.1 a)

/-- `restore_all`. -/
def restoreAll (fresh : List Nat) (slots : List (VarTmpl α)) (c : Ctx α) : Outcome α :=
  forAll (fresh.zip slots) restoreSlot c

/-- `materialize_row`. -/
def materializeRow (t : RowTmpl α) (fresh : List Nat) (c : Ctx α) : RowOutcome α :=
  match t.tail with
  | .closed => rowClosed t.head c
  | .outer => (.errUnsupported, none, c)
  | .slot i => rowOpen t.head (fresh.getD i 0) c

/-- The rows of a list of templates, one after the other. -/
def materializeAll (fresh : List Nat) : List (RowTmpl α) → Ctx α → Status × List (Row α) × Ctx α
  | [], c => (.ok, [], c)
  | t :: ts, c =>
    match materializeRow t fresh c with
    | (.ok, some row, c) =>
      let o := materializeAll fresh ts c
      (o.1, row :: o.2.1, o.2.2)
    | (st, _, c) => (st, [], c)

/-- `reify_one`. -/
def reifyOne (fresh : List Nat) (t : ConsTmpl α) (c : Ctx α) : Outcome α :=
  match t with
  | .equal _ _ => (.errUnsupported, c)
  | .subset a b =>
    match materializeAll fresh [a, b] c with
    | (.ok, [a, b], c) => (.ok, requireSubset a b c)
    | (st, _, c) => (st, c)
  | .join a b extra =>
    match materializeAll fresh [a, b, extra] c with
    | (.ok, [a, b, extra], c) => (.ok, requireJoin a b extra c)
    | (st, _, c) => (st, c)

/-- `fx_instantiate`. -/
def instantiate (scheme : Scheme α) (c : Ctx α) : RowOutcome α :=
  let (fresh, c) := freshAll scheme.slots.length c
  let o := Outcome.andThen (restoreAll fresh scheme.slots c) (forAll scheme.cons (reifyOne fresh))
  if o.1 = .ok then materializeRow scheme.body fresh o.2 else (o.1, none, o.2)

end Fx89

/-!
# The host of a context

A host calls the library with the rows, variables, constraints and schemes it was
handed, less those a rollback took back.  `World.call` is one call; it has no
result where the host may not make the call, and where a solver loop needs more
passes than it is given.
-/

namespace Fx89

variable {α : Type} [LinearOrder α]

/-- The calls that hand out rows. -/
inductive RowCall (α : Type) where
  | empty
  | var (v : Nat)
  | closed (atoms : List α)
  | openRow (atoms : List α) (tail : Nat)
  | extend (base : Row α) (atom : α)
  | normalize (row : Row α)
  | union (a b : Row α)
  | remove (row : Row α) (atom : α)
  | removeMany (row : Row α) (atoms : List α)
  | binding (v : Nat)

/-- What a row call does. -/
def RowCall.run : RowCall α → Ctx α → RowOutcome α
  | .empty => rowEmpty
  | .var v => rowVar v
  | .closed atoms => rowClosed atoms
  | .openRow atoms tail => rowOpen atoms tail
  | .extend base atom => rowExtend base atom
  | .normalize row => rowNormalize row
  | .union a b => rowUnion a b
  | .remove row atom => rowRemove row atom
  | .removeMany row atoms => rowRemoveMany row atoms
  | .binding v => varBinding v

/-- The rows a row call is given. -/
def RowCall.rows : RowCall α → List (Row α)
  | .extend base _ => [base]
  | .normalize row => [row]
  | .union a b => [a, b]
  | .remove row _ => [row]
  | .removeMany row _ => [row]
  | _ => []

/-- The variables a row call is given. -/
def RowCall.vars : RowCall α → List Nat
  | .var v => [v]
  | .openRow _ tail => [tail]
  | .binding v => [v]
  | _ => []

/-- A call of the library. -/
inductive Call (α : Type) where
  | varNew
  | row (call : RowCall α)
  | equal (a b : Row α)
  | subset (subset superset : Row α)
  | member (atom : α) (row : Row α)
  | lacks (atom : α) (row : Row α)
  | join (out left right : Row α)
  | pure (row : Row α)
  | solve
  | checkpoint
  | rollback (token : Nat)
  | commit (token : Nat)
  | schemeNew (vars : List Nat) (body : Row α) (cons : List Nat)
  | generalize (body : Row α) (nongeneralizable : List Nat)
  | instantiate (scheme : Scheme α)

/-- A context with what the host was handed; `saved` has the rows and schemes of the
open checkpoints, the newest first. -/
structure World (α : Type) where
  ctx : Ctx α
  rows : List (Row α)
  schemes : List (Scheme α)
  saved : List (List (Row α) × List (Scheme α))

namespace World

/-- A new context. -/
def new : World α := ⟨ctxNew, [], [], []⟩

/-- The host may use these rows, variables and constraints. -/
def Holds (w : World α) (rows : List (Row α)) (vars cons : List Nat) : Prop :=
  (∀ r ∈ rows, r ∈ w.rows) ∧ (∀ v ∈ vars, v ∈ w.ctx.varList) ∧
    ∀ k ∈ cons, (w.ctx.constraints k).live = true

instance decidableHolds (w : World α) (rows : List (Row α)) (vars cons : List Nat) :
    Decidable (w.Holds rows vars cons) :=
  inferInstanceAs (Decidable (_ ∧ _ ∧ _))

/-- A constraint posted by the host. -/
def post (w : World α) (rows : List (Row α)) (f : Ctx α → Ctx α) : Option (Status × World α) :=
  if w.Holds rows [] [] then some (.ok, { w with ctx := f w.ctx }) else none

/-- The result of a row call. -/
def handRow (w : World α) (o : RowOutcome α) : Status × World α :=
  (o.1, { w with ctx := o.2.2, rows := o.2.1.toList ++ w.rows })

/-- The result of a call that makes a scheme. -/
def handScheme (w : World α) : Except Status (Scheme α) → Status × World α
  | .ok scheme => (.ok, { w with schemes := scheme :: w.schemes })
  | .error st => (st, w)

/-- One call, with a bound on the passes of the solver. -/
def call (fuel : Nat) (w : World α) : Call α → Option (Status × World α)
  | .varNew => some (.ok, { w with ctx := w.ctx.varNew.2 })
  | .row rc => if w.Holds rc.rows rc.vars [] then some (w.handRow (rc.run w.ctx)) else none
  | .equal a b => w.post [a, b] (requireEqual a b)
  | .subset a b => w.post [a, b] (requireSubset a b)
  | .member x b => w.post [b] (requireMember x b)
  | .lacks x b => w.post [b] (requireLacks x b)
  | .join o l r => w.post [o, l, r] (requireJoin o l r)
  | .pure a => w.post [a] (requirePure a)
  | .solve => (w.ctx.solve fuel).map fun o => (o.1, { w with ctx := o.2 })
  | .checkpoint =>
    some (.ok, { w with ctx := (ctxCheckpoint w.ctx).2, saved := (w.rows, w.schemes) :: w.saved })
  | .rollback token =>
    match ctxRollback token w.ctx, w.saved with
    | (.ok, c), (rows, schemes) :: saved => some (.ok, ⟨c, rows, schemes, saved⟩)
    | (st, _), _ => some (st, w)
  | .commit token =>
    match ctxCommit token w.ctx with
    | (.ok, c) => some (.ok, { w with ctx := c, saved := w.saved.tail })
    | (st, _) => some (st, w)
  | .schemeNew vars body cons =>
    if w.Holds [body] vars cons then (schemeNew vars body cons w.ctx).map w.handScheme else none
  | .generalize body vars =>
    if w.Holds [body] vars [] then (generalize body vars w.ctx).map w.handScheme else none
  | .instantiate scheme =>
    if scheme ∈ w.schemes then some (w.handRow (instantiate scheme w.ctx)) else none

/-- The calls of a list one after the other, whatever their status. -/
def calls (fuel : Nat) : World α → List (Call α) → Option (World α)
  | w, [] => some w
  | w, call :: rest =>
    match w.call fuel call with
    | none => none
    | some o => calls fuel o.2 rest

end World

end Fx89
