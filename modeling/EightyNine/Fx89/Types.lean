import Mathlib.Data.List.Sort
import Mathlib.Logic.Function.Basic

/-!
# Effect rows, variables, constraints and contexts

An effect row is a finite set of atoms, its *head*, and an optional row variable,
its *tail*.  A variable may be *bound* to a row; until then the solver knows of
it the atoms it must have and the atoms it must not have, its required and
forbidden *facts*.  A constraint is one of five relations between rows.

Atoms are a linear order here; those of the source are interned, so that two of
them are equal exactly when they are the same.

Objects of a context never move and are never freed before the context is, so
variables and constraints are numbered in the order of their creation.  Every
change the solver makes while a checkpoint is open leaves a record on the
*trail*.
-/

namespace Fx89

/-- `fx_status`. -/
inductive Status where
  | ok
  | errNomem
  | errInvalid
  | errDuplicate
  | errUnknown
  | errUnsat
  | errOccurs
  | errCallback
  | errUnsupported
  | errRange
  | errInternal
  deriving DecidableEq

/-- `fx_truth`. -/
inductive Truth where
  | false
  | true
  | unknown
  deriving DecidableEq

/-- `fx_constraint_state`. -/
inductive State where
  | pending
  | satisfied
  | failed
  deriving DecidableEq

/-- `fx_conflict_kind`. -/
inductive ConflictKind where
  | none
  | equality
  | subset
  | memberLacks
  | occurs
  | join
  | internal

/-- The two arrays of facts of a variable. -/
inductive Side where
  | required
  | forbidden
  deriving DecidableEq

/-- The other array. -/
def Side.other : Side → Side
  | .required => .forbidden
  | .forbidden => .required

variable {α : Type}

/-- `fx_row`. -/
structure Row (α : Type) where
  head : List α
  tail : Option Nat
  deriving DecidableEq

/-- `fx_var`.  Watchers are constraints, the newest first. -/
structure Var (α : Type) where
  binding : Option (Row α) := none
  watchers : List Nat := []
  required : List α := []
  forbidden : List α := []

/-- The facts of one side. -/
def Var.facts (x : Var α) : Side → List α
  | .required => x.required
  | .forbidden => x.forbidden

/-- A fact pushed at the end of its array. -/
def Var.push (x : Var α) (a : α) : Side → Var α
  | .required => { x with required := x.required ++ [a] }
  | .forbidden => { x with forbidden := x.forbidden ++ [a] }

/-- `undo_req` and `undo_forb`: the array is one shorter. -/
def Var.pop (x : Var α) : Side → Var α
  | .required => { x with required := x.required.dropLast }
  | .forbidden => { x with forbidden := x.forbidden.dropLast }

/-- The five kinds of constraint with the rows and the atom each is about. -/
inductive Goal (α : Type) where
  | equal (a b : Row α)
  | subset (a b : Row α)
  | member (atom : α) (b : Row α)
  | lacks (atom : α) (b : Row α)
  | join (a b extra : Row α)

/-- The rows among `a`, `b` and `extra` that are there, in this order. -/
def Goal.operands : Goal α → List (Row α)
  | .equal a b => [a, b]
  | .subset a b => [a, b]
  | .member _ b => [b]
  | .lacks _ b => [b]
  | .join a b extra => [a, b, extra]

/-- `fx_constraint`.  A constraint is live while the context lists it. -/
structure Constraint (α : Type) where
  goal : Goal α
  state : State := .pending
  live : Bool := true

/-- The three conflict fields of a context. -/
structure Conflict where
  kind : ConflictKind
  primary : Option Nat
  secondary : Option Nat

/-- `fx_trail_rec`; `FX_TR_REQ` and `FX_TR_FORB` are the two sides of `fact`. -/
inductive TrailRec (α : Type) where
  | bind (var : Nat) (prev : Option (Row α))
  | fact (side : Side) (var : Nat)
  | state (cons : Nat) (prev : State)
  | conflict (prev : Conflict)

/-- `fx_cp`: the trail position, the last listed constraint and the variables. -/
structure Checkpoint where
  token : Nat
  trailMark : Nat
  tail : Option Nat
  vars : List Nat

/-- `fx_ctx`.  `varList` is the list `vars` of the source, the newest first; the
listed constraints are the live ones.  The top of the trail and of the
checkpoints come first. -/
structure Ctx (α : Type) where
  vars : Nat → Var α
  nvars : Nat
  varList : List Nat
  constraints : Nat → Constraint α
  nconstraints : Nat
  conflict : Conflict
  nextCp : Nat
  checkpoints : List Checkpoint
  trail : List (TrailRec α)
  queue : List Nat
  solving : Bool

/-- `fx_ctx_new`. -/
def ctxNew : Ctx α where
  vars := fun _ => {}
  nvars := 0
  varList := []
  constraints := fun _ => { goal := .equal ⟨[], none⟩ ⟨[], none⟩, live := false }
  nconstraints := 0
  conflict := ⟨.none, none, none⟩
  nextCp := 1
  checkpoints := []
  trail := []
  queue := []
  solving := false

/-- A status and the context a call leaves. -/
abbrev Outcome (α : Type) := Status × Ctx α

/-- `if (st != FX_OK) return st;` -/
def Outcome.andThen (o : Outcome α) (k : Ctx α → Outcome α) : Outcome α :=
  if o.1 = .ok then k o.2 else o

/-- A loop that returns at the first status that is not `FX_OK`. -/
def forAll {β : Type} : List β → (β → Ctx α → Outcome α) → Ctx α → Outcome α
  | [], _, c => (.ok, c)
  | x :: xs, f, c => Outcome.andThen (f x c) (forAll xs f)

namespace Ctx

/-- The context with one variable changed. -/
def setVar (c : Ctx α) (v : Nat) (x : Var α) : Ctx α :=
  { c with vars := Function.update c.vars v x }

/-- The context with one constraint changed. -/
def setConstraint (c : Ctx α) (k : Nat) (x : Constraint α) : Ctx α :=
  { c with constraints := Function.update c.constraints k x }

/-- `c->state = s`. -/
def setState (c : Ctx α) (k : Nat) (s : State) : Ctx α :=
  c.setConstraint k { c.constraints k with state := s }

/-- The list `constraints`, in the order of creation. -/
def listed (c : Ctx α) : List Nat :=
  (List.range c.nconstraints).filter fun k => (c.constraints k).live

/-- `trail_append`: nothing is recorded while no checkpoint is open. -/
def trailAppend (c : Ctx α) (rec : TrailRec α) : Ctx α :=
  if c.checkpoints = [] then c else { c with trail := rec :: c.trail }

/-- `fx__record_conflict`. -/
def recordConflict (c : Ctx α) (kind : ConflictKind) (primary secondary : Option Nat) : Ctx α :=
  { c.trailAppend (.conflict c.conflict) with conflict := ⟨kind, primary, secondary⟩ }

/-! ## The worklist -/

/-- `enqueue`.  The `enqueued` bit of a constraint says that the queue has it. -/
def enqueue (c : Ctx α) (k : Nat) : Ctx α :=
  if k ∈ c.queue then c else { c with queue := c.queue ++ [k] }

/-- `fire_watcher`. -/
def fireWatcher (c : Ctx α) (k : Nat) : Ctx α :=
  if (c.constraints k).live then
    if (c.constraints k).state = .pending then c.enqueue k else c
  else c

/-- `fx__solve_notify`. -/
def solveNotify (c : Ctx α) (v : Nat) : Ctx α :=
  if c.solving then (c.vars v).watchers.foldl fireWatcher c else c

/-- `enqueue_all_pending`. -/
def enqueueAllPending (c : Ctx α) : Ctx α :=
  c.listed.foldl
    (fun c k => if (c.constraints k).state = .pending then c.enqueue k else c) c

/-- `watch_add`. -/
def watchAdd (c : Ctx α) (v k : Nat) : Ctx α :=
  if k ∈ (c.vars v).watchers then c
  else c.setVar v { c.vars v with watchers := k :: (c.vars v).watchers }

/-- `fx_var_new`. -/
def varNew (c : Ctx α) : Nat × Ctx α :=
  (c.nvars,
    { c.setVar c.nvars {} with nvars := c.nvars + 1, varList := c.nvars :: c.varList })

end Ctx

end Fx89

/-!
## Rows

A row is normalized by following the bindings of its tail and collecting the
heads on the way.  Atoms of a head are sorted and duplicates dropped.  The
constructors of open rows forbid the atoms of the head on the tail.

Following the bindings is a loop of the source without a bound; `foldTail` is
given one, and answers `none` when it is reached.
-/

namespace Fx89

variable {α : Type} [LinearOrder α]

/-! ## Facts of a variable -/

namespace Ctx

/-- `fx__var_require` and `fx__var_forbid` differ in the array they push to. -/
def varFact (s : Side) (v : Nat) (a : α) (c : Ctx α) : Outcome α :=
  if a ∈ (c.vars v).facts s then (.ok, c)
  else if a ∈ (c.vars v).facts s.other then
    (.errUnsat, c.recordConflict .memberLacks none none)
  else
    (.ok, (((c.setVar v ((c.vars v).push a s)).trailAppend (.fact s v)).solveNotify v))

/-- `fx__var_require`. -/
def varRequire (v : Nat) (a : α) (c : Ctx α) : Outcome α := varFact .required v a c

/-- `fx__var_forbid`. -/
def varForbid (v : Nat) (a : α) (c : Ctx α) : Outcome α := varFact .forbidden v a c

end Ctx

/-! ## Normalization -/

/-- `compact_unique` on what is left of the array, after keeping `last`. -/
def compactUnique : Option α → List α → List α
  | _, [] => []
  | last, a :: as =>
    if last = some a then compactUnique last as else a :: compactUnique (some a) as

/-- `build_head` and `finalize_head`: sorted, and every atom once. -/
def buildHead (atoms : List α) : List α :=
  compactUnique none (atoms.insertionSort (· ≤ ·))

/-- `fx__row_make`. -/
def rowMake (atoms : List α) (tail : Option Nat) : Row α :=
  ⟨buildHead atoms, tail⟩

/-- `fold_all`: the heads met from a tail on, and the variable or the closed row at
the end. -/
def Ctx.foldTail (c : Ctx α) : Nat → Nat → Option (List α × Option Nat)
  | 0, _ => none
  | fuel + 1, v =>
    match (c.vars v).binding with
    | none => some ([], some v)
    | some b =>
      match b.tail with
      | none => some (b.head, none)
      | some t => (foldTail c fuel t).map fun p => (b.head ++ p.1, p.2)

/-- `fx__row_normalize`.  A chain of bindings is no longer than there are variables. -/
def Ctx.normalize (c : Ctx α) (row : Row α) : Row α :=
  match row.tail with
  | none => rowMake row.head none
  | some v =>
    match c.foldTail (c.nvars + 1) v with
    | none => rowMake row.head (some v)
    | some p => rowMake (row.head ++ p.1) p.2

/-! ## Constructors -/

/-- A row handed out, or none, and the context a call leaves. -/
abbrev RowOutcome (α : Type) := Status × Option (Row α) × Ctx α

/-- `forbid_head_from_tail`, which answers 0 where this is not `FX_OK`. -/
def Ctx.forbidHeadFromTail (c : Ctx α) (row : Row α) : Outcome α :=
  match row.tail with
  | none => (.ok, c)
  | some root => forAll row.head (fun a c => c.varForbid root a) c

/-- A row whose head has been forbidden on its tail, or `FX_ERR_UNSAT`. -/
def Ctx.forbidden (c : Ctx α) (row : Row α) : RowOutcome α :=
  let o := c.forbidHeadFromTail row
  if o.1 = .ok then (.ok, some row, o.2) else (.errUnsat, none, o.2)

/-- `make_normalized`, which is `fx_row_normalize`. -/
def rowNormalize (row : Row α) (c : Ctx α) : RowOutcome α :=
  c.forbidden (c.normalize row)

/-- `fx_row_empty`. -/
def rowEmpty (c : Ctx α) : RowOutcome α := (.ok, some (rowMake [] none), c)

/-- `fx_row_var`. -/
def rowVar (v : Nat) (c : Ctx α) : RowOutcome α := (.ok, some (rowMake [] (some v)), c)

/-- `fx_row_closed`. -/
def rowClosed (atoms : List α) (c : Ctx α) : RowOutcome α :=
  (.ok, some (rowMake atoms none), c)

/-- `fx_row_open`. -/
def rowOpen (atoms : List α) (tail : Nat) (c : Ctx α) : RowOutcome α :=
  c.forbidden (rowMake atoms (some tail))

/-- `fx_row_extend`. -/
def rowExtend (base : Row α) (atom : α) (c : Ctx α) : RowOutcome α :=
  let nb := c.normalize base
  c.forbidden (rowMake (nb.head ++ [atom]) nb.tail)

/-- `build_without`. -/
def buildWithout (nb : Row α) (atom : α) : Row α :=
  rowMake (nb.head.erase atom) nb.tail

/-- `fx_row_remove`. -/
def rowRemove (row : Row α) (atom : α) (c : Ctx α) : RowOutcome α :=
  let nb := c.normalize row
  if atom ∈ nb.head then (.ok, some (buildWithout nb atom), c)
  else
    match nb.tail with
    | none => (.ok, some nb, c)
    | some root =>
      if atom ∈ (c.vars root).forbidden then (.ok, some nb, c)
      else (.errUnsupported, none, c)

/-- `fx_row_remove_many`. -/
def rowRemoveMany (row : Row α) : List α → Ctx α → RowOutcome α
  | [], c => (.ok, some row, c)
  | atom :: atoms, c =>
    match rowRemove row atom c with
    | (.ok, some cur, c) => rowRemoveMany cur atoms c
    | o => o

/-- `fx_var_binding`: the row a variable is bound to, normalized. -/
def varBinding (v : Nat) (c : Ctx α) : RowOutcome α :=
  match (c.vars v).binding with
  | none => (.ok, none, c)
  | some b => (.ok, some (c.normalize b), c)

/-! ## Queries -/

/-- `fx_row_membership`. -/
def Ctx.rowMembership (c : Ctx α) (row : Row α) (atom : α) : Truth :=
  let n := c.normalize row
  if atom ∈ n.head then .true
  else
    match n.tail with
    | none => .false
    | some root =>
      if atom ∈ (c.vars root).required then .true
      else if atom ∈ (c.vars root).forbidden then .false
      else .unknown

/-- `row_closed_pure`. -/
def rowClosedPure (row : Row α) : Bool := row.head = [] ∧ row.tail = none

end Fx89
