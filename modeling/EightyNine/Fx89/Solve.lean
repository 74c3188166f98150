import EightyNine.Fx89.Types

/-!
# The solver

`fx_solve` takes pending constraints from its worklist until none is left or one
of them fails.  An equality binds tails, through a fresh variable when both are
open; membership and lacks put a fact on a tail; subset and join pass facts from
row to row and stay pending.  A fact or a binding puts the watchers of its
variable back on the worklist.
-/

namespace Fx89

variable {α : Type} [LinearOrder α]

namespace Ctx

/-- Membership of an atom in a head is decided by the order of the atoms. -/
local instance lawfulAtoms : LawfulBEq α := inferInstance

/-! ## Facts and bindings of rows -/

/-- `require_on_row` and `forbid_on_row`: the fact is put on the tail of a row,
unless the head or the closed end of the row decides it. -/
def factOnRow (s : Side) (row : Row α) (a : α) (c : Ctx α) : Outcome α :=
  if a ∈ row.head then (if s = .required then .ok else .errUnsat, c)
  else
    match row.tail with
    | none => (if s = .required then .errUnsat else .ok, c)
    | some root => varFact s root a c

/-- `require_on_row`. -/
def requireOnRow (row : Row α) (a : α) (c : Ctx α) : Outcome α :=
  factOnRow .required row a c

/-- `forbid_on_row`. -/
def forbidOnRow (row : Row α) (a : α) (c : Ctx α) : Outcome α :=
  factOnRow .forbidden row a c

/-- `apply_require` and `apply_forbid`. -/
def applyFact (s : Side) (row : Row α) (origin : Nat) (a : α) (c : Ctx α) : Outcome α :=
  let o := factOnRow s row a c
  if o.1 = .errUnsat then (.errUnsat, o.2.recordConflict .equality (some origin) none) else o

/-- `fx__occurs_walk`, from a variable.  A walk through a closed row has no next
variable; the source walks only from tails it has just made. -/
def occursWalk (c : Ctx α) (root : Nat) : Nat → Nat → Bool
  | 0, _ => false
  | fuel + 1, v =>
    if v = root then true
    else
      match (c.vars v).binding with
      | none => false
      | some b =>
        match b.tail with
        | none => false
        | some t => occursWalk c root fuel t

/-- `fx__occurs`. -/
def occurs (c : Ctx α) (root : Nat) (row : Row α) : Bool :=
  match row.tail with
  | none => false
  | some v => occursWalk c root (c.nvars + 1) v

/-- The end of `bind_row`: the binding is set and the watchers are told. -/
def setBinding (root : Nat) (row : Row α) (c : Ctx α) : Ctx α :=
  (((c.trailAppend (.bind root (c.vars root).binding)).setVar root
    { c.vars root with binding := some row }).solveNotify root)

/-- `bind_row`: the facts of the variable move to the row. -/
def bindRow (root : Nat) (row : Row α) (origin : Nat) (c : Ctx α) : Outcome α :=
  if c.occurs root row then (.errOccurs, c.recordConflict .occurs (some origin) none)
  else
    Outcome.andThen (forAll (c.vars root).required (applyFact .required row origin) c)
      fun c => Outcome.andThen (forAll (c.vars root).forbidden (applyFact .forbidden row origin) c)
        fun c => (.ok, c.setBinding root row)

/-! ## Equality -/

/-- `diff_atoms`: the atoms of one head that another does not have. -/
def diffAtoms (src other : Row α) : List α := src.head.filter (· ∉ other.head)

/-- `fail_eq`. -/
def failEq (k : Nat) (c : Ctx α) : Outcome α :=
  (.errUnsat, (c.setState k .failed).recordConflict .equality (some k) none)

/-- The constraint is satisfied. -/
def satisfy (k : Nat) (c : Ctx α) : Outcome α := (.ok, c.setState k .satisfied)

/-- `bind_closed_tail`. -/
def bindClosedTail (k tail : Nat) (atoms : List α) (c : Ctx α) : Outcome α :=
  Outcome.andThen (bindRow tail (rowMake atoms none) k c) (satisfy k)

/-- `bind_open_shared`. -/
def bindOpenShared (k t1 : Nat) (rarr : List α) (t2 : Nat) (larr : List α) (c : Ctx α) :
    Outcome α :=
  let (z, c) := c.varNew
  Outcome.andThen (bindRow t1 (rowMake rarr (some z)) k c) fun c =>
    Outcome.andThen (bindRow t2 (rowMake larr (some z)) k c) (satisfy k)

/-- `eq_both_closed` and `eq_same_tail`: no atom of either head may be left over. -/
def eqHeads (k : Nat) (larr rarr : List α) (c : Ctx α) : Outcome α :=
  if larr ≠ [] then failEq k c else if rarr ≠ [] then failEq k c else satisfy k c

/-- `eq_left_closed` and `eq_right_closed`: the open row may have no atom that the
closed one has not, and its tail is bound to the atoms it lacks. -/
def eqOneClosed (k tail : Nat) (atoms extra : List α) (c : Ctx α) : Outcome α :=
  if extra ≠ [] then failEq k c else bindClosedTail k tail atoms c

/-- `equal_rows`, on normalized rows. -/
def equalRows (k : Nat) (na nb : Row α) (c : Ctx α) : Outcome α :=
  let larr := diffAtoms na nb
  let rarr := diffAtoms nb na
  match na.tail, nb.tail with
  | none, none => eqHeads k larr rarr c
  | none, some t2 => eqOneClosed k t2 larr rarr c
  | some t1, none => eqOneClosed k t1 rarr larr c
  | some t1, some t2 =>
    if t1 = t2 then eqHeads k larr rarr c else bindOpenShared k t1 rarr t2 larr c

/-- `satisfy_equal`. -/
def satisfyEqual (k : Nat) (a b : Row α) (c : Ctx α) : Outcome α :=
  equalRows k (c.normalize a) (c.normalize b) c

/-! ## Membership, lacks and subset -/

/-- What `require_rhs`, `forbid_lhs`, `join_require` and `join_forbid` do with the
outcome of putting a fact on a row: the constraint has failed when that did. -/
def orFail (k : Nat) (o : Outcome α) : Outcome α :=
  if o.1 = .ok then o else (o.1, o.2.setState k .failed)

/-- `process_member`. -/
def processMember (k : Nat) (atom : α) (b : Row α) (c : Ctx α) : Outcome α :=
  let n := c.normalize b
  if atom ∈ n.head then satisfy k c
  else
    match n.tail with
    | none => (.errUnsat, c.setState k .failed)
    | some root => Outcome.andThen (orFail k (c.varRequire root atom)) (satisfy k)

/-- `process_lacks`. -/
def processLacks (k : Nat) (atom : α) (b : Row α) (c : Ctx α) : Outcome α :=
  let n := c.normalize b
  if atom ∈ n.head then (.errUnsat, c.setState k .failed)
  else
    match n.tail with
    | none => satisfy k c
    | some root => Outcome.andThen (orFail k (c.varForbid root atom)) (satisfy k)

/-- The facts of one side on the tail of a row. -/
def tailFacts (c : Ctx α) (row : Row α) (s : Side) : List α :=
  match row.tail with
  | none => []
  | some root => (c.vars root).facts s

/-- `require_rhs`. -/
def requireRhs (k : Nat) (rhs : Row α) (a : α) (c : Ctx α) : Outcome α :=
  if a ∈ rhs.head then (.ok, c) else orFail k (requireOnRow rhs a c)

/-- `forbid_if_absent`, which calls `forbid_lhs`. -/
def forbidIfAbsent (k : Nat) (lhs rhs : Row α) (a : α) (c : Ctx α) : Outcome α :=
  if a ∈ rhs.head then (.ok, c) else orFail k (forbidOnRow lhs a c)

/-- `process_subset`.  A fact is pushed to an array that a loop is reading only when
the array has it already. -/
def processSubset (k : Nat) (a b : Row α) (c : Ctx α) : Outcome α :=
  let la := c.normalize a
  let rb := c.normalize b
  Outcome.andThen (forAll la.head (requireRhs k rb) c) fun c =>
    Outcome.andThen (forAll (c.tailFacts la .required) (requireRhs k rb) c) fun c =>
      Outcome.andThen (forAll (c.tailFacts rb .forbidden) (forbidIfAbsent k la rb) c) fun c =>
        if la.tail = none ∧ rb.tail = none then satisfy k c
        else (.ok, c.setState k .pending)

/-! ## Exact joins -/

/-- The rules `join_rule` applies at one atom of `o = l ∪ r`, given whether each row
has the atom: the facts it puts on the rows, in its order. -/
def joinRules (o l r : Row α) (mo ml mr : Truth) : List (Side × Row α) :=
  (if ml = .true ∧ mo ≠ .true then [(Side.required, o)] else []) ++
  (if mr = .true ∧ mo ≠ .true then [(Side.required, o)] else []) ++
  (if mo = .false ∧ ml ≠ .false then [(Side.forbidden, l)] else []) ++
  (if mo = .false ∧ mr ≠ .false then [(Side.forbidden, r)] else []) ++
  (if ml = .false ∧ mr = .false ∧ mo ≠ .false then [(Side.forbidden, o)] else []) ++
  (if ml = .false ∧ mr ≠ .false ∧ mo = .true then [(Side.required, r)] else []) ++
  (if mr = .false ∧ ml ≠ .false ∧ mo = .true then [(Side.required, l)] else [])

/-- `join_rule`; its facts go through `join_require` and `join_forbid`. -/
def joinRule (k : Nat) (o l r : Row α) (a : α) (c : Ctx α) : Outcome α :=
  forAll (joinRules o l r (c.rowMembership o a) (c.rowMembership l a) (c.rowMembership r a))
    (fun p c => orFail k (factOnRow p.1 p.2 a c)) c

/-- `join_support`. -/
def joinSupport (support : List α) (a : α) : List α :=
  if a ∈ support then support else support ++ [a]

/-- `join_collect`. -/
def joinCollect (c : Ctx α) (support : List α) (row : Row α) : List α :=
  (row.head ++ c.tailFacts row .required ++ c.tailFacts row .forbidden).foldl joinSupport support

/-- `join_closed`. -/
def joinClosed (k : Nat) (no nl nr : Row α) (c : Ctx α) : Outcome α :=
  equalRows k no (rowMake (c.joinCollect (c.joinCollect [] nl) nr) none) c

/-- `join_residual`. -/
def joinResidual (k : Nat) (no nl nr : Row α) (c : Ctx α) : Outcome α :=
  Outcome.andThen
    (forAll (c.joinCollect (c.joinCollect (c.joinCollect [] no) nl) nr)
      (joinRule k no nl nr) c)
    fun c => (.ok, c.setState k .pending)

/-- `process_join`. -/
def processJoin (k : Nat) (o l r : Row α) (c : Ctx α) : Outcome α :=
  let no := c.normalize o
  let nl := c.normalize l
  let nr := c.normalize r
  if nl.tail = none ∧ nr.tail = none then joinClosed k no nl nr c
  else joinResidual k no nl nr c

/-! ## The main loop -/

/-- The processor of each kind of constraint. -/
def process (k : Nat) : Goal α → Ctx α → Outcome α
  | .equal a b => satisfyEqual k a b
  | .subset a b => processSubset k a b
  | .member atom b => processMember k atom b
  | .lacks atom b => processLacks k atom b
  | .join a b extra => processJoin k a b extra

/-- `solve_one`. -/
def solveOne (k : Nat) (c : Ctx α) : Outcome α :=
  if (c.constraints k).state = .pending then
    process k (c.constraints k).goal (c.trailAppend (.state k .pending))
  else (.ok, c)

/-- `register_row`. -/
def registerRow (k : Nat) (c : Ctx α) (row : Row α) : Ctx α :=
  match (c.normalize row).tail with
  | none => c
  | some v => c.watchAdd v k

/-- `fx__watch_register`. -/
def watchRegister (k : Nat) (c : Ctx α) : Ctx α :=
  (c.constraints k).goal.operands.foldl (registerRow k) c

/-- The loop of `fx_solve`, with a bound on its passes. -/
def solveLoop : Nat → Ctx α → Option (Outcome α)
  | 0, _ => none
  | fuel + 1, c =>
    match c.queue with
    | [] => some (.ok, { c with solving := false })
    | k :: queue =>
      let o := solveOne k { c with queue := queue }
      if o.1 = .ok then solveLoop fuel (watchRegister k o.2)
      else some (o.1, { o.2 with solving := false })

/-- The state in which the loop of `fx_solve` starts. -/
def solveStart (c : Ctx α) : Ctx α := enqueueAllPending { c with solving := true }

/-- `fx_solve`. -/
def solve (fuel : Nat) (c : Ctx α) : Option (Outcome α) := solveLoop fuel c.solveStart

end Ctx

end Fx89

/-!
# Posting constraints, checkpoints and rollback

A posted constraint is listed and watches the tails of its rows.  A checkpoint
marks the trail and the two lists; rollback undoes the records above the mark
and drops what was listed since.
-/

namespace Fx89

variable {α : Type} [LinearOrder α]

/-! ## Constraints -/

/-- `constraint_push`. -/
def Ctx.constraintPush (c : Ctx α) (goal : Goal α) : Ctx α :=
  let k := c.nconstraints
  Ctx.watchRegister k { c.setConstraint k { goal := goal } with nconstraints := k + 1 }

/-- `fx_require_equal`. -/
def requireEqual (a b : Row α) (c : Ctx α) : Ctx α := c.constraintPush (.equal a b)

/-- `fx_require_subset`. -/
def requireSubset (subset superset : Row α) (c : Ctx α) : Ctx α :=
  c.constraintPush (.subset subset superset)

/-- `fx_require_member`. -/
def requireMember (atom : α) (row : Row α) (c : Ctx α) : Ctx α :=
  c.constraintPush (.member atom row)

/-- `fx_require_lacks`. -/
def requireLacks (atom : α) (row : Row α) (c : Ctx α) : Ctx α :=
  c.constraintPush (.lacks atom row)

/-- `fx_require_join`. -/
def requireJoin (out left right : Row α) (c : Ctx α) : Ctx α :=
  c.constraintPush (.join out left right)

/-- `fx_require_pure`. -/
def requirePure (row : Row α) (c : Ctx α) : Ctx α := requireEqual row (rowMake [] none) c

/-- `fx_row_union`. -/
def rowUnion (a b : Row α) (c : Ctx α) : RowOutcome α :=
  let na := c.normalize a
  let nb := c.normalize b
  if rowClosedPure na then (.ok, some b, c)
  else if rowClosedPure nb then (.ok, some a, c)
  else if na.tail = none ∧ nb.tail = none then
    (.ok, some (rowMake (na.head ++ nb.head) none), c)
  else
    let (z, c) := c.varNew
    let o := rowMake [] (some z)
    (.ok, some o, requireJoin o a b c)

/-! ## Checkpoints -/

namespace Ctx

/-- `constraints_tail`: the last listed constraint. -/
def constraintsTail (c : Ctx α) : Option Nat := c.listed.getLast?

/-- `undo_one`. -/
def undoOne (c : Ctx α) : TrailRec α → Ctx α
  | .bind v prev => c.setVar v { c.vars v with binding := prev }
  | .fact s v => c.setVar v ((c.vars v).pop s)
  | .state k prev => c.setState k prev
  | .conflict prev => { c with conflict := prev }

/-- `pop_trail`: the records above the mark are undone, the newest first. -/
def popTrail (c : Ctx α) (downTo : Nat) : Ctx α :=
  let n := c.trail.length - downTo
  { (c.trail.take n).foldl undoOne c with trail := c.trail.drop n }

/-- `truncate_constraints`: what is listed after the given constraint is dead. -/
def truncateConstraints (c : Ctx α) (tail : Option Nat) : Ctx α :=
  let dead := c.listed.filter fun k => ∀ t ∈ tail, t < k
  dead.foldl (fun c k => c.setConstraint k { c.constraints k with live := false }) c

end Ctx

/-- `fx_ctx_checkpoint`. -/
def ctxCheckpoint (c : Ctx α) : Nat × Ctx α :=
  (c.nextCp,
    { c with
      nextCp := c.nextCp + 1
      checkpoints := ⟨c.nextCp, c.trail.length, c.constraintsTail, c.varList⟩ :: c.checkpoints })

/-- `find_top`. -/
def findTop (c : Ctx α) (token : Nat) : Option Checkpoint :=
  c.checkpoints.head?.filter fun cp => cp.token = token

/-- `fx_ctx_rollback`. -/
def ctxRollback (token : Nat) (c : Ctx α) : Outcome α :=
  match findTop c token with
  | none => (.errInvalid, c)
  | some cp =>
    (.ok,
      { (c.popTrail cp.trailMark).truncateConstraints cp.tail with
        varList := cp.vars
        checkpoints := c.checkpoints.tail })

/-- `fx_ctx_commit`. -/
def ctxCommit (token : Nat) (c : Ctx α) : Outcome α :=
  match findTop c token with
  | none => (.errInvalid, c)
  | some _ => (.ok, { c with checkpoints := c.checkpoints.tail })

end Fx89
