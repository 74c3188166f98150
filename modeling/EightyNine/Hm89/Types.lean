import EightyNine.Library.Fuel
import EightyNine.Library.Term

/-!
# Type nodes

The nodes of a type context live in an arena, and a type is a pointer into it,
here an index.  A variable is unbound or linked to another node, and a
constructor has a name and arguments.  `hm_type_prune` follows the links of a
variable to their end and compresses the path on the way.

A function that walks the graph has a fuel argument and answers `none` when the
fuel runs out or a pointer leaves the arena.
-/

namespace Hm89

/-- A pointer to a type node. -/
abbrev Ref := Nat

/-- A type node.  The name of a constructor is a C string. -/
inductive TypeNode where
  | var (id : Nat) (link : Option Ref)
  | con (name : List UInt8) (args : List Ref)

/-- The arena of a context and the counter for variable identifiers. -/
structure Store where
  nodes : List TypeNode
  nextVarId : Nat

namespace Store

def node? (s : Store) (r : Ref) : Option TypeNode := s.nodes[r]?

/-- A node overwritten in place. -/
def setNode (s : Store) (r : Ref) (n : TypeNode) : Store :=
  { s with nodes := s.nodes.set r n }

/-- A node allocated at the end of the arena. -/
def alloc (s : Store) (n : TypeNode) : Store × Ref :=
  ({ s with nodes := s.nodes ++ [n] }, s.nodes.length)

end Store

/-- `hm_type_var`: the counter is an `unsigned long`. -/
def typeVar (s : Store) : Store × Ref :=
  Store.alloc { s with nextVarId := (s.nextVarId + 1) % 2 ^ 64 } (.var s.nextVarId none)

/-- `hm_type_con`. -/
def typeCon (s : Store) (name : List UInt8) (args : List Ref) : Store × Ref :=
  s.alloc (.con name args)

/-- `hm_type_prune`. -/
def typePrune : Nat → Store → Ref → Option (Store × Ref)
  | 0, _, _ => none
  | fuel + 1, s, type =>
    match s.node? type with
    | none => none
    | some (.con _ _) => some (s, type)
    | some (.var _ none) => some (s, type)
    | some (.var id (some link)) => do
      let (s, r) ← typePrune fuel s link
      pure (s.setNode type (.var id (some r)), r)

end Hm89

/-!
# Unification

`hm_unify` follows both types to their ends, binds a variable after the occurs
check, and otherwise unifies the arguments of two constructors from left to
right.  The links it makes stay when a later argument fails.
-/

namespace Hm89

/-- `hm_status`. -/
inductive Status where
  | ok
  | errorNomem
  | errorMismatch
  | errorOccurs
  | errorUnbound
  | errorInvalid
  | errorInternal
  deriving DecidableEq

/-- `hm_error_kind`. -/
inductive ErrorKind where
  | errNone
  | errNomem
  | errMismatch
  | errOccurs
  | errUnbound
  | errInvalid
  | errInternal

/-- An error node: its message and the two types it is about. -/
structure Error where
  kind : ErrorKind
  message : String
  left : Ref
  right : Ref

/-- The loop of `hm_i_occurs` over the arguments of a constructor. -/
def occursArgs (occurs : Store → Ref → Option (Store × Bool)) :
    Store → List Ref → Option (Store × Bool)
  | s, [] => some (s, false)
  | s, arg :: args => do
    let (s, found) ← occurs s arg
    if found then pure (s, true) else occursArgs occurs s args

/-- `hm_i_occurs`. -/
def occurs : Nat → Store → Ref → Ref → Option (Store × Bool)
  | 0, _, _, _ => none
  | fuel + 1, s, var, type => do
    let (s, p) ← typePrune fuel s type
    if p = var then pure (s, true)
    else
      match s.node? p with
      | none => none
      | some (.var _ _) => pure (s, false)
      | some (.con _ args) => occursArgs (fun s arg => occurs fuel s var arg) s args

/-- `hm_i_mismatch`. -/
def mismatch (a b : Ref) : Status × Option Error :=
  (.errorMismatch, some ⟨.errMismatch, "type mismatch", a, b⟩)

/-- `hm_i_bind_var`, at an unbound variable with the given identifier. -/
def bindVar (fuel : Nat) (s : Store) (var : Ref) (id : Nat) (other : Ref) :
    Option (Store × Status × Option Error) := do
  let (s, found) ← occurs fuel s var other
  if found then pure (s, .errorOccurs, some ⟨.errOccurs, "occurs check failed", var, other⟩)
  else pure (s.setNode var (.var id (some other)), .ok, none)

/-- The loop of `hm_unify` over the arguments of two constructors of one arity. -/
def unifyArgs (unify : Store → Ref → Ref → Option (Store × Status × Option Error)) :
    Store → List Ref → List Ref → Option (Store × Status × Option Error)
  | s, a :: as, b :: bs => do
    let (s, st, error) ← unify s a b
    if st = .ok then unifyArgs unify s as bs else pure (s, st, error)
  | s, _, _ => some (s, .ok, none)

/-- `hm_unify`. -/
def unify : Nat → Store → Ref → Ref → Option (Store × Status × Option Error)
  | 0, _, _, _ => none
  | fuel + 1, s, left, right => do
    let (s, a) ← typePrune fuel s left
    let (s, b) ← typePrune fuel s right
    if a = b then pure (s, .ok, none)
    else
      match s.node? a, s.node? b with
      | some (.var id _), some _ => bindVar fuel s a id b
      | some (.con _ _), some (.var id _) => bindVar fuel s b id a
      | some (.con aName aArgs), some (.con bName bArgs) =>
        if aName ≠ bName then pure (s, mismatch a b)
        else if aArgs.length ≠ bArgs.length then pure (s, mismatch a b)
        else unifyArgs (unify fuel) s aArgs bArgs
      | _, _ => none

end Hm89
