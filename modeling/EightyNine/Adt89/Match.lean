import EightyNine.Hm89.Denote

/-!
# Declared datatypes and patterns

A context holds the declared types.  A type has a name of its own among the types
of HM, parameters, which are HM variables, and constructors, whose field types are
the terms that HM gives them.  A pointer to a type or to a constructor is an index.
-/

namespace Adt89

open Hm89 (Ty)

structure Ctor where
  fieldTypes : List Ty

structure AdtType where
  hmName : List UInt8
  parameters : List Hm89.Ref
  ctors : List Ctor
  isSealed : Bool

/-- A context.  Declared types get distinct names, since `adt_type_new` numbers them. -/
structure Ctx where
  types : List AdtType
  nominal : (types.map AdtType.hmName).Nodup

abbrev TypeRef := Nat

/-- A constructor by its owner and its place there. -/
structure CtorRef where
  owner : TypeRef
  index : Nat
deriving DecidableEq

def Ctx.ctor? (ctx : Ctx) (c : CtorRef) : Option Ctor :=
  ctx.types[c.owner]?.bind fun t => t.ctors[c.index]?

/-- The field types of a constructor. -/
def Ctx.fieldTypes (ctx : Ctx) (c : CtorRef) : List Ty :=
  match ctx.ctor? c with
  | some d => d.fieldTypes
  | none => []

/-- The constructors of a type, in the order of their declaration. -/
def Ctx.ctorsOf (ctx : Ctx) (t : TypeRef) : List CtorRef :=
  match ctx.types[t]? with
  | some d => (List.range d.ctors.length).map fun k => ⟨t, k⟩
  | none => []

/-- Patterns.  A column without a test is a wildcard or a null pointer. -/
inductive Pattern where
  | null
  | wildcard
  | ctor (c : CtorRef) (args : List Pattern)

inductive MatchResult where
  | exhaustive | nonexhaustive

/-- The statuses of the match analysis. -/
inductive Status where
  | nomem | invalid | unsealed

inductive ErrorKind where
  | unsealed | invalid

/-- What a context remembers of its last failure. -/
structure Error where
  kind : ErrorKind
  message : String
  type : TypeRef

/-- A failure, with what it leaves in the context. -/
structure Failure where
  status : Status
  error : Option Error

end Adt89

/-!
## Match analysis

Usefulness of a row of patterns after the rows of a matrix.  A column has the family
of a declared type, or none when its type is a parameter or not declared here.

The allocations of a query are numbered, `mem` says which of them succeed, and the
state is the number of allocations made.  The recursion has fuel, and an answer of
`none` says that the fuel ran out or that a row was left.
-/

namespace Adt89

open Hm89 (Ty)

abbrev Row := List Pattern

/-- The state of a query. -/
abbrev Query := StateT Nat Option

/-- `adt_i_temp_alloc`. -/
def tempAlloc (mem : Nat → Bool) : Query Bool := fun n => some (mem n, n + 1)

def wc : Pattern → Bool
  | .ctor _ _ => false
  | _ => true

def rowAllWild (row : Row) : Bool := row.all wc

/-! ## Families -/

def familyForName (ctx : Ctx) (name : List UInt8) : Option TypeRef :=
  ctx.types.findIdx? fun t => t.hmName = name

def fieldFamily (ctx : Ctx) : Ty → Option TypeRef
  | .con name _ => familyForName ctx name
  | .var _ => none

def famsHead (ctx : Ctx) (c : CtorRef) : List (Option TypeRef) :=
  (ctx.fieldTypes c).map (fieldFamily ctx)

/-! ## Specialization -/

/-- The columns of a head under a constructor: its arguments, or columns without a test. -/
def headCells (ctx : Ctx) (c : CtorRef) : Pattern → List Pattern
  | .ctor _ args => args
  | _ => List.replicate (ctx.fieldTypes c).length .null

/-- A row without its head is filled from the left. -/
def fillRow (ctx : Ctx) (c : CtorRef) (head : Pattern) (tail : Row) : Row :=
  headCells ctx c head ++ tail

/-- The row specialized by a constructor, or `none` when its head is another one.  A
failed allocation gives `none` as well. -/
def specRow (mem : Nat → Bool) (ctx : Ctx) (c : CtorRef) (src : Row) : Query (Option Row) := do
  if ! (← tempAlloc mem) then return none
  match src with
  | [] => failure
  | head :: tail =>
    let skip : Bool := match head with
      | .ctor d _ => c ≠ d
      | _ => false
    if skip then return none
    if ! (← tempAlloc mem) then return none
    return some (fillRow ctx c head tail)

def specCollect (mem : Nat → Bool) (ctx : Ctx) (c : CtorRef) : List Row → Query (List Row)
  | [] => return []
  | src :: rows => do
    let r ← specRow mem ctx c src
    let dst ← specCollect mem ctx c rows
    return r.toList ++ dst

/-- A count as an `int`. -/
def asInt (count : Nat) : Int :=
  let low : Nat := count % 2 ^ 32
  if low < 2 ^ 31 then (low : Int) else (low : Int) - 2 ^ 32

/-- The number of the rows that match a constructor, or -1 on failure, and these rows. -/
def specialize (mem : Nat → Bool) (ctx : Ctx) (rows : List Row) (c : CtorRef) :
    Query (Int × List Row) := do
  if ! (← tempAlloc mem) then return (-1, [])
  let dst ← specCollect mem ctx c rows
  return (asInt dst.length, dst)

/-! ## Usefulness -/

/-- The results of `adt_i_useful`: -1, 0 and 1. -/
inductive Useful where
  | nomem | no | yes
deriving DecidableEq

def ctorCovered (rows : List Row) : Bool := rows.any rowAllWild

def rowsDropCol (rows : List Row) : List Row := rows.map List.tail

/-- The query under one constructor.  `rec` is the recursive call. -/
def usefulCtor (mem : Nat → Bool) (ctx : Ctx)
    (rec : List Row → Row → List (Option TypeRef) → Query Useful) (rows : List Row)
    (head : Pattern) (tail : Row) (fams : List (Option TypeRef)) (c : CtorRef) :
    Query Useful := do
  let (specCount, spec) ← specialize mem ctx rows c
  if specCount < 0 then return .nomem
  if ! (← tempAlloc mem) then return .nomem
  let q := fillRow ctx c head tail
  if ! (← tempAlloc mem) then return .nomem
  rec (spec.take specCount.toNat) q (famsHead ctx c ++ fams)

/-- The constructors of a family, up to the first that is useful or fails. -/
def usefulEnumerate (rec : CtorRef → Query Useful) : List CtorRef → Query Useful
  | [] => return .no
  | c :: ctors => do
    match ← rec c with
    | .no => usefulEnumerate rec ctors
    | r => return r

/-- `adt_i_useful`. -/
def useful (mem : Nat → Bool) (ctx : Ctx) :
    Nat → List Row → Row → List (Option TypeRef) → Query Useful
  | 0, _, _, _ => failure
  | fuel + 1, rows, q, fams =>
    if ctorCovered rows then return .no
    else
      match q, fams with
      | [], _ => return .yes
      | _ :: _, [] => failure
      | head :: tail, fam :: fams =>
        match head with
        | .ctor c _ => usefulCtor mem ctx (useful mem ctx fuel) rows head tail fams c
        | _ =>
          match fam with
          | none => useful mem ctx fuel (rowsDropCol rows) tail fams
          | some t =>
            usefulEnumerate
              (usefulCtor mem ctx (useful mem ctx fuel) rows head tail fams)
              (ctx.ctorsOf t)

/-! ## Queries -/

def rowOfType (p : Pattern) (type : TypeRef) : Bool :=
  match p with
  | .ctor c _ => c.owner = type
  | _ => false

def notOfType (type : TypeRef) : Failure :=
  ⟨.invalid, some ⟨.invalid, "pattern does not belong to the analyzed type", type⟩⟩

def checkPattern (type : TypeRef) (p : Pattern) : Except Failure Unit :=
  match p with
  | .null => .error (notOfType type)
  | _ => if rowOfType p type = false ∧ wc p = false then .error (notOfType type) else .ok ()

/-- A row of one column for each pattern. -/
def initRows (patterns : List Pattern) : List Row := patterns.map fun p => [p]

/-- The query of `adt_match_exhaustive`, after its checks. -/
def exhaustiveQuery (mem : Nat → Bool) (ctx : Ctx) (fuel : Nat) (type : TypeRef)
    (patterns : List Pattern) : Query (Except Failure MatchResult) := do
  if ! (← tempAlloc mem) then return .error ⟨.nomem, none⟩
  if ! (← tempAlloc mem) then return .error ⟨.nomem, none⟩
  if ! (← tempAlloc mem) then return .error ⟨.nomem, none⟩
  match ← useful mem ctx fuel (initRows patterns) [.null] [some type] with
  | .nomem => return .error ⟨.nomem, none⟩
  | .no => return .ok .exhaustive
  | .yes => return .ok .nonexhaustive

/-- `adt_match_exhaustive`. -/
def matchExhaustive (mem : Nat → Bool) (ctx : Ctx) (fuel : Nat) (type : TypeRef)
    (patterns : List Pattern) : Option (Except Failure MatchResult) := do
  let t ← ctx.types[type]?
  if ! t.isSealed then
    return .error ⟨.unsealed, some ⟨.unsealed, "cannot analyze an unsealed type", type⟩⟩
  match patterns.forM (checkPattern type) with
  | .error e => return .error e
  | .ok _ => (exhaustiveQuery mem ctx fuel type patterns).run' 0

def familyFrom : Pattern → Option TypeRef
  | .ctor c _ => some c.owner
  | _ => none

def takeCtorFamily (patterns : List Pattern) : Option TypeRef := patterns.findSome? familyFrom

/-- The marks when no pattern has a constructor.  The first is written in any case. -/
def markAfterFirst (count : Nat) : List Bool := false :: List.replicate (count - 1) true

def usefulPrefix (mem : Nat → Bool) (ctx : Ctx) (fuel : Nat) (fam : TypeRef)
    (earlier : List Pattern) (p : Pattern) : Query Useful := do
  if ! (← tempAlloc mem) then return .nomem
  if ! (← tempAlloc mem) then return .nomem
  useful mem ctx fuel (initRows earlier) [p] [some fam]

/-- The loop of `adt_match_redundant`, with the patterns it has been through. -/
def redundantLoop (mem : Nat → Bool) (ctx : Ctx) (fuel : Nat) (fam : TypeRef)
    (earlier : List Pattern) : List Pattern → Query (Except Failure (List Bool))
  | [] => return .ok []
  | p :: rest => do
    let r ← usefulPrefix mem ctx fuel fam earlier p
    if r = .nomem then return .error ⟨.nomem, none⟩
    let out ← redundantLoop mem ctx fuel fam (earlier ++ [p]) rest
    return out.map (decide (r = .no) :: ·)

/-- `adt_match_redundant`: the marks it writes. -/
def matchRedundant (mem : Nat → Bool) (ctx : Ctx) (fuel : Nat) (patterns : List Pattern) :
    Option (Except Failure (List Bool)) :=
  match takeCtorFamily patterns with
  | none => some (.ok (markAfterFirst patterns.length))
  | some fam => (redundantLoop mem ctx fuel fam [] patterns).run' 0

end Adt89

/-!
## Values

A value is a finite tree of constructors.  At a type that is not declared, or at a
parameter that is not instantiated, it is a foreign value.
-/

namespace Adt89

open Hm89 (Ty)

inductive Value where
  | foreign (k : Nat)
  | ctor (c : CtorRef) (args : List Value)

/-! ## Matching -/

mutual

def Pattern.matches : Pattern → Value → Bool
  | .ctor c ps, .ctor d vs => c = d && matchesAll ps vs
  | .ctor _ _, .foreign _ => false
  | _, _ => true

def matchesAll : List Pattern → List Value → Bool
  | [], [] => true
  | p :: ps, v :: vs => p.matches v && matchesAll ps vs
  | _, _ => false

end

/-! ## Types of values and patterns -/

/-- The types for the parameters of a declaration. -/
def AdtType.inst (t : AdtType) (args : List Ty) (x : Hm89.Ref) : Ty :=
  match t.parameters.idxOf? x with
  | some k => args.getD k (.var x)
  | none => .var x

/-- The field types of a constructor at an instance of its owner. -/
def Ctx.fieldsAt (ctx : Ctx) (c : CtorRef) (args : List Ty) : List Ty :=
  match ctx.types[c.owner]? with
  | some t => (ctx.fieldTypes c).map fun f => f.subst (t.inst args)
  | none => []

/-- The instance of a declared type. -/
def Ctx.IsInstance (ctx : Ctx) (τ : Ty) (t : TypeRef) (args : List Ty) : Prop :=
  ∃ d, ctx.types[t]? = some d ∧ τ = .con d.hmName args

/-- A parameter, or a type that is not declared. -/
def Ctx.Undeclared (ctx : Ctx) (τ : Ty) : Prop := ∀ t args, ¬ ctx.IsInstance τ t args

mutual

def Value.HasType (ctx : Ctx) : Value → Ty → Prop
  | .foreign _, τ => ctx.Undeclared τ
  | .ctor c vs, τ => (ctx.ctor? c).isSome ∧
      ∃ args, ctx.IsInstance τ c.owner args ∧ HaveTypes ctx vs (ctx.fieldsAt c args)

def HaveTypes (ctx : Ctx) : List Value → List Ty → Prop
  | [], [] => True
  | v :: vs, τ :: τs => v.HasType ctx τ ∧ HaveTypes ctx vs τs
  | _, _ => False

end

mutual

def Pattern.WellTyped (ctx : Ctx) : Pattern → Ty → Prop
  | .ctor c ps, τ => (ctx.ctor? c).isSome ∧
      ∃ args, ctx.IsInstance τ c.owner args ∧ AllWellTyped ctx ps (ctx.fieldsAt c args)
  | _, _ => True

def AllWellTyped (ctx : Ctx) : List Pattern → List Ty → Prop
  | [], [] => True
  | p :: ps, τ :: τs => p.WellTyped ctx τ ∧ AllWellTyped ctx ps τs
  | _, _ => False

end

end Adt89
