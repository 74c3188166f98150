import EightyNine.Hm89.Types

/-!
# Schemes

A scheme is a body and the variables it quantifies.  `hm_generalize` quantifies
the free variables of a type that are not free in the environment, and
`hm_instantiate` clones the body with fresh variables for the quantified ones.
An environment is its chain of scopes, innermost first, and a scope is its
schemes, newest first.
-/

namespace Hm89

structure Scheme where
  vars : List Ref
  body : Ref

abbrev Env := List (List Scheme)

/-! ## Free variables -/

/-- `hm_i_set_add`. -/
def setAdd (set : List Ref) (v : Ref) : List Ref :=
  if v ∈ set then set else set ++ [v]

/-- A loop that collects the free variables of each item in turn. -/
def collect {α : Type} (ftv : Store → α → List Ref → Option (Store × List Ref)) :
    Store → List α → List Ref → Option (Store × List Ref)
  | s, [], out => some (s, out)
  | s, item :: items, out => do
    let (s, out) ← ftv s item out
    collect ftv s items out

/-- `hm_i_type_ftv`. -/
def typeFtv : Nat → Store → Ref → List Ref → Option (Store × List Ref)
  | 0, _, _, _ => none
  | fuel + 1, s, type, out => do
    let (s, p) ← typePrune fuel s type
    match s.node? p with
    | none => none
    | some (.var _ _) => pure (s, setAdd out p)
    | some (.con _ args) => collect (typeFtv fuel) s args out

/-- The loop of `hm_i_scheme_ftv`: what the scheme does not quantify is free. -/
def addFree (scheme : Scheme) : List Ref → List Ref → List Ref
  | [], out => out
  | item :: body, out =>
    addFree scheme body (if item ∈ scheme.vars then out else setAdd out item)

/-- `hm_i_scheme_ftv`. -/
def schemeFtv (fuel : Nat) (s : Store) (scheme : Scheme) (out : List Ref) :
    Option (Store × List Ref) := do
  let (s, body) ← typeFtv fuel s scheme.body []
  pure (s, addFree scheme body out)

/-- `hm_i_scope_ftv`. -/
def scopeFtv (fuel : Nat) : Store → List Scheme → List Ref → Option (Store × List Ref) :=
  collect (schemeFtv fuel)

/-- `hm_i_env_ftv`. -/
def envFtv (fuel : Nat) : Store → Env → List Ref → Option (Store × List Ref) :=
  collect (scopeFtv fuel)

/-! ## Generalization and instantiation -/

/-- `hm_i_collect_free` over the free variables of the type. -/
def collectFree (freeEnv : List Ref) : List Ref → List Ref → List Ref
  | [], quant => quant
  | item :: freeType, quant =>
    collectFree freeEnv freeType (if item ∈ freeEnv then quant else setAdd quant item)

/-- `hm_generalize`. -/
def generalize (fuel : Nat) (s : Store) (env : Env) (type : Ref) : Option (Store × Scheme) := do
  let (s, freeType) ← typeFtv fuel s type []
  let (s, freeEnv) ← envFtv fuel s env []
  pure (s, ⟨collectFree freeEnv freeType [], type⟩)

/-- `hm_i_clone_args`. -/
def cloneArgs (cloneType : Store → Ref → Option (Store × Ref)) :
    Store → List Ref → Option (Store × List Ref)
  | s, [] => some (s, [])
  | s, arg :: args => do
    let (s, arg) ← cloneType s arg
    let (s, args) ← cloneArgs cloneType s args
    pure (s, arg :: args)

/-- `hm_i_clone_type`.  The new node is written once its arguments are cloned;
nothing reads it before. -/
def cloneType : Nat → Scheme → List Ref → Store → Ref → Option (Store × Ref)
  | 0, _, _, _, _ => none
  | fuel + 1, scheme, fresh, s, node => do
    let (s, p) ← typePrune fuel s node
    match s.node? p with
    | none => none
    | some (.var _ _) =>
      match scheme.vars.idxOf? p with
      | some idx => (fresh[idx]?).map fun v => (s, v)
      | none => pure (s, p)
    | some (.con name args) => do
      let (s, args) ← cloneArgs (cloneType fuel scheme fresh) s args
      pure (typeCon s name args)

/-- The loop of `hm_instantiate` that allocates the fresh variables. -/
def freshVars : Nat → Store → Store × List Ref
  | 0, s => (s, [])
  | n + 1, s =>
    let (s, v) := typeVar s
    let (s, fresh) := freshVars n s
    (s, v :: fresh)

/-- `hm_instantiate`. -/
def instantiate (fuel : Nat) (s : Store) (scheme : Scheme) : Option (Store × Ref) :=
  if scheme.vars.length = 0 then some (s, scheme.body)
  else
    let (s, fresh) := freshVars scheme.vars.length s
    cloneType fuel scheme fresh s scheme.body

end Hm89

/-!
# Generalization and the allocator

`hm_generalize` with every allocation it makes.  `mem` says which requests are granted, in
the order they are made.  The sets of variables are arrays that grow by `hm_i_set_grow`,
and `hm_i_set_add` leaves a variable out when the array is full and cannot grow.  The sites
of the refused requests are recorded; nothing reads the record.
-/

namespace Hm89

/-- What a request is for: the header of a set, room in a set for a variable, or the new
scheme.  The schemes of the environment are numbered in the order they are visited. -/
inductive Site where
  | typeSet
  | envSet
  | quantSet
  | bodySet (k : Nat)
  | typeItem (v : Ref)
  | bodyItem (k : Nat) (v : Ref)
  | envItem (k : Nat) (v : Ref)
  | quantItem (v : Ref)
  | scheme
  | vars
  deriving DecidableEq

/-- The store, the number of requests made, and the sites of the refused ones, newest first. -/
structure Work where
  store : Store
  made : Nat
  refused : List Site

/-- `hm_i_alloc`. -/
def Work.alloc (mem : Nat → Bool) (site : Site) (w : Work) : Bool × Work :=
  (mem w.made, { w with
    made := w.made + 1
    refused := if mem w.made then w.refused else site :: w.refused })

/-! ## Sets of variables -/

/-- A set: an array of `cap` slots, of which the first ones are taken. -/
structure VarSet where
  items : List Ref
  cap : Nat
  fits : items.length ≤ cap

/-- `hm_i_set_new`. -/
def VarSet.empty : VarSet := ⟨[], 0, Nat.le_refl 0⟩

/-- `hm_i_grow_cap`. -/
def growCap (cap : Nat) : Nat := if cap = 0 then 4 else cap * 2

theorem lt_growCap (cap : Nat) : cap < growCap cap := by
  rw [growCap]
  split <;> omega

def VarSet.grown (set : VarSet) : VarSet :=
  ⟨set.items, growCap set.cap, Nat.le_trans set.fits (Nat.le_of_lt (lt_growCap set.cap))⟩

def VarSet.push (set : VarSet) (v : Ref) (room : set.items.length ≠ set.cap) : VarSet :=
  ⟨set.items ++ [v], set.cap, by
    rw [List.length_append, List.length_singleton]
    exact Nat.lt_of_le_of_ne set.fits room⟩

/-- A set being filled. -/
structure Filling where
  work : Work
  set : VarSet

/-- `hm_i_set_grow`. -/
def setGrow (mem : Nat → Bool) (site : Site) (f : Filling) : Filling :=
  let a := f.work.alloc mem site
  ⟨a.2, if a.1 then f.set.grown else f.set⟩

/-- `hm_i_set_add`.  A variable that finds no room is left out. -/
def setAddIn (mem : Nat → Bool) (site : Site) (f : Filling) (v : Ref) : Filling :=
  if v ∈ f.set.items then f
  else
    let f := if f.set.items.length = f.set.cap then setGrow mem site f else f
    if h : f.set.items.length = f.set.cap then f else ⟨f.work, f.set.push v h⟩

/-- `hm_i_type_ftv`. -/
def typeFtvIn (mem : Nat → Bool) (site : Ref → Site) : Nat → Filling → Ref → Option Filling
  | 0, _, _ => none
  | fuel + 1, f, type => do
    let (s, p) ← typePrune fuel f.work.store type
    let f : Filling := { f with work := { f.work with store := s } }
    match s.node? p with
    | none => none
    | some (.var _ _) => some (setAddIn mem (site p) f p)
    | some (.con _ args) => args.foldlM (typeFtvIn mem site fuel) f

/-- `hm_i_add_free_index`. -/
def addFreeIn (mem : Nat → Bool) (k : Nat) (scheme : Scheme) (f : Filling) (item : Ref) :
    Filling :=
  if item ∈ scheme.vars then f else setAddIn mem (.envItem k item) f item

/-- `hm_i_scheme_ftv` of the scheme with number `k`. -/
def schemeFtvIn (mem : Nat → Bool) (fuel k : Nat) (f : Filling) (scheme : Scheme) :
    Option Filling :=
  let a := f.work.alloc mem (.bodySet k)
  if a.1 then do
    let body ← typeFtvIn mem (.bodyItem k) fuel ⟨a.2, .empty⟩ scheme.body
    return body.set.items.foldl (addFreeIn mem k scheme) ⟨body.work, f.set⟩
  else some ⟨a.2, f.set⟩

/-- `hm_i_scope_ftv`. -/
def scopeFtvIn (mem : Nat → Bool) (fuel : Nat) : Nat → Filling → List Scheme → Option Filling
  | _, f, [] => some f
  | k, f, scheme :: scope => do
    let f ← schemeFtvIn mem fuel k f scheme
    scopeFtvIn mem fuel (k + 1) f scope

/-- `hm_i_env_ftv`. -/
def envFtvIn (mem : Nat → Bool) (fuel : Nat) : Nat → Filling → Env → Option Filling
  | _, f, [] => some f
  | k, f, scope :: env => do
    let f ← scopeFtvIn mem fuel k f scope
    envFtvIn mem fuel (k + scope.length) f env

/-! ## Generalization -/

/-- `hm_i_collect_free`. -/
def collectFreeIn (mem : Nat → Bool) (freeEnv : List Ref) (f : Filling) (item : Ref) : Filling :=
  if item ∈ freeEnv then f else setAddIn mem (.quantItem item) f item

/-- `hm_i_scheme_alloc`. -/
def schemeAlloc (mem : Nat → Bool) (count : Nat) (w : Work) : Bool × Work :=
  let a := w.alloc mem .scheme
  if a.1 ∧ count ≠ 0 then a.2.alloc mem .vars else a

/-- `hm_generalize`.  `NULL` is `none`. -/
def generalizeIn (mem : Nat → Bool) (fuel : Nat) (s : Store) (env : Env) (type : Ref) :
    Option (Work × Option Scheme) :=
  let a := Work.alloc mem .typeSet ⟨s, 0, []⟩
  if ! a.1 then some (a.2, none)
  else do
    let freeType ← typeFtvIn mem .typeItem fuel ⟨a.2, .empty⟩ type
    let a := freeType.work.alloc mem .envSet
    if ! a.1 then return (a.2, none)
    let freeEnv ← envFtvIn mem fuel 0 ⟨a.2, .empty⟩ env
    let a := freeEnv.work.alloc mem .quantSet
    if ! a.1 then return (a.2, none)
    let quant := freeType.set.items.foldl (collectFreeIn mem freeEnv.set.items) ⟨a.2, .empty⟩
    let a := schemeAlloc mem quant.set.items.length quant.work
    if ! a.1 then return (a.2, none)
    return (a.2, some ⟨quant.set.items, type⟩)

end Hm89
