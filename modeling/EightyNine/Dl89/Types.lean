import EightyNine.Library.Fuel

/-!
# Rules and their compiled form

A rule has a head atom and body atoms over constants and variables.  Installing
a rule checks it and compiles it: a variable becomes a slot, numbered in the
order of first occurrence, head first.  A compiled rule carries the scratch
arrays of its evaluation, which every depth of the join shares.
-/

namespace Dl89

abbrev Const := Nat
abbrev Rel := Nat
abbrev Var := Nat

/-- `dl89_status`. -/
inductive Status where
  | ok
  | einval
  | enomem
  | eprogram
  | estore
  | ebusy
  deriving DecidableEq

/-- `dl89_term`; `other` is a term of a kind that does not exist. -/
inductive Term where
  | const (constant : Const)
  | var (id : Var)
  | other (kind : Int)
  deriving DecidableEq

/-- `dl89_atom`.  The arity is the number of terms. -/
structure Atom where
  relation : Rel
  terms : List Term

def Atom.arity (a : Atom) : Nat := a.terms.length

/-- `dl89_rule`. -/
structure Rule where
  head : Atom
  body : List Atom

/-- The atoms of a rule in the order of `atom_of`. -/
def Rule.atoms (r : Rule) : List Atom := r.head :: r.body

/-- `dl89_cterm`. -/
inductive CTerm where
  | const (constant : Const)
  | slot (slot : Nat)
  deriving DecidableEq

/-- `dl89_catom`. -/
structure CAtom where
  relation : Rel
  terms : List CTerm
  deriving DecidableEq

def CAtom.arity (a : CAtom) : Nat := a.terms.length

/-- The scratch arrays of a compiled rule.  `values` and `bvalues` are the
bindings of one scan and `tuple` is the tuple last read or emitted. -/
structure Scratch where
  env : Nat → Const
  bound : Nat → Bool
  values : List Const
  bvalues : List Bool
  tuple : List Const
  boundLog : Nat → Nat

/-- The part of a compiled rule that evaluation only reads. -/
structure Code where
  head : CAtom
  body : List CAtom
  varCount : Nat
  tupleCap : Nat
  deriving DecidableEq

/-- `dl89_crule`. -/
structure CRule where
  code : Code
  scratch : Scratch

/-- `dl89_arity`. -/
structure Arity where
  relation : Rel
  arity : Nat

/-- `dl89_eval`, without its store. -/
structure Eval where
  rules : List CRule
  arities : List Arity
  running : Bool

/-! ## Validation -/

/-- `dl89_registry_find`. -/
def registryFind (arities : List Arity) (relation : Rel) : Option Arity :=
  arities.find? fun a => a.relation == relation

/-- `pair_conflict`. -/
def pairConflict (a b : Atom) : Bool := a.relation == b.relation && a.arity != b.arity

/-- `registry_conflict`. -/
def registryConflict (arities : List Arity) (a : Atom) : Bool :=
  match registryFind arities a.relation with
  | none => false
  | some entry => entry.arity != a.arity

/-- `term_kind_valid`. -/
def termKindValid : Term → Bool
  | .const _ => true
  | .var _ => true
  | .other _ => false

/-- `check_atom_terms`. -/
def checkAtomTerms (a : Atom) : Status :=
  if a.terms.all termKindValid then .ok else .eprogram

/-- The loop of `check_rule_arities`: an atom against the ones after it. -/
def checkRuleArities : List Atom → Status
  | [] => .ok
  | a :: rest => if rest.any (pairConflict a) then .eprogram else checkRuleArities rest

/-- `check_rule_registry`. -/
def checkRuleRegistry (arities : List Arity) (rule : Rule) : Status :=
  if rule.atoms.any (registryConflict arities) then .eprogram else .ok

/-- `var_in_body`. -/
def varInBody (rule : Rule) (v : Var) : Bool :=
  rule.body.any fun a => a.terms.any fun t => t == .var v

/-- `head_var_unsafe`. -/
def headVarUnsafe (rule : Rule) (v : Var) : Bool :=
  if rule.body.length = 0 then true else !varInBody rule v

/-- The test of `check_head_safety` on one term of the head. -/
def headTermUnsafe (rule : Rule) : Term → Bool
  | .var v => headVarUnsafe rule v
  | _ => false

/-- `check_head_safety`. -/
def checkHeadSafety (rule : Rule) : Status :=
  if rule.head.terms.any (headTermUnsafe rule) then .eprogram else .ok

/-- `dl89_rule_check`. -/
def ruleCheck (arities : List Arity) (rule : Rule) : Status :=
  if rule.atoms.all fun a => checkAtomTerms a == .ok then
    if checkRuleArities rule.atoms = .ok then
      if checkRuleRegistry arities rule = .ok then checkHeadSafety rule
      else checkRuleRegistry arities rule
    else checkRuleArities rule.atoms
  else .eprogram

/-! ## Compilation -/

/-- `copy_term_one`: a new variable takes the next slot. -/
def copyTermOne (ids : List Var) : Term → CTerm × List Var
  | .var v =>
    match ids.idxOf? v with
    | some slot => (.slot slot, ids)
    | none => (.slot ids.length, ids ++ [v])
  | .const c => (.const c, ids)
  | .other _ => (.const 0, ids)

/-- The loop of `copy_terms`. -/
def copyTermList : List Term → List Var → List CTerm × List Var
  | [], ids => ([], ids)
  | t :: ts, ids =>
    let (t', ids) := copyTermOne ids t
    let (ts', ids) := copyTermList ts ids
    (t' :: ts', ids)

/-- `copy_terms`. -/
def copyTerms (a : Atom) (ids : List Var) : CAtom × List Var :=
  let (terms, ids) := copyTermList a.terms ids
  (⟨a.relation, terms⟩, ids)

/-- The loop of `copy_body`. -/
def copyBody : List Atom → List Var → List CAtom × List Var
  | [], ids => ([], ids)
  | a :: body, ids =>
    let (a', ids) := copyTerms a ids
    let (body', ids) := copyBody body ids
    (a' :: body', ids)

/-- `max_arity_of`. -/
def maxArityOf (rule : Rule) : Nat :=
  rule.body.foldl (fun max a => if a.arity > max then a.arity else max) rule.head.arity

/-- Freshly allocated scratch arrays. -/
def Scratch.empty : Scratch :=
  ⟨fun _ => 0, fun _ => false, [], [], [], fun _ => 0⟩

/-- `dl89_crule_compile`. -/
def cruleCompile (rule : Rule) : CRule :=
  let (head, ids) := copyTerms rule.head []
  let (body, ids) := copyBody rule.body ids
  ⟨⟨head, body, ids.length, maxArityOf rule⟩, .empty⟩

/-! ## Installation -/

/-- `register_atom`. -/
def registerAtom (arities : List Arity) (a : Atom) : List Arity :=
  match registryFind arities a.relation with
  | some _ => arities
  | none => arities ++ [⟨a.relation, a.arity⟩]

/-- `dl89_rule_install`. -/
def ruleInstall (e : Eval) (rule : Rule) : Status × Eval :=
  match ruleCheck e.arities rule with
  | .ok =>
    (.ok, { e with
      rules := e.rules ++ [cruleCompile rule]
      arities := rule.atoms.foldl registerAtom e.arities })
  | st => (st, e)

/-- `dl89_eval_create`. -/
def evalCreate : Eval := ⟨[], [], false⟩

/-- `dl89_eval_add_rule`. -/
def evalAddRule (e : Eval) (rule : Rule) : Status × Eval :=
  if e.running then (.ebusy, e) else ruleInstall e rule

end Dl89
