import EightyNine.Library.Fuel

/-!
# The type section

Types as the decoder leaves them, flattened into an environment in which every
subtype has an index, and the functions that compare them: canonical equality,
matching, the validation of the section, and the comparisons between the
environments of two modules.  Comparing follows references from type to type, so
it is given fuel and answers `none` when the fuel runs out.  Reads of a type are in
range once the references of the section are checked.
-/

namespace Wasm89

/-! ## Types -/

/-- `w89_absheaptype`, and the value 0 that stands for the bottom type. -/
inductive AbsHeapType where
  | bot
  | exn
  | array
  | struct
  | i31
  | eq
  | any
  | externRef
  | func
  | none
  | noexternRef
  | nofunc
  | noexn
  deriving DecidableEq

/-- The heap type of a `w89_reftype`: a type use or an abstract one. -/
inductive HeapType (ρ : Type) where
  | idx (x : ρ)
  | abs (h : AbsHeapType)

/-- `w89_reftype`. -/
structure RefType (ρ : Type) where
  nullable : Bool
  ht : HeapType ρ

/-- `w89_vt`.  The number 0 stands for the bottom type. -/
inductive ValType (ρ : Type) where
  | num (n : Nat)
  | ref (rt : RefType ρ)

/-- `w89_packed`. -/
inductive Packed where
  | i8
  | i16
  deriving DecidableEq

/-- What a field stores. -/
inductive StorageType (ρ : Type) where
  | packed (p : Packed)
  | val (vt : ValType ρ)

/-- `w89_fieldtype`. -/
structure FieldType (ρ : Type) where
  storage : StorageType ρ
  isMut : Bool

/-- The composite type of a `w89_subtype`. -/
inductive CompType (ρ : Type) where
  | func (params results : List (ValType ρ))
  | struct (fields : List (FieldType ρ))
  | array (field : FieldType ρ)

/-- `w89_compkind`. -/
inductive CompKind where
  | func
  | struct
  | array
  deriving DecidableEq

/-- The kind of a composite type. -/
def CompType.kind {ρ : Type} : CompType ρ → CompKind
  | .func _ _ => .func
  | .struct _ => .struct
  | .array _ => .array

/-- `w89_subtype`. -/
structure SubType (ρ : Type) where
  isFinal : Bool
  supertypes : List ρ
  comp : CompType ρ

/-- `w89_rectype`. -/
abbrev RecType (ρ : Type) := List (SubType ρ)

/-! ## The environment -/

/-- `w89_deftype`. -/
structure DefType where
  sub : SubType Nat
  recgroup : Nat
  recpos : Nat

/-- `w89_recgroup`. -/
structure RecGroup where
  first : Nat
  nsubs : Nat

/-- `w89_typeenv`. -/
structure TypeEnv where
  types : List DefType
  recs : List RecGroup

/-- The types of the `i`-th group. -/
def groupTypes (i : Nat) (rt : RecType Nat) : List DefType :=
  rt.zipIdx.map fun sub => ⟨sub.1, i, sub.2⟩

/-- The loop of `w89_typeenv_build`, from the `i`-th group and the type `idx` on. -/
def typeenvFrom (i idx : Nat) : List (RecType Nat) → TypeEnv
  | [] => ⟨[], []⟩
  | rt :: rts =>
    let env := typeenvFrom (i + 1) (idx + rt.length) rts
    ⟨groupTypes i rt ++ env.types, ⟨idx, rt.length⟩ :: env.recs⟩

/-- `w89_typeenv_build`. -/
def typeenvBuild (rectypes : List (RecType Nat)) : TypeEnv := typeenvFrom 0 0 rectypes

/-- `env->types[x]`. -/
def TypeEnv.type (env : TypeEnv) (x : Nat) : DefType :=
  env.types.getD x ⟨⟨false, [], .func [] []⟩, 0, 0⟩

/-- `env->recs[g]`. -/
def TypeEnv.group (env : TypeEnv) (g : Nat) : RecGroup := env.recs.getD g ⟨0, 0⟩

/-! ## Canonical equality -/

/-- The loops that compare two arrays of one length and stop at the first difference. -/
def allEq {α β : Type} (eq : α → β → Option Bool) : List α → List β → Option Bool
  | a :: as, b :: bs => do if ← eq a b then allEq eq as bs else some false
  | _, _ => some true

section

/- The comparison of two type uses.  The functions on environments and those on pairs of
environments differ in it. -/
variable (use : Nat → Nat → Option Bool)

/-- `ht_canon_eq`, `ht_canon_eq_x`. -/
def htCanonEq (a b : RefType Nat) : Option Bool :=
  match a.ht, b.ht with
  | .idx x, .idx y => use x y
  | .abs h, .abs k => some (h == k)
  | _, _ => some false

/-- `vt_canon_eq`, `vt_canon_eq_x`. -/
def vtCanonEq : ValType Nat → ValType Nat → Option Bool
  | .num n, .num m => some (n == m)
  | .ref a, .ref b => if a.nullable ≠ b.nullable then some false else htCanonEq use a b
  | _, _ => some false

/-- `field_canon_eq`, `field_canon_eq_x`. -/
def fieldCanonEq (a b : FieldType Nat) : Option Bool :=
  match a.storage, b.storage with
  | .packed p, .packed q => some (p == q)
  | .val v, .val w => vtCanonEq use v w
  | _, _ => some false

/-- The comparison of function types in `comptype_canon_eq` and `comptype_canon_eq_x`. -/
def funcCanonEq (ps rs ps' rs' : List (ValType Nat)) : Option Bool :=
  if ps.length ≠ ps'.length then some false
  else if rs.length ≠ rs'.length then some false
  else do
    if ← allEq (vtCanonEq use) ps ps' then allEq (vtCanonEq use) rs rs' else some false

/-- The comparison of structure types. -/
def fieldsCanonEq (fs fs' : List (FieldType Nat)) : Option Bool :=
  if fs.length ≠ fs'.length then some false else allEq (fieldCanonEq use) fs fs'

/-- `comptype_canon_eq`. -/
def comptypeCanonEq (a b : SubType Nat) : Option Bool :=
  match a.comp, b.comp with
  | .func ps rs, .func ps' rs' => funcCanonEq use ps rs ps' rs'
  | .struct fs, .struct fs' => fieldsCanonEq use fs fs'
  | .array f, .array f' => fieldCanonEq use f f'
  | _, _ => some false

/-- `comptype_canon_eq_x`, where an array type has one field. -/
def comptypeCanonEqX (a b : SubType Nat) : Option Bool :=
  match a.comp, b.comp with
  | .func ps rs, .func ps' rs' => funcCanonEq use ps rs ps' rs'
  | .struct fs, .struct fs' => fieldsCanonEq use fs fs'
  | .array f, .array f' => fieldsCanonEq use [f] [f']
  | _, _ => some false

/-- The body of the loop of `recgroup_canon_eq` and `recgroup_canon_eq_x`. -/
def subCanonEq (comp : SubType Nat → SubType Nat → Option Bool) (sa sb : SubType Nat) :
    Option Bool :=
  if sa.isFinal ≠ sb.isFinal then some false
  else if sa.supertypes.length ≠ sb.supertypes.length then some false
  else do
    if ← allEq use sa.supertypes sb.supertypes then comp sa sb else some false

end

/-- The subtypes of a group. -/
def TypeEnv.subs (env : TypeEnv) (g : Nat) : List (SubType Nat) :=
  (List.range (env.group g).nsubs).map fun k => (env.type ((env.group g).first + k)).sub

/-- Whether a type use is one of the group. -/
def TypeEnv.inGroup (env : TypeEnv) (g x : Nat) : Bool :=
  if x < env.types.length then (env.type x).recgroup == g else false

/-- `typeuse_canon_eq_x`, and `typeuse_canon_eq` for one environment. -/
def typeuseCanonEqX (ae : TypeEnv) (ga : Nat) (be : TypeEnv) (gb : Nat)
    (deftype : Nat → Nat → Option Bool) (x y : Nat) : Option Bool :=
  let xin := ae.inGroup ga x
  let yin := be.inGroup gb y
  if xin && yin then some ((ae.type x).recpos == (be.type y).recpos)
  else if xin then some false
  else if yin then some false
  else deftype x y

/-- `typeuse_canon_eq`. -/
def typeuseCanonEq (env : TypeEnv) (ga gb : Nat) (deftype : Nat → Nat → Option Bool) :
    Nat → Nat → Option Bool :=
  typeuseCanonEqX env ga env gb deftype

/-- `recgroup_canon_eq`. -/
def recgroupCanonEq (env : TypeEnv) (deftype : Nat → Nat → Option Bool) (ga gb : Nat) :
    Option Bool :=
  if ga = gb then some true
  else if (env.group ga).nsubs ≠ (env.group gb).nsubs then some false
  else
    let use := typeuseCanonEq env ga gb deftype
    allEq (subCanonEq use (comptypeCanonEq use)) (env.subs ga) (env.subs gb)

/-- `w89_type_canon_eq`. -/
def typeCanonEq : Nat → TypeEnv → Nat → Nat → Option Bool
  | 0, _, _, _ => none
  | fuel + 1, env, a, b =>
    if a = b then some true
    else if a ≥ env.types.length then some false
    else if b ≥ env.types.length then some false
    else if (env.type a).recpos ≠ (env.type b).recpos then some false
    else recgroupCanonEq env (typeCanonEq fuel env) (env.type a).recgroup (env.type b).recgroup

/-! ## Matching -/

/-- The loops over the supertypes, which stop at the first that matches. -/
def anyOf (f : Nat → Option Bool) : List Nat → Option Bool
  | [] => some false
  | x :: xs => do if ← f x then some true else anyOf f xs

/-- `w89_match_deftype`. -/
def matchDeftype : Nat → TypeEnv → Nat → Nat → Option Bool
  | 0, _, _, _ => none
  | fuel + 1, env, a, b =>
    if a = b then some true
    else do
      if ← typeCanonEq fuel env a b then some true
      else anyOf (fun sp => matchDeftype fuel env sp b) (env.type a).sub.supertypes

/-- `kind_matches_abstract`. -/
def kindMatchesAbstract (kind : CompKind) (hb : AbsHeapType) : Bool :=
  match kind with
  | .func => hb == .func
  | .struct => hb == .any || hb == .eq || hb == .struct
  | .array => hb == .any || hb == .eq || hb == .array

/-- Whether a type is one of the bottoms from which `abstract_lt_abstract` calls itself. -/
def AbsHeapType.isNo : AbsHeapType → Nat
  | .nofunc | .noexn | .noexternRef => 1
  | _ => 0

/-- `abstract_lt_abstract`. -/
def abstractLtAbstract (ha hb : AbsHeapType) : Bool :=
  if ha = hb then true
  else
    match ha with
    | .eq => hb == .any
    | .struct | .array | .i31 => hb == .any || hb == .eq
    | .none => hb == .none || hb == .any || hb == .eq || hb == .struct || hb == .array || hb == .i31
    | .nofunc => abstractLtAbstract hb .func
    | .noexn => abstractLtAbstract hb .exn
    | .noexternRef => abstractLtAbstract hb .externRef
    | _ => false
termination_by ha.isNo + hb.isNo
decreasing_by all_goals simp only [AbsHeapType.isNo]; omega

/-- `abstract_lt_type`. -/
def abstractLtType (env : TypeEnv) (ha : AbsHeapType) (x : Nat) : Bool :=
  let kind := (env.type x).sub.comp.kind
  match ha with
  | .none => kind == .struct || kind == .array
  | .nofunc => kindMatchesAbstract kind .func
  | .noexn => kindMatchesAbstract kind .exn
  | .noexternRef => kindMatchesAbstract kind .externRef
  | _ => false

section

variable (fuel : Nat) (env : TypeEnv)

/-- `ht_match`. -/
def htMatch (a b : RefType Nat) : Option Bool :=
  match a.ht, b.ht with
  | .abs .bot, _ => some true
  | .idx x, .idx y => matchDeftype fuel env x y
  | .idx x, .abs k => some (kindMatchesAbstract (env.type x).sub.comp.kind k)
  | .abs h, .idx y => some (abstractLtType env h y)
  | .abs h, .abs k => some (abstractLtAbstract h k)

/-- `w89_match_reftype`. -/
def matchReftype (a b : RefType Nat) : Option Bool :=
  if a.nullable && !b.nullable then some false else htMatch fuel env a b

/-- `w89_match_valtype`. -/
def matchValtype (a b : ValType Nat) : Option Bool :=
  match a, b with
  | .num 0, _ => some true
  | .num n, .num m => some (n == m)
  | .ref a, .ref b => matchReftype fuel env a b
  | _, _ => some false

/-- `w89_match_resulttype`. -/
def matchResulttype (as bs : List (ValType Nat)) : Option Bool :=
  if as.length ≠ bs.length then some false else allEq (matchValtype fuel env) as bs

/-- `match_storagetype`. -/
def matchStoragetype (a b : FieldType Nat) : Option Bool :=
  match a.storage, b.storage with
  | .packed p, .packed q => some (p == q)
  | .val v, .val w => matchValtype fuel env v w
  | _, _ => some false

/-- `match_fieldtype`. -/
def matchFieldtype (a b : FieldType Nat) : Option Bool :=
  if a.isMut ≠ b.isMut then some false
  else do
    if ← matchStoragetype fuel env a b then
      if !a.isMut then some true else matchStoragetype fuel env b a
    else some false

/-- `w89_match_comptype`.  The loop over the fields of a structure stops after those of `b`. -/
def matchComptype (a b : SubType Nat) : Option Bool :=
  match a.comp, b.comp with
  | .func ps rs, .func ps' rs' => do
    if ← matchResulttype fuel env ps' ps then matchResulttype fuel env rs rs' else some false
  | .struct fs, .struct fs' =>
    if fs.length < fs'.length then some false else allEq (matchFieldtype fuel env) fs fs'
  | .array f, .array f' => matchFieldtype fuel env f f'
  | _, _ => some false

end

/-! ## Validation -/

/-- Why a type section is rejected. -/
inductive TypeFault where
  | unknown (x : Nat)
  | forward (s : Nat)
  | final (i s : Nat)
  | mismatch (i s : Nat)

/-- The message of `w89_validate_message`. -/
def TypeFault.message : TypeFault → String
  | unknown x => "unknown type " ++ toString x
  | forward s => "forward use of type " ++ toString s ++ " in sub type definition"
  | final i s => "sub type " ++ toString i ++ " has final super type " ++ toString s
  | mismatch i s => "sub type " ++ toString i ++ " does not match super type " ++ toString s

/-- `vt_valid`, with the message of its callers. -/
def vtValid (bound : Nat) : ValType Nat → Except TypeFault Unit
  | .ref ⟨_, .idx x⟩ => if x < bound then .ok () else .error (.unknown x)
  | _ => .ok ()

/-- The value type of a field that is not packed. -/
def fieldValid (bound : Nat) (ft : FieldType Nat) : Except TypeFault Unit :=
  match ft.storage with
  | .packed _ => .ok ()
  | .val vt => vtValid bound vt

/-- The references of a composite type. -/
def compValid (bound : Nat) : CompType Nat → Except TypeFault Unit
  | .func ps rs => do
    ps.forM (vtValid bound)
    rs.forM (vtValid bound)
  | .struct fs => fs.forM (fieldValid bound)
  | .array f => fieldValid bound f

/-- The body of the first loop of `validate_type_section`. -/
def refsValid (env : TypeEnv) (i : Nat) : Except TypeFault Unit := do
  let dt := env.type i
  let rg := env.group dt.recgroup
  let bound := rg.first + rg.nsubs
  dt.sub.supertypes.forM fun sp => if sp ≥ bound then .error (.unknown sp) else .ok ()
  compValid bound dt.sub.comp

/-- A loop that stops at the first fault. -/
def eachOk {α : Type} (f : α → Option (Except TypeFault Unit)) :
    List α → Option (Except TypeFault Unit)
  | [] => some (.ok ())
  | x :: xs => do
    match ← f x with
    | .error e => some (.error e)
    | .ok () => eachOk f xs

/-- The check of the type `i` against one supertype. -/
def superValid (fuel : Nat) (env : TypeEnv) (i s : Nat) : Option (Except TypeFault Unit) :=
  if s ≥ i then some (.error (.forward s))
  else if (env.type s).sub.isFinal then some (.error (.final i s))
  else do
    if ← matchComptype fuel env (env.type i).sub (env.type s).sub then some (.ok ())
    else some (.error (.mismatch i s))

/-- The body of the second loop. -/
def supersValid (fuel : Nat) (env : TypeEnv) (i : Nat) : Option (Except TypeFault Unit) :=
  eachOk (superValid fuel env i) (env.type i).sub.supertypes

/-- `validate_type_section`. -/
def validateTypeSection (fuel : Nat) (env : TypeEnv) : Option (Except TypeFault Unit) :=
  match (List.range env.types.length).forM (refsValid env) with
  | .error e => some (.error e)
  | .ok () => eachOk (supersValid fuel env) (List.range env.types.length)

/-! ## Two environments -/

/-- `recgroup_canon_eq_x`.  `same` is whether the two environments are one object. -/
def recgroupCanonEqX (same : Bool) (ae be : TypeEnv) (deftype : Nat → Nat → Option Bool)
    (ga gb : Nat) : Option Bool :=
  if same && ga == gb then some true
  else if (ae.group ga).nsubs ≠ (be.group gb).nsubs then some false
  else
    let use := typeuseCanonEqX ae ga be gb deftype
    allEq (subCanonEq use (comptypeCanonEqX use)) (ae.subs ga) (be.subs gb)

/-- `w89_deftype_canon_eq_x`. -/
def deftypeCanonEqX (same : Bool) : Nat → TypeEnv → Nat → TypeEnv → Nat → Option Bool
  | 0, _, _, _, _ => none
  | fuel + 1, ae, a, be, b =>
    if a ≥ ae.types.length then some false
    else if b ≥ be.types.length then some false
    else if (ae.type a).recpos ≠ (be.type b).recpos then some false
    else recgroupCanonEqX same ae be (fun x y => deftypeCanonEqX same fuel ae x be y)
      (ae.type a).recgroup (be.type b).recgroup

/-- `w89_match_deftype_x`. -/
def matchDeftypeX (same : Bool) : Nat → TypeEnv → Nat → TypeEnv → Nat → Option Bool
  | 0, _, _, _, _ => none
  | fuel + 1, ae, a, be, b =>
    if same then matchDeftype fuel ae a b
    else if a ≥ ae.types.length then some false
    else if b ≥ be.types.length then some false
    else do
      if ← deftypeCanonEqX same fuel ae a be b then some true
      else anyOf (fun sp => matchDeftypeX same fuel ae sp be b) (ae.type a).sub.supertypes

end Wasm89
