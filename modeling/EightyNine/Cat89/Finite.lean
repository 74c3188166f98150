import EightyNine.Cat89.Kernel
import EightyNine.Library.Check
import EightyNine.Library.Links
import Mathlib.Data.List.Basic

/-!
# libcat89: the finite backend

`src/finite.c` and the vectors of `src/cat89_util.c`.  A vector carries the bounds its
growth keeps: it is no longer than its capacity, and its capacity in bytes is a
`size_t`.  Whether the allocator answers is an argument of each call that may
allocate.  Handles are addresses: an object is an address within `obj_mem`, a morphism
the address of its `struct fin_mor`.
-/

namespace Cat89

open Library (Links checkThen checkAll)

/-! ## Vectors -/

/-- `vec_new_cap`. -/
def vecNewCap (cap : Nat) : Except Status Nat :=
  if cap = 0 then .ok 4 else sizeAdd cap cap

/-- The capacity that `vec_grow` asks memory for, for elements of `elem` bytes. -/
def vecGrowCap (cap elem : Nat) : Except Status Nat :=
  match vecNewCap cap with
  | .error st => .error st
  | .ok newCap =>
    match sizeMul newCap elem with
    | .error st => .error st
    | .ok _ => .ok newCap

theorem vecGrowCap_ok {cap elem newCap : Nat} (h : vecGrowCap cap elem = .ok newCap) :
    cap < newCap ∧ newCap * elem ≤ ulongMax := by
  rw [vecGrowCap] at h
  split at h
  next => cases h
  next c hc =>
    split at h
    next => cases h
    next _ hm =>
      obtain rfl := Except.ok.inj h
      refine ⟨?_, (sizeMul_ok hm).2⟩
      rw [vecNewCap] at hc
      split at hc
      next h0 =>
        obtain rfl := Except.ok.inj hc
        omega
      next h0 =>
        have := sizeAdd_ok hc
        omega

/-- `cat89_vec`, with elements of `elem` bytes. -/
structure Vec (α : Type) (elem : Nat) where
  data : List α
  cap : Nat
  le_cap : data.length ≤ cap
  fits : cap * elem ≤ ulongMax

namespace Vec

variable {α : Type} {elem : Nat}

/-- `cat89_vec_init`. -/
def init : Vec α elem := ⟨[], 0, le_rfl, by simp⟩

/-- `cat89_vec_push`, where `room` tells whether the allocator answers. -/
def push (room : Bool) (v : Vec α elem) (x : α) : Status × Vec α elem :=
  if hlen : v.data.length = v.cap then
    match hcap : vecGrowCap v.cap elem with
    | .error st => (st, v)
    | .ok newCap =>
      if room then
        (.ok, ⟨v.data ++ [x], newCap, by
          have := (vecGrowCap_ok hcap).1
          simp only [List.length_append, List.length_singleton]
          omega, (vecGrowCap_ok hcap).2⟩)
      else (.nomem, v)
  else
    (.ok, ⟨v.data ++ [x], v.cap, by
      have := v.le_cap
      simp only [List.length_append, List.length_singleton]
      omega, v.fits⟩)

/-- `data[i] = x`. -/
def set (v : Vec α elem) (i : Nat) (x : α) : Vec α elem :=
  ⟨v.data.set i x, v.cap, by simpa using v.le_cap, v.fits⟩

end Vec

/-! ## The builder -/

/-- `FIN_SENTINEL`. -/
def finSentinel : Nat := ulongMax

/-- `struct finite_morphism_row`. -/
structure MorphismRow where
  dom : Nat
  cod : Nat

/-- `struct finite_composition_row`. -/
structure CompositionRow where
  g : Nat
  f : Nat
  result : Nat

/-- `cat89_finite_builder`. -/
structure Builder where
  ident : Vec Nat 8
  mors : Vec MorphismRow 16
  comps : Vec CompositionRow 24

/-- What the vectors of a builder hold. -/
structure Tables where
  ident : List Nat
  mors : List MorphismRow
  comps : List CompositionRow

def Builder.tables (b : Builder) : Tables := ⟨b.ident.data, b.mors.data, b.comps.data⟩

/-- `cat89_finite_builder_new`. -/
def builderNew : Builder := ⟨.init, .init, .init⟩

/-- `cat89_finite_add_object`. -/
def addObject (room : Bool) (b : Builder) : Status × Nat × Builder :=
  match b.ident.push room finSentinel with
  | (.ok, ident) => (.ok, ident.data.length - 1, { b with ident := ident })
  | (st, _) => (st, 0, b)

/-- `cat89_finite_add_morphism`. -/
def addMorphism (room : Bool) (b : Builder) (dom cod : Nat) : Status × Nat × Builder :=
  if b.ident.data.length ≤ dom then (.invalid, 0, b)
  else if b.ident.data.length ≤ cod then (.invalid, 0, b)
  else
    match b.mors.push room ⟨dom, cod⟩ with
    | (.ok, mors) => (.ok, mors.data.length - 1, { b with mors := mors })
    | (st, _) => (st, 0, b)

/-- `cat89_finite_set_identity`. -/
def setIdentity (b : Builder) (obj mor : Nat) : Status × Builder :=
  if b.ident.data.length ≤ obj then (.invalid, b)
  else if b.mors.data.length ≤ mor then (.invalid, b)
  else (.ok, { b with ident := b.ident.set obj mor })

/-- `cat89_finite_set_composition`. -/
def setComposition (room : Bool) (b : Builder) (g f result : Nat) : Status × Builder :=
  if b.mors.data.length ≤ g then (.invalid, b)
  else if b.mors.data.length ≤ f then (.invalid, b)
  else if b.mors.data.length ≤ result then (.invalid, b)
  else
    match b.comps.push room ⟨g, f, result⟩ with
    | (st, comps) => (st, { b with comps := comps })

/-! ## Validation -/

namespace Tables

variable (t : Tables)

/-- `builder_mor`. -/
def builderMor (i : Nat) : Option MorphismRow := t.mors[i]?

/-- `builder_ident`. -/
def builderIdent (obj : Nat) : Option Nat := t.ident[obj]?

/-- `ident_ref_ok`. -/
def identRefOk (i : Nat) : Option Bool :=
  (t.builderIdent i).map fun id =>
    if id = finSentinel then false
    else if t.mors.length ≤ id then false
    else true

/-- `ident_typing_ok`. -/
def identTypingOk (i : Nat) : Option Bool :=
  (t.builderIdent i).bind fun id =>
    (t.builderMor id).map fun row =>
      if row.dom ≠ i then false
      else if row.cod ≠ i then false
      else true

/-- `comp_row_ok`. -/
def compRowOk (i : Nat) : Option Bool :=
  t.comps[i]?.bind fun row =>
    if t.mors.length ≤ row.g then some false
    else if t.mors.length ≤ row.f then some false
    else if t.mors.length ≤ row.result then some false
    else
      (t.builderMor row.f).bind fun frow =>
        (t.builderMor row.g).bind fun grow =>
          (t.builderMor row.result).map fun rrow =>
            if frow.cod ≠ grow.dom then false
            else if rrow.dom ≠ frow.dom then false
            else if rrow.cod ≠ grow.cod then false
            else true

/-- `comp_lookup_row`, on the result and the count so far. -/
def compLookupRow (g f : Nat) (out : Nat × Nat) (row : CompositionRow) : Nat × Nat :=
  if row.g ≠ g then out
  else if row.f ≠ f then out
  else (row.result, out.2 + 1)

/-- `comp_lookup`: the last result for `g` and `f`, and how many there are. -/
def compLookup (g f : Nat) : Nat × Nat :=
  t.comps.foldl (compLookupRow g f) (0, 0)

/-- `pair_complete_ok`. -/
def pairCompleteOk (g f : Nat) : Option Bool :=
  (t.builderMor f).bind fun frow =>
    (t.builderMor g).map fun grow =>
      if frow.cod ≠ grow.dom then true
      else if (t.compLookup g f).2 ≠ 1 then false
      else true

/-- `identity_ok`. -/
def identityOk (f : Nat) : Option Bool :=
  (t.builderMor f).bind fun row =>
    (t.builderIdent row.cod).bind fun id =>
      if (t.compLookup id f).2 ≠ 1 then some false
      else if (t.compLookup id f).1 ≠ f then some false
      else
        (t.builderIdent row.dom).map fun id =>
          if (t.compLookup f id).2 ≠ 1 then false
          else if (t.compLookup f id).1 ≠ f then false
          else true

/-- `assoc_triple_ok`. -/
def assocTripleOk (h g f gf : Nat) : Option Bool :=
  (t.builderMor h).bind fun hrow =>
    (t.builderMor g).map fun grow =>
      if hrow.dom ≠ grow.cod then true
      else
        let hg := (t.compLookup h g).1
        if (t.compLookup hg f).1 ≠ (t.compLookup h gf).1 then false
        else true

/-- `assoc_pair_ok`. -/
def assocPairOk (g f : Nat) : Option Bool :=
  (t.builderMor f).bind fun frow =>
    (t.builderMor g).bind fun grow =>
      if frow.cod ≠ grow.dom then some true
      else checkAll t.mors.length fun h => t.assocTripleOk h g f (t.compLookup g f).1

/-- `validate_ident_refs`. -/
def validateIdentRefs : Option Bool := checkAll t.ident.length t.identRefOk

/-- `validate_ident_typing`. -/
def validateIdentTyping : Option Bool := checkAll t.ident.length t.identTypingOk

/-- `validate_comp_rows`. -/
def validateCompRows : Option Bool := checkAll t.comps.length t.compRowOk

/-- `validate_completeness`. -/
def validateCompleteness : Option Bool :=
  checkAll t.mors.length fun g => checkAll t.mors.length fun f => t.pairCompleteOk g f

/-- `validate_associativity`. -/
def validateAssociativity : Option Bool :=
  checkAll t.mors.length fun g => checkAll t.mors.length fun f => t.assocPairOk g f

/-- `validate_identities`. -/
def validateIdentities : Option Bool := checkAll t.mors.length t.identityOk

/-- `builder_valid`. -/
def builderValid : Option Bool :=
  checkThen t.validateIdentRefs <|
  checkThen t.validateIdentTyping <|
  checkThen t.validateCompRows <|
  checkThen t.validateCompleteness <|
  checkThen t.validateAssociativity t.validateIdentities

end Tables

/-- `cat89_finite_validate`: `*out_valid`, with the status `CAT89_OK`. -/
def finiteValidate (b : Builder) : Option Bool := b.tables.builderValid

/-! ## The store -/

/-- `struct fin_mor`. -/
structure FinMor where
  refs : Nat
  index : Nat

/-- `struct cat89_finite_store`; `live` is `live_mors`. -/
structure Store where
  refs : Nat
  nObj : Nat
  nMor : Nat
  nComp : Nat
  objMem : Nat
  dom : List Nat
  cod : List Nat
  ident : List Nat
  cg : List Nat
  cf : List Nat
  cr : List Nat
  live : Links FinMor

/-- What `cat89_finite_build` allocates. -/
inductive Site where
  | store
  | objMem
  | dom
  | cod
  | ident
  | cg
  | cf
  | cr
  | category
  | eq
  | enum

/-- The address the allocator answers with, if it does. -/
abbrev Answers := Site → Option Nat

/-- `alloc_ul_array`. -/
def allocUlArray (mem : Option Nat) (count : Nat) : Status :=
  if count = 0 then .ok
  else
    match sizeMul count 8 with
    | .error st => st
    | .ok _ => if mem.isNone then .nomem else .ok

/-- Statuses of steps that are taken up to the first that fails. -/
def firstFailure : List Status → Status
  | [] => .ok
  | st :: sts => if st = .ok then firstFailure sts else st

/-- `store_alloc_arrays`. -/
def storeAllocArrays (mem : Answers) (nObj nMor nComp : Nat) : Status :=
  firstFailure
    [if 0 < nObj ∧ (mem .objMem).isNone then .nomem else .ok,
     allocUlArray (mem .dom) nMor, allocUlArray (mem .cod) nMor,
     allocUlArray (mem .ident) nObj, allocUlArray (mem .cg) nComp,
     allocUlArray (mem .cf) nComp, allocUlArray (mem .cr) nComp]

/-- `store_build`, with `store_copy_rows`. -/
def storeBuild (mem : Answers) (t : Tables) : Except Status Store :=
  if (mem .store).isNone then .error .nomem
  else
    match storeAllocArrays mem t.ident.length t.mors.length t.comps.length with
    | .ok =>
      .ok { refs := 1, nObj := t.ident.length, nMor := t.mors.length,
            nComp := t.comps.length,
            objMem := if 0 < t.ident.length then (mem .objMem).getD 0 else 0,
            dom := t.mors.map MorphismRow.dom, cod := t.mors.map MorphismRow.cod,
            ident := t.ident, cg := t.comps.map CompositionRow.g,
            cf := t.comps.map CompositionRow.f, cr := t.comps.map CompositionRow.result,
            live := [] }
    | st => .error st

/-- `build_common`; `eq` and `enum` tell whether the capability is asked for. -/
def buildCommon (b : Builder) (check : Bool) (mem : Answers) (eq enum : Bool) : Reply Store :=
  match (if check then b.tables.builderValid else some true) with
  | none => none
  | some false => some (.error .invalid)
  | some true =>
    match storeBuild mem b.tables with
    | .error st => some (.error st)
    | .ok store =>
      if (mem .category).isNone then some (.error .nomem)
      else if eq && (mem .eq).isNone then some (.error .nomem)
      else if enum && (mem .enum).isNone then some (.error .nomem)
      else some (.ok store)

/-- `cat89_finite_build`. -/
def finiteBuild (b : Builder) (mem : Answers) (eq enum : Bool) : Reply Store :=
  buildCommon b true mem eq enum

/-! ## The operations of the built category -/

namespace Store

variable (s : Store)

/-- `mor_cread`. -/
def morCread (m : Nat) : Option FinMor := s.live.find m

/-- `obj_of`. -/
def objOf (id : Nat) : Nat := s.objMem + id

/-- `obj_id_of`. -/
def objIdOf (obj : Nat) : Nat := obj - s.objMem

/-- `mor_make`.  Without memory the store is released again. -/
def morMake (mem : Option Nat) (index : Nat) : Except Status (Nat × Store) :=
  match refInc s.refs with
  | .error st => .error st
  | .ok refs =>
    match mem with
    | none => .error .nomem
    | some m => .ok (m, { s with refs := refs, live := (m, ⟨1, index⟩) :: s.live })

/-- The loop of `store_comp`, with `k` rows from row `i` on still to come. -/
def storeCompFrom (g f : Nat) : Nat → Nat → Option Nat
  | _, 0 => some finSentinel
  | i, k + 1 =>
    s.cg[i]?.bind fun cg =>
      if cg = g then
        s.cf[i]?.bind fun cf => if cf = f then s.cr[i]? else storeCompFrom g f (i + 1) k
      else storeCompFrom g f (i + 1) k

/-- `store_comp`. -/
def storeComp (g f : Nat) : Option Nat := s.storeCompFrom g f 0 s.nComp

/-- `fin_dom`. -/
def finDom (m : Nat) : Reply Nat :=
  (s.morCread m).bind fun h => s.dom[h.index]?.map fun d => .ok (s.objOf d)

/-- `fin_cod`. -/
def finCod (m : Nat) : Reply Nat :=
  (s.morCread m).bind fun h => s.cod[h.index]?.map fun c => .ok (s.objOf c)

/-- `fin_identity`. -/
def finIdentity (mem : Option Nat) (obj : Nat) : Reply (Nat × Store) :=
  s.ident[s.objIdOf obj]?.map fun index => s.morMake mem index

/-- `fin_compose`. -/
def finCompose (mem : Option Nat) (g f : Nat) : Reply (Nat × Store) :=
  (s.morCread g).bind fun gm =>
    (s.morCread f).bind fun fm =>
      (s.storeComp gm.index fm.index).map fun result =>
        if result = finSentinel then .error .invalid else s.morMake mem result

/-- `fin_owns_obj`. -/
def finOwnsObj (obj : Nat) : Bool :=
  if s.nObj = 0 then false
  else if obj < s.objMem then false
  else if s.objMem + s.nObj ≤ obj then false
  else true

/-- `fin_owns_mor`. -/
def finOwnsMor (m : Nat) : Bool := s.live.owns m

/-- `fin_retain`. -/
def finRetain (m : Nat) : Reply Store :=
  (s.morCread m).map fun h =>
    match refInc h.refs with
    | .error st => .error st
    | .ok refs =>
      .ok { s with live := s.live.update m fun h => { h with refs := refs } }

/-- `mor_dispose`, with `mor_unlink` and `store_release`. -/
def morDispose (m : Nat) : Store :=
  { s with live := s.live.unlink m, refs := (refDec s.refs).1 }

/-- `fin_release`. -/
def finRelease (m : Nat) : Option Store :=
  (s.morCread m).map fun h =>
    if (refDec h.refs).2 then s.morDispose m
    else { s with live := s.live.update m fun h => { h with refs := (refDec h.refs).1 } }

/-- `obj_iter_next_fn` on the iterator's `next`: the object, if any, and `next` after it. -/
def objIterNext (next : Nat) : Option Nat × Nat :=
  if s.nObj ≤ next then (none, next) else (some (s.objOf next), next + 1)

/-- `mor_iter_next_fn`. -/
def morIterNext (mem : Option Nat) (next : Nat) : Except Status (Option Nat × Nat × Store) :=
  if s.nMor ≤ next then .ok (none, next, s)
  else
    match s.morMake mem next with
    | .error st => .error st
    | .ok (m, s') => .ok (some m, next + 1, s')

end Store

/-- `fin_ops`, where `mem` is what the allocator answers to the call. -/
def finOps (mem : Option Nat) : CategoryOps Store Nat Nat where
  dom := Store.finDom
  cod := Store.finCod
  identity s obj := s.finIdentity mem obj
  compose s g f := s.finCompose mem g f
  objSame _ a b := some (a == b)
  ownsObj := Store.finOwnsObj
  ownsMor := Store.finOwnsMor

/-- `fin_eq_ops`, with `obj_equal_fn` and `mor_equal_fn`. -/
def finEqOps : EqOps Store Nat Nat where
  objEqual := some fun s a b => some (.ok (s.objIdOf a == s.objIdOf b))
  morEqual := some fun s f g =>
    (s.morCread f).bind fun fm => (s.morCread g).map fun gm => .ok (fm.index == gm.index)

/-- `cat89_mor_retain` on a finite category. -/
def finMorRetain (s : Store) (m : Nat) : Reply Store :=
  if s.finOwnsMor m = false then some (.error .invalid) else s.finRetain m

/-- `cat89_mor_release` on a finite category. -/
def finMorRelease (s : Store) (m : Nat) : Option Store :=
  if s.finOwnsMor m = false then some s else s.finRelease m

end Cat89
