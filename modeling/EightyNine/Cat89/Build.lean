import EightyNine.Cat89.Finite
import EightyNine.Library.Blocks

/-!
# libcat89: the memory of a build

`cat89_finite_build` again, now with what it allocates, what it frees and what it writes to
the variables of its caller.
-/

namespace Cat89

open Library

/-! ## What is built -/

/-- A store with its blocks, in the order of `store_dispose`; the count of its references is in
`store`. -/
structure StoreMem where
  block : Nat
  objMem : Option Nat
  arrays : List (Option Nat)
  store : Store

/-- `struct cat89_category` of a store. -/
structure CategoryMem where
  refs : Nat
  block : Nat
  mem : StoreMem

/-- `struct cat89_eq` and `struct cat89_enum`, whose category is that of the build. -/
structure CapabilityMem where
  refs : Nat
  block : Nat

section

variable (grants : Nat → Bool)

/-- `alloc_ul_array`: the status, the array and what it leaves. -/
def allocUlArrayMem (h : Blocks) (count : Nat) : Status × Option Nat × Blocks :=
  if count = 0 then (.ok, none, h)
  else
    match sizeMul count 8 with
    | .error st => (st, none, h)
    | .ok _ =>
      match h.alloc grants with
      | (none, h) => (.nomem, none, h)
      | (some p, h) => (.ok, some p, h)

/-- The arrays of `count` numbers each, up to the first that fails; those after it stay `NULL`. -/
def allocUlArraysMem : List Nat → Blocks → Status × List (Option Nat) × Blocks
  | [], h => (.ok, [], h)
  | count :: counts, h =>
    match allocUlArrayMem grants h count with
    | (.ok, p, h) =>
      match allocUlArraysMem counts h with
      | (st, ps, h) => (st, p :: ps, h)
    | (st, p, h) => (st, [p], h)

/-- The lengths of the arrays of a store, in the order of `store_alloc_arrays`. -/
def storeArrayCounts (t : Tables) : List Nat :=
  [t.mors.length, t.mors.length, t.ident.length, t.comps.length, t.comps.length, t.comps.length]

/-- `store_alloc_arrays`: the status, `obj_mem` and the arrays. -/
def storeAllocArraysMem (t : Tables) (h : Blocks) :
    Status × Option Nat × List (Option Nat) × Blocks :=
  if 0 < t.ident.length then
    match h.alloc grants with
    | (none, h) => (.nomem, none, [], h)
    | (some p, h) =>
      match allocUlArraysMem grants (storeArrayCounts t) h with
      | (st, ps, h) => (st, some p, ps, h)
  else
    match allocUlArraysMem grants (storeArrayCounts t) h with
    | (st, ps, h) => (st, none, ps, h)

/-- `store_copy_rows` into a store of one reference. -/
def storeCopyRows (t : Tables) (objMem : Option Nat) : Store :=
  { refs := 1, nObj := t.ident.length, nMor := t.mors.length, nComp := t.comps.length,
    objMem := objMem.getD 0,
    dom := t.mors.map MorphismRow.dom, cod := t.mors.map MorphismRow.cod,
    ident := t.ident, cg := t.comps.map CompositionRow.g,
    cf := t.comps.map CompositionRow.f, cr := t.comps.map CompositionRow.result,
    live := [] }

/-- `store_free_partial` and `store_dispose`. -/
def storeFree (h : Blocks) (block : Nat) (objMem : Option Nat) (arrays : List (Option Nat)) :
    Option Blocks :=
  h.freeAll (objMem :: (arrays ++ [some block]))

/-- `store_build`. -/
def storeBuildMem (t : Tables) (h : Blocks) : Option (Except Status StoreMem × Blocks) :=
  match h.alloc grants with
  | (none, h) => some (.error .nomem, h)
  | (some block, h) =>
    match storeAllocArraysMem grants t h with
    | (.ok, objMem, arrays, h) => some (.ok ⟨block, objMem, arrays, storeCopyRows t objMem⟩, h)
    | (st, objMem, arrays, h) =>
      (storeFree h block objMem arrays).map fun h => (.error st, h)

/-- `store_release`. -/
def storeReleaseMem (mem : StoreMem) (h : Blocks) : Option (StoreMem × Blocks) :=
  let dropped := refDec mem.store.refs
  let mem' := { mem with store := { mem.store with refs := dropped.1 } }
  if dropped.2 then (storeFree h mem.block mem.objMem mem.arrays).map fun h => (mem', h)
  else some (mem', h)

/-- `cat89_category_new`. -/
def categoryNew (mem : StoreMem) (h : Blocks) : Except Status CategoryMem × Blocks :=
  match h.alloc grants with
  | (none, h) => (.error .nomem, h)
  | (some block, h) => (.ok ⟨1, block, mem⟩, h)

/-- `cat89_category_release`, with `fin_destroy`. -/
def categoryRelease (c : CategoryMem) (h : Blocks) : Option (CategoryMem × Blocks) :=
  let dropped := refDec c.refs
  if dropped.2 then
    (storeReleaseMem c.mem h).bind fun released =>
      (released.2.free (some c.block)).map fun h => (⟨dropped.1, c.block, released.1⟩, h)
  else some ({ c with refs := dropped.1 }, h)

/-- `cat89_eq_new` and `cat89_enum_new`, with `cat89_category_retain`. -/
def capabilityNew (c : CategoryMem) (h : Blocks) :
    Option (Except Status CapabilityMem × CategoryMem × Blocks) :=
  match h.alloc grants with
  | (none, h) => some (.error .nomem, c, h)
  | (some block, h) =>
    match refInc c.refs with
    | .error st => (h.free (some block)).map fun h => (.error st, c, h)
    | .ok refs => some (.ok ⟨1, block⟩, { c with refs := refs }, h)

/-- `cat89_eq_release`. -/
def eqRelease (eq : CapabilityMem) (c : CategoryMem) (h : Blocks) : Option (CategoryMem × Blocks) :=
  if (refDec eq.refs).2 then
    (categoryRelease c h).bind fun released =>
      (released.2.free (some eq.block)).map fun h => (released.1, h)
  else some (c, h)

/-! ## The build -/

/-- The variables that the caller asks to be set: `none` is a `NULL` pointer, and a variable holds
the block of a handle or `NULL`. -/
structure Outs where
  category : Option (Option Nat)
  eq : Option (Option Nat)
  enum : Option (Option Nat)
deriving DecidableEq

/-- What a build hands out. -/
structure Built where
  category : CategoryMem
  eq : Option CapabilityMem
  enum : Option CapabilityMem

/-- The end of a build. -/
structure BuildEnd where
  status : Status
  outs : Outs
  blocks : Blocks
  built : Option Built

/-- `build_fail`. -/
def buildFail (st : Status) (outs : Outs) (c : CategoryMem) (h : Blocks) : Option BuildEnd :=
  (categoryRelease c h).map fun released => ⟨st, outs, released.2, none⟩

/-- `build_fail_eq`. -/
def buildFailEq (st : Status) (outs : Outs) (c : CategoryMem) (eq : CapabilityMem) (h : Blocks) :
    Option BuildEnd :=
  (eqRelease eq c h).bind fun released => buildFail st outs released.1 released.2

/-- `build_common` from the enumeration on. -/
def buildEnum (outs : Outs) (c : CategoryMem) (eq : Option CapabilityMem) (h : Blocks) :
    Option BuildEnd :=
  match outs.enum with
  | none => some ⟨.ok, { outs with category := some (some c.block) }, h, some ⟨c, eq, none⟩⟩
  | some _ =>
    (capabilityNew grants c h).bind fun made =>
      match made with
      | (.error st, c, h) =>
        match eq with
        | some eq => buildFailEq st outs c eq h
        | none => buildFail st outs c h
      | (.ok enum, c, h) =>
        some ⟨.ok,
          { outs with category := some (some c.block), enum := some (some enum.block) },
          h, some ⟨c, eq, some enum⟩⟩

/-- `build_common` from the equality on. -/
def buildEq (outs : Outs) (c : CategoryMem) (h : Blocks) : Option BuildEnd :=
  match outs.eq with
  | none => buildEnum grants outs c none h
  | some _ =>
    (capabilityNew grants c h).bind fun made =>
      match made with
      | (.error st, c, h) => buildFail st outs c h
      | (.ok eq, c, h) =>
        buildEnum grants { outs with eq := some (some eq.block) } c (some eq) h

/-- `build_common` from the category on. -/
def buildCategory (outs : Outs) (mem : StoreMem) (h : Blocks) : Option BuildEnd :=
  match categoryNew grants mem h with
  | (.error st, h) => (storeReleaseMem mem h).map fun released => ⟨st, outs, released.2, none⟩
  | (.ok c, h) => buildEq grants outs c h

/-- `build_common` past validation. -/
def buildStore (t : Tables) (outs : Outs) (h : Blocks) : Option BuildEnd :=
  (storeBuildMem grants t h).bind fun made =>
    match made with
    | (.error st, h) => some ⟨st, outs, h, none⟩
    | (.ok mem, h) => buildCategory grants outs mem h

/-- The variables after `build_common` has set them to `NULL`. -/
def Outs.clear (outs : Outs) : Outs :=
  ⟨outs.category.map fun _ => none, outs.eq.map fun _ => none, outs.enum.map fun _ => none⟩

/-- `build_common`, which only reads the builder. -/
def buildCommonMem (b : Builder) (check : Bool) (outs : Outs) (h : Blocks) : Option BuildEnd :=
  if outs.category = none then some ⟨.invalid, outs, h, none⟩
  else
    match (if check then b.tables.builderValid else some true) with
    | none => none
    | some false => some ⟨.invalid, outs.clear, h, none⟩
    | some true => buildStore grants b.tables outs.clear h

/-- `cat89_finite_build`. -/
def finiteBuildMem (b : Builder) (outs : Outs) (h : Blocks) : Option BuildEnd :=
  buildCommonMem grants b true outs h

end

end Cat89
