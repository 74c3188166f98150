import EightyNine.Cat89.Build
import EightyNine.Cat89.Cone
import EightyNine.Library.Custody

/-!
# libcat89: what the finders of limits allocate, count and call

`cat89_find_binary_product` and `cat89_find_pullback` again, now over an ambient category
of which nothing is known: each of its functions may fail at each call, and answers what it
likes.  The counts of references, those of the objects the finders make as well, are
explicit.
-/

namespace Cat89.Mem

open Library Prog

/-! ## The caller's side -/

/-- What the caller owns and counts: the category, its enumeration and equality, the handles of
morphisms, and the iterators that are open. -/
inductive Ref where
  | category
  | enumeration
  | equality
  | mor (m : Nat)
  | objIter
  | morIter
deriving DecidableEq

/-- What the caller holds while it calls. -/
def Ref.vital : Ref → Prop
  | .category | .enumeration | .equality => True
  | _ => False

abbrev Finding (α : Type) : Type := Prog Ref α

/-- The functions of the category, its equality and its enumeration.  Each is given the number of the
call, so it may answer otherwise every time; the iterators are given the place they are at,
and at the end only whether they fail matters. -/
structure Ambient where
  nObj : Nat
  nMor : Nat
  ownsObj : Nat → Bool
  objSame : Nat → Nat → Bool
  dom : Nat → Nat → Except Status Nat
  cod : Nat → Nat → Except Status Nat
  compose : Nat → Nat → Nat → Except Status Nat
  morRetain : Nat → Nat → Except Status Unit
  morEqual : Nat → Nat → Nat → Except Status Bool
  objIterOpen : Nat → Except Status Unit
  objIterNext : Nat → Nat → Except Status Nat
  morIterOpen : Nat → Except Status Unit
  morIterNext : Nat → Nat → Except Status Nat

section

variable (grants : Nat → Bool) (K : Ambient)

/-- `cat89_obj_same`. -/
def objSame (x y : Nat) : Bool := K.ownsObj x && K.ownsObj y && K.objSame x y

/-- `cat89_owns_mor`: the category owns the handles that are counted. -/
def ownsMor (m : Nat) : Finding Bool := do
  let refs ← held (.mor m)
  pure (refs != 0)

/-- A function of the caller. -/
def callback {α : Type} (f : Nat → Except Status α) : Finding (Except Status α) := do
  let n ← tick
  pure (f n)

/-- `cat89_dom`. -/
def catDom (m : Nat) : Finding (Except Status Nat) := do
  let owned ← ownsMor m
  if owned then callback fun n => K.dom n m else pure (.error .invalid)

/-- `cat89_cod`. -/
def catCod (m : Nat) : Finding (Except Status Nat) := do
  let owned ← ownsMor m
  if owned then callback fun n => K.cod n m else pure (.error .invalid)

/-- A function of the caller that hands out a handle. -/
def handle (f : Nat → Except Status Nat) : Finding (Except Status Nat) :=
  attempt (callback f) (pure ()) fun m => do
    acquire (.mor m)
    pure (.ok m)

/-- `cat89_compose`. -/
def catCompose (g f : Nat) : Finding (Except Status Nat) := do
  let ownedG ← ownsMor g
  let ownedF ← ownsMor f
  if ownedG && ownedF then
    attempt (callback fun n => K.cod n f) (pure ()) fun y =>
    attempt (callback fun n => K.dom n g) (pure ()) fun x =>
    if K.objSame y x then handle fun n => K.compose n g f else pure (.error .domain)
  else pure (.error .invalid)

/-- `cat89_mor_equal`. -/
def morEqual (f g : Nat) : Finding (Except Status Bool) := do
  let ownedF ← ownsMor f
  let ownedG ← ownsMor g
  if ownedF && ownedG then callback fun n => K.morEqual n f g else pure (.error .invalid)

/-- `cat89_ref_inc` on what the caller counts. -/
def retain (r : Ref) : Finding (Except Status Unit) := do
  let refs ← held r
  match refInc refs with
  | .error st => pure (.error st)
  | .ok _ => do
    acquire r
    pure (.ok ())

/-- `cat89_category_release`, `cat89_enum_release` and `cat89_eq_release` on what the caller holds.
The last reference is the caller's: to give it up here is an error. -/
def release (r : Ref) : Finding Unit := do
  let refs ← held r
  if (refDec refs).2 then fault else drop r

/-- `cat89_mor_retain`. -/
def morRetain (m : Nat) : Finding (Except Status Unit) := do
  let owned ← ownsMor m
  if owned then attempt (callback fun n => K.morRetain n m) (pure ()) fun _ => retain (.mor m)
  else pure (.error .invalid)

/-- `cat89_mor_release`. -/
def morRelease (m : Nat) : Finding Unit := do
  let owned ← ownsMor m
  if owned then drop (.mor m) else pure ()

/-- `rel1`. -/
def rel1 : Option Nat → Finding Unit
  | none => pure ()
  | some m => morRelease m

/-- `rel2`. -/
def rel2 (a b : Nat) : Finding Unit := do
  morRelease a
  morRelease b

/-- `cat89_obj_iter_open` and `cat89_mor_iter_open`. -/
def iterOpen (it : Ref) (f : Nat → Except Status Unit) : Finding (Except Status Unit) :=
  attempt (callback f) (pure ()) fun _ => do
    acquire it
    pure (.ok ())

/-! ## Memory -/

/-- `cat89_alloc` where `NULL` means `CAT89_NOMEM`. -/
def catAlloc : Finding (Except Status Nat) := do
  let p ← alloc grants
  match p with
  | none => pure (.error .nomem)
  | some b => pure (.ok b)

/-- `cat89_vec`. -/
structure VecMem (α : Type) where
  data : Option Nat
  cap : Nat
  items : List α

/-- `cat89_vec_init`. -/
def VecMem.init {α : Type} : VecMem α := ⟨none, 0, []⟩

/-- `cat89_vec_push`, for elements of `elem` bytes.  Where it fails the vector is as it was. -/
def vecPush {α : Type} (elem : Nat) (v : VecMem α) (x : α) : Finding (Except Status (VecMem α)) :=
  if v.items.length = v.cap then
    match vecGrowCap v.cap elem with
    | .error st => pure (.error st)
    | .ok newCap =>
      attempt (catAlloc grants) (pure ()) fun p => do
        free v.data
        pure (.ok ⟨some p, newCap, v.items ++ [x]⟩)
  else pure (.ok { v with items := v.items ++ [x] })

/-! ## The census -/

/-- `struct fmor`. -/
structure Fmor where
  mor : Nat
  dom : Nat
  cod : Nat

/-- `struct census`. -/
structure Census where
  objs : VecMem Nat
  mors : VecMem Fmor

/-- The handle of row `i`. -/
def Census.mor (cs : Census) (i : Nat) : Nat := (cs.mors.items.map Fmor.mor).getD i 0

/-- The handles of rows are released in turn. -/
def releaseRows : List Fmor → Finding Unit
  | [] => pure ()
  | row :: rows => do
    morRelease row.mor
    releaseRows rows

/-- `census_free`. -/
def censusFree (cs : Census) : Finding Unit := do
  releaseRows cs.mors.items
  free cs.mors.data
  free cs.objs.data

/-- `census_objs_abort`. -/
def censusObjsAbort (v : VecMem Nat) : Finding Unit := do
  drop .objIter
  free v.data

/-- The loop of `census_objs` over the places that are left, with `census_objs_step`. -/
def censusObjsLoop : List Nat → VecMem Nat → Finding (Except Status (VecMem Nat))
  | [], v =>
    attempt (callback fun n => K.objIterNext n K.nObj) (censusObjsAbort v) fun _ => pure (.ok v)
  | i :: rest, v =>
    attempt (callback fun n => K.objIterNext n i) (censusObjsAbort v) fun x =>
    attempt (vecPush grants 8 v x) (censusObjsAbort v) fun v => censusObjsLoop rest v

/-- `census_objs`. -/
def censusObjs : Finding (Except Status (VecMem Nat)) :=
  attempt (iterOpen .objIter K.objIterOpen) (pure ()) fun _ =>
  attempt (censusObjsLoop grants K (List.range K.nObj) .init) (pure ()) fun v => do
    drop .objIter
    pure (.ok v)

/-- `census_mors_abort`, with `census_mors_vec_free`. -/
def censusMorsAbort (v : VecMem Fmor) : Finding Unit := do
  drop .morIter
  releaseRows v.items
  free v.data

/-- The end of a `census_mors_step` that fails with the handle `m` in hand. -/
def censusMorsDrop (m : Nat) (v : VecMem Fmor) : Finding Unit := do
  morRelease m
  censusMorsAbort v

/-- The loop of `census_mors` over the places that are left, with `census_mors_step`. -/
def censusMorsLoop : List Nat → VecMem Fmor → Finding (Except Status (VecMem Fmor))
  | [], v =>
    attempt (callback fun n => K.morIterNext n K.nMor) (censusMorsAbort v) fun _ => pure (.ok v)
  | i :: rest, v =>
    attempt (handle fun n => K.morIterNext n i) (censusMorsAbort v) fun m =>
    attempt (catDom K m) (censusMorsDrop m v) fun x =>
    attempt (catCod K m) (censusMorsDrop m v) fun y =>
    attempt (vecPush grants 24 v ⟨m, x, y⟩) (censusMorsDrop m v) fun v => censusMorsLoop rest v

/-- `census_mors`. -/
def censusMors : Finding (Except Status (VecMem Fmor)) :=
  attempt (iterOpen .morIter K.morIterOpen) (pure ()) fun _ =>
  attempt (censusMorsLoop grants K (List.range K.nMor) .init) (pure ()) fun v => do
    drop .morIter
    pure (.ok v)

/-- `census_build`. -/
def censusBuild : Finding (Except Status Census) :=
  attempt (censusObjs grants K) (pure ()) fun objs =>
  attempt (censusMors grants K) (censusFree ⟨objs, .init⟩) fun mors => pure (.ok ⟨objs, mors⟩)

/-! ## Scans of the census -/

variable (cs : Census)

/-- Whether a row is a morphism from `x` to `y`. -/
def inHom (x y : Nat) (row : Fmor) : Bool := objSame K row.dom x && objSame K row.cod y

/-- `hom_count`. -/
def homCount (x y : Nat) : Nat := cs.mors.items.countP (inHom K x y)

/-- The loop of `gather_indices`, with `gather_one`. -/
def gatherLoop (x y : Nat) : List Fmor → Nat → VecMem Nat → Finding (Except Status (VecMem Nat))
  | [], _, v => pure (.ok v)
  | row :: rows, i, v =>
    if inHom K x y row then
      attempt (vecPush grants 8 v i) (free v.data) fun v => gatherLoop x y rows (i + 1) v
    else gatherLoop x y rows (i + 1) v

/-- `gather_indices`. -/
def gatherIndices (x y : Nat) : Finding (Except Status (VecMem Nat)) :=
  gatherLoop grants K x y cs.mors.items 0 .init

/-- `rel_arrays`. -/
def relArrays (a b : VecMem Nat) : Finding Unit := do
  free a.data
  free b.data

/-- `evaluate_mediator`. -/
def evaluateMediator (pa pb mor xa xb : Nat) : Finding (Except Status Bool) :=
  attempt (catCompose K pa mor) (pure ()) fun c1 =>
  attempt (catCompose K pb mor) (morRelease c1) fun c2 =>
  attempt (morEqual K c1 xa) (rel2 c1 c2) fun e1 =>
  attempt (morEqual K c2 xb) (rel2 c1 c2) fun e2 => do
    rel2 c1 c2
    pure (.ok (e1 && e2))

/-- `count_mediators`, with `med_tally_one`. -/
def countMediators (x p pa pb xa xb : Nat) : Finding (Except Status Nat) :=
  accumulate (fun n row =>
    if inHom K x p row then
      attempt (evaluateMediator K pa pb row.mor xa xb) (pure ()) fun med =>
        pure (.ok (if med then n + 1 else n))
    else pure (.ok n)) cs.mors.items 0

/-- `pair_one` and `pb_pair_cov`: whether the pair of `xa` and row `i` has no mediator. -/
def pairOne (y p pa pb xa i : Nat) : Finding (Except Status Bool) :=
  attempt (countMediators K cs y p pa pb xa (cs.mor i)) (pure ()) fun cnt => pure (.ok (cnt == 0))

/-- `pair_covered`. -/
def pairCovered (y p pa pb xa : Nat) (bids : List Nat) : Finding (Except Status Bool) :=
  attempt (firstOf (fun k => attempt (pairOne K cs y p pa pb xa k) (pure ()) fun uncovered =>
    pure (.ok (if uncovered then some () else none))) bids) (pure ()) fun found =>
  pure (.ok found.isNone)

/-- `obj_check`. -/
def objCheck (y p a b pa pb : Nat) : Finding (Except Status Bool) :=
  if homCount K cs y p ≠ homCount K cs y a * homCount K cs y b % 2 ^ 64 then pure (.ok false)
  else
    attempt (gatherIndices grants K cs y a) (pure ()) fun aids =>
    attempt (gatherIndices grants K cs y b) (free aids.data) fun bids =>
    attempt (firstOf (fun j =>
      attempt (pairCovered K cs y p pa pb (cs.mor j) bids.items) (pure ()) fun ok =>
        pure (.ok (if ok then none else some ()))) aids.items) (relArrays aids bids) fun found => do
      relArrays aids bids
      pure (.ok found.isNone)

/-- `is_product`. -/
def isProduct (p a b pa pb : Nat) : Finding (Except Status Bool) :=
  attempt (firstOf (fun y => attempt (objCheck grants K cs y p a b pa pb) (pure ()) fun ok =>
    pure (.ok (if ok then none else some ()))) cs.objs.items) (pure ()) fun found =>
  pure (.ok found.isNone)

/-- The pairs of rows in turn, up to the first that passes. -/
def firstPair (check : Nat → Nat → Finding (Except Status Bool)) (aids bids : List Nat) :
    Finding (Except Status (Option (Nat × Nat))) :=
  firstOf (fun j => firstOf (fun k =>
    attempt (check (cs.mor j) (cs.mor k)) (pure ()) fun ok =>
      pure (.ok (if ok then some (cs.mor j, cs.mor k) else none))) bids) aids

/-- `try_apex`, with `claim_legs`. -/
def tryApex (a b apex : Nat) : Finding (Except Status (Option (Nat × Nat))) :=
  attempt (gatherIndices grants K cs apex a) (pure ()) fun aids =>
  attempt (gatherIndices grants K cs apex b) (free aids.data) fun bids =>
  attempt (firstPair cs (isProduct grants K cs apex a b) aids.items bids.items)
    (relArrays aids bids) fun pair => do
    relArrays aids bids
    pure (.ok pair)

/-- `search_product`: the apex and the projections. -/
def searchProduct (a b : Nat) : Finding (Except Status (Option (Nat × Nat × Nat))) :=
  firstOf (fun apex => attempt (tryApex grants K cs a b apex) (pure ()) fun pair =>
    pure (.ok (pair.map fun legs => (apex, legs)))) cs.objs.items

/-- `pb_commute`. -/
def pbCommute (f g wX wY : Nat) : Finding (Except Status Bool) :=
  attempt (catCompose K f wX) (pure ()) fun c1 =>
  attempt (catCompose K g wY) (morRelease c1) fun c2 =>
  attempt (morEqual K c1 c2) (rel2 c1 c2) fun e1 => do
    rel2 c1 c2
    pure (.ok e1)

/-- `pb_cell`: whether the square commutes, and whether it is so without a mediator. -/
def pbCell (w apex f g pX pY xi yi : Nat) : Finding (Except Status (Bool × Bool)) :=
  attempt (pbCommute K f g (cs.mor xi) (cs.mor yi)) (pure ()) fun comm =>
  if comm then
    attempt (pairOne K cs w apex pX pY (cs.mor xi) yi) (pure ()) fun uncovered =>
      pure (.ok (true, uncovered))
  else pure (.ok (false, false))

/-- The loops of `pb_obj_check`: how many squares commute, and whether each of them has a
mediator. -/
def pbCells (w apex f g pX pY : Nat) (xids yids : List Nat) : Finding (Except Status (Nat × Bool)) :=
  accumulate (fun acc i => accumulate (fun acc j =>
    attempt (pbCell K cs w apex f g pX pY i j) (pure ()) fun cell =>
      pure (.ok (if cell.1 then acc.1 + 1 else acc.1, acc.2 && !cell.2))) yids acc) xids (0, true)

/-- `pb_obj_check`. -/
def pbObjCheck (w x y apex f g pX pY : Nat) : Finding (Except Status Bool) :=
  attempt (gatherIndices grants K cs w x) (pure ()) fun xids =>
  attempt (gatherIndices grants K cs w y) (free xids.data) fun yids =>
  attempt (pbCells K cs w apex f g pX pY xids.items yids.items) (relArrays xids yids) fun cells => do
    relArrays xids yids
    pure (.ok (cells.2 && cells.1 % 2 ^ 64 == homCount K cs w apex))

/-- `is_pullback`. -/
def isPullback (apex x y f g pX pY : Nat) : Finding (Except Status Bool) :=
  attempt (pbCommute K f g pX pY) (pure ()) fun comm =>
  if comm then
    attempt (firstOf (fun w => attempt (pbObjCheck grants K cs w x y apex f g pX pY) (pure ())
      fun ok => pure (.ok (if ok then none else some ()))) cs.objs.items) (pure ()) fun found =>
    pure (.ok found.isNone)
  else pure (.ok false)

/-- `search_pullback`, with `pb_claim`: the apex and the legs. -/
def searchPullback (x y f g : Nat) : Finding (Except Status (Option (Nat × Nat × Nat))) :=
  firstOf (fun apex =>
    attempt (gatherIndices grants K cs apex x) (pure ()) fun xids =>
    attempt (gatherIndices grants K cs apex y) (free xids.data) fun yids =>
    attempt (firstPair cs (isPullback grants K cs apex x y f g) xids.items yids.items)
      (relArrays xids yids) fun pair => do
      relArrays xids yids
      pure (.ok (pair.map fun legs => (apex, legs)))) cs.objs.items

/-! ## The shape -/

/-- A builder with the blocks of its vectors. -/
structure BuilderMem where
  block : Nat
  ident : Option Nat
  mors : Option Nat
  comps : Option Nat
  builder : Builder

/-- `cat89_finite_builder_release`. -/
def builderRelease (m : BuilderMem) : Finding Unit :=
  freeAll [m.ident, m.mors, m.comps, some m.block]

/-- The memory of a push: whether there is room, and the block after it. -/
def vecRoom {α : Type} {elem : Nat} (v : Vec α elem) (data : Option Nat) :
    Finding (Bool × Option Nat) :=
  if v.data.length = v.cap then
    match vecGrowCap v.cap elem with
    | .error _ => pure (false, data)
    | .ok _ => do
      let p ← alloc grants
      match p with
      | none => pure (false, data)
      | some b => do
        free data
        pure (true, some b)
  else pure (true, data)

/-- A call on the builder, which asks for memory after it has checked what it is given. -/
def callMem (m : BuilderMem) (c : BuilderCall) : Finding (Status × BuilderMem) :=
  if (m.builder.call true c).1 = .invalid then pure (.invalid, m)
  else
    match c with
    | .addObject => do
      let r ← vecRoom grants m.builder.ident m.ident
      pure ((m.builder.call r.1 c).1,
        { m with ident := r.2, builder := (m.builder.call r.1 c).2 })
    | .addMorphism .. => do
      let r ← vecRoom grants m.builder.mors m.mors
      pure ((m.builder.call r.1 c).1, { m with mors := r.2, builder := (m.builder.call r.1 c).2 })
    | .setIdentity .. =>
      pure ((m.builder.call true c).1, { m with builder := (m.builder.call true c).2 })
    | .setComposition .. => do
      let r ← vecRoom grants m.builder.comps m.comps
      pure ((m.builder.call r.1 c).1,
        { m with comps := r.2, builder := (m.builder.call r.1 c).2 })

/-- `table_add` and `table_compose`: the calls up to the first that fails. -/
def callsMem : List BuilderCall → BuilderMem → Finding (Except Status Unit × BuilderMem)
  | [], m => pure (.ok (), m)
  | c :: rest, m => do
    let r ← callMem grants m c
    if r.1 = .ok then callsMem rest r.2 else pure (.error r.1, r.2)

/-- A category of the finite backend and its enumeration. -/
structure ShapeMem where
  category : Nat
  enumeration : Nat
  store : Nat
  objMem : Option Nat
  arrays : List (Option Nat)

/-- The counts of a category, its enumeration and its store go into their headers. -/
def shapeCounts (c : CategoryMem) (en : CapabilityMem) : Finding (Except Status ShapeMem) := do
  setRefs c.block c.refs
  setRefs en.block en.refs
  setRefs c.mem.block c.mem.store.refs
  pure (.ok ⟨c.block, en.block, c.mem.block, c.mem.objMem, c.mem.arrays⟩)

/-- `cat89_finite_build` of a category and its enumeration. -/
def shapeBuild (b : Builder) : Finding (Except Status ShapeMem) := fun s =>
  (finiteBuildMem grants b ⟨some none, none, some none⟩ s.blocks).bind fun r =>
    match r.status, r.built with
    | .ok, some ⟨c, _, some en⟩ => shapeCounts c en { s with blocks := r.blocks }
    | st, _ => some (.error st, { s with blocks := r.blocks })

/-- `cat89_shape_category_new`, with the enumeration and without the equality. -/
def shapeCategoryNew (kind : ShapeKind) : Finding (Except Status ShapeMem) :=
  attempt (catAlloc grants) (pure ()) fun block => do
    let t := initShape kind
    let m ← callsMem grants (tableAdd t ++ tableCompose t) ⟨block, none, none, none, builderNew⟩
    match m.1 with
    | .error st => do
      builderRelease m.2
      pure (.error st)
    | .ok _ => do
      let r ← shapeBuild grants m.2.builder
      builderRelease m.2
      pure r

/-- The count of an object, up by one (`cat89_ref_inc`). -/
def objectRetain (b : Nat) : Finding (Except Status Unit) := do
  let n ← refs b
  match refInc n with
  | .error st => pure (.error st)
  | .ok n => do
    setRefs b n
    pure (.ok ())

/-- The count of an object, down by one (`cat89_ref_dec`), and `destroy` when it is zero. -/
def objectRelease (b : Nat) (destroy : Finding Unit) : Finding Unit := do
  let n ← refs b
  setRefs b (refDec n).1
  if (refDec n).2 then destroy else pure ()

/-- `store_release`, with `store_dispose`. -/
def storeRelease (sh : ShapeMem) : Finding Unit :=
  objectRelease sh.store (freeAll (sh.objMem :: (sh.arrays ++ [some sh.store])))

/-- `cat89_category_release` of the shape, with `fin_destroy`. -/
def shapeRelease (sh : ShapeMem) : Finding Unit :=
  objectRelease sh.category do
    storeRelease sh
    free (some sh.category)

/-- `cat89_enum_release` of the enumeration of the shape, with `enum_destroy`. -/
def shapeEnumRelease (sh : ShapeMem) : Finding Unit :=
  objectRelease sh.enumeration do
    shapeRelease sh
    free (some sh.enumeration)

/-- `grab_two` and `grab_three`: the objects of the shape, through an iterator of its own. -/
def grab (kind : ShapeKind) : Finding (Except Status (List Nat)) :=
  attempt (catAlloc grants) (pure ()) fun it => do
    free (some it)
    pure (.ok (shapeObjects kind))

/-! ## The diagram, the cone and the limit -/

/-- `struct cat89_functor` from a shape into the category, with its context. -/
structure DiagramMem where
  block : Nat
  ctx : Nat
  shape : ShapeMem

/-- `cat89_functor_new`. -/
def functorNew (sh : ShapeMem) (dx : Nat) : Finding (Except Status DiagramMem) :=
  attempt (objectRetain sh.category) (pure ()) fun _ =>
  attempt (retain .category) (shapeRelease sh) fun _ =>
  attempt (catAlloc grants) (do shapeRelease sh; release .category) fun b => do
    setRefs b 1
    pure (.ok ⟨b, dx, sh⟩)

/-- `cat89_functor_release`, with `functor_destroy`, `dmap_destroy` and `dmap3_destroy`. -/
def functorRelease (d : DiagramMem) : Finding Unit :=
  objectRelease d.block do
    free (some d.ctx)
    shapeRelease d.shape
    release .category
    free (some d.block)

/-- `struct pres` and `struct p3`: whether the enumeration and the equality are in it yet, and the
legs. -/
structure ResultMem where
  block : Nat
  enumeration : Bool
  eq : Bool
  legs : List (Option Nat)

/-- The legs are released in turn. -/
def releaseLegs : List (Option Nat) → Finding Unit
  | [] => pure ()
  | leg :: legs => do
    rel1 leg
    releaseLegs legs

/-- A release that does nothing to `NULL`. -/
def releaseIf (there : Bool) (r : Ref) : Finding Unit := if there then release r else pure ()

/-- `pres_free` and `p3_free`. -/
def resultFree (rx : ResultMem) : Finding Unit := do
  releaseIf rx.enumeration .enumeration
  releaseIf rx.eq .equality
  releaseLegs rx.legs
  free (some rx.block)

/-- `struct cat89_cone`. -/
structure ConeMem where
  block : Nat
  diagram : DiagramMem
  ctx : ResultMem

/-- `cat89_cone_new`. -/
def coneNew (d : DiagramMem) (apex : Nat) (rx : ResultMem) : Finding (Except Status ConeMem) :=
  if K.ownsObj apex then
    attempt (objectRetain d.block) (pure ()) fun _ =>
    attempt (catAlloc grants) (functorRelease d) fun b => do
      setRefs b 1
      pure (.ok ⟨b, d, rx⟩)
  else pure (.error .invalid)

/-- `cat89_cone_release`, with `cone_destroy`. -/
def coneRelease (c : ConeMem) : Finding Unit :=
  objectRelease c.block do
    resultFree c.ctx
    functorRelease c.diagram
    free (some c.block)

/-- `struct cat89_limit`. -/
structure LimitMem where
  block : Nat
  cone : ConeMem

/-- `cat89_limit_new`. -/
def limitNew (c : ConeMem) : Finding (Except Status LimitMem) :=
  attempt (objectRetain c.block) (pure ()) fun _ =>
  attempt (catAlloc grants) (coneRelease c) fun b => do
    setRefs b 1
    pure (.ok ⟨b, c⟩)

/-- `cat89_limit_release`, with `limit_destroy`. -/
def limitRelease (l : LimitMem) : Finding Unit :=
  objectRelease l.block do
    coneRelease l.cone
    free (some l.block)

/-! ## The finders -/

/-- What a finder has in its hands besides the census.  What is `none` is `NULL`. -/
structure Hands where
  rx : Option ResultMem
  lz : Option Nat
  diagram : Option DiagramMem
  dx : Option Nat
  shape : Option ShapeMem
  shapenum : Option ShapeMem
  cone : Option ConeMem

def Hands.empty : Hands := ⟨none, none, none, none, none, none, none⟩

/-- `f`, where there is something. -/
def whereSome {α : Type} (f : α → Finding Unit) : Option α → Finding Unit
  | none => pure ()
  | some a => f a

/-- `build_release` and `p3_build_release`. -/
def buildRelease (hs : Hands) : Finding Unit := do
  whereSome resultFree hs.rx
  rel1 hs.lz
  whereSome functorRelease hs.diagram
  free hs.dx
  whereSome shapeRelease hs.shape
  whereSome shapeEnumRelease hs.shapenum
  whereSome coneRelease hs.cone
  censusFree cs

/-- The diagram of both finders, over a shape and with a context: what is in hand is released where
one of the steps fails. -/
def buildDiagram (kind : ShapeKind) (lz : Option Nat) :
    Finding (Except Status (List Nat × DiagramMem)) :=
  let hs : Hands := { Hands.empty with lz := lz }
  attempt (shapeCategoryNew grants kind) (buildRelease cs hs) fun sh =>
  let hs := { hs with shape := some sh, shapenum := some sh }
  attempt (grab grants kind) (buildRelease cs hs) fun pts =>
  attempt (catAlloc grants) (buildRelease cs hs) fun dx =>
  attempt (functorNew grants sh dx) (buildRelease cs { hs with dx := some dx }) fun d => do
    shapeRelease sh
    shapeEnumRelease sh
    pure (.ok (pts, d))

/-- The result context of both finders with the enumeration and the equality. -/
def buildResult (legs : List (Option Nat)) (hs : Hands) : Finding (Except Status ResultMem) :=
  attempt (catAlloc grants) (buildRelease cs hs) fun b =>
  let rx : ResultMem := ⟨b, false, false, legs⟩
  attempt (retain .enumeration) (buildRelease cs { hs with rx := some rx }) fun _ =>
  let rx := { rx with enumeration := true }
  attempt (retain .equality) (buildRelease cs { hs with rx := some rx }) fun _ =>
  pure (.ok { rx with eq := true })

/-- The cone and the limit of both finders. -/
def buildLimit (d : DiagramMem) (apex : Nat) (rx : ResultMem) : Finding (Except Status LimitMem) :=
  attempt (coneNew grants K d apex rx)
    (buildRelease cs { Hands.empty with rx := some rx, diagram := some d }) fun c => do
  functorRelease d
  attempt (limitNew grants c) (buildRelease cs { Hands.empty with cone := some c }) fun l => do
    coneRelease c
    censusFree cs
    pure (.ok l)

/-- `cat89_find_binary_product` past its checks: the points of the shape and the limit. -/
def buildProduct (a b : Nat) : Finding (Except Status (List Nat × LimitMem)) :=
  attempt (censusBuild grants K) (pure ()) fun cs =>
  attempt (searchProduct grants K cs a b) (censusFree cs) fun found =>
  match found with
  | none => do
    censusFree cs
    pure (.error .notFound)
  | some (apex, pa, pb) =>
    attempt (buildDiagram grants cs .discrete2 none) (pure ()) fun made =>
    let hs : Hands := { Hands.empty with diagram := some made.2 }
    attempt (buildResult grants cs [none, none] hs) (pure ()) fun rx =>
    attempt (morRetain K pa) (buildRelease cs { hs with rx := some rx }) fun _ =>
    let rx := { rx with legs := [some pa, none] }
    attempt (morRetain K pb) (buildRelease cs { hs with rx := some rx }) fun _ =>
    let rx := { rx with legs := [some pa, some pb] }
    attempt (buildLimit grants K cs made.2 apex rx) (pure ()) fun l => pure (.ok (made.1, l))

/-- `build_pullback_limit`. -/
def buildPullbackLimit (f g : Nat) : Finding (Except Status (List Nat × LimitMem)) :=
  attempt (censusBuild grants K) (pure ()) fun cs =>
  attempt (catDom K f) (censusFree cs) fun x =>
  attempt (catDom K g) (censusFree cs) fun y =>
  attempt (catCod K f) (censusFree cs) fun _ =>
  attempt (searchPullback grants K cs x y f g) (censusFree cs) fun found =>
  match found with
  | none => do
    censusFree cs
    pure (.error .notFound)
  | some (apex, pX, pY) =>
    attempt (catCompose K f pX) (censusFree cs) fun lz =>
    attempt (buildDiagram grants cs .span (some lz)) (pure ()) fun made =>
    let hs : Hands := { Hands.empty with diagram := some made.2, lz := some lz }
    attempt (buildResult grants cs [none, none, none] hs) (pure ()) fun rx =>
    attempt (morRetain K pX) (buildRelease cs { hs with rx := some rx }) fun _ =>
    let rx := { rx with legs := [some pX, none, none] }
    attempt (morRetain K pY) (buildRelease cs { hs with rx := some rx }) fun _ =>
    let rx := { rx with legs := [some pX, some pY, none] }
    attempt (morRetain K lz) (buildRelease cs { hs with rx := some rx }) fun _ => do
    let rx := { rx with legs := [some pX, some pY, some lz] }
    morRelease lz
    attempt (buildLimit grants K cs made.2 apex rx) (pure ()) fun l => pure (.ok (made.1, l))

/-- The variables of the caller: `none` is a `NULL` pointer, and a variable holds `NULL`, the block of
a limit or the place of a point in its shape. -/
structure FindOuts where
  limit : Option (Option Nat)
  points : List (Option (Option Nat))

/-- The variables are set to `NULL`. -/
def FindOuts.clear (outs : FindOuts) : FindOuts :=
  ⟨outs.limit.map fun _ => none, outs.points.map fun p => p.map fun _ => none⟩

/-- The variables are set to what is found. -/
def FindOuts.found (outs : FindOuts) (pts : List Nat) (l : LimitMem) : FindOuts :=
  ⟨outs.limit.map fun _ => some l.block,
    outs.points.zipWith (fun p i => p.map fun _ => some i) pts⟩

/-- The handles that are given: whether the category is one, and whether the enumeration and the
equality are and are of that category. -/
structure FindArgs where
  category : Bool
  enumeration : Option Bool
  eq : Option Bool

/-- The checks of both finders on their handles. -/
def FindArgs.usable (args : FindArgs) : Bool :=
  args.category && args.enumeration == some true && args.eq == some true

/-- How a finder ends. -/
structure FindEnd where
  result : Except Status LimitMem
  outs : FindOuts

/-- The end of both finders. -/
def findEnd (outs : FindOuts) (build : Finding (Except Status (List Nat × LimitMem))) :
    Finding FindEnd := do
  let r ← build
  match r with
  | .error st => pure ⟨.error st, outs⟩
  | .ok (pts, l) => pure ⟨.ok l, outs.found pts l⟩

/-- `cat89_find_binary_product`. -/
def findBinaryProduct (args : FindArgs) (a b : Option Nat) (outs : FindOuts) : Finding FindEnd :=
  if outs.limit = none then pure ⟨.error .invalid, outs⟩
  else
    match a, b with
    | some a, some b =>
      if args.usable && K.ownsObj a && K.ownsObj b then
        findEnd outs.clear (buildProduct grants K a b)
      else pure ⟨.error .invalid, outs.clear⟩
    | _, _ => pure ⟨.error .invalid, outs.clear⟩

/-- `shared_codomain_ok`, with `same_cod`. -/
def sharedCodomainOk (f g : Nat) : Finding (Except Status Unit) :=
  attempt (catCod K f) (pure ()) fun x =>
  attempt (catCod K g) (pure ()) fun y =>
  if objSame K x y then pure (.ok ()) else pure (.error .domain)

/-- `cat89_find_pullback`. -/
def findPullback (args : FindArgs) (f g : Option Nat) (outs : FindOuts) : Finding FindEnd :=
  if outs.limit = none then pure ⟨.error .invalid, outs⟩
  else
    match f, g with
    | some f, some g => do
      let ownedF ← ownsMor f
      let ownedG ← ownsMor g
      if args.usable && ownedF && ownedG then
        findEnd outs.clear (attempt (sharedCodomainOk K f g) (pure ()) fun _ =>
          buildPullbackLimit grants K f g)
      else pure ⟨.error .invalid, outs.clear⟩
    | _, _ => pure ⟨.error .invalid, outs.clear⟩

end

end Cat89.Mem
