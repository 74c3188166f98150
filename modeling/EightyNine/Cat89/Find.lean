import EightyNine.Cat89.Comma
import EightyNine.Cat89.Free

/-!
# libcat89: the finders

`src/find.c` and `src/findlim.c`, over a category whose morphisms are told apart by the
equality that the caller supplies.  An enumeration lists each object and each morphism
once.  A census of it is its two lists: an index into the census stands for the
morphism at it.  Each finder and each `factor` opens the enumeration again.
-/

namespace Cat89

/-- `cat89_enum`. -/
structure Enumeration (Obj Mor : Type) where
  objs : List Obj
  mors : List Mor
  objs_nodup : objs.Nodup
  mors_nodup : mors.Nodup
  mem_objs : ∀ a, a ∈ objs
  mem_mors : ∀ m, m ∈ mors

variable {Obj Mor : Type} [DecidableEq Obj] [DecidableEq Mor] (K : Category Obj Mor)
  (en : Enumeration Obj Mor)

/-! ## `src/find.c` -/

/-- `INT_MAX`. -/
def intMax : Nat := 2 ^ 31 - 1

/-- `note_dupe`.  The counter is an `int`, which may not overflow. -/
def noteDupe (dupe : Nat) : Option Nat := if dupe = intMax then none else some (dupe + 1)

/-- `one_mor_step`, on `found` and `dupe`. -/
def oneMorStep (a b : Obj) (acc : Option Mor × Nat) (mor : Mor) : Option (Option Mor × Nat) :=
  if K.dom mor = a then
    if K.cod mor = b then
      match acc.1 with
      | none => some (some mor, acc.2)
      | some found => (noteDupe acc.2).map fun dupe => (some found, dupe)
    else some acc
  else some acc

/-- `one_mor`. -/
def oneMor (a b : Obj) : Option (Option Mor) :=
  (en.mors.foldlM (oneMorStep K a b) (none, 0)).map fun acc =>
    if acc.2 > 0 then none else acc.1

/-- `one_hom_ok`. -/
def oneHomOk (a b : Obj) : Option Bool := (oneMor K en a b).map Option.isSome

/-- `is_terminal`. -/
def isTerminal (cand : Obj) : Option Bool := en.objs.allM fun x => oneHomOk K en x cand

/-- `is_initial`. -/
def isInitial (cand : Obj) : Option Bool := en.objs.allM fun x => oneHomOk K en cand x

/-- `terminal_scan`: the first terminal object. -/
def terminalScan : Option (Option Obj) := en.objs.findM? (isTerminal K en)

/-- `initial_scan`. -/
def initialScan : Option (Option Obj) := en.objs.findM? (isInitial K en)

/-- `sizeof(const cat89_obj *)`. -/
def sizeofObj : Nat := 8

/-- `collect_objects`, as far as it can fail. -/
def collectObjects (room : Bool) : Except Status (List Obj) :=
  if allocates room (en.objs.length * sizeofObj) = false then .error .nomem else .ok en.objs

/-- What the two finders do with the outcome of their scan. -/
def findObject (room : Bool) (scan : Option (Option Obj)) : Reply Obj :=
  match collectObjects en room with
  | .error st => some (.error st)
  | .ok _ =>
    match scan with
    | none => none
    | some none => some (.error .notFound)
    | some (some res) => some (.ok res)

/-- `cat89_find_terminal`. -/
def findTerminal (room : Bool) : Reply Obj := findObject en room (terminalScan K en)

/-- `cat89_find_initial`. -/
def findInitial (room : Bool) : Reply Obj := findObject en room (initialScan K en)

/-- What the two arrows do with the only morphism. -/
def onlyArrow (one : Option (Option Mor)) : Reply Mor :=
  match one with
  | none => none
  | some none => some (.error .notFound)
  | some (some mor) => some (.ok mor)

/-- `cat89_terminal_arrow`. -/
def terminalArrow (terminal x : Obj) : Reply Mor := onlyArrow (oneMor K en x terminal)

/-- `cat89_initial_arrow`. -/
def initialArrow (initial x : Obj) : Reply Mor := onlyArrow (oneMor K en initial x)

/-! ## `src/findlim.c`: the census -/

/-- `sizeof(struct fmor)`. -/
def sizeofFmor : Nat := 24

/-- `struct census`. -/
structure Census (Obj Mor : Type) where
  objs : List Obj
  mors : List Mor

/-- `census_build`. -/
def censusBuild (room : Bool) : Except Status (Census Obj Mor) :=
  if allocates room (en.objs.length * sizeofObj) = false then .error .nomem
  else if allocates room (en.mors.length * sizeofFmor) = false then .error .nomem
  else .ok ⟨en.objs, en.mors⟩

variable (cs : Census Obj Mor)

/-- Whether a row of the census goes from `x` to `y`. -/
def inHom (x y : Obj) (m : Mor) : Bool :=
  if K.dom m ≠ x then false else if K.cod m ≠ y then false else true

/-- `hom_count`. -/
def homCount (x y : Obj) : Nat := cs.mors.countP (inHom K x y)

/-- `gather_indices`. -/
def gatherIndices (x y : Obj) : List Mor := cs.mors.filter (inHom K x y)

/-- Whether two composites are what they should be, as `evaluate_mediator` does it. -/
def evaluate (c1 c2 : Except Status Mor) (xa xb : Mor) : Except Status Bool := do
  let c1 ← c1
  let c2 ← c2
  pure (if c1 = xa then decide (c2 = xb) else false)

/-- Whether two composites are the same, as `eqz_equalizes` and `pb_commute` do it. -/
def evaluateSame (c1 c2 : Except Status Mor) : Except Status Bool := do
  let c1 ← c1
  let c2 ← c2
  pure (decide (c1 = c2))

/-- How many rows from `x` to `p` pass `eval`. -/
def tally (x p : Obj) (eval : Mor → Except Status Bool) : Except Status Nat :=
  cs.mors.foldlM
    (fun n m =>
      if inHom K x p m = false then pure n
      else do
        let med ← eval m
        pure (if med then n + 1 else n)) 0

/-- The last row from `x` to `p` that passes `eval`, and the first row if none does. -/
def pick (x p : Obj) (eval : Mor → Except Status Bool) : Except Status (Option Mor) :=
  cs.mors.foldlM
    (fun idx m =>
      if inHom K x p m = false then pure idx
      else do
        let med ← eval m
        pure (if med then some m else idx)) cs.mors.head?

/-- The only row from `x` to `p` that passes `eval`, and the first row if it is not the
only one. -/
def single (x p : Obj) (eval : Mor → Except Status Bool) : Except Status (Option Mor) := do
  let n ← tally K cs x p eval
  if n ≠ 1 then pure cs.mors.head? else pick K cs x p eval

/-- `factor` past the census: the only row that passes `eval`, which is read from the
census. -/
def factorRow (x p : Obj) (eval : Mor → Except Status Bool) : Reply Mor :=
  match tally K cs x p eval with
  | .error st => some (.error st)
  | .ok n =>
    if n ≠ 1 then some (.error .notFound)
    else
      match single K cs x p eval with
      | .error st => some (.error st)
      | .ok none => none
      | .ok (some keep) => some (.ok keep)

/-- `factor` with its own census. -/
def factorCensus (room : Bool) (x p : Obj) (eval : Mor → Except Status Bool) : Reply Mor :=
  match censusBuild en room with
  | .error st => some (.error st)
  | .ok cs => factorRow K cs x p eval

/-- The loop of `pair_covered`. -/
def pairCovered (count : Mor → Mor → Except Status Nat) (xa : Mor) (bids : List Mor) :
    Except Status Bool :=
  bids.allM fun xb => do
    let cnt ← count xa xb
    pure (decide (cnt ≠ 0))

/-- The body of `obj_check`, over the rows to the apex and the rows of the two legs. -/
def objCheckRows (npy na nb : Nat) (aids bids : List Mor)
    (count : Mor → Mor → Except Status Nat) : Except Status Bool :=
  if npy ≠ na * nb % 2 ^ 64 then pure false
  else aids.allM fun xa => pairCovered count xa bids

/-- The loops of `try_apex`. -/
def firstPair (aids bids : List Mor) (check : Mor → Mor → Except Status Bool) :
    Except Status (Option (Mor × Mor)) :=
  aids.findSomeM? fun pa =>
    bids.findSomeM? fun pb => do
      let ok ← check pa pb
      pure (if ok then some (pa, pb) else none)

/-- The loop of `search_product`. -/
def firstApex {L : Type} (tryApex : Obj → Except Status (Option L)) :
    Except Status (Option (Obj × L)) :=
  cs.objs.findSomeM? fun apex => do
    let legs ← tryApex apex
    pure (legs.map fun legs => (apex, legs))

/-! ## Shapes and results -/

/-- `cat89_shape_kind`. -/
inductive ShapeKind where
  | discrete2
  | parallel
  | span

/-- The objects of a shape in the order of its enumeration. -/
def shapeObjects : ShapeKind → List Nat
  | .discrete2 => List.range 2
  | .parallel => List.range 2
  | .span => List.range 3

/-- `grab_step`. -/
def grabStep (o : Option Nat × Option Nat) (obj : Nat) : Option Nat × Option Nat :=
  let o0 := if o.1 = none then some obj else o.1
  if o.2 = none then
    if o0 ≠ some obj then (o0, some obj) else (o0, o.2)
  else (o0, o.2)

/-- `grab_two`. -/
def grabTwo (objs : List Nat) : Option Nat × Option Nat := objs.foldl grabStep (none, none)

/-- `grab_three`: the pointers to the first three objects. -/
def grabThree (objs : List Nat) : Option Nat × Option Nat × Option Nat :=
  (objs[0]?, objs[1]?, objs[2]?)

/-- `struct pres`.  A shape object is `none` where it is `NULL`. -/
structure Pres (Obj Mor : Type) where
  ptA : Option Nat
  ptB : Option Nat
  apex : Obj
  pa : Mor
  pb : Mor

/-- `struct p3`. -/
structure P3 (Obj Mor : Type) where
  pt0 : Option Nat
  pt1 : Option Nat
  pt2 : Option Nat
  apex : Obj
  leg0 : Mor
  leg1 : Mor
  leg2 : Mor

/-- `cat89_cone` and `cat89_cocone`, as the caller made it. -/
structure Cone (Obj Mor : Type) where
  apex : Obj
  leg : Nat → Except Status Mor

/-- `cat89_cone_leg` and `cat89_cocone_leg`. -/
def Cone.legAt (cone : Cone Obj Mor) : Option Nat → Except Status Mor
  | none => .error .invalid
  | some obj => cone.leg obj

/-- `res_leg`. -/
def resLeg (rx : Pres Obj Mor) (shapeObj : Option Nat) : Except Status Mor :=
  if shapeObj = rx.ptA then .ok rx.pa
  else if shapeObj = rx.ptB then .ok rx.pb
  else .error .invalid

/-- `p3_leg`. -/
def p3Leg (rx : P3 Obj Mor) (shapeObj : Option Nat) : Except Status Mor :=
  if shapeObj = rx.pt0 then .ok rx.leg0
  else if shapeObj = rx.pt1 then .ok rx.leg1
  else if shapeObj = rx.pt2 then .ok rx.leg2
  else .error .invalid

/-! ## Binary products -/

/-- `evaluate_mediator`. -/
def evaluateMediator (pa pb xa xb mor : Mor) : Except Status Bool :=
  evaluate (baseCompose K pa mor) (baseCompose K pb mor) xa xb

/-- `count_mediators`. -/
def countMediators (x p : Obj) (pa pb xa xb : Mor) : Except Status Nat :=
  tally K cs x p (evaluateMediator K pa pb xa xb)

/-- `obj_check`. -/
def objCheck (y p a b : Obj) (pa pb : Mor) : Except Status Bool :=
  objCheckRows (homCount K cs y p) (homCount K cs y a) (homCount K cs y b)
    (gatherIndices K cs y a) (gatherIndices K cs y b) (countMediators K cs y p pa pb)

/-- `is_product`. -/
def isProduct (p a b : Obj) (pa pb : Mor) : Except Status Bool :=
  cs.objs.allM fun y => objCheck K cs y p a b pa pb

/-- `try_apex`. -/
def tryApex (a b apex : Obj) : Except Status (Option (Mor × Mor)) :=
  firstPair (gatherIndices K cs apex a) (gatherIndices K cs apex b) (isProduct K cs apex a b)

/-- `search_product`. -/
def searchProduct (a b : Obj) : Except Status (Option (Obj × Mor × Mor)) :=
  firstApex cs (tryApex K cs a b)

/-- What the finders of products and coproducts do with the outcome of their search. -/
def presFound (shape : ShapeKind) (found : Option (Obj × Mor × Mor)) :
    Except Status (Pres Obj Mor) :=
  match found with
  | none => .error .notFound
  | some (apex, pa, pb) =>
    .ok ⟨(grabTwo (shapeObjects shape)).1, (grabTwo (shapeObjects shape)).2, apex, pa, pb⟩

/-- `cat89_find_binary_product`. -/
def findBinaryProduct (room : Bool) (a b : Obj) : Except Status (Pres Obj Mor) := do
  let cs ← censusBuild en room
  let found ← searchProduct K cs a b
  presFound .discrete2 found

/-- `res_factor`. -/
def resFactor (room : Bool) (rx : Pres Obj Mor) (candidate : Cone Obj Mor) : Reply Mor :=
  match candidate.legAt rx.ptA with
  | .error st => some (.error st)
  | .ok xa =>
    match candidate.legAt rx.ptB with
    | .error st => some (.error st)
    | .ok xb =>
      factorCensus K en room candidate.apex rx.apex (evaluateMediator K rx.pa rx.pb xa xb)

/-! ## Binary coproducts -/

/-- `evaluate_col`. -/
def evaluateCol (ia ib xa xb u : Mor) : Except Status Bool :=
  evaluate (baseCompose K u ia) (baseCompose K u ib) xa xb

/-- `count_col`. -/
def countCol (s y : Obj) (ia ib xa xb : Mor) : Except Status Nat :=
  tally K cs s y (evaluateCol K ia ib xa xb)

/-- `obj_check_col`. -/
def objCheckCol (y s a b : Obj) (ia ib : Mor) : Except Status Bool :=
  objCheckRows (homCount K cs s y) (homCount K cs a y) (homCount K cs b y)
    (gatherIndices K cs a y) (gatherIndices K cs b y) (countCol K cs s y ia ib)

/-- `is_coproduct`. -/
def isCoproduct (s a b : Obj) (ia ib : Mor) : Except Status Bool :=
  cs.objs.allM fun y => objCheckCol K cs y s a b ia ib

/-- `try_apex_col`. -/
def tryApexCol (a b s : Obj) : Except Status (Option (Mor × Mor)) :=
  firstPair (gatherIndices K cs a s) (gatherIndices K cs b s) (isCoproduct K cs s a b)

/-- `search_coproduct`. -/
def searchCoproduct (a b : Obj) : Except Status (Option (Obj × Mor × Mor)) :=
  firstApex cs (tryApexCol K cs a b)

/-- `cat89_find_binary_coproduct`. -/
def findBinaryCoproduct (room : Bool) (a b : Obj) : Except Status (Pres Obj Mor) := do
  let cs ← censusBuild en room
  let found ← searchCoproduct K cs a b
  presFound .discrete2 found

/-- `col_factor`. -/
def colFactor (room : Bool) (rx : Pres Obj Mor) (candidate : Cone Obj Mor) : Reply Mor :=
  match candidate.legAt rx.ptA with
  | .error st => some (.error st)
  | .ok xa =>
    match candidate.legAt rx.ptB with
    | .error st => some (.error st)
    | .ok xb =>
      factorCensus K en room rx.apex candidate.apex (evaluateCol K rx.pa rx.pb xa xb)

/-! ## Equalizers -/

/-- `eqz_equalizes`. -/
def eqzEqualizes (f g mor : Mor) : Except Status Bool :=
  evaluateSame (baseCompose K f mor) (baseCompose K g mor)

/-- `eqz_arrow_step`. -/
def eqzArrowStep (f g : Mor) (x : Obj) (m : Mor) : Except Status Bool :=
  if K.cod m ≠ x then pure false else eqzEqualizes K f g m

/-- `eqz_count`. -/
def eqzCount (w x : Obj) (f g : Mor) : Except Status Nat :=
  cs.mors.foldlM
    (fun n m =>
      if K.dom m ≠ w then pure n
      else do
        let eqv ← eqzArrowStep K f g x m
        pure (if eqv then n + 1 else n)) 0

/-- `eqz_gather`. -/
def eqzGather (w x : Obj) (f g : Mor) : Except Status (List Mor) :=
  cs.mors.foldlM
    (fun vec m =>
      if K.dom m ≠ w then pure vec
      else do
        let eqv ← eqzArrowStep K f g x m
        pure (if eqv then vec ++ [m] else vec)) []

/-- The test of `eqz_med_one` and `eqz_pick_one`. -/
def evaluateLeg (e tar u : Mor) : Except Status Bool := do
  let c1 ← baseCompose K e u
  pure (decide (c1 = tar))

/-- `eqz_med_count`. -/
def eqzMedCount (w apex : Obj) (e tar : Mor) : Except Status Nat :=
  tally K cs w apex (evaluateLeg K e tar)

/-- `eqz_covered`. -/
def eqzCovered (w apex : Obj) (e : Mor) (eqi : List Mor) : Except Status Bool :=
  eqi.allM fun tar => do
    let cnt ← eqzMedCount K cs w apex e tar
    pure (decide (cnt ≠ 0))

/-- `eqz_obj_ok`. -/
def eqzObjOk (w x apex : Obj) (e f g : Mor) : Except Status Bool := do
  let neq ← eqzCount K cs w x f g
  if homCount K cs w apex ≠ neq then pure false
  else do
    let eqi ← eqzGather K cs w x f g
    eqzCovered K cs w apex e eqi

/-- `is_equalizer`. -/
def isEqualizer (apex x : Obj) (f g e : Mor) : Except Status Bool := do
  let eqv ← eqzEqualizes K f g e
  if eqv = false then pure false else cs.objs.allM fun w => eqzObjOk K cs w x apex e f g

/-- `search_equalizer`. -/
def searchEqualizer (x : Obj) (f g : Mor) : Except Status (Option (Obj × Mor)) :=
  firstApex cs fun apex =>
    (gatherIndices K cs apex x).findSomeM? fun e => do
      let ok ← isEqualizer K cs apex x f g e
      pure (if ok then some e else none)

/-- `cat89_find_equalizer`, with `parallel_arrows_ok` and `build_equalizer_limit`. -/
def findEqualizer (room : Bool) (f g : Mor) : Except Status (Pres Obj Mor) :=
  if K.dom f ≠ K.dom g then .error .domain
  else if K.cod f ≠ K.cod g then .error .domain
  else do
    let cs ← censusBuild en room
    let found ← searchEqualizer K cs (K.dom f) f g
    match found with
    | none => .error .notFound
    | some (apex, e) => do
      let yl ← baseCompose K f e
      presFound .parallel (some (apex, e, yl))

/-- `eqz_limit_factor`. -/
def eqzLimitFactor (room : Bool) (rx : Pres Obj Mor) (candidate : Cone Obj Mor) : Reply Mor :=
  match candidate.legAt rx.ptA with
  | .error st => some (.error st)
  | .ok z0 => factorCensus K en room candidate.apex rx.apex (evaluateLeg K rx.pa z0)

/-! ## Pullbacks -/

/-- `pb_commute`. -/
def pbCommute (f g wX wY : Mor) : Except Status Bool :=
  evaluateSame (baseCompose K f wX) (baseCompose K g wY)

/-- `pb_pair_cov`: `ok` after it. -/
def pbPairCov (w apex : Obj) (pX pY wX wY : Mor) (ok : Bool) : Except Status Bool := do
  let cnt ← countMediators K cs w apex pX pY wX wY
  pure (if cnt = 0 then false else ok)

/-- `pb_cell`, with the count of its caller: `ok` and `nc` after it. -/
def pbCell (w apex : Obj) (f g pX pY wX wY : Mor) (acc : Bool × Nat) :
    Except Status (Bool × Nat) := do
  let comm ← pbCommute K f g wX wY
  if comm then do
    let ok ← pbPairCov K cs w apex pX pY wX wY acc.1
    pure (ok, (acc.2 + 1) % 2 ^ 64)
  else pure acc

/-- `pb_obj_check`. -/
def pbObjCheck (w x y apex : Obj) (f g pX pY : Mor) : Except Status Bool := do
  let acc ← (gatherIndices K cs w x).foldlM
    (fun acc wX =>
      (gatherIndices K cs w y).foldlM
        (fun acc wY => pbCell K cs w apex f g pX pY wX wY acc) acc) (true, 0)
  pure (if acc.1 then if acc.2 ≠ homCount K cs w apex then false else acc.1 else acc.1)

/-- `is_pullback`. -/
def isPullback (apex x y : Obj) (f g pX pY : Mor) : Except Status Bool := do
  let comm ← pbCommute K f g pX pY
  if comm = false then pure false
  else cs.objs.allM fun w => pbObjCheck K cs w x y apex f g pX pY

/-- `search_pullback`. -/
def searchPullback (x y : Obj) (f g : Mor) : Except Status (Option (Obj × Mor × Mor)) :=
  firstApex cs fun apex =>
    firstPair (gatherIndices K cs apex x) (gatherIndices K cs apex y)
      (isPullback K cs apex x y f g)

/-- `cat89_find_pullback`, with `shared_codomain_ok` and `build_pullback_limit`. -/
def findPullback (room : Bool) (f g : Mor) : Except Status (P3 Obj Mor) :=
  if K.cod f ≠ K.cod g then .error .domain
  else do
    let cs ← censusBuild en room
    let found ← searchPullback K cs (K.dom f) (K.dom g) f g
    match found with
    | none => .error .notFound
    | some (apex, pX, pY) => do
      let lz ← baseCompose K f pX
      let pt := grabThree (shapeObjects .span)
      pure ⟨pt.1, pt.2.1, pt.2.2, apex, pX, pY, lz⟩

/-- `p3_limit_factor`. -/
def p3LimitFactor (room : Bool) (rx : P3 Obj Mor) (candidate : Cone Obj Mor) : Reply Mor :=
  match candidate.legAt rx.pt0 with
  | .error st => some (.error st)
  | .ok wX =>
    match candidate.legAt rx.pt1 with
    | .error st => some (.error st)
    | .ok wY =>
      factorCensus K en room candidate.apex rx.apex
        (evaluateMediator K rx.leg0 rx.leg1 wX wY)

end Cat89
