import EightyNine.Cat89.FindExact
import EightyNine.Cat89.FiniteOk
import EightyNine.Cat89.World
import Mathlib.Logic.Function.Basic

/-!
# libcat89: the cones of the finders

`src/shape.c`, the diagrams of `src/findlim.c` and `cat89_check_cone`.  The diagram of a
finder maps the objects of its shape and has no action on morphisms, so the checker of
cones refuses every limit that is found.  What is missing is no more than that: with the
arrows of the shape mapped to those the limit is taken of, the diagram is a functor and
the cone passes.
-/

namespace Cat89

open Library List

/-! ## Shapes -/

/-- `struct shape_table`. -/
structure ShapeTable where
  nobj : Nat
  nmor : Nat
  dom : Nat → Nat
  cod : Nat → Nat
  ident : Nat → Nat

/-- `table_identity`. -/
def tableIdentity (t : ShapeTable) (o m : Nat) : ShapeTable :=
  { t with
    ident := Function.update t.ident o m
    dom := Function.update t.dom m o
    cod := Function.update t.cod m o }

/-- `table_mor`. -/
def tableMor (t : ShapeTable) (m d c : Nat) : ShapeTable :=
  { t with dom := Function.update t.dom m d, cod := Function.update t.cod m c }

/-- `init_discrete2`. -/
def initDiscrete2 (t : ShapeTable) : ShapeTable :=
  let t := { t with nobj := 2, nmor := 2 }
  let t := tableIdentity t 0 0
  tableIdentity t 1 1

/-- `init_parallel`. -/
def initParallel (t : ShapeTable) : ShapeTable :=
  let t := { t with nobj := 2, nmor := 4 }
  let t := tableIdentity t 0 0
  let t := tableIdentity t 1 1
  let t := tableMor t 2 0 1
  tableMor t 3 0 1

/-- `init_span`. -/
def initSpan (t : ShapeTable) : ShapeTable :=
  let t := { t with nobj := 3, nmor := 5 }
  let t := tableIdentity t 0 0
  let t := tableIdentity t 1 1
  let t := tableIdentity t 2 2
  let t := tableMor t 3 0 2
  tableMor t 4 1 2

/-- `init_shape`. -/
def initShape (kind : ShapeKind) : ShapeTable :=
  let t : ShapeTable := ⟨0, 0, fun _ => 0, fun _ => 0, fun _ => 0⟩
  match kind with
  | .discrete2 => initDiscrete2 t
  | .parallel => initParallel t
  | .span => initSpan t

/-- `table_add`. -/
def tableAdd (t : ShapeTable) : List BuilderCall :=
  (range t.nobj).map (fun _ => .addObject) ++
    (range t.nmor).map (fun i => .addMorphism (t.dom i) (t.cod i)) ++
    (range t.nobj).map fun i => .setIdentity i (t.ident i)

/-- `table_compose_pair`, with `table_compose_set`. -/
def tableComposePair (t : ShapeTable) (g f : Nat) : List BuilderCall :=
  if t.cod f ≠ t.dom g then []
  else [.setComposition g f (if f = t.ident (t.dom f) then g else f)]

/-- `table_compose`. -/
def tableCompose (t : ShapeTable) : List BuilderCall :=
  (range t.nmor).flatMap fun g => (range t.nmor).flatMap fun f => tableComposePair t g f

/-- The tables that `cat89_shape_category_new` builds a category from. -/
def shapeTables (kind : ShapeKind) : Tables :=
  let t := initShape kind
  ((tableAdd t ++ tableCompose t).foldl (fun b c => (b.call true c).2) builderNew).tables

theorem shapeTables_discrete2 : shapeTables .discrete2 =
    ⟨[0, 1], [⟨0, 0⟩, ⟨1, 1⟩], [⟨0, 0, 0⟩, ⟨1, 1, 1⟩]⟩ := by
  rfl

theorem shapeTables_parallel : shapeTables .parallel =
    ⟨[0, 1], [⟨0, 0⟩, ⟨1, 1⟩, ⟨0, 1⟩, ⟨0, 1⟩],
      [⟨0, 0, 0⟩, ⟨1, 1, 1⟩, ⟨1, 2, 2⟩, ⟨1, 3, 3⟩, ⟨2, 0, 2⟩, ⟨3, 0, 3⟩]⟩ := by
  rfl

theorem shapeTables_span : shapeTables .span =
    ⟨[0, 1, 2], [⟨0, 0⟩, ⟨1, 1⟩, ⟨2, 2⟩, ⟨0, 2⟩, ⟨1, 2⟩],
      [⟨0, 0, 0⟩, ⟨1, 1, 1⟩, ⟨2, 2, 2⟩, ⟨2, 3, 3⟩, ⟨2, 4, 4⟩, ⟨3, 0, 3⟩, ⟨4, 1, 4⟩]⟩ := by
  rfl

theorem shapeTables_ident (kind : ShapeKind) :
    (shapeTables kind).ident = range (shapeTables kind).ident.length := by
  cases kind <;> rfl

theorem shapeTables_comps (kind : ShapeKind) : ∀ row ∈ (shapeTables kind).comps,
    (row.f < (shapeTables kind).ident.length ∧ row.result = row.g) ∨
      (row.g < (shapeTables kind).ident.length ∧ row.result = row.f) := by
  cases kind
  · rw [shapeTables_discrete2]
    decide
  · rw [shapeTables_parallel]
    decide
  · rw [shapeTables_span]
    decide

theorem shapeTables_valid (kind : ShapeKind) : (shapeTables kind).builderValid = some true := by
  cases kind
  · rw [shapeTables_discrete2]
    decide
  · rw [shapeTables_parallel]
    decide
  · rw [shapeTables_span]
    decide

theorem shapeTables_ends (kind : ShapeKind) : (shapeTables kind).Ends := by
  have hall : ∀ row ∈ (shapeTables kind).mors,
      row.dom < (shapeTables kind).ident.length ∧ row.cod < (shapeTables kind).ident.length := by
    cases kind
    · rw [shapeTables_discrete2]
      decide
    · rw [shapeTables_parallel]
      decide
    · rw [shapeTables_span]
      decide
  intro f a b hf
  exact hall ⟨a, b⟩ (mem_of_getElem? hf)

theorem shapeTables_isCategory (kind : ShapeKind) : (shapeTables kind).IsCategory := by
  refine (Tables.builderValid_decides ?_ (shapeTables_ends kind)).iff.1 (shapeTables_valid kind)
  cases kind
  · rw [shapeTables_discrete2]
    decide
  · rw [shapeTables_parallel]
    decide
  · rw [shapeTables_span]
    decide

/-! ## Diagrams and cones over shapes -/

/-- `cat89_functor_ops`; an operation that is missing is `NULL`. -/
structure FunctorOps (Obj Mor : Type) where
  mapObj : Option (Nat → Except Status Obj)
  mapMor : Option (Nat → Except Status Mor)

/-- A cone with its diagram and the shape that is the source of the diagram. -/
structure ShapeCone (Obj Mor : Type) where
  shape : Tables
  ops : FunctorOps Obj Mor
  cone : Cone Obj Mor

section

variable {Obj Mor : Type} [DecidableEq Obj] [DecidableEq Mor] (K : Category Obj Mor)
  (c : ShapeCone Obj Mor)

/-- `cat89_functor_map_obj`, of the diagram. -/
def functorMapObj (obj : Nat) : Except Status Obj :=
  if c.shape.ident.length ≤ obj then .error .invalid
  else
    match c.ops.mapObj with
    | none => .error .notSupported
    | some mapObj => mapObj obj

/-- `cat89_functor_map_mor`, of the diagram. -/
def functorMapMor (mor : Nat) : Except Status Mor :=
  if c.shape.mors.length ≤ mor then .error .invalid
  else
    match c.ops.mapMor with
    | none => .error .notSupported
    | some mapMor => mapMor mor

/-- `cat89_cone_leg`. -/
def coneLeg (shapeObj : Nat) : Except Status Mor :=
  if c.shape.ident.length ≤ shapeObj then .error .invalid else c.cone.leg shapeObj

/-- `cone_mor_check`, with `cone_compare`: whether the triangle over `m` commutes. -/
def coneMorCheck (m : Nat) : Except Status Bool :=
  match c.shape.mors[m]? with
  | none => .error .invalid
  | some row => do
    let dm ← functorMapMor c m
    let lj ← coneLeg c row.dom
    let lk ← coneLeg c row.cod
    let comp ← baseCompose K dm lj
    pure (decide (comp = lk))

/-- `cone_step`, on `invalid`. -/
def coneStep (invalid : Bool) (m : Nat) : Except Status Bool := do
  let equal ← coneMorCheck K c m
  pure (if equal = false then true else invalid)

/-- `cat89_check_cone`: the status and `*out_valid`. -/
def checkCone : Status × Bool :=
  match (range c.shape.mors.length).foldlM (coneStep K c) false with
  | .error st => (st, false)
  | .ok invalid => if invalid then (.ok, false) else (.ok, true)

end

/-- `struct dctx`. -/
structure Dctx (Obj : Type) where
  ptA : Option Nat
  ptB : Option Nat
  a : Obj
  b : Obj

/-- `struct dctx3`. -/
structure Dctx3 (Obj : Type) where
  pt0 : Option Nat
  pt1 : Option Nat
  pt2 : Option Nat
  obj0 : Obj
  obj1 : Obj
  obj2 : Obj

section

variable {Obj Mor : Type}

/-- `obj_select`. -/
def objSelect (dx : Dctx Obj) (obj : Nat) : Option Obj :=
  if some obj = dx.ptA then some dx.a
  else if some obj = dx.ptB then some dx.b
  else none

/-- `dmap_obj`. -/
def dmapObj (dx : Dctx Obj) (obj : Nat) : Except Status Obj :=
  match objSelect dx obj with
  | none => .error .invalid
  | some res => .ok res

/-- `d_ops`. -/
def dOps (dx : Dctx Obj) : FunctorOps Obj Mor := ⟨some (dmapObj dx), none⟩

/-- `dmap3_obj`, with `find_pt3`. -/
def dmap3Obj (dx : Dctx3 Obj) (obj : Nat) : Except Status Obj :=
  if some obj = dx.pt0 then .ok dx.obj0
  else if some obj = dx.pt1 then .ok dx.obj1
  else if some obj = dx.pt2 then .ok dx.obj2
  else .error .invalid

/-- `d3_ops`. -/
def d3Ops (dx : Dctx3 Obj) : FunctorOps Obj Mor := ⟨some (dmap3Obj dx), none⟩

variable (K : Category Obj Mor)

/-- The cone of a limit that `cat89_find_binary_product` returns. -/
def productCone (rx : Pres Obj Mor) (a b : Obj) : ShapeCone Obj Mor :=
  ⟨shapeTables .discrete2, dOps ⟨rx.ptA, rx.ptB, a, b⟩, rx.apex, fun obj => resLeg rx (some obj)⟩

/-- The cone of a limit that `cat89_find_equalizer` returns. -/
def equalizerCone (rx : Pres Obj Mor) (f : Mor) : ShapeCone Obj Mor :=
  ⟨shapeTables .parallel, dOps ⟨rx.ptA, rx.ptB, K.dom f, K.cod f⟩, rx.apex,
    fun obj => resLeg rx (some obj)⟩

/-- The cone of a limit that `cat89_find_pullback` returns. -/
def pullbackCone (rx : P3 Obj Mor) (f g : Mor) : ShapeCone Obj Mor :=
  ⟨shapeTables .span, d3Ops ⟨rx.pt0, rx.pt1, rx.pt2, K.dom f, K.dom g, K.cod f⟩, rx.apex,
    fun obj => p3Leg rx (some obj)⟩

end

/-! ## Checked cones -/

namespace ShapeCone

variable {Obj Mor : Type} (K : Category Obj Mor) (c : ShapeCone Obj Mor)

/-- The diagram is a functor from the shape. -/
structure IsFunctor : Prop where
  obj : ∀ a < c.shape.ident.length, ∃ x, functorMapObj c a = .ok x
  typed : ∀ {m j k}, c.shape.Typed m j k → ∃ u x y, functorMapMor c m = .ok u ∧
    functorMapObj c j = .ok x ∧ functorMapObj c k = .ok y ∧ K.Hom x y u
  ident : ∀ {a e}, c.shape.ident[a]? = some e →
    ∃ x, functorMapObj c a = .ok x ∧ functorMapMor c e = .ok (K.ident x)
  comp : ∀ {g f r}, c.shape.Comp g f r → ∃ v u w, functorMapMor c g = .ok v ∧
    functorMapMor c f = .ok u ∧ functorMapMor c r = .ok w ∧ K.Comp v u w

/-- The triangle over each morphism of the shape commutes. -/
def Commutes : Prop :=
  ∀ {m j k}, c.shape.Typed m j k → ∃ u lj lk, functorMapMor c m = .ok u ∧
    coneLeg c j = .ok lj ∧ coneLeg c k = .ok lk ∧ K.Comp u lj lk

/-- An action on the morphisms of a shape: identities go to identities, the others where `arrow`
says. -/
def shapeAction (arrow : Nat → Except Status Mor) (m : Nat) : Except Status Mor :=
  if m < c.shape.ident.length then (functorMapObj c m).map K.ident else arrow m

/-- The cone with an action of its diagram on morphisms. -/
def withArrows (arrow : Nat → Except Status Mor) : ShapeCone Obj Mor :=
  { c with ops := { c.ops with mapMor := some (c.shapeAction K arrow) } }

variable {K c} {kind : ShapeKind} {arrow : Nat → Except Status Mor}

theorem typed_identity (hshape : c.shape = shapeTables kind) {a : Nat}
    (ha : a < c.shape.ident.length) : c.shape.ident[a]? = some a ∧ c.shape.Typed a a a := by
  have hident : c.shape.ident[a]? = some a := by
    rw [hshape] at ha ⊢
    rw [shapeTables_ident, getElem?_range ha]
  have hcat : c.shape.IsCategory := hshape ▸ shapeTables_isCategory kind
  obtain ⟨e, he, htyped⟩ := hcat.identity a ha
  obtain rfl := Option.some.inj (hident.symm.trans he)
  exact ⟨hident, htyped⟩

theorem withArrows_ident (hshape : c.shape = shapeTables kind) {a : Nat} {x : Obj}
    (ha : a < c.shape.ident.length) (hx : functorMapObj c a = .ok x) :
    functorMapMor (c.withArrows K arrow) a = .ok (K.ident x) := by
  have hlt := (typed_identity hshape ha).2.lt
  change (if c.shape.mors.length ≤ a then _ else c.shapeAction K arrow a) = _
  rw [if_neg (not_le.2 hlt), shapeAction, if_pos ha, hx]
  rfl

/-- Any other arrow goes where `arrow` says. -/
theorem withArrows_arrow {m : Nat} (hm : m < c.shape.mors.length)
    (hle : c.shape.ident.length ≤ m) :
    functorMapMor (c.withArrows K arrow) m = arrow m := by
  change (if c.shape.mors.length ≤ m then _ else c.shapeAction K arrow m) = _
  rw [if_neg (not_le.2 hm), shapeAction, if_neg (not_lt.2 hle)]

/-- The arrows go between the objects that their ends go to. -/
def ArrowsTyped (K : Category Obj Mor) (c : ShapeCone Obj Mor) (arrow : Nat → Except Status Mor) :
    Prop :=
  ∀ {m j k}, c.shape.Typed m j k → c.shape.ident.length ≤ m →
    ∃ u x y, arrow m = .ok u ∧ functorMapObj c j = .ok x ∧ functorMapObj c k = .ok y ∧ K.Hom x y u

theorem withArrows_typed (hshape : c.shape = shapeTables kind)
    (hobj : ∀ a < c.shape.ident.length, ∃ x, functorMapObj c a = .ok x)
    (harrow : ArrowsTyped K c arrow) {m j k : Nat} (hm : c.shape.Typed m j k) :
    ∃ u x y, functorMapMor (c.withArrows K arrow) m = .ok u ∧ functorMapObj c j = .ok x ∧
      functorMapObj c k = .ok y ∧ K.Hom x y u := by
  by_cases hlt : m < c.shape.ident.length
  · obtain ⟨rfl, rfl⟩ := (typed_identity hshape hlt).2.unique hm
    obtain ⟨x, hx⟩ := hobj _ hlt
    exact ⟨K.ident x, x, x, withArrows_ident hshape hlt hx, hx, hx, K.dom_ident x, K.cod_ident x⟩
  · rw [withArrows_arrow hm.lt (not_lt.1 hlt)]
    exact harrow hm (not_lt.1 hlt)

/-- With its arrows mapped to ones of the right ends, the diagram of a shape is a functor. -/
theorem withArrows_isFunctor (hshape : c.shape = shapeTables kind)
    (hobj : ∀ a < c.shape.ident.length, ∃ x, functorMapObj c a = .ok x)
    (harrow : ArrowsTyped K c arrow) : (c.withArrows K arrow).IsFunctor K where
  obj := hobj
  typed hm := withArrows_typed hshape hobj harrow hm
  ident {a e} he := by
    have ha : a < c.shape.ident.length := (List.getElem?_eq_some_iff.1 he).1
    obtain rfl := Option.some.inj ((typed_identity hshape ha).1.symm.trans he)
    obtain ⟨x, hx⟩ := hobj a ha
    exact ⟨x, hx, withArrows_ident hshape ha hx⟩
  comp {g f r} hc := by
    have hcat : c.shape.IsCategory := hshape ▸ shapeTables_isCategory kind
    obtain ⟨i, j, k, hf, hg⟩ := hcat.composable _ hc.mem
    obtain ⟨u, x, y, hu, hx, hy, hom⟩ := withArrows_typed hshape hobj harrow hf
    obtain ⟨v, y', z, hv, hy', -, hom'⟩ := withArrows_typed hshape hobj harrow hg
    obtain rfl := Except.ok.inj (hy.symm.trans hy')
    rcases shapeTables_comps kind _ (hshape ▸ hc.mem) with ⟨hlt, hr⟩ | ⟨hlt, hr⟩
    · obtain rfl : r = g := hr
      rw [← hshape] at hlt
      obtain ⟨rfl, rfl⟩ := (typed_identity hshape hlt).2.unique hf
      obtain rfl := Except.ok.inj ((withArrows_ident hshape hlt hx).symm.trans hu)
      refine ⟨v, K.ident x, v, hv, hu, hv, hom'.1.trans hom.2.symm, ?_⟩
      obtain rfl := Except.ok.inj (hx.symm.trans hy)
      obtain ⟨rfl, -⟩ := hom'
      exact K.comp_ident v
    · obtain rfl : r = f := hr
      rw [← hshape] at hlt
      obtain ⟨rfl, rfl⟩ := (typed_identity hshape hlt).2.unique hg
      obtain rfl := Except.ok.inj ((withArrows_ident hshape hlt hy').symm.trans hv)
      refine ⟨K.ident y, u, u, hv, hu, hu, hom'.1.trans hom.2.symm, ?_⟩
      obtain ⟨-, rfl⟩ := hom
      exact K.ident_comp u

variable [DecidableEq Obj] [DecidableEq Mor]

theorem coneMorCheck_of_commutes (h : c.Commutes K) {m j k : Nat} (hm : c.shape.Typed m j k) :
    coneMorCheck K c m = .ok true := by
  obtain ⟨u, lj, lk, hu, hlj, hlk, hends, hcomp⟩ := h hm
  have hrow : c.shape.mors[m]? = some ⟨j, k⟩ := hm
  rw [coneMorCheck, hrow]
  change (do
    let dm ← functorMapMor c m
    let lj ← coneLeg c j
    let lk ← coneLeg c k
    let comp ← baseCompose K dm lj
    pure (decide (comp = lk))) = _
  rw [hu, hlj, hlk]
  change (do
    let comp ← baseCompose K u lj
    pure (decide (comp = lk))) = _
  rw [baseCompose_of_eq hends, hcomp]
  exact congrArg Except.ok (decide_eq_true rfl)

theorem checkCone_of_commutes (h : c.Commutes K) : checkCone K c = (.ok, true) := by
  have hfold : ∀ l : List Nat, (∀ m ∈ l, m < c.shape.mors.length) →
      l.foldlM (coneStep K c) false = .ok false := by
    intro l hl
    induction l with
    | nil => rfl
    | cons m l ih =>
      obtain ⟨j, k, hm⟩ := Tables.typed_of_lt (hl m mem_cons_self)
      rw [foldlM_cons, coneStep, coneMorCheck_of_commutes h hm]
      exact ih fun m' hm' => hl m' (mem_cons_of_mem _ hm')
  rw [checkCone, hfold _ fun m hm => mem_range.1 hm]
  rfl

/-- Without an action of the diagram on morphisms, the checker refuses. -/
theorem checkCone_notSupported (hmor : c.ops.mapMor = none) (hlen : 0 < c.shape.mors.length) :
    checkCone K c = (.notSupported, false) := by
  have hstep : coneStep K c false 0 = .error .notSupported := by
    have hmap : functorMapMor c 0 = .error .notSupported := by
      rw [functorMapMor, hmor, if_neg (not_le.2 hlen)]
    rw [coneStep, coneMorCheck, getElem?_eq_getElem hlen]
    simp only [hmap]
    rfl
  obtain ⟨n, hn⟩ := Nat.exists_eq_succ_of_ne_zero hlen.ne'
  rw [checkCone, hn, range_succ_eq_map, foldlM_cons, hstep]
  rfl

end ShapeCone

/-! ## The cones of the finders -/

section

variable {Obj Mor : Type} [DecidableEq Obj] [DecidableEq Mor]

/-- The diagram of the cone lacks its arrows, and with them the cone is one. -/
structure LacksArrows (K : Category Obj Mor) (c : ShapeCone Obj Mor)
    (arrow : Nat → Except Status Mor) : Prop where
  refused : checkCone K c = (.notSupported, false)
  isFunctor : (c.withArrows K arrow).IsFunctor K
  passes : checkCone K (c.withArrows K arrow) = (.ok, true)
  commutes : (c.withArrows K arrow).Commutes K

/-- `DISCRETE2` has no arrows. -/
def discreteArrow (_ : Nat) : Except Status Mor := .error .invalid

/-- The arrows of `PARALLEL`. -/
def parallelArrow (f g : Mor) (m : Nat) : Except Status Mor :=
  if m = 2 then .ok f else if m = 3 then .ok g else .error .invalid

/-- The arrows of `SPAN`. -/
def spanArrow (f g : Mor) (m : Nat) : Except Status Mor :=
  if m = 3 then .ok f else if m = 4 then .ok g else .error .invalid

variable {K : Category Obj Mor} {en : Enumeration Obj Mor} {room : Bool} {a b : Obj} {f g : Mor}

omit [DecidableEq Obj] [DecidableEq Mor] in
theorem fits_of_census {cs : Census Obj Mor} (h : censusBuild en room = .ok cs) : en.Fits room := by
  rw [censusBuild] at h
  split at h
  next => cases h
  next hobjs =>
    split at h
    next => cases h
    next hmors => exact ⟨by simpa using hobjs, by simpa using hmors⟩

omit [DecidableEq Obj] [DecidableEq Mor] in
theorem triangle_ident {x y : Obj} {l : Mor} (hl : K.Hom x y l) : K.Comp (K.ident y) l l := by
  obtain ⟨-, rfl⟩ := hl
  exact ⟨K.dom_ident _, K.ident_comp l⟩

theorem lacksArrows (kind : ShapeKind) {c : ShapeCone Obj Mor} {arrow : Nat → Except Status Mor}
    (hshape : c.shape = shapeTables kind) (hmor : c.ops.mapMor = none)
    (hleg : ∀ a < c.shape.ident.length, ∃ x l, functorMapObj c a = .ok x ∧ coneLeg c a = .ok l ∧
      K.cod l = x)
    (harrow : ∀ {m j k}, c.shape.Typed m j k → c.shape.ident.length ≤ m → ∃ u x y lj lk,
      arrow m = .ok u ∧ functorMapObj c j = .ok x ∧ functorMapObj c k = .ok y ∧ K.Hom x y u ∧
        coneLeg c j = .ok lj ∧ coneLeg c k = .ok lk ∧ K.Comp u lj lk) :
    LacksArrows K c arrow := by
  have hlen : 0 < c.shape.mors.length := by
    rw [hshape]
    cases kind <;> decide
  have hcommutes : (c.withArrows K arrow).Commutes K := by
    intro m j k hm
    by_cases hlt : m < c.shape.ident.length
    · obtain ⟨rfl, rfl⟩ := (ShapeCone.typed_identity hshape hlt).2.unique hm
      obtain ⟨x, l, hx, hl, rfl⟩ := hleg _ hlt
      exact ⟨K.ident (K.cod l), l, l, ShapeCone.withArrows_ident hshape hlt hx, hl, hl,
        triangle_ident ⟨rfl, rfl⟩⟩
    · have hmap : functorMapMor (c.withArrows K arrow) m = arrow m :=
        ShapeCone.withArrows_arrow hm.lt (not_lt.1 hlt)
      obtain ⟨u, x, y, lj, lk, hu, -, -, -, hlj, hlk, hc⟩ := harrow hm (not_lt.1 hlt)
      exact ⟨u, lj, lk, hmap.trans hu, hlj, hlk, hc⟩
  refine ⟨ShapeCone.checkCone_notSupported hmor hlen, ?_,
    ShapeCone.checkCone_of_commutes hcommutes, hcommutes⟩
  refine ShapeCone.withArrows_isFunctor hshape (fun a ha => ?_) fun hm hle => ?_
  · obtain ⟨x, l, hx, -⟩ := hleg a ha
    exact ⟨x, hx⟩
  · obtain ⟨u, x, y, lj, lk, hu, hx, hy, hom, -⟩ := harrow hm hle
    exact ⟨u, x, y, hu, hx, hy, hom⟩

theorem productCone_lacks {p : Obj} {pa pb : Mor} (hp : K.IsProduct a b p pa pb) :
    LacksArrows K (productCone ⟨some 0, some 1, p, pa, pb⟩ a b) discreteArrow := by
  refine lacksArrows .discrete2 rfl rfl (fun o ho => ?_) fun {m j k} hm hle => ?_
  · have ho' : o < 2 := ho
    match o, ho' with
    | 0, _ => exact ⟨a, pa, rfl, rfl, hp.hom_pa.2⟩
    | 1, _ => exact ⟨b, pb, rfl, rfl, hp.hom_pb.2⟩
  · have hlt : m < 2 := hm.lt
    exact absurd hle (not_le.2 hlt)

theorem equalizerCone_lacks {p : Obj} {e yl : Mor} (hp : K.IsEqualizer f g p e)
    (hdom : K.dom f = K.dom g) (hcod : K.cod f = K.cod g) (hyl : K.Comp f e yl) :
    LacksArrows K (equalizerCone K ⟨some 0, some 1, p, e, yl⟩ f) (parallelArrow f g) := by
  have hylg : K.Comp g e yl := by
    obtain ⟨r, hf, hg⟩ := hp.equalizes
    rwa [hyl.unique hf]
  have hend : K.cod yl = K.cod f := by
    obtain ⟨h, rfl⟩ := hyl
    exact K.cod_comp f e h
  refine lacksArrows .parallel rfl rfl (fun o ho => ?_) fun {m j k} hm hle => ?_
  · have ho' : o < 2 := ho
    match o, ho' with
    | 0, _ => exact ⟨K.dom f, e, rfl, rfl, hp.hom_e.2⟩
    | 1, _ => exact ⟨K.cod f, yl, rfl, rfl, hend⟩
  · have hle' : 2 ≤ m := hle
    have hlt : m < 4 := hm.lt
    obtain rfl | rfl : m = 2 ∨ m = 3 := by omega
    · cases (Option.some.inj hm)
      exact ⟨f, K.dom f, K.cod f, e, yl, rfl, rfl, rfl, ⟨rfl, rfl⟩, rfl, rfl, hyl⟩
    · cases (Option.some.inj hm)
      exact ⟨g, K.dom f, K.cod f, e, yl, rfl, rfl, rfl, ⟨hdom.symm, hcod.symm⟩, rfl, rfl, hylg⟩

theorem pullbackCone_lacks {p : Obj} {pX pY lz : Mor} (hp : K.IsPullback f g p pX pY)
    (hcod : K.cod f = K.cod g) (hlz : K.Comp f pX lz) :
    LacksArrows K (pullbackCone K ⟨some 0, some 1, some 2, p, pX, pY, lz⟩ f g) (spanArrow f g) := by
  have hlzg : K.Comp g pY lz := by
    obtain ⟨r, hf, hg⟩ := hp.commutes
    rwa [hlz.unique hf]
  have hend : K.cod lz = K.cod f := by
    obtain ⟨h, rfl⟩ := hlz
    exact K.cod_comp f pX h
  refine lacksArrows .span rfl rfl (fun o ho => ?_) fun {m j k} hm hle => ?_
  · have ho' : o < 3 := ho
    match o, ho' with
    | 0, _ => exact ⟨K.dom f, pX, rfl, rfl, hp.hom_pX.2⟩
    | 1, _ => exact ⟨K.dom g, pY, rfl, rfl, hp.hom_pY.2⟩
    | 2, _ => exact ⟨K.cod f, lz, rfl, rfl, hend⟩
  · have hle' : 3 ≤ m := hle
    have hlt : m < 5 := hm.lt
    obtain rfl | rfl : m = 3 ∨ m = 4 := by omega
    · cases (Option.some.inj hm)
      exact ⟨f, K.dom f, K.cod f, pX, lz, rfl, rfl, rfl, ⟨rfl, rfl⟩, rfl, rfl, hlz⟩
    · cases (Option.some.inj hm)
      exact ⟨g, K.dom g, K.cod f, pY, lz, rfl, rfl, rfl, ⟨rfl, hcod.symm⟩, rfl, rfl, hlzg⟩

/-! ## The searches -/

theorem findBinaryProduct_cone {rx : Pres Obj Mor} (h : findBinaryProduct K en room a b = .ok rx) :
    LacksArrows K (productCone rx a b) discreteArrow := by
  rw [findBinaryProduct] at h
  cases hcs : censusBuild en room with
  | error st =>
    rw [hcs] at h
    cases h
  | ok cs =>
    have hfits := fits_of_census hcs
    rw [hfits.build] at h
    change (searchProduct K en.census a b >>= _) = _ at h
    rcases searchProduct_finds (K := K) (a := a) (b := b) hfits with
      ⟨⟨p, pa, pb⟩, hfound, hp⟩ | ⟨hfound, hnone⟩
    · rw [hfound, pure_bind] at h
      cases h
      exact productCone_lacks hp
    · rw [hfound, pure_bind] at h
      cases h

theorem findEqualizer_cone {rx : Pres Obj Mor} (h : findEqualizer K en room f g = .ok rx) :
    LacksArrows K (equalizerCone K rx f) (parallelArrow f g) := by
  rw [findEqualizer] at h
  split at h
  next => cases h
  next hdom =>
    split at h
    next => cases h
    next hcod =>
      cases hcs : censusBuild en room with
      | error st =>
        rw [hcs] at h
        cases h
      | ok cs =>
        rw [(fits_of_census hcs).build] at h
        change (searchEqualizer K en.census (K.dom f) f g >>= _) = _ at h
        have hsearch : Finds (searchEqualizer K en.census (K.dom f) f g) fun found =>
          K.IsEqualizer f g found.1 found.2 := searchEqualizer_finds (not_not.1 hdom)
        rcases hsearch with ⟨⟨p, e⟩, hfound, hp⟩ | ⟨hfound, hnone⟩
        · have hfe : K.dom f = K.cod e := hp.hom_e.2.symm
          rw [hfound, pure_bind] at h
          change (do
            let yl ← baseCompose K f e
            presFound .parallel (some (p, e, yl))) = _ at h
          rw [baseCompose_of_eq hfe] at h
          cases h
          exact equalizerCone_lacks hp (not_not.1 hdom) (not_not.1 hcod) (K.comp_of hfe)
        · rw [hfound, pure_bind] at h
          cases h

theorem findPullback_cone {rx : P3 Obj Mor} (h : findPullback K en room f g = .ok rx) :
    LacksArrows K (pullbackCone K rx f g) (spanArrow f g) := by
  rw [findPullback] at h
  split at h
  next => cases h
  next hcod =>
    cases hcs : censusBuild en room with
    | error st =>
      rw [hcs] at h
      cases h
    | ok cs =>
      have hfits := fits_of_census hcs
      rw [hfits.build] at h
      change (searchPullback K en.census (K.dom f) (K.dom g) f g >>= _) = _ at h
      rcases searchPullback_finds (K := K) (f := f) (g := g) hfits with
        ⟨⟨p, pX, pY⟩, hfound, hp⟩ | ⟨hfound, hnone⟩
      · have hfp : K.dom f = K.cod pX := hp.hom_pX.2.symm
        rw [hfound, pure_bind] at h
        change (do
          let lz ← baseCompose K f pX
          let pt := grabThree (shapeObjects .span)
          pure (⟨pt.1, pt.2.1, pt.2.2, p, pX, pY, lz⟩ : P3 Obj Mor)) = _ at h
        rw [baseCompose_of_eq hfp] at h
        cases h
        exact pullbackCone_lacks hp (not_not.1 hcod) (K.comp_of hfp)
      · rw [hfound, pure_bind] at h
        cases h

end

/-- The diagram of each limit that is found lacks its arrows, so `cat89_check_cone` refuses its cone;
with the arrows it is a functor, and the cone passes. -/
theorem finder_cones {Obj Mor : Type} [DecidableEq Obj] [DecidableEq Mor] (K : Category Obj Mor)
    (en : Enumeration Obj Mor) (room : Bool) :
    (∀ a b rx, findBinaryProduct K en room a b = .ok rx →
      LacksArrows K (productCone rx a b) discreteArrow) ∧
    (∀ f g rx, findEqualizer K en room f g = .ok rx →
      LacksArrows K (equalizerCone K rx f) (parallelArrow f g)) ∧
    ∀ f g rx, findPullback K en room f g = .ok rx →
      LacksArrows K (pullbackCone K rx f g) (spanArrow f g) :=
  ⟨fun _ _ _ => findBinaryProduct_cone, fun _ _ _ => findEqualizer_cone,
    fun _ _ _ => findPullback_cone⟩

/-- An equalizer and a pullback in the monoid of one element more. -/
theorem finder_cones_two : ∃ rx rx', findEqualizer (leftZero 1) (leftZeroEnumeration 1) true
      (some 0) (some 0) = .ok rx ∧
    LacksArrows (leftZero 1) (equalizerCone (leftZero 1) rx (some 0))
      (parallelArrow (some 0) (some 0)) ∧
    findPullback (leftZero 1) (leftZeroEnumeration 1) true none (some 0) = .ok rx' ∧
    LacksArrows (leftZero 1) (pullbackCone (leftZero 1) rx' none (some 0))
      (spanArrow none (some 0)) := by
  obtain ⟨-, hequalizer, hpullback⟩ := finder_cones (leftZero 1) (leftZeroEnumeration 1) true
  exact ⟨_, _, rfl, hequalizer _ _ _ rfl, rfl, hpullback _ _ _ rfl⟩

/-- The product of the only object with itself is found, and its cone does not pass. -/
theorem not_finder_cones : ¬ ∀ a b rx,
    findBinaryProduct (leftZero 0) (leftZeroEnumeration 0) true a b = .ok rx →
      checkCone (leftZero 0) (productCone rx a b) = (.ok, true) := by
  intro h
  have hfound : findBinaryProduct (leftZero 0) (leftZeroEnumeration 0) true () () =
      .ok ⟨some 0, some 1, (), none, none⟩ := rfl
  have hpass := h () () _ hfound
  rw [(findBinaryProduct_cone hfound).refused] at hpass
  cases hpass

end Cat89
