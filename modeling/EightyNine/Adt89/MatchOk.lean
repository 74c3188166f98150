import EightyNine.Adt89.Requests

/-!
# Exhaustiveness and redundancy

The analyses are right as long as nothing is lost with the columns that
`adt_i_useful_abstract` drops: no row tests such a column, and its type has a value
(`exhaustive_exact`, `redundant_exact`).  Where each type has a value and the patterns
have constructors at declared types only, nothing is lost (`Node.Clear.of_plain`).
-/

namespace Adt89

open Hm89 (Ty)
open Library Option List

variable {ctx : Ctx} {mem : Nat → Bool} {t : TypeRef} {d : AdtType} {args : List Ty}
  {ps : List Pattern} {p : Pattern}

/-! ## Well-typed patterns -/

theorem Ctx.IsInstance.unique {t t' : TypeRef} {args args' : List Ty} {τ : Ty}
    (h : ctx.IsInstance τ t args) (h' : ctx.IsInstance τ t' args') : t = t' := by
  obtain ⟨d, hd, rfl⟩ := h
  obtain ⟨d', hd', he⟩ := h'
  have hname : d.hmName = d'.hmName := (Term.con.inj he).1
  have hget : ∀ {t : TypeRef} {d : AdtType}, ctx.types[t]? = some d →
      (ctx.types.map AdtType.hmName)[t]? = some d.hmName := by
    intro t d h
    rw [List.getElem?_map, h]
    rfl
  have hlt : t < (ctx.types.map AdtType.hmName).length :=
    (List.getElem?_eq_some_iff.mp (hget hd)).1
  exact (List.getElem?_inj hlt ctx.nominal).mp ((hget hd).trans (hname ▸ (hget hd').symm))

theorem fieldsAt_length {c : CtorRef} {τ : Ty} (h : ctx.IsInstance τ c.owner args) :
    (ctx.fieldsAt c args).length = (ctx.fieldTypes c).length := by
  obtain ⟨d, hd, -⟩ := h
  simp [Ctx.fieldsAt, hd]

mutual

theorem Pattern.WellTyped.built : ∀ {p : Pattern} {τ : Ty}, p.WellTyped ctx τ → p.Built ctx
  | .null, _, _ => trivial
  | .wildcard, _, _ => trivial
  | .ctor _ _, _, h => by
    obtain ⟨-, args, hinst, hps⟩ := h
    obtain ⟨hb, hlen⟩ := AllWellTyped.built hps
    exact ⟨hlen.trans (fieldsAt_length hinst), hb⟩

theorem AllWellTyped.built : ∀ {ps : List Pattern} {τs : List Ty}, AllWellTyped ctx ps τs →
    AllBuilt ctx ps ∧ ps.length = τs.length
  | [], [], _ => ⟨trivial, rfl⟩
  | [], _ :: _, h => h.elim
  | _ :: _, [], h => h.elim
  | _ :: _, _ :: _, h => by
    obtain ⟨hb, hlen⟩ := AllWellTyped.built h.2
    exact ⟨⟨h.1.built, hb⟩, congrArg Nat.succ hlen⟩

end

theorem takeCtorFamily_eq {fam : TypeRef} (ht : ctx.types[t]? = some d)
    (hps : ∀ p ∈ ps, p.WellTyped ctx (.con d.hmName args))
    (h : takeCtorFamily ps = some fam) : fam = t := by
  obtain ⟨p, hp, hfam⟩ := exists_of_findSome?_eq_some h
  cases p with
  | ctor c qs =>
    cases hfam
    obtain ⟨-, args', hinst, -⟩ := hps _ hp
    exact hinst.unique ⟨d, ht, rfl⟩
  | _ => cases hfam

/-! ## The matrices of the queries -/

/-- The matrix whose rows are patterns and whose query is a pattern. -/
def startNode (t : TypeRef) (ps : List Pattern) (p : Pattern) : Node :=
  ⟨initRows ps, [p], [some t]⟩

theorem startNode_ok (hps : ∀ q ∈ ps, q.Built ctx) (hp : p.Built ctx) :
    (startNode t ps p).Ok ctx := by
  have hrow : ∀ r ∈ initRows ps, ∃ q ∈ ps, r = [q] := by
    intro r hr
    obtain ⟨q, hq, rfl⟩ := List.mem_map.mp hr
    exact ⟨q, hq, rfl⟩
  refine ⟨rfl, fun r hr => ?_, ⟨hp, trivial⟩, fun r hr => ?_⟩
  · obtain ⟨q, -, rfl⟩ := hrow r hr
    rfl
  · obtain ⟨q, hq, rfl⟩ := hrow r hr
    exact ⟨hps q hq, trivial⟩

/-! ## Typed matrices -/

/-- The arguments of an instance. -/
def argsOf : Ty → List Ty
  | .con _ args => args
  | .var _ => []

theorem Ctx.IsInstance.argsOf {τ : Ty} (h : ctx.IsInstance τ t args) : argsOf τ = args := by
  obtain ⟨d, -, rfl⟩ := h
  rfl

/-- The types of the columns under a constructor. -/
def typesUnder (ctx : Ctx) (c : CtorRef) : List Ty → List Ty
  | τ :: τs => ctx.fieldsAt c (argsOf τ) ++ τs
  | [] => []

/-- The types of the columns of each call. -/
def Node.callTypes (ctx : Ctx) (s : Node) (τs : List Ty) : List (List Ty) :=
  match s.q, s.fams with
  | .ctor c _ :: _, _ :: _ => [typesUnder ctx c τs]
  | _ :: _, none :: _ => [τs.tail]
  | _ :: _, some t :: _ => (ctx.ctorsOf t).map fun c => typesUnder ctx c τs
  | _, _ => []

/-- The tree of matrices with the types of their columns at the instance. -/
def typedTree (ctx : Ctx) : SearchTree (Node × List Ty) where
  leaf s := (tree ctx).leaf s.1
  children s := (s.1.calls ctx).zip (s.1.callTypes ctx s.2)

variable {rows : List Row} {head : Pattern} {tail : Row} {fam : Option TypeRef}
  {fams : List (Option TypeRef)} {s : Node} {τ : Ty} {σs τs : List Ty} {c : CtorRef}

theorem typed_calls_of_wc (h : wc head = true) :
    (typedTree ctx).children (⟨rows, head :: tail, fam :: fams⟩, τs) =
      match fam with
      | none => [(⟨rowsDropCol rows, tail, fams⟩, τs.tail)]
      | some t => (ctx.ctorsOf t).map fun c =>
        (under ctx rows head tail fams c, typesUnder ctx c τs) := by
  cases head with
  | ctor d ps => cases h
  | _ =>
    cases fam with
    | none => rfl
    | some t => exact zip_map' ..

theorem typedTree_search (n : Nat) (s : Node × List Ty) :
    (typedTree ctx).search n s = (tree ctx).search n s.1 := by
  refine SearchTree.search_map (f := Prod.fst) (fun _ => rfl) (fun s => ?_) n s
  obtain ⟨⟨rows, q, fams⟩, τs⟩ := s
  cases q with
  | nil => rfl
  | cons head tail =>
    cases fams with
    | nil => cases head <;> rfl
    | cons fam fams =>
      rcases wc_or_ctor head with hw | ⟨d, ps, rfl⟩
      · rw [typed_calls_of_wc hw]
        show _ = Node.calls ctx ⟨rows, head :: tail, fam :: fams⟩
        rw [calls_of_wc hw]
        cases fam with
        | none => rfl
        | some t => rw [List.map_map]; rfl
      · rfl

theorem mem_typed_calls {u : Node × List Ty} :
    u ∈ (typedTree ctx).children (⟨rows, head :: tail, fam :: fams⟩, τ :: τs) ↔
      (wc head = true ∧ fam = none ∧ u = (⟨rowsDropCol rows, tail, fams⟩, τs)) ∨
        ∃ c, head.Heads ctx fam c ∧
          u = (under ctx rows head tail fams c, ctx.fieldsAt c (argsOf τ) ++ τs) := by
  rcases wc_or_ctor head with hw | ⟨d, ps, rfl⟩
  · rw [typed_calls_of_wc hw]
    simp only [heads_of_wc hw]
    cases fam with
    | none => simp [hw]
    | some t =>
      simp only [List.mem_map, mem_ctorsOf_iff, reduceCtorEq, false_and, and_false, false_or,
        some.injEq, true_and]
      constructor
      · rintro ⟨c, ⟨rfl, hc⟩, rfl⟩
        exact ⟨c, ⟨rfl, hc⟩, rfl⟩
      · rintro ⟨c, ⟨rfl, hc⟩, rfl⟩
        exact ⟨c, ⟨rfl, hc⟩, rfl⟩
  · have hchildren : (typedTree ctx).children (⟨rows, .ctor d ps :: tail, fam :: fams⟩, τ :: τs) =
        [(under ctx rows (.ctor d ps) tail fams d, ctx.fieldsAt d (argsOf τ) ++ τs)] := rfl
    simp [hchildren, Pattern.Heads, wc]

/-- A column whose family, if it has one, is that of its type. -/
def Ctx.Column (ctx : Ctx) (fam : Option TypeRef) (τ : Ty) : Prop :=
  ∀ t, fam = some t → ∃ args, ctx.IsInstance τ t args

/-- The patterns are well typed, and the families are those of the types. -/
structure Node.Typed (ctx : Ctx) (s : Node) (τs : List Ty) : Prop where
  q : AllWellTyped ctx s.q τs
  rows : ∀ r ∈ s.rows, AllWellTyped ctx r τs
  fams : List.Forall₂ ctx.Column s.fams τs

theorem Node.Typed.ok (h : s.Typed ctx τs) : s.Ok ctx where
  fams := h.q.built.2.trans h.fams.length_eq.symm
  rows r hr := (h.rows r hr).built.2.trans h.q.built.2.symm
  built := h.q.built.1
  builtRows r hr := (h.rows r hr).built.1

theorem allWellTyped_append {qs : List Pattern} (h : AllWellTyped ctx ps σs)
    (h' : AllWellTyped ctx qs τs) : AllWellTyped ctx (ps ++ qs) (σs ++ τs) := by
  induction ps generalizing σs with
  | nil =>
    cases σs with
    | nil => exact h'
    | cons σ σs => exact h.elim
  | cons p ps ih =>
    cases σs with
    | nil => exact h.elim
    | cons σ σs => exact ⟨h.1, ih h.2⟩

theorem allWellTyped_null (τs : List Ty) :
    AllWellTyped ctx (List.replicate τs.length .null) τs := by
  induction τs with
  | nil => trivial
  | cons τ τs ih => exact ⟨trivial, ih⟩

theorem headCells_typed (hp : p.WellTyped ctx τ) (hu : p.Under c)
    (hinst : ctx.IsInstance τ c.owner args) :
    AllWellTyped ctx (headCells ctx c p) (ctx.fieldsAt c args) := by
  have hnull : AllWellTyped ctx (List.replicate (ctx.fieldTypes c).length .null)
      (ctx.fieldsAt c args) := by
    rw [← fieldsAt_length hinst]
    exact allWellTyped_null _
  cases p with
  | ctor d ps =>
    obtain rfl : c = d := hu
    obtain ⟨-, args', hinst', hps⟩ := hp
    rwa [← hinst.argsOf, hinst'.argsOf]
  | null | wildcard => exact hnull

/-- The type of a column is an instance of the owner of each constructor it may have. -/
theorem Pattern.Heads.instance (hh : head.Heads ctx fam c) (hp : head.WellTyped ctx τ)
    (hcol : ctx.Column fam τ) :
    (ctx.ctor? c).isSome = true ∧ ctx.IsInstance τ c.owner (argsOf τ) := by
  rcases wc_or_ctor head with hw | ⟨d, ps, rfl⟩
  · obtain ⟨rfl, hc⟩ := (heads_of_wc hw).mp hh
    obtain ⟨args, hinst⟩ := hcol _ rfl
    exact ⟨(mem_ctorsOf_iff.mp hc).2, hinst.argsOf ▸ hinst⟩
  · obtain rfl : c = d := hh
    obtain ⟨hc, args, hinst, -⟩ := hp
    exact ⟨hc, hinst.argsOf ▸ hinst⟩

theorem fields_column (hinst : ctx.IsInstance τ c.owner args) :
    List.Forall₂ ctx.Column (famsHead ctx c) (ctx.fieldsAt c args) := by
  obtain ⟨d, hd, -⟩ := hinst
  rw [famsHead, Ctx.fieldsAt, hd, forall₂_map_left_iff, forall₂_map_right_iff,
    forall₂_same]
  intro f _ t ht
  cases f with
  | var x => cases ht
  | con name as =>
    obtain ⟨hlt, hname, -⟩ := List.findIdx?_eq_some_iff_getElem.mp ht
    exact ⟨_, _, List.getElem?_eq_getElem hlt,
      (Term.subst_con ..).trans (congrArg (Term.con · _) (of_decide_eq_true hname).symm)⟩

theorem Node.Typed.drop (h : Node.Typed ctx ⟨rows, head :: tail, fam :: fams⟩ (τ :: τs)) :
    Node.Typed ctx ⟨rowsDropCol rows, tail, fams⟩ τs where
  q := h.q.2
  rows := by
    intro r' hr'
    obtain ⟨r, hr, rfl⟩ := List.mem_map.mp hr'
    have := h.rows r hr
    cases r with
    | nil => exact this.elim
    | cons p ps => exact this.2
  fams := (forall₂_cons.mp h.fams).2

theorem Node.Typed.under (h : Node.Typed ctx ⟨rows, head :: tail, fam :: fams⟩ (τ :: τs))
    (hh : head.Heads ctx fam c) :
    (under ctx rows head tail fams c).Typed ctx (ctx.fieldsAt c (argsOf τ) ++ τs) := by
  obtain ⟨hcol, hfams⟩ := forall₂_cons.mp h.fams
  have hinst := (hh.instance h.q.1 hcol).2
  refine ⟨allWellTyped_append (headCells_typed h.q.1 hh.under hinst) h.q.2, ?_, ?_⟩
  · intro r' hr'
    obtain ⟨r, hr, hr'⟩ := mem_filterMap.mp hr'
    obtain ⟨p, ps, rfl, hu, rfl⟩ := underRow_eq hr'
    have hrow := h.rows _ hr
    exact allWellTyped_append (headCells_typed hrow.1 hu hinst) hrow.2
  · exact rel_append (fields_column hinst) hfams

theorem Node.Typed.calls {u : Node × List Ty} (h : s.Typed ctx τs)
    (hu : u ∈ (typedTree ctx).children (s, τs)) : u.1.Typed ctx u.2 := by
  obtain ⟨rows, q, fams⟩ := s
  cases q with
  | nil => cases hu
  | cons head tail =>
    cases τs with
    | nil => exact h.q.elim
    | cons τ τs =>
      cases fams with
      | nil => cases h.fams
      | cons fam fams =>
        rcases mem_typed_calls.mp hu with ⟨-, -, rfl⟩ | ⟨c, hh, rfl⟩
        · exact h.drop
        · exact h.under hh

/-! ## Missed values -/

theorem HaveTypes.length {vs : List Value} (h : HaveTypes ctx vs τs) : vs.length = τs.length := by
  induction vs generalizing τs with
  | nil =>
    cases τs with
    | nil => rfl
    | cons τ τs => exact h.elim
  | cons v vs ih =>
    cases τs with
    | nil => exact h.elim
    | cons τ τs => exact congrArg Nat.succ (ih h.2)

theorem haveTypes_append {ws : List Value} : HaveTypes ctx ws (σs ++ τs) ↔
    ∃ us vs, ws = us ++ vs ∧ HaveTypes ctx us σs ∧ HaveTypes ctx vs τs := by
  induction σs generalizing ws with
  | nil =>
    constructor
    · exact fun h => ⟨[], ws, rfl, trivial, h⟩
    · rintro ⟨us, vs, rfl, hus, hvs⟩
      obtain rfl : us = [] := length_eq_zero_iff.mp hus.length
      exact hvs
  | cons σ σs ih =>
    cases ws with
    | nil =>
      refine iff_of_false (fun h => h) ?_
      rintro ⟨us, vs, h, hus, -⟩
      obtain ⟨rfl, -⟩ := append_eq_nil_iff.mp h.symm
      exact hus
    | cons w ws =>
      rw [cons_append, HaveTypes, ih]
      constructor
      · rintro ⟨hw, us, vs, rfl, hus, hvs⟩
        exact ⟨w :: us, vs, rfl, ⟨hw, hus⟩, hvs⟩
      · rintro ⟨us, vs, h, hus, hvs⟩
        cases us with
        | nil => exact hus.elim
        | cons u us =>
          cases h
          exact ⟨hus.1, us, vs, rfl, hus.2, hvs⟩

/-- Values of the types that the query matches and no row does. -/
def Node.Misses (ctx : Ctx) (s : Node) (τs : List Ty) : Prop :=
  ∃ vs, HaveTypes ctx vs τs ∧ matchesAll s.q vs = true ∧ ∀ r ∈ s.rows, matchesAll r vs = false

theorem underRow_of_under (hu : head.Under c) :
    underRow ctx c (head :: tail) = some (fillRow ctx c head tail) := by
  cases head with
  | ctor d ps => exact if_pos hu
  | _ => rfl

theorem misses_under (h : Node.Typed ctx ⟨rows, head :: tail, fam :: fams⟩ (τ :: τs))
    (hh : head.Heads ctx fam c) :
    (under ctx rows head tail fams c).Misses ctx (ctx.fieldsAt c (argsOf τ) ++ τs) ↔
      ∃ us vs, HaveTypes ctx us (ctx.fieldsAt c (argsOf τ)) ∧ HaveTypes ctx vs τs ∧
        matchesAll (head :: tail) (.ctor c us :: vs) = true ∧
        ∀ r ∈ rows, matchesAll r (.ctor c us :: vs) = false := by
  have hinst := (hh.instance h.q.1 (forall₂_cons.mp h.fams).1).2
  have hq : ∀ {us vs : List Value}, us.length = (ctx.fieldTypes c).length →
      (matchesAll (fillRow ctx c head tail) (us ++ vs) = true ↔
        matchesAll (head :: tail) (.ctor c us :: vs) = true) := by
    intro us vs hus
    rw [matchesAll_underRow h.q.built.1 hus, underRow_of_under hh.under]
    simp
  have hrows : ∀ {us vs : List Value}, us.length = (ctx.fieldTypes c).length →
      ((∀ r' ∈ rows.filterMap (underRow ctx c), matchesAll r' (us ++ vs) = false) ↔
        ∀ r ∈ rows, matchesAll r (.ctor c us :: vs) = false) := by
    intro us vs hus
    have hrow : ∀ r ∈ rows, matchesAll r (.ctor c us :: vs) = false ↔
        ∀ r', underRow ctx c r = some r' → matchesAll r' (us ++ vs) = false := by
      intro r hr
      rw [← Bool.not_eq_true, matchesAll_underRow (h.rows r hr).built.1 hus]
      simp
    constructor
    · exact fun hmiss r hr => (hrow r hr).mpr fun r' hr' =>
        hmiss r' (mem_filterMap.mpr ⟨r, hr, hr'⟩)
    · intro hmiss r' hr'
      obtain ⟨r, hr, hr'⟩ := mem_filterMap.mp hr'
      exact (hrow r hr).mp (hmiss r hr) r' hr'
  have hlen : ∀ {us : List Value}, HaveTypes ctx us (ctx.fieldsAt c (argsOf τ)) →
      us.length = (ctx.fieldTypes c).length := fun hus => hus.length.trans (fieldsAt_length hinst)
  constructor
  · rintro ⟨ws, hws, hmatch, hmiss⟩
    obtain ⟨us, vs, rfl, hus, hvs⟩ := haveTypes_append.mp hws
    exact ⟨us, vs, hus, hvs, (hq (hlen hus)).mp hmatch, (hrows (hlen hus)).mp hmiss⟩
  · rintro ⟨us, vs, hus, hvs, hmatch, hmiss⟩
    exact ⟨us ++ vs, haveTypes_append.mpr ⟨us, vs, rfl, hus, hvs⟩, (hq (hlen hus)).mpr hmatch,
      (hrows (hlen hus)).mpr hmiss⟩

/-! ## Columns that are dropped -/

/-- The call drops its first column. -/
def Node.Drops (s : Node) : Prop :=
  ctorCovered s.rows = false ∧
    ∃ head tail fams, s.q = head :: tail ∧ wc head = true ∧ s.fams = none :: fams

/-- No row tests the first column, and its type has a value. -/
def Node.Idle (ctx : Ctx) (s : Node) (τs : List Ty) : Prop :=
  (∀ r ∈ s.rows, ∀ p ∈ r.head?, wc p = true) ∧ ∃ τ ∈ τs.head?, ∃ v : Value, v.HasType ctx τ

/-- Wherever the search comes by, nothing is lost with a column that is dropped. -/
def Node.Clear (ctx : Ctx) (s : Node) (τs : List Ty) : Prop :=
  ∀ u, (typedTree ctx).Visits (s, τs) u → u.1.Drops → u.1.Idle ctx u.2

theorem misses_drop (hw : wc head = true)
    (hidle : Node.Idle ctx ⟨rows, head :: tail, fam :: fams⟩ (τ :: τs))
    (hrows : ∀ r ∈ rows, r ≠ []) :
    Node.Misses ctx ⟨rowsDropCol rows, tail, fams⟩ τs ↔
      Node.Misses ctx ⟨rows, head :: tail, fam :: fams⟩ (τ :: τs) := by
  have hrow : ∀ r ∈ rows, ∀ (v : Value) (vs : List Value),
      matchesAll r (v :: vs) = matchesAll r.tail vs := by
    intro r hr v vs
    cases r with
    | nil => exact absurd rfl (hrows _ hr)
    | cons p ps => rw [matchesAll, matches_of_wc (hidle.1 _ hr p rfl), Bool.true_and, tail_cons]
  have hmiss : ∀ (v : Value) (vs : List Value), (∀ r' ∈ rowsDropCol rows, matchesAll r' vs = false) ↔
      ∀ r ∈ rows, matchesAll r (v :: vs) = false := by
    intro v vs
    rw [rowsDropCol, List.forall_mem_map]
    exact forall₂_congr fun r hr => by rw [hrow r hr]
  constructor
  · rintro ⟨vs, hvs, hmatch, hno⟩
    obtain ⟨σ, hσ, v, hv⟩ := hidle.2
    cases hσ
    refine ⟨v :: vs, ⟨hv, hvs⟩, ?_, (hmiss v vs).mp hno⟩
    rw [matchesAll, matches_of_wc hw, hmatch]
    rfl
  · rintro ⟨vs, hvs, hmatch, hno⟩
    cases vs with
    | nil => exact hvs.elim
    | cons v vs =>
      rw [matchesAll, Bool.and_eq_true] at hmatch
      exact ⟨vs, hvs.2, hmatch.2, (hmiss v vs).mpr hno⟩

/-- Values at a column of a family or of a constructor pattern are constructed. -/
theorem exists_heads {v : Value} (hv : v.HasType ctx τ) (hm : head.matches v = true)
    (hcol : ctx.Column fam τ) (hne : ¬ (wc head = true ∧ fam = none)) :
    ∃ c us, v = .ctor c us ∧ head.Heads ctx fam c ∧
      HaveTypes ctx us (ctx.fieldsAt c (argsOf τ)) := by
  cases v with
  | foreign k =>
    rcases wc_or_ctor head with hw | ⟨d, ps, rfl⟩
    · obtain ⟨t, rfl⟩ := ne_none_iff_exists'.mp fun h => hne ⟨hw, h⟩
      obtain ⟨args, hinst⟩ := hcol t rfl
      exact absurd hinst (hv t args)
    · cases hm
  | ctor c us =>
    obtain ⟨hc, args, hinst, hus⟩ := hv
    refine ⟨c, us, rfl, ?_, hinst.argsOf.symm ▸ hus⟩
    rcases wc_or_ctor head with hw | ⟨d, ps, rfl⟩
    · obtain ⟨t, rfl⟩ := ne_none_iff_exists'.mp fun h => hne ⟨hw, h⟩
      obtain ⟨args', hinst'⟩ := hcol t rfl
      obtain rfl := hinst.unique hinst'
      exact (heads_of_wc hw).mpr ⟨rfl, mem_ctorsOf_iff.mpr ⟨rfl, hc⟩⟩
    · rw [Pattern.matches, Bool.and_eq_true, decide_eq_true_eq] at hm
      exact hm.1.symm

/-- A matrix with nothing to lose misses values exactly when one of its calls does. -/
theorem misses_iff_calls (h : s.Typed ctx τs) (hclear : s.Drops → s.Idle ctx τs)
    (hleaf : (tree ctx).leaf s = none) :
    s.Misses ctx τs ↔ ∃ u ∈ (typedTree ctx).children (s, τs), u.1.Misses ctx u.2 := by
  obtain ⟨hc, hne⟩ := leaf_none_iff.mp hleaf
  obtain ⟨rows, q, fams⟩ := s
  cases q with
  | nil => exact absurd rfl hne
  | cons head tail =>
    cases τs with
    | nil => exact h.q.elim
    | cons τ τs =>
      cases fams with
      | nil => cases h.fams
      | cons fam fams =>
        have hcol := (forall₂_cons.mp h.fams).1
        have hrows : ∀ r ∈ rows, r ≠ [] := by
          rintro r hr rfl
          exact (h.rows _ hr).elim
        have hdrop : ∀ hw : wc head = true, fam = none →
            (Node.Misses ctx ⟨rowsDropCol rows, tail, fams⟩ τs ↔
              Node.Misses ctx ⟨rows, head :: tail, fam :: fams⟩ (τ :: τs)) := by
          rintro hw rfl
          exact misses_drop hw (hclear ⟨hc, head, tail, fams, rfl, hw, rfl⟩) hrows
        constructor
        · intro hmiss
          by_cases hd : wc head = true ∧ fam = none
          · exact ⟨_, mem_typed_calls.mpr (.inl ⟨hd.1, hd.2, rfl⟩), (hdrop hd.1 hd.2).mpr hmiss⟩
          · obtain ⟨vs, hvs, hmatch, hno⟩ := hmiss
            cases vs with
            | nil => exact hvs.elim
            | cons v vs =>
              have hm : head.matches v = true := by
                rw [matchesAll, Bool.and_eq_true] at hmatch
                exact hmatch.1
              obtain ⟨c, us, rfl, hh, hus⟩ := exists_heads hvs.1 hm hcol hd
              exact ⟨_, mem_typed_calls.mpr (.inr ⟨c, hh, rfl⟩),
                (misses_under h hh).mpr ⟨us, vs, hus, hvs.2, hmatch, hno⟩⟩
        · rintro ⟨u, hu, hmiss⟩
          rcases mem_typed_calls.mp hu with ⟨hw, hfam, rfl⟩ | ⟨c, hh, rfl⟩
          · exact (hdrop hw hfam).mp hmiss
          · obtain ⟨us, vs, hus, hvs, hmatch, hno⟩ := (misses_under h hh).mp hmiss
            obtain ⟨hctor, hinst⟩ := hh.instance h.q.1 hcol
            exact ⟨.ctor c us :: vs, ⟨⟨hctor, _, hinst, hus⟩, hvs⟩, hmatch, hno⟩

theorem misses_of_leaf {b : Bool} (h : s.Typed ctx τs) (hleaf : (tree ctx).leaf s = some b) :
    b = true ↔ s.Misses ctx τs := by
  obtain ⟨rows, q, fams⟩ := s
  simp only [tree] at hleaf
  split at hleaf
  next hc =>
    cases hleaf
    refine iff_of_false Bool.false_ne_true ?_
    rintro ⟨vs, hvs, -, hno⟩
    obtain ⟨r, hr, hwild⟩ := any_eq_true.mp hc
    have hlen : r.length = vs.length := (h.rows r hr).built.2.trans hvs.length.symm
    exact Bool.false_ne_true ((hno r hr).symm.trans (matchesAll_of_wild hwild hlen))
  next hc =>
    cases q with
    | cons head tail => cases hleaf
    | nil =>
      cases hleaf
      cases τs with
      | cons τ τs => exact h.q.elim
      | nil =>
        refine iff_of_true rfl ⟨[], trivial, rfl, fun r hr => ?_⟩
        obtain rfl : r = [] := length_eq_zero_iff.mp (h.rows r hr).built.2
        exact absurd (any_eq_true.mpr ⟨[], hr, rfl⟩) hc

/-- With nothing to lose, the search answers whether the rows miss a value of the query. -/
theorem search_exact (h : s.Typed ctx τs) (hclear : s.Clear ctx τs) {n : Nat} {b : Bool}
    (hb : (tree ctx).search n s = some b) : b = true ↔ s.Misses ctx τs := by
  rw [← typedTree_search n (s, τs)] at hb
  exact SearchTree.search_spec (I := fun u : Node × List Ty => u.1.Typed ctx u.2)
    (P := fun u => u.1.Misses ctx u.2) (C := fun u => u.1.Drops → u.1.Idle ctx u.2)
    (fun _ _ hu hleaf => misses_of_leaf hu hleaf)
    (fun _ hu hclear hleaf => misses_iff_calls hu hclear hleaf)
    (fun _ _ hu hmem => hu.calls hmem) n h hclear hb

/-! ### Plain patterns -/

mutual

/-- Every constructor pattern stands at a type that is declared. -/
def Pattern.Plain (ctx : Ctx) : Pattern → Option TypeRef → Prop
  | .ctor c ps, fam => fam ≠ none ∧ AllPlain ctx ps (famsHead ctx c)
  | _, _ => True

def AllPlain (ctx : Ctx) : List Pattern → List (Option TypeRef) → Prop
  | p :: ps, fam :: fams => p.Plain ctx fam ∧ AllPlain ctx ps fams
  | _, _ => True

end

theorem allPlain_append {qs : List Pattern} {gams : List (Option TypeRef)}
    (hlen : ps.length = fams.length) (h : AllPlain ctx ps fams) (h' : AllPlain ctx qs gams) :
    AllPlain ctx (ps ++ qs) (fams ++ gams) := by
  induction ps generalizing fams with
  | nil =>
    obtain rfl : fams = [] := length_eq_zero_iff.mp hlen.symm
    exact h'
  | cons p ps ih =>
    cases fams with
    | nil => cases hlen
    | cons fam fams => exact ⟨h.1, ih (Nat.succ.inj hlen) h.2⟩

theorem allPlain_replicate (n : Nat) (fams : List (Option TypeRef)) :
    AllPlain ctx (List.replicate n .null) fams := by
  induction n generalizing fams with
  | zero => cases fams <;> trivial
  | succ n ih =>
    cases fams with
    | nil => trivial
    | cons fam fams => exact ⟨trivial, ih fams⟩

theorem headCells_plain (hp : p.Plain ctx fam) (hu : p.Under c) :
    AllPlain ctx (headCells ctx c p) (famsHead ctx c) := by
  cases p with
  | ctor d ps =>
    obtain rfl : c = d := hu
    exact hp.2
  | null | wildcard => exact allPlain_replicate _ _

theorem calls_plain {u : Node} (hs : s.Ok ctx) (h : ∀ r ∈ s.rows, AllPlain ctx r s.fams)
    (hu : u ∈ s.calls ctx) : ∀ r ∈ u.rows, AllPlain ctx r u.fams := by
  obtain ⟨rows, q, fams⟩ := s
  cases q with
  | nil => cases hu
  | cons head tail =>
    cases fams with
    | nil => cases hs.fams
    | cons fam fams =>
      rcases mem_calls hu with ⟨-, -, rfl⟩ | ⟨c, -, rfl⟩
      · intro r' hr'
        obtain ⟨r, hr, rfl⟩ := List.mem_map.mp hr'
        have hrow := h r hr
        cases r with
        | nil => cases hs.rows _ hr
        | cons p ps => exact hrow.2
      · intro r' hr'
        obtain ⟨r, hr, hr'⟩ := mem_filterMap.mp hr'
        obtain ⟨p, ps, rfl, hp, rfl⟩ := underRow_eq hr'
        have hrow := h _ hr
        refine allPlain_append ?_ (headCells_plain hrow.1 hp) hrow.2
        rw [(headCells_built (hs.builtRows _ hr).1 hp).1, famsHead, length_map]

/-- Nothing is lost where each type has a value and the rows are plain. -/
theorem Node.Clear.of_plain (hvalue : ∀ τ, ∃ v : Value, v.HasType ctx τ) (hs : s.Typed ctx τs)
    (h : ∀ r ∈ s.rows, AllPlain ctx r s.fams) : s.Clear ctx τs := by
  intro u hu hdrops
  have hkeep : u.1.Typed ctx u.2 ∧ ∀ r ∈ u.1.rows, AllPlain ctx r u.1.fams := by
    refine hu.keeps (P := fun u => u.1.Typed ctx u.2 ∧ ∀ r ∈ u.1.rows, AllPlain ctx r u.1.fams)
      (fun a c ha hc => ⟨ha.1.calls hc, calls_plain ha.1.ok ha.2 ?_⟩) ⟨hs, h⟩
    exact (of_mem_zip hc).1
  obtain ⟨⟨rows, q, fams⟩, τs⟩ := u
  obtain ⟨-, head, tail, fams, rfl, hw, rfl⟩ := hdrops
  refine ⟨fun r hr p hp => ?_, ?_⟩
  · obtain ⟨ps, rfl⟩ := List.head?_eq_some_iff.mp hp
    have hplain := (hkeep.2 _ hr).1
    cases p with
    | ctor d ps => exact absurd rfl hplain.1
    | null | wildcard => rfl
  · cases τs with
    | nil => exact hkeep.1.q.elim
    | cons τ τs => exact ⟨τ, rfl, hvalue τ⟩

/-! ## Exhaustiveness -/

theorem startNode_typed (inst : ctx.IsInstance τ t args) (hps : ∀ q ∈ ps, q.WellTyped ctx τ)
    (hp : p.WellTyped ctx τ) : (startNode t ps p).Typed ctx [τ] := by
  refine ⟨⟨hp, trivial⟩, fun r hr => ?_, .cons ?_ .nil⟩
  · obtain ⟨q, hq, rfl⟩ := List.mem_map.mp hr
    exact ⟨hps q hq, trivial⟩
  · rintro t' h
    cases h
    exact ⟨args, inst⟩

theorem startNode_misses : (startNode t ps p).Misses ctx [τ] ↔
    ∃ v : Value, v.HasType ctx τ ∧ p.matches v = true ∧ ∀ q ∈ ps, q.matches v = false := by
  have hone : ∀ (q : Pattern) (v : Value), matchesAll [q] [v] = q.matches v := by
    intro q v
    simp [matchesAll]
  constructor
  · rintro ⟨vs, hvs, hmatch, hno⟩
    cases vs with
    | nil => exact hvs.elim
    | cons v vs =>
      cases vs with
      | cons => exact hvs.2.elim
      | nil =>
        exact ⟨v, hvs.1, (hone p v).symm.trans hmatch, fun q hq =>
          (hone q v).symm.trans (hno _ (List.mem_map.mpr ⟨q, hq, rfl⟩))⟩
  · rintro ⟨v, hv, hmatch, hno⟩
    refine ⟨[v], ⟨hv, trivial⟩, (hone p v).trans hmatch, fun r hr => ?_⟩
    obtain ⟨q, hq, rfl⟩ := List.mem_map.mp hr
    exact (hone q v).trans (hno q hq)

theorem useful_exact (hmem : ∀ n, mem n = true) (h : (startNode t ps p).Typed ctx [τ])
    (hlen : ps.length < 2 ^ 31) (hclear : (startNode t ps p).Clear ctx [τ]) {fuel n n' : Nat}
    {r : Useful} (hu : useful mem ctx fuel (initRows ps) [p] [some t] n = some (r, n')) :
    r ≠ .nomem ∧ (r = .no ↔ ∀ v : Value, v.HasType ctx τ → p.matches v = true →
      ∃ q ∈ ps, q.matches v = true) := by
  have hrows : (startNode t ps p).rows.length < 2 ^ 31 := by
    rwa [startNode, initRows, length_map]
  obtain ⟨b, hb, rfl⟩ := search_of_useful hmem h.ok hrows hu
  have hiff := (search_exact h hclear hb).trans startNode_misses
  have hnot : (∀ v : Value, v.HasType ctx τ → p.matches v = true →
      ∃ q ∈ ps, q.matches v = true) ↔
      ¬ ∃ v : Value, v.HasType ctx τ ∧ p.matches v = true ∧ ∀ q ∈ ps, q.matches v = false := by
    simp
  rw [hnot, ← hiff]
  cases b <;> simp [Useful.ofBool]

theorem exhaustiveQuery_eq (hmem : ∀ n, mem n = true) (fuel : Nat) (n : Nat) :
    exhaustiveQuery mem ctx fuel t ps n =
      (useful mem ctx fuel (initRows ps) [.null] [some t] (n + 3)).bind fun r =>
        some (match r.1 with
          | .nomem => .error ⟨.nomem, none⟩
          | .no => .ok .exhaustive
          | .yes => .ok .nonexhaustive, r.2) := by
  simp only [exhaustiveQuery, tempAlloc_eq hmem, bind, StateT.bind, pure, bind_some,
    Bool.not_true, Bool.false_eq_true, if_false]
  congr
  funext r
  obtain ⟨r, n'⟩ := r
  cases r <;> rfl

/-- `list a = Nil | Cons a (list a)` and `option a = None | Some a`. -/
def listCtx : Ctx where
  types :=
    [⟨[0], [0], [⟨[]⟩, ⟨[.var 0, .con [0] [.var 0]]⟩], true⟩,
     ⟨[1], [1], [⟨[]⟩, ⟨[.var 1]⟩], true⟩]
  nominal := by decide

/-- `option b`. -/
def optionOfVar : Ty := .con [1] [.var 2]

/-- `list (option b)`. -/
def listOfOption : Ty := .con [0] [optionOfVar]

theorem listOfOption_instance : listCtx.IsInstance listOfOption 0 [optionOfVar] := ⟨_, rfl, rfl⟩

theorem cons_fieldsAt : listCtx.fieldsAt ⟨0, 1⟩ [optionOfVar] = [optionOfVar, listOfOption] := by
  simp only [Ctx.fieldsAt, Ctx.fieldTypes, Ctx.ctor?, listCtx, List.getElem?_cons_zero,
    List.getElem?_cons_succ, bind_some, map_cons, map_nil, Term.subst_var,
    Term.subst_con]
  rfl

/-- `Cons (Some _) _`. -/
def consSome : Pattern := .ctor ⟨0, 1⟩ [.ctor ⟨1, 1⟩ [.wildcard], .wildcard]

theorem consSome_typed : consSome.WellTyped listCtx listOfOption := by
  refine ⟨rfl, _, listOfOption_instance, ?_⟩
  rw [cons_fieldsAt]
  exact ⟨⟨rfl, _, ⟨_, rfl, rfl⟩, trivial, trivial⟩, trivial, trivial⟩

/-- `Cons None Nil`. -/
def consNone : Value := .ctor ⟨0, 1⟩ [.ctor ⟨1, 0⟩ [], .ctor ⟨0, 0⟩ []]

theorem consNone_typed : consNone.HasType listCtx listOfOption := by
  refine ⟨rfl, _, listOfOption_instance, ?_⟩
  rw [cons_fieldsAt]
  exact ⟨⟨rfl, _, ⟨_, rfl, rfl⟩, trivial⟩, ⟨rfl, _, listOfOption_instance, trivial⟩, trivial⟩

theorem listCtx_values (τ : Ty) : ∃ v : Value, v.HasType listCtx τ := by
  by_cases h : ∃ t args, listCtx.IsInstance τ t args
  · obtain ⟨t, args, hinst⟩ := h
    have ht : t < 2 := (List.getElem?_eq_some_iff.mp hinst.choose_spec.1).1
    have hctor : (listCtx.ctor? ⟨t, 0⟩).isSome = true ∧ listCtx.fieldTypes ⟨t, 0⟩ = [] := by
      rcases Nat.le_one_iff_eq_zero_or_eq_one.mp (Nat.lt_succ_iff.mp ht) with rfl | rfl <;>
        exact ⟨rfl, rfl⟩
    refine ⟨.ctor ⟨t, 0⟩ [], hctor.1, args, hinst, ?_⟩
    obtain ⟨d, hd, -⟩ := hinst
    rw [Ctx.fieldsAt, hd, hctor.2]
    trivial
  · exact ⟨.foreign 0, fun t args hinst => h ⟨t, args, hinst⟩⟩

/-- `Cons _ Nil`. -/
def consNil : Pattern := .ctor ⟨0, 1⟩ [.wildcard, .ctor ⟨0, 0⟩ []]

/-- `Nil`, `Cons _ Nil` and `Cons _ (Cons _ _)`. -/
def nilConsCons : List Pattern :=
  [.ctor ⟨0, 0⟩ [], consNil, .ctor ⟨0, 1⟩ [.wildcard, .ctor ⟨0, 1⟩ [.wildcard, .wildcard]]]

theorem nilConsCons_typed : ∀ p ∈ nilConsCons, p.WellTyped listCtx listOfOption := by
  have hnil : (Pattern.ctor ⟨0, 0⟩ []).WellTyped listCtx listOfOption :=
    ⟨rfl, _, listOfOption_instance, trivial⟩
  have hcons : ∀ {p : Pattern}, p.WellTyped listCtx listOfOption →
      (Pattern.ctor ⟨0, 1⟩ [.wildcard, p]).WellTyped listCtx listOfOption := by
    intro p hp
    refine ⟨rfl, _, listOfOption_instance, ?_⟩
    rw [cons_fieldsAt]
    exact ⟨trivial, hp, trivial⟩
  have hwild : Pattern.wildcard.WellTyped listCtx listOfOption := trivial
  simp [nilConsCons, consNil, hnil, hcons hnil, hcons (hcons hwild)]

theorem nilConsCons_plain (earlier : List Pattern) (h : earlier <+: nilConsCons) (p : Pattern)
    (hp : p.WellTyped listCtx listOfOption) :
    (startNode 0 earlier p).Clear listCtx [listOfOption] := by
  refine .of_plain listCtx_values (startNode_typed listOfOption_instance
    (fun q hq => nilConsCons_typed q (h.subset hq)) hp) fun r hr => ?_
  obtain ⟨q, hq, rfl⟩ := List.mem_map.mp hr
  refine ⟨?_, trivial⟩
  have hfams : famsHead listCtx ⟨0, 1⟩ = [none, some 0] := rfl
  have hq := h.subset hq
  simp only [nilConsCons, mem_cons, not_mem_nil, or_false] at hq
  rcases hq with rfl | rfl | rfl <;> simp [consNil, Pattern.Plain, AllPlain, hfams]

/-- `Nil` and `Cons (Some _) _`. -/
def nilConsSome : List Pattern := [.ctor ⟨0, 0⟩ [], consSome]

theorem nilConsSome_typed : ∀ p ∈ nilConsSome, p.WellTyped listCtx listOfOption := by
  have hnil : (Pattern.ctor ⟨0, 0⟩ []).WellTyped listCtx listOfOption :=
    ⟨rfl, _, listOfOption_instance, trivial⟩
  simp [nilConsSome, hnil, consSome_typed]

theorem nilConsSome_result : matchExhaustive (fun _ => true) listCtx 10 0 nilConsSome =
    some (.ok .exhaustive) := rfl

/-- The patterns that are not marked. -/
def unmarked (ps : List Pattern) (out : List Bool) : List Pattern :=
  (ps.zip out).filterMap fun m => if m.2 then none else some m.1

theorem usefulPrefix_eq (hmem : ∀ n, mem n = true) (fuel : Nat) (earlier : List Pattern)
    (p : Pattern) (n : Nat) : usefulPrefix mem ctx fuel t earlier p n =
      useful mem ctx fuel (initRows earlier) [p] [some t] (n + 2) := by
  simp [usefulPrefix, tempAlloc_eq hmem]

theorem redundantLoop_cons (fuel : Nat) (earlier : List Pattern) (q : Pattern)
    (rest : List Pattern) (n : Nat) :
    redundantLoop mem ctx fuel t earlier (q :: rest) n =
      (usefulPrefix mem ctx fuel t earlier q n).bind fun r =>
        if r.1 = .nomem then some (.error ⟨.nomem, none⟩, r.2)
        else (redundantLoop mem ctx fuel t (earlier ++ [q]) rest r.2).bind fun out =>
          some (out.1.map (decide (r.1 = .no) :: ·), out.2) := by
  simp only [redundantLoop, Query.bind_apply]
  congr
  funext r
  obtain ⟨r, n₁⟩ := r
  by_cases hr : r = .nomem
  · simp only [hr, if_true]
    rfl
  · simp only [hr, if_false]
    rfl

/-- Nothing is lost in any of the queries; where there is none, as no pattern has a
constructor, the type has a value. -/
def Ctx.ClearMarks (ctx : Ctx) (t : TypeRef) (τ : Ty) (ps : List Pattern) : Prop :=
  match takeCtorFamily ps with
  | none => ps = [] ∨ ∃ v : Value, v.HasType ctx τ
  | some _ => ∀ (i : Nat) (p : Pattern), ps[i]? = some p →
      (startNode t (ps.take i) p).Clear ctx [τ]

theorem redundantLoop_marks (hmem : ∀ n, mem n = true) {fuel : Nat} {rest : List Pattern} :
    ∀ {earlier : List Pattern} {n n' : Nat} {out : List Bool},
      (earlier ++ rest).length < 2 ^ 31 →
      (∀ (i : Nat) (p : Pattern), rest[i]? = some p →
        (startNode t (earlier ++ rest.take i) p).Typed ctx [τ] ∧
          (startNode t (earlier ++ rest.take i) p).Clear ctx [τ]) →
      redundantLoop mem ctx fuel t earlier rest n = some (.ok out, n') →
      out.length = rest.length ∧ ∀ (i : Nat) (p : Pattern) (b : Bool), rest[i]? = some p →
        out[i]? = some b → (b = true ↔ ∀ v : Value, v.HasType ctx τ → p.matches v = true →
          ∃ q ∈ earlier ++ rest.take i, q.matches v = true) := by
  induction rest with
  | nil =>
    intro earlier n n' out _ _ h
    cases h
    exact ⟨rfl, fun i p b hp => by cases hp⟩
  | cons q rest ih =>
    intro earlier n n' out hlen hs h
    obtain ⟨htyped, hclear⟩ := hs 0 q rfl
    rw [take_zero, append_nil] at htyped hclear
    have hlen' : earlier.length < 2 ^ 31 := by
      rw [length_append] at hlen
      omega
    rw [redundantLoop_cons, bind_eq_some_iff] at h
    obtain ⟨⟨r, n₁⟩, hu, h⟩ := h
    rw [usefulPrefix_eq hmem] at hu
    obtain ⟨hno, hiff⟩ := useful_exact hmem htyped hlen' hclear hu
    rw [if_neg hno, bind_eq_some_iff] at h
    obtain ⟨⟨res, n₂⟩, hl, h⟩ := h
    cases res with
    | error e => cases h
    | ok out' =>
      cases h
      have hs' : ∀ (i : Nat) (p : Pattern), rest[i]? = some p →
          (startNode t ((earlier ++ [q]) ++ rest.take i) p).Typed ctx [τ] ∧
            (startNode t ((earlier ++ [q]) ++ rest.take i) p).Clear ctx [τ] := by
        intro i p hp
        rw [append_assoc]
        exact hs (i + 1) p hp
      obtain ⟨hlen, hmarks⟩ := ih (by rwa [append_assoc]) hs' hl
      refine ⟨congrArg Nat.succ hlen, fun i p b hp hb => ?_⟩
      cases i with
      | zero =>
        cases hp
        cases hb
        rw [take_zero, append_nil, decide_eq_true_eq]
        exact hiff
      | succ i =>
        have := hmarks i p b hp hb
        rwa [append_assoc] at this

theorem matches_of_noFamily (h : takeCtorFamily ps = none) (hp : p ∈ ps) (v : Value) :
    p.matches v = true := by
  refine matches_of_wc ?_ v
  rcases wc_or_ctor p with hw | ⟨d, qs, rfl⟩
  · exact hw
  · cases List.findSome?_eq_none_iff.mp h _ hp

theorem matchRedundant_marks (hmem : ∀ n, mem n = true) (inst : ctx.IsInstance τ t args)
    (hps : ∀ p ∈ ps, p.WellTyped ctx τ) (hlen : ps.length < 2 ^ 31)
    (hclear : ctx.ClearMarks t τ ps) {fuel : Nat} {out : List Bool}
    (h : matchRedundant mem ctx fuel ps = some (.ok out)) {i : Nat} (hp : ps[i]? = some p) :
    ∃ b, out[i]? = some b ∧ (b = true ↔ ∀ v : Value, v.HasType ctx τ → p.matches v = true →
      ∃ q ∈ ps.take i, q.matches v = true) := by
  have hlt : i < ps.length := (List.getElem?_eq_some_iff.mp hp).1
  rw [matchRedundant] at h
  rw [Ctx.ClearMarks] at hclear
  cases hfam : takeCtorFamily ps with
  | none =>
    rw [hfam] at h hclear
    cases h
    have hmatch := fun {q} (hq : q ∈ ps) v => matches_of_noFamily hfam hq v
    cases i with
    | zero =>
      refine ⟨false, rfl, iff_of_false Bool.false_ne_true fun hall => ?_⟩
      rcases hclear with rfl | ⟨v, hv⟩
      · cases hp
      · obtain ⟨q, hq, -⟩ := hall v hv (hmatch (mem_of_getElem? hp) v)
        cases hq
    | succ i =>
      refine ⟨true, ?_, iff_of_true rfl fun v _ _ => ?_⟩
      · rw [markAfterFirst, List.getElem?_cons_succ, List.getElem?_replicate, if_pos (by omega)]
      · cases ps with
        | nil => cases hp
        | cons q ps =>
          exact ⟨q, mem_cons_self, hmatch mem_cons_self v⟩
  | some fam =>
    rw [hfam] at h hclear
    obtain ⟨d, hd, rfl⟩ := inst
    obtain rfl := takeCtorFamily_eq hd hps hfam
    simp only [StateT.run'] at h
    cases hl : redundantLoop mem ctx fuel fam [] ps 0 with
    | none =>
      rw [hl] at h
      cases h
    | some r =>
      obtain ⟨res, n'⟩ := r
      rw [hl] at h
      obtain rfl : res = .ok out := some.inj h
      obtain ⟨hout, hmarks⟩ := redundantLoop_marks hmem (by simpa using hlen) (fun i p hp =>
        ⟨startNode_typed ⟨d, hd, rfl⟩ (fun q hq => hps q (mem_of_mem_take hq))
          (hps p (mem_of_getElem? hp)), hclear i p hp⟩) hl
      have hb : out[i]? = some out[i] := List.getElem?_eq_getElem (hout ▸ hlt)
      exact ⟨_, hb, hmarks i p _ hp hb⟩

/-- What is found first is not marked, if a marked pattern that matches comes after another
one that matches. -/
theorem unmarked_find {f : Pattern → Bool} (ps : List Pattern) :
    ∀ (earlier : List Pattern) {out : List Bool}, (∀ q ∈ earlier, f q = false) →
      (∀ (i : Nat) (p : Pattern), ps[i]? = some p → ∃ b, out[i]? = some b ∧
        (b = true → f p = true → ∃ q ∈ earlier ++ ps.take i, f q = true)) →
      (unmarked ps out).find? f = ps.find? f := by
  induction ps with
  | nil => exact fun _ _ _ _ => rfl
  | cons p ps ih =>
    intro earlier out he hmarks
    obtain ⟨b, hb, hfirst⟩ := hmarks 0 p rfl
    cases out with
    | nil => cases hb
    | cons b' out =>
      cases hb
      have htail : f p = false → (unmarked ps out).find? f = ps.find? f := by
        intro hp
        refine ih (earlier ++ [p]) (fun q hq => ?_) (fun i q hq => ?_)
        · rcases mem_append.mp hq with hq | hq
          · exact he q hq
          · exact mem_singleton.mp hq ▸ hp
        · have := hmarks (i + 1) q hq
          rwa [append_assoc]
      cases hp : f p with
      | true =>
        cases b with
        | true =>
          obtain ⟨q, hq, hf⟩ := hfirst rfl hp
          rw [take_zero, append_nil] at hq
          exact absurd ((he q hq).symm.trans hf) Bool.false_ne_true
        | false => simp [unmarked, hp]
      | false =>
        rw [List.find?_cons, hp]
        cases b with
        | true => exact htail hp
        | false =>
          change (p :: unmarked ps out).find? f = _
          rw [List.find?_cons, hp]
          exact htail hp

/-- `Cons (Some _) _` and `Cons _ _`. -/
def consTwice : List Pattern := [consSome, .ctor ⟨0, 1⟩ [.wildcard, .wildcard]]

theorem consTwice_typed : ∀ p ∈ consTwice, p.WellTyped listCtx listOfOption := by
  have hcons : (Pattern.ctor ⟨0, 1⟩ [.wildcard, .wildcard]).WellTyped listCtx listOfOption := by
    refine ⟨rfl, _, listOfOption_instance, ?_⟩
    rw [cons_fieldsAt]
    exact ⟨trivial, trivial, trivial⟩
  simp [consTwice, hcons, consSome_typed]

theorem consTwice_result : matchRedundant (fun _ => true) listCtx 10 consTwice =
    some (.ok [false, true]) := rfl

end Adt89
