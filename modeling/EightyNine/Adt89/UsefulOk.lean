import EightyNine.Adt89.Match
import EightyNine.Library.Search

/-!
# The tree of matrices

The recursion of `useful` searches a tree from left to right.  Its nodes are the arguments
of the calls (`tree`); the widths of a matrix agree at every node, and the patterns are
built (`Node.Ok`).
-/

namespace Adt89

open Library List

variable {ctx : Ctx} {c : CtorRef}

/-! ## Patterns with as many arguments as fields -/

mutual

/-- What `adt_pattern_ctor` checks. -/
def Pattern.Built (ctx : Ctx) : Pattern → Prop
  | .ctor c ps => ps.length = (ctx.fieldTypes c).length ∧ AllBuilt ctx ps
  | _ => True

def AllBuilt (ctx : Ctx) : List Pattern → Prop
  | [] => True
  | p :: ps => p.Built ctx ∧ AllBuilt ctx ps

end

variable {ps qs : List Pattern}

@[simp] theorem allBuilt_append :
    AllBuilt ctx (ps ++ qs) ↔ AllBuilt ctx ps ∧ AllBuilt ctx qs := by
  induction ps with
  | nil => simp [AllBuilt]
  | cons p ps ih => simp [AllBuilt, ih, and_assoc]

theorem allBuilt_replicate (n : Nat) : AllBuilt ctx (replicate n .null) := by
  induction n with
  | zero => trivial
  | succ n ih => exact ⟨trivial, ih⟩

/-- The head is the constructor, or a column without a test. -/
def Pattern.Under (c : CtorRef) : Pattern → Prop
  | .ctor d _ => c = d
  | _ => True

variable {p : Pattern}

theorem headCells_built (hb : p.Built ctx) (hu : p.Under c) :
    (headCells ctx c p).length = (ctx.fieldTypes c).length ∧ AllBuilt ctx (headCells ctx c p) := by
  cases p with
  | ctor d ps =>
    obtain rfl : c = d := hu
    exact hb
  | _ => exact ⟨length_replicate, allBuilt_replicate _⟩

/-! ## Vectors -/

variable {us vs : List Value}

theorem matchesAll_append (h : ps.length = us.length) :
    matchesAll (ps ++ qs) (us ++ vs) = (matchesAll ps us && matchesAll qs vs) := by
  induction ps generalizing us with
  | nil =>
    obtain rfl : us = [] := length_eq_zero_iff.mp h.symm
    simp [matchesAll]
  | cons p ps ih =>
    cases us with
    | nil => cases h
    | cons u us => simp [matchesAll, ih (Nat.succ.inj h), Bool.and_assoc]

theorem matches_of_wc (h : wc p = true) (v : Value) : p.matches v = true := by
  cases p with
  | ctor d ps => cases h
  | null | wildcard => cases v <;> rfl

theorem matchesAll_of_wild {row : Row} (h : rowAllWild row = true)
    (hlen : row.length = vs.length) : matchesAll row vs = true := by
  induction row generalizing vs with
  | nil =>
    obtain rfl : vs = [] := length_eq_zero_iff.mp hlen.symm
    rfl
  | cons p row ih =>
    cases vs with
    | nil => cases hlen
    | cons v vs =>
      rw [rowAllWild, all_cons, Bool.and_eq_true] at h
      rw [matchesAll, matches_of_wc h.1, ih h.2 (Nat.succ.inj hlen)]
      rfl

/-! ## The tree of matrices -/

/-- The arguments of a call of `useful`. -/
structure Node where
  rows : List Row
  q : Row
  fams : List (Option TypeRef)

/-- A row under a constructor, or `none` when its head is another one. -/
def underRow (ctx : Ctx) (c : CtorRef) : Row → Option Row
  | [] => none
  | .ctor d ps :: tail => if c = d then some (fillRow ctx c (.ctor d ps) tail) else none
  | head :: tail => some (fillRow ctx c head tail)

/-- The matrix under a constructor. -/
def under (ctx : Ctx) (rows : List Row) (head : Pattern) (tail : Row)
    (fams : List (Option TypeRef)) (c : CtorRef) : Node where
  rows := rows.filterMap (underRow ctx c)
  q := fillRow ctx c head tail
  fams := famsHead ctx c ++ fams

/-- The calls that a call makes, in order. -/
def Node.calls (ctx : Ctx) (s : Node) : List Node :=
  match s.q, s.fams with
  | .ctor c ps :: tail, _ :: fams => [under ctx s.rows (.ctor c ps) tail fams c]
  | _ :: tail, none :: fams => [⟨rowsDropCol s.rows, tail, fams⟩]
  | head :: tail, some t :: fams => (ctx.ctorsOf t).map (under ctx s.rows head tail fams)
  | _, _ => []

def tree (ctx : Ctx) : SearchTree Node where
  leaf s :=
    if ctorCovered s.rows then some false
    else match s.q with
      | [] => some true
      | _ :: _ => none
  children s := s.calls ctx

/-- The widths agree, and the patterns are built. -/
structure Node.Ok (ctx : Ctx) (s : Node) : Prop where
  fams : s.q.length = s.fams.length
  rows : ∀ r ∈ s.rows, r.length = s.q.length
  built : AllBuilt ctx s.q
  builtRows : ∀ r ∈ s.rows, AllBuilt ctx r

variable {rows : List Row} {head : Pattern} {tail : Row} {fam : Option TypeRef}
  {fams : List (Option TypeRef)} {s : Node}

variable {r : Row}

theorem underRow_eq {r' : Row} (h : underRow ctx c r = some r') :
    ∃ p ps, r = p :: ps ∧ p.Under c ∧ r' = fillRow ctx c p ps := by
  cases r with
  | nil => cases h
  | cons p ps =>
    cases p with
    | ctor d args =>
      rw [underRow] at h
      split at h
      next hd =>
        cases h
        exact ⟨_, _, rfl, hd, rfl⟩
      next => cases h
    | null | wildcard =>
      cases h
      exact ⟨_, _, rfl, trivial, rfl⟩

theorem under_ok (h : Node.Ok ctx ⟨rows, head :: tail, fam :: fams⟩) (hu : head.Under c) :
    (under ctx rows head tail fams c).Ok ctx := by
  have hfill : ∀ {p : Pattern} {ps : Row}, p.Built ctx → p.Under c → ps.length = tail.length →
      (fillRow ctx c p ps).length = (ctx.fieldTypes c).length + tail.length := by
    intro p ps hb hu hlen
    rw [fillRow, length_append, (headCells_built hb hu).1, hlen]
  have hq : (fillRow ctx c head tail).length = (ctx.fieldTypes c).length + tail.length :=
    hfill h.built.1 hu rfl
  have hrow : ∀ {r'}, r' ∈ rows.filterMap (underRow ctx c) → ∃ p ps, p :: ps ∈ rows ∧
      p.Under c ∧ r' = fillRow ctx c p ps := by
    intro r' hr'
    obtain ⟨r, hr, hr'⟩ := mem_filterMap.mp hr'
    obtain ⟨p, ps, rfl, hu, rfl⟩ := underRow_eq hr'
    exact ⟨p, ps, hr, hu, rfl⟩
  refine ⟨?_, ?_, ?_, ?_⟩
  · have hfams : tail.length = fams.length := Nat.succ.inj h.fams
    show (fillRow ctx c head tail).length = (famsHead ctx c ++ fams).length
    rw [hq, length_append, famsHead, length_map, hfams]
  · intro r' hr'
    obtain ⟨p, ps, hr, hu, rfl⟩ := hrow hr'
    exact (hfill (h.builtRows _ hr).1 hu (Nat.succ.inj (h.rows _ hr))).trans hq.symm
  · exact allBuilt_append.mpr ⟨(headCells_built h.built.1 hu).2, h.built.2⟩
  · intro r' hr'
    obtain ⟨p, ps, hr, hu, rfl⟩ := hrow hr'
    have hb := h.builtRows _ hr
    exact allBuilt_append.mpr ⟨(headCells_built hb.1 hu).2, hb.2⟩

theorem drop_ok (h : Node.Ok ctx ⟨rows, head :: tail, fam :: fams⟩) :
    Node.Ok ctx ⟨rowsDropCol rows, tail, fams⟩ := by
  have hrow : ∀ {r'}, r' ∈ rowsDropCol rows → ∃ p, p :: r' ∈ rows := by
    intro r' hr'
    obtain ⟨r, hr, rfl⟩ := mem_map.mp hr'
    cases r with
    | nil => cases h.rows _ hr
    | cons p ps => exact ⟨p, hr⟩
  refine ⟨Nat.succ.inj h.fams, ?_, h.built.2, ?_⟩
  · intro r' hr'
    obtain ⟨p, hr⟩ := hrow hr'
    exact Nat.succ.inj (h.rows _ hr)
  · intro r' hr'
    obtain ⟨p, hr⟩ := hrow hr'
    exact (h.builtRows _ hr).2

/-- A row matches a constructor exactly when it is a row under the constructor that
matches what is below it. -/
theorem matchesAll_underRow (hb : AllBuilt ctx r)
    (hus : us.length = (ctx.fieldTypes c).length) :
    matchesAll r (.ctor c us :: vs) = true ↔
      ∃ r', underRow ctx c r = some r' ∧ matchesAll r' (us ++ vs) = true := by
  have hwild : ∀ {p : Pattern} {ps : Row}, wc p = true →
      headCells ctx c p = replicate (ctx.fieldTypes c).length .null →
      (matchesAll (p :: ps) (.ctor c us :: vs) = true ↔
        matchesAll (fillRow ctx c p ps) (us ++ vs) = true) := by
    intro p ps hp hcells
    have hlen : (replicate (ctx.fieldTypes c).length Pattern.null).length = us.length := by
      rw [length_replicate, hus]
    have hall : matchesAll (replicate (ctx.fieldTypes c).length .null) us = true :=
      matchesAll_of_wild (by simp [rowAllWild, wc]) hlen
    rw [fillRow, hcells, matchesAll_append hlen, hall, matchesAll, matches_of_wc hp]
  cases r with
  | nil => simp [matchesAll, underRow]
  | cons p ps =>
    cases p with
    | ctor d args =>
      rw [underRow, matchesAll, Pattern.matches]
      split
      next hd =>
        subst hd
        have hlen : args.length = us.length := hb.1.1.trans hus.symm
        simp [fillRow, headCells, matchesAll_append hlen]
      next hd => simp [Ne.symm hd]
    | null => simp [hwild (p := .null) rfl rfl, underRow]
    | wildcard => simp [hwild (p := .wildcard) rfl rfl, underRow]

/-! ## Calls -/

theorem wc_or_ctor (p : Pattern) : wc p = true ∨ ∃ d ps, p = .ctor d ps := by
  cases p with
  | ctor d ps => exact .inr ⟨d, ps, rfl⟩
  | _ => exact .inl rfl

theorem mem_ctorsOf_iff {t : TypeRef} :
    c ∈ ctx.ctorsOf t ↔ c.owner = t ∧ (ctx.ctor? c).isSome = true := by
  rw [Ctx.ctorsOf]
  split
  next d hd =>
    constructor
    · rintro h
      obtain ⟨k, hk, rfl⟩ := mem_map.mp h
      have hlt := mem_range.mp hk
      simp [Ctx.ctor?, hd, hlt]
    · rintro ⟨rfl, hc⟩
      have hlt : c.index < d.ctors.length := by simpa [Ctx.ctor?, hd] using hc
      exact mem_map.mpr ⟨c.index, mem_range.mpr hlt, rfl⟩
  next hnone =>
    refine iff_of_false not_mem_nil ?_
    rintro ⟨rfl, hc⟩
    simp [Ctx.ctor?, hnone] at hc

theorem mem_ctorsOf {t : TypeRef} (h : c ∈ ctx.ctorsOf t) : c.owner = t := (mem_ctorsOf_iff.mp h).1

/-- A constructor a column of family `fam` may have: its own, or any of the family. -/
def Pattern.Heads (ctx : Ctx) (fam : Option TypeRef) (c : CtorRef) : Pattern → Prop
  | .ctor d _ => c = d
  | _ => fam = some c.owner ∧ c ∈ ctx.ctorsOf c.owner

theorem Pattern.Heads.under {fam : Option TypeRef} (h : p.Heads ctx fam c) :
    p.Under c := by
  cases p with
  | ctor d ps => exact h
  | _ => trivial

theorem heads_of_wc (h : wc p = true) :
    p.Heads ctx fam c ↔ fam = some c.owner ∧ c ∈ ctx.ctorsOf c.owner := by
  cases p with
  | ctor d ps => cases h
  | _ => exact Iff.rfl

theorem calls_of_wc (h : wc head = true) : Node.calls ctx ⟨rows, head :: tail, fam :: fams⟩ =
    match fam with
    | none => [⟨rowsDropCol rows, tail, fams⟩]
    | some t => (ctx.ctorsOf t).map (under ctx rows head tail fams) := by
  cases head with
  | ctor d ps => cases h
  | _ => cases fam <;> rfl

variable {t : Node}

/-- A call of a matrix drops its first column, or puts it under one of the constructors it
may have. -/
theorem mem_calls (h : t ∈ Node.calls ctx ⟨rows, head :: tail, fam :: fams⟩) :
    (wc head = true ∧ fam = none ∧ t = ⟨rowsDropCol rows, tail, fams⟩) ∨
      ∃ c, head.Heads ctx fam c ∧ t = under ctx rows head tail fams c := by
  rcases wc_or_ctor head with hw | ⟨d, ps, rfl⟩
  · rw [calls_of_wc hw] at h
    cases fam with
    | none => exact .inl ⟨hw, rfl, mem_singleton.mp h⟩
    | some t =>
      obtain ⟨c, hc, rfl⟩ := mem_map.mp h
      have howner := mem_ctorsOf hc
      exact .inr ⟨c, (heads_of_wc hw).mpr ⟨congrArg some howner.symm, howner ▸ hc⟩, rfl⟩
  · exact .inr ⟨d, rfl, mem_singleton.mp h⟩

theorem calls_ok (hs : s.Ok ctx) (h : t ∈ s.calls ctx) : t.Ok ctx := by
  obtain ⟨rows, q, fams⟩ := s
  cases q with
  | nil => cases h
  | cons head tail =>
    cases fams with
    | nil => cases hs.fams
    | cons fam fams =>
      rcases mem_calls h with ⟨-, -, rfl⟩ | ⟨c, hh, rfl⟩
      · exact drop_ok hs
      · exact under_ok hs hh.under

theorem leaf_none_iff : (tree ctx).leaf s = none ↔ ctorCovered s.rows = false ∧ s.q ≠ [] := by
  obtain ⟨rows, q, fams⟩ := s
  cases hc : ctorCovered rows <;> cases q <;> simp [tree, hc]

variable {n : Nat}

/-- A call has no more rows. -/
theorem calls_length (h : t ∈ s.calls ctx) (hn : s.rows.length < n) :
    t.rows.length < n := by
  obtain ⟨rows, q, fams⟩ := s
  cases q with
  | nil => cases h
  | cons head tail =>
    cases fams with
    | nil => cases head <;> cases h
    | cons fam fams =>
      rcases mem_calls h with ⟨-, -, rfl⟩ | ⟨c, -, rfl⟩
      · exact (length_map _).symm ▸ hn
      · exact Nat.lt_of_le_of_lt (length_filterMap_le _ _) hn

end Adt89
