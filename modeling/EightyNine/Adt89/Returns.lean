import EightyNine.Adt89.MatchOk
import Mathlib.Algebra.Order.BigOperators.Group.List

/-!
# Termination of the analyses

A call ends in fewer constructors or in a narrower matrix, unless it puts a column under
a constructor that no row tests.  The search in such a column is the expansion of its
family by itself (`pads_follows`).  So the analyses return exactly when wherever they
expand such a family, it has no endless expansion, or its expansion comes to an end and
something is found behind it (`halts_iff`, `analysis_returns_iff`).
-/

namespace Adt89

open Hm89 (Ty)
open Library List Nat

variable {ctx : Ctx} {mem : Nat → Bool} {t : TypeRef} {d : AdtType} {args : List Ty}
  {ps : List Pattern} {p : Pattern} {rows : List Row} {head : Pattern} {tail : Row}
  {fam : Option TypeRef} {fams fs : List (Option TypeRef)} {s u v : Node} {c : CtorRef}

/-! ## Expanding families -/

/-- The values of some families, found constructor by constructor. -/
def expansion (ctx : Ctx) : SearchTree (List (Option TypeRef)) where
  leaf
    | [] => some true
    | _ :: _ => none
  children
    | [] => []
    | none :: fams => [fams]
    | some t :: fams => (ctx.ctorsOf t).map fun c => famsHead ctx c ++ fams

/-- A family without an endless expansion. -/
def Ctx.Finite (ctx : Ctx) (t : TypeRef) : Prop := (expansion ctx).Finite [some t]

/-- The expansion of a family in the order of declaration comes to an end. -/
def Ctx.Settles (ctx : Ctx) (t : TypeRef) : Prop := (expansion ctx).Halts [some t]

/-! ## Columns without a test -/

/-- The first column is a wildcard of a family in the query and in every row. -/
structure Node.Untested (s : Node) (t : TypeRef) : Prop where
  uncovered : ctorCovered s.rows = false
  head : ∃ p ∈ s.q.head?, wc p = true
  rows : ∀ r ∈ s.rows, ∀ p ∈ r.head?, wc p = true
  fam : s.fams.head? = some (some t)

/-- The matrix without its first column. -/
def Node.rest (s : Node) : Node := ⟨rowsDropCol s.rows, s.q.tail, s.fams.tail⟩

/-- If the first column is not tested, its family has no endless expansion, or its expansion
comes to an end and something is found behind it. -/
def Node.Bounded (ctx : Ctx) (s : Node) : Prop :=
  ∀ t, s.Untested t → ctx.Finite t ∨ ctx.Settles t ∧ (tree ctx).Finds s.rest

/-- All matrices that the search comes by are bounded. -/
def Node.Ends (ctx : Ctx) (s : Node) : Prop := ∀ u, (tree ctx).Visits s u → u.Bounded ctx

/-- A row with `n` columns without a test in front. -/
def Padded (n : Nat) (r r' : Row) : Prop :=
  ∃ ps : Row, ps.length = n ∧ rowAllWild ps = true ∧ r = ps ++ r'

variable {r r' : Row}

theorem padded_zero : Padded 0 r r' ↔ r = r' := by
  constructor
  · rintro ⟨ps, hlen, -, rfl⟩
    rw [length_eq_zero_iff.mp hlen, nil_append]
  · rintro rfl
    exact ⟨[], rfl, rfl, rfl⟩

variable {n : Nat}

theorem padded_succ (h : Padded (n + 1) r r') :
    ∃ p ps, r = p :: ps ∧ wc p = true ∧ Padded n ps r' := by
  obtain ⟨ps, hlen, hwild, rfl⟩ := h
  cases ps with
  | nil => cases hlen
  | cons p ps =>
    rw [rowAllWild, all_cons, Bool.and_eq_true] at hwild
    exact ⟨p, ps ++ r', rfl, hwild.1, ps, succ.inj hlen, hwild.2, rfl⟩

theorem Padded.wild (h : Padded n r r') : rowAllWild r = rowAllWild r' := by
  obtain ⟨ps, -, hwild, rfl⟩ := h
  have happ : rowAllWild (ps ++ r') = (rowAllWild ps && rowAllWild r') := all_append
  rw [happ, hwild, Bool.true_and]

theorem headCells_of_wc (h : wc p = true) :
    headCells ctx c p = replicate (ctx.fieldTypes c).length .null := by
  cases p with
  | ctor d ps => cases h
  | _ => rfl

theorem fillRow_padded {ps : Row} (hp : wc p = true) (h : Padded n ps r') :
    Padded ((famsHead ctx c).length + n) (fillRow ctx c p ps) r' := by
  obtain ⟨qs, rfl, hwild, rfl⟩ := h
  refine ⟨replicate (ctx.fieldTypes c).length .null ++ qs, ?_, ?_, ?_⟩
  · rw [length_append, length_replicate, famsHead, length_map]
  · have hnull : rowAllWild (replicate (ctx.fieldTypes c).length .null) = true := by
      simp [rowAllWild, wc]
    have happ : ∀ as : Row, rowAllWild (as ++ qs) = (rowAllWild as && rowAllWild qs) :=
      fun _ => all_append
    rw [happ, hnull, hwild]
    rfl
  · rw [fillRow, headCells_of_wc hp, append_assoc]

/-- `u` is the matrix `v` behind columns of the families `fs` without a test. -/
structure Pads (v : Node) (fs : List (Option TypeRef)) (u : Node) : Prop where
  q : Padded fs.length u.q v.q
  rows : List.Forall₂ (Padded fs.length) u.rows v.rows
  fams : u.fams = fs ++ v.fams

theorem Pads.covered (h : Pads v fs u) : ctorCovered u.rows = ctorCovered v.rows := by
  have hrows := h.rows
  generalize u.rows = rows at hrows
  generalize v.rows = rows' at hrows
  induction hrows with
  | nil => rfl
  | cons hr _ ih =>
    rw [ctorCovered, any_cons, hr.wild]
    exact congrArg _ ih

theorem Pads.drop (h : Pads v (fam :: fs) ⟨rows, head :: tail, fam :: fams⟩) :
    Pads v fs ⟨rowsDropCol rows, tail, fams⟩ := by
  obtain ⟨p, ps, hq, -, hpad⟩ := padded_succ h.q
  refine ⟨?_, ?_, (cons.inj h.fams).2⟩
  · obtain ⟨rfl, rfl⟩ := cons.inj hq
    exact hpad
  · rw [rowsDropCol, forall₂_map_left_iff]
    refine h.rows.imp fun r r' hr => ?_
    obtain ⟨p, ps, rfl, -, hpad⟩ := padded_succ hr
    exact hpad

theorem Pads.under (h : Pads v (fam :: fs) ⟨rows, head :: tail, fam :: fams⟩) (c : CtorRef) :
    Pads v (famsHead ctx c ++ fs) (under ctx rows head tail fams c) := by
  obtain ⟨p, ps, hq, hp, hpad⟩ := padded_succ h.q
  obtain ⟨rfl, rfl⟩ := cons.inj hq
  have hlen : (famsHead ctx c ++ fs).length = (famsHead ctx c).length + fs.length :=
    length_append
  refine ⟨?_, ?_, ?_⟩
  · rw [hlen]
    exact fillRow_padded hp hpad
  · have hrows : List.Forall₂ (Padded (fs.length + 1)) rows v.rows := h.rows
    show List.Forall₂ _ (rows.filterMap (underRow ctx c)) v.rows
    rw [hlen]
    generalize v.rows = rows' at hrows ⊢
    clear h hq
    induction hrows with
    | nil => exact .nil
    | cons hr _ ih =>
      obtain ⟨p, ps, rfl, hp, hpad⟩ := padded_succ hr
      have hunder : underRow ctx c (p :: ps) = some (fillRow ctx c p ps) :=
        underRow_of_under (by cases p with | ctor d qs => cases hp | _ => trivial)
      rw [filterMap_cons_some hunder]
      exact .cons (fillRow_padded hp hpad) ih
  · have hfams : fams = fs ++ v.fams := (cons.inj h.fams).2
    show famsHead ctx c ++ fams = famsHead ctx c ++ fs ++ v.fams
    rw [hfams, append_assoc]

/-- The search behind columns without a test follows the expansion of their families. -/
theorem pads_follows (hrest : ctorCovered v.rows = false) :
    SearchTree.Follows (expansion ctx) (Pads v) v (tree ctx) where
  inner := by
    intro fs u h hleaf
    cases fs with
    | nil => cases hleaf
    | cons fam fs =>
      obtain ⟨p, ps, hq, -⟩ := padded_succ h.q
      exact leaf_none_iff.mpr ⟨h.covered.trans hrest, hq ▸ cons_ne_nil p ps⟩
  children := by
    intro fs u h hleaf
    cases fs with
    | nil => cases hleaf
    | cons fam fs =>
      obtain ⟨p, ps, hq, hp, -⟩ := padded_succ h.q
      obtain ⟨rows, q, fams⟩ := u
      obtain rfl : q = p :: ps := hq
      obtain rfl : fams = fam :: (fs ++ v.fams) := h.fams
      show List.Forall₂ _ _ (Node.calls ctx ⟨rows, p :: ps, fam :: (fs ++ v.fams)⟩)
      rw [calls_of_wc hp]
      cases fam with
      | none => exact .cons h.drop .nil
      | some t =>
        show List.Forall₂ _ ((ctx.ctorsOf t).map _) ((ctx.ctorsOf t).map _)
        rw [forall₂_map_left_iff, forall₂_map_right_iff, forall₂_same]
        exact fun c _ => h.under c
  last := by
    intro fs u h hleaf
    cases fs with
    | cons fam fs => exact absurd rfl hleaf
    | nil =>
      refine ⟨rfl, ?_⟩
      obtain ⟨rows, q, fams⟩ := u
      have hq : q = v.q := padded_zero.mp h.q
      have hfams : fams = v.fams := h.fams
      have hrows : rows = v.rows :=
        forall₂_eq_eq_eq ▸ h.rows.imp fun _ _ => padded_zero.mp
      rw [hq, hfams, hrows]

theorem Node.Untested.pads (h : s.Untested t) (hs : s.Ok ctx) : Pads s.rest [some t] s := by
  obtain ⟨rows, q, fams⟩ := s
  obtain ⟨p, hp, hwild⟩ := h.head
  obtain ⟨ps, rfl⟩ := head?_eq_some_iff.mp hp
  obtain ⟨gams, rfl⟩ := head?_eq_some_iff.mp h.fam
  have hone : ∀ {p : Pattern} {ps : Row}, wc p = true → Padded 1 (p :: ps) ps :=
    fun {p ps} hp => ⟨[p], rfl, by simp [rowAllWild, hp], rfl⟩
  refine ⟨hone hwild, ?_, rfl⟩
  show List.Forall₂ _ rows (rows.map tail)
  rw [forall₂_map_right_iff, forall₂_same]
  intro r hr
  cases r with
  | nil => cases hs.rows _ hr
  | cons p ps => exact hone (h.rows _ hr p rfl)

theorem Node.Untested.follows (h : s.Untested t) (hs : s.Ok ctx) :
    SearchTree.Follows (expansion ctx) (Pads s.rest) s.rest (tree ctx) :=
  pads_follows ((h.pads hs).covered.symm.trans h.uncovered)

/-! ## Constructors left -/

mutual

/-- The number of constructors in a pattern. -/
def Pattern.ctors : Pattern → Nat
  | .ctor _ ps => rowCtors ps + 1
  | _ => 0

def rowCtors : List Pattern → Nat
  | [] => 0
  | p :: ps => p.ctors + rowCtors ps

end

def Node.ctors (s : Node) : Nat := (s.rows.map rowCtors).sum + rowCtors s.q

theorem rowCtors_append (qs : List Pattern) : rowCtors (ps ++ qs) = rowCtors ps + rowCtors qs := by
  induction ps with
  | nil => simp [rowCtors]
  | cons p ps ih => simp [rowCtors, ih, add_assoc]

theorem rowCtors_replicate (n : Nat) : rowCtors (replicate n .null) = 0 := by
  induction n with
  | zero => rfl
  | succ n ih => simp [replicate_succ, rowCtors, Pattern.ctors, ih]

/-- A constructor pattern is spent under its constructor. -/
theorem rowCtors_fillRow (hu : p.Under c) (ps : Row) :
    rowCtors (fillRow ctx c p ps) + (if wc p then 0 else 1) = rowCtors (p :: ps) := by
  rcases wc_or_ctor p with hw | ⟨d, qs, rfl⟩
  · have hp : p.ctors = 0 := by
      cases p with
      | ctor d qs => cases hw
      | _ => rfl
    simp [fillRow, headCells_of_wc hw, rowCtors_append, rowCtors_replicate, rowCtors, hp, hw]
  · simp [fillRow, headCells, rowCtors_append, rowCtors, Pattern.ctors, wc]
    omega

theorem sum_filterMap (f : Row → Option Row) (rows : List Row) :
    ((rows.filterMap f).map rowCtors).sum = (rows.map fun r => (f r).elim 0 rowCtors).sum := by
  induction rows with
  | nil => rfl
  | cons r rows ih =>
    cases hr : f r with
    | none | some r' => simp [hr, ih]

theorem underRow_ctors (r : Row) : (underRow ctx c r).elim 0 rowCtors ≤ rowCtors r ∧
    ((∃ p ∈ r.head?, wc p = false) → (underRow ctx c r).elim 0 rowCtors < rowCtors r) := by
  cases hr : underRow ctx c r with
  | none =>
    refine ⟨zero_le _, ?_⟩
    rintro ⟨p, hp, hw⟩
    obtain ⟨ps, rfl⟩ := head?_eq_some_iff.mp hp
    cases p with
    | ctor d qs => simp [rowCtors, Pattern.ctors]
    | _ => cases hw
  | some r' =>
    obtain ⟨p, ps, rfl, hu, rfl⟩ := underRow_eq hr
    have hfill : rowCtors (fillRow ctx c p ps) + _ = _ := rowCtors_fillRow hu ps
    refine ⟨?_, ?_⟩
    · simp only [Option.elim]
      omega
    · rintro ⟨q, hq, hw⟩
      cases hq
      rw [hw] at hfill
      simp only [Bool.false_eq_true, if_false] at hfill
      simp only [Option.elim]
      omega

theorem rest_ctors (s : Node) : s.rest.ctors ≤ s.ctors := by
  refine Nat.add_le_add ?_ ?_
  · show (map rowCtors (s.rows.map tail)).sum ≤ _
    rw [map_map]
    refine sum_le_sum fun r _ => ?_
    cases r with
    | nil => exact le_refl 0
    | cons p ps => exact le_add_left _ _
  · show rowCtors s.q.tail ≤ _
    cases s.q with
    | nil => exact le_refl 0
    | cons p ps => exact le_add_left _ _

/-- A call has fewer constructors, or as many and a narrower matrix, or puts a column under a
constructor that no row tests. -/
theorem calls_ctors (hc : ctorCovered s.rows = false) (hs : s.Ok ctx) (hu : u ∈ s.calls ctx) :
    u.ctors ≤ s.ctors ∧ (u.ctors < s.ctors ∨ u.q.length < s.q.length ∨ ∃ t, s.Untested t) := by
  obtain ⟨rows, q, fams⟩ := s
  cases q with
  | nil => cases hu
  | cons head tail =>
    cases fams with
    | nil => cases hs.fams
    | cons fam fams =>
      rcases mem_calls hu with ⟨-, -, rfl⟩ | ⟨c, hh, rfl⟩
      · exact ⟨rest_ctors ⟨rows, head :: tail, _⟩, .inr (.inl (lt_succ_self _))⟩
      · have hq : rowCtors (fillRow ctx c head tail) + _ = _ := rowCtors_fillRow hh.under tail
        have hrows : ((under ctx rows head tail fams c).rows.map rowCtors).sum =
            (rows.map fun r => (underRow ctx c r).elim 0 rowCtors).sum := sum_filterMap _ _
        have hle : ((under ctx rows head tail fams c).rows.map rowCtors).sum ≤
            (rows.map rowCtors).sum := by
          rw [hrows]
          exact sum_le_sum fun r _ => (underRow_ctors r).1
        have hsplit : (under ctx rows head tail fams c).ctors =
            ((under ctx rows head tail fams c).rows.map rowCtors).sum +
              rowCtors (fillRow ctx c head tail) := rfl
        have hctors : Node.ctors ⟨rows, head :: tail, fam :: fams⟩ =
            (rows.map rowCtors).sum + rowCtors (head :: tail) := rfl
        refine ⟨by omega, ?_⟩
        by_cases hw : wc head = true
        · by_cases htest : ∃ r ∈ rows, ∃ p ∈ r.head?, wc p = false
          · obtain ⟨r, hr, hp⟩ := htest
            have hlt : ((under ctx rows head tail fams c).rows.map rowCtors).sum <
                (rows.map rowCtors).sum := by
              rw [hrows]
              exact sum_lt_sum _ _ (fun r _ => (underRow_ctors r).1)
                ⟨r, hr, (underRow_ctors r).2 hp⟩
            exact .inl (by omega)
          · refine .inr (.inr ⟨c.owner, hc, ⟨head, rfl, hw⟩, fun r hr p hp => ?_, ?_⟩)
            · by_contra hno
              exact htest ⟨r, hr, p, hp, Bool.eq_false_iff.mpr hno⟩
            · exact congrArg some ((heads_of_wc hw).mp hh).1
        · rw [if_neg hw] at hq
          exact .inl (by omega)

/-! ## When the search returns -/

theorem halts_of_ends {s : Node} (hs : s.Ok ctx) (h : s.Ends ctx) : (tree ctx).Halts s := by
  cases hleaf : (tree ctx).leaf s with
  | some b => exact .leaf hleaf
  | none =>
    obtain ⟨hcovered, hne⟩ := leaf_none_iff.mp hleaf
    by_cases hex : ∃ t, s.Untested t
    · obtain ⟨t, ht⟩ := hex
      have hwidth : s.rest.q.length < s.q.length := by
        rw [Node.rest, length_tail]
        exact sub_lt (length_pos_iff.mpr hne) one_pos
      have hrest : (tree ctx).Visits s s.rest → (tree ctx).Halts s.rest := fun hv =>
        halts_of_ends (hv.keeps (fun _ _ => calls_ok) hs) fun u hu => h u (hv.trans hu)
      rcases h s .refl t ht with hfinite | ⟨hsettles, hfinds⟩
      · exact (ht.follows hs).halts_of_finite hfinite (ht.pads hs) hrest
      · exact (ht.follows hs).halts_of hfinds hsettles (ht.pads hs) hrest
    · refine .calls hleaf fun u hcall => ?_
      obtain ⟨hle, hless⟩ := calls_ctors hcovered hs hcall.mem
      exact halts_of_ends (calls_ok hs hcall.mem) fun v hv => h v (.head hcall hv)
termination_by (s.ctors, s.q.length)
decreasing_by
  · exact Prod.Lex.right' _ (rest_ctors s) hwidth
  · rcases hless with hlt | hlt | hu
    · exact Prod.Lex.left _ _ hlt
    · exact Prod.Lex.right' _ hle hlt
    · exact absurd hu hex

/-- The search halts exactly when all matrices that it comes by are bounded. -/
theorem halts_iff (hs : s.Ok ctx) : (tree ctx).Halts s ↔ s.Ends ctx := by
  refine ⟨fun hhalts u hu t ht => ?_, halts_of_ends hs⟩
  have hok : u.Ok ctx := hu.keeps (fun _ _ => calls_ok) hs
  have hfollows := ht.follows hok
  by_cases hfinds : (tree ctx).Finds u.rest
  · exact .inr ⟨hfollows.halts (hu.halts hhalts) (ht.pads hok), hfinds⟩
  · exact .inl (hfollows.finite hfinds (hu.halts hhalts) (ht.pads hok))

/-! ## The analyses -/

theorem startNode_rows : (startNode t ps p).rows.length = ps.length := length_map _

theorem exhaustiveQuery_returns_iff (hmem : ∀ n, mem n = true) (hps : ∀ p ∈ ps, p.Built ctx)
    (hlen : ps.length < 2 ^ 31) :
    (∃ fuel r, exhaustiveQuery mem ctx fuel t ps 0 = some r) ↔
      (startNode t ps .null).Ends ctx := by
  have hok : (startNode t ps .null).Ok ctx := startNode_ok hps trivial
  rw [← startNode_rows (t := t) (p := .null)] at hlen
  rw [← halts_iff hok]
  constructor
  · rintro ⟨fuel, r, h⟩
    rw [exhaustiveQuery_eq hmem, Option.bind_eq_some_iff] at h
    obtain ⟨r', hu, -⟩ := h
    exact halts_of_useful hmem hok hlen hu
  · intro h
    obtain ⟨k, hk⟩ := useful_of_halts hmem hok hlen h
    obtain ⟨r, hr⟩ := hk k (le_refl k) (0 + 3)
    have hu : useful mem ctx k (initRows ps) [.null] [some t] (0 + 3) = some r := hr
    exact ⟨k, _, by rw [exhaustiveQuery_eq hmem, hu]; rfl⟩

variable {fuel : Nat}

/-- A query for redundancy from which the search returns, and its answer. -/
theorem usefulPrefix_returns (hmem : ∀ n, mem n = true) (hps : ∀ q ∈ ps, q.Built ctx)
    (hp : p.Built ctx) (hlen : ps.length < 2 ^ 31) {r : Useful × Nat}
    (h : usefulPrefix mem ctx fuel t ps p n = some r) :
    r.1 ≠ .nomem ∧ (startNode t ps p).Ends ctx := by
  have hok : (startNode t ps p).Ok ctx := startNode_ok hps hp
  rw [← startNode_rows (t := t) (p := p)] at hlen
  rw [usefulPrefix_eq hmem] at h
  obtain ⟨b, -, hr⟩ := search_of_useful hmem hok hlen h
  refine ⟨?_, (halts_iff hok).mp (halts_of_useful hmem hok hlen h)⟩
  rw [hr]
  cases b <;> decide

variable {rest : List Pattern}

theorem redundantLoop_ends (hmem : ∀ n, mem n = true) :
    ∀ {earlier : List Pattern} {n : Nat} {r : Except Failure (List Bool) × Nat},
      (∀ q ∈ earlier, q.Built ctx) → (∀ q ∈ rest, q.Built ctx) →
      (earlier ++ rest).length < 2 ^ 31 →
      redundantLoop mem ctx fuel t earlier rest n = some r →
      ∀ (i : Nat) (p : Pattern), rest[i]? = some p →
        (startNode t (earlier ++ rest.take i) p).Ends ctx := by
  induction rest with
  | nil =>
    intro earlier n r _ _ _ _ i p hp
    cases hp
  | cons q rest ih =>
    intro earlier n r he hr hlen h i p hp
    have hq := hr q mem_cons_self
    rw [redundantLoop_cons, Option.bind_eq_some_iff] at h
    obtain ⟨u, hu, h⟩ := h
    have hlen' : earlier.length < 2 ^ 31 := by
      rw [length_append] at hlen
      omega
    obtain ⟨hno, hends⟩ := usefulPrefix_returns hmem he hq hlen' hu
    cases i with
    | zero =>
      cases hp
      rwa [take_zero, append_nil]
    | succ i =>
      rw [if_neg hno, Option.bind_eq_some_iff] at h
      obtain ⟨out, hl, -⟩ := h
      have he' : ∀ p ∈ earlier ++ [q], p.Built ctx := by
        intro p hp
        rcases mem_append.mp hp with hp | hp
        · exact he p hp
        · exact mem_singleton.mp hp ▸ hq
      have := ih he' (fun p hp => hr p (mem_cons_of_mem q hp)) (by rwa [append_assoc]) hl i p hp
      rwa [append_assoc] at this

theorem redundantLoop_returns (hmem : ∀ n, mem n = true) :
    ∀ {earlier : List Pattern}, (∀ q ∈ earlier, q.Built ctx) → (∀ q ∈ rest, q.Built ctx) →
      (earlier ++ rest).length < 2 ^ 31 →
      (∀ (i : Nat) (p : Pattern), rest[i]? = some p →
        (startNode t (earlier ++ rest.take i) p).Ends ctx) →
      ∃ k, ∀ fuel, k ≤ fuel → ∀ n, ∃ r,
        redundantLoop mem ctx fuel t earlier rest n = some r := by
  induction rest with
  | nil => exact fun _ _ _ _ => ⟨0, fun fuel _ n => ⟨_, rfl⟩⟩
  | cons q rest ih =>
    intro earlier he hr hlen hends
    have hq := hr q mem_cons_self
    have he' : ∀ p ∈ earlier ++ [q], p.Built ctx := by
      intro p hp
      rcases mem_append.mp hp with hp | hp
      · exact he p hp
      · exact mem_singleton.mp hp ▸ hq
    have hlen' : (startNode t earlier q).rows.length < 2 ^ 31 := by
      rw [length_append] at hlen
      rw [startNode_rows]
      omega
    obtain ⟨k', hk'⟩ := ih he' (fun p hp => hr p (mem_cons_of_mem q hp))
      (by rwa [append_assoc]) fun i p hp => by
        have := hends (i + 1) p hp
        rwa [take_succ_cons, append_cons] at this
    have hok : (startNode t earlier q).Ok ctx := startNode_ok he hq
    have hfirst := hends 0 q rfl
    rw [take_zero, append_nil] at hfirst
    obtain ⟨k, hk⟩ := useful_of_halts hmem hok hlen' ((halts_iff hok).mpr hfirst)
    refine ⟨max k k', fun fuel hle n => ?_⟩
    obtain ⟨⟨u, n₁⟩, hu⟩ := hk fuel (le_trans (le_max_left k k') hle) (n + 2)
    obtain ⟨out, hl⟩ := hk' fuel (le_trans (le_max_right k k') hle) n₁
    have hu' : usefulPrefix mem ctx fuel t earlier q n = some (u, n₁) := by
      rw [usefulPrefix_eq hmem]
      exact hu
    have hno := (usefulPrefix_returns hmem he hq (startNode_rows ▸ hlen') hu').1
    rw [redundantLoop_cons, hu', Option.bind_some, if_neg hno, hl]
    exact ⟨_, rfl⟩

/-- `nat = Succ nat | Zero`. -/
def natCtx : Ctx where
  types := [⟨[2], [], [⟨[.con [2] []]⟩, ⟨[]⟩], true⟩]
  nominal := by decide

def natTy : Ty := .con [2] []

/-- `Zero`. -/
def zeroPattern : Pattern := .ctor ⟨0, 1⟩ []

theorem usefulEnumerate_none {rec : CtorRef → Query Useful} {c : CtorRef}
    (h : rec c n = none) (ctors : List CtorRef) : usefulEnumerate rec (c :: ctors) n = none := by
  simp [usefulEnumerate, h]

/-- Under the first constructor the query is the same again, without rows. -/
theorem useful_nat (fuel : Nat) : ∀ n,
    useful (fun _ => true) natCtx fuel [] [.null] [some 0] n = none := by
  induction fuel with
  | zero => exact fun _ => rfl
  | succ fuel ih =>
    intro n
    rw [useful_of_wc rfl rfl]
    exact usefulEnumerate_none (ih (n + 3)) [⟨0, 1⟩]

end Adt89
