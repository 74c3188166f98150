import EightyNine.Cat89.FindExact
import EightyNine.Cat89.FiniteExact
import Mathlib.Algebra.BigOperators.Group.List.Basic
import Mathlib.Algebra.GroupWithZero.Nat

/-!
# libcat89: the exhaustive checker

`src/check.c`, as far as `cat89_check_category_exhaustive` goes.  It runs on what may not
be a category: identities and composites are there and have the ends they should have, but
the laws may fail.  The checker counts the cases of the laws, and those that fail, in
counters of 64 bits.
-/

namespace Cat89

open List

/-- A category but for its laws. -/
structure RawCategory (Obj Mor : Type) where
  dom : Mor → Obj
  cod : Mor → Obj
  ident : Obj → Mor
  comp : (g f : Mor) → dom g = cod f → Mor
  dom_ident : ∀ a, dom (ident a) = a
  cod_ident : ∀ a, cod (ident a) = a
  dom_comp : ∀ g f h, dom (comp g f h) = dom f
  cod_comp : ∀ g f h, cod (comp g f h) = cod g

/-- A category, with its laws forgotten. -/
def Category.raw {Obj Mor : Type} (K : Category Obj Mor) : RawCategory Obj Mor where
  dom := K.dom
  cod := K.cod
  ident := K.ident
  comp := K.comp
  dom_ident := K.dom_ident
  cod_ident := K.cod_ident
  dom_comp := K.dom_comp
  cod_comp := K.cod_comp

/-! ## The checks of one case -/

section

variable {Obj Mor : Type} [DecidableEq Obj] (S : RawCategory Obj Mor) (same : Mor → Mor → Bool)

/-- `cat89_compose`. -/
def RawCategory.compose (g f : Mor) : Except Status Mor :=
  if h : S.dom g = S.cod f then .ok (S.comp g f h) else .error .domain

/-- `compose_and_compare`. -/
def composeAndCompare (a b witness : Mor) : Except Status Bool := do
  let composite ← S.compose a b
  pure (same composite witness)

/-- `cat89_check_left_identity`. -/
def checkLeftIdentity (f : Mor) : Except Status Bool :=
  composeAndCompare S same (S.ident (S.cod f)) f f

/-- `cat89_check_right_identity`. -/
def checkRightIdentity (f : Mor) : Except Status Bool :=
  composeAndCompare S same f (S.ident (S.dom f)) f

/-- `cat89_check_associativity`. -/
def checkAssociativity (h g f : Mor) : Except Status Bool := do
  let hg ← S.compose h g
  let lhs ← S.compose hg f
  let gf ← S.compose g f
  let rhs ← S.compose h gf
  pure (same lhs rhs)

/-! ## The sweep -/

/-- `cat89_check_result`. -/
structure CheckResult where
  checked : UInt64
  failed : UInt64
  status : Status

/-- What the checker starts from. -/
def CheckResult.init : CheckResult := ⟨0, 0, .ok⟩

/-- `++res->checked`, and `++res->failed` where the case is not valid. -/
def CheckResult.count (res : CheckResult) (valid : Bool) : CheckResult :=
  { res with
    checked := res.checked + 1
    failed := if valid = false then res.failed + 1 else res.failed }

/-- A row of `struct exc`. -/
structure ExcRow (Obj Mor : Type) where
  mor : Mor
  dom : Obj
  cod : Obj

/-- `sizeof(cat89_mor *)`. -/
def sizeofMor : Nat := 8

/-- `exc_open_fill`, as far as it can fail. -/
def excOpenFill (en : Enumeration Obj Mor) (room : Bool) : Except Status (List (ExcRow Obj Mor)) :=
  if allocates room (en.mors.length * sizeofMor) = false then .error .nomem
  else .ok (en.mors.map fun m => ⟨m, S.dom m, S.cod m⟩)

/-- `exc_left_right`. -/
def excLeftRight (row : ExcRow Obj Mor) (res : CheckResult) : Status × CheckResult :=
  match checkLeftIdentity S same row.mor with
  | .error st => (st, res)
  | .ok valid =>
    let res := res.count valid
    match checkRightIdentity S same row.mor with
    | .error st => (st, res)
    | .ok valid => (.ok, res.count valid)

/-- `exc_triple`. -/
def excTriple (i j k : ExcRow Obj Mor) (res : CheckResult) : Status × CheckResult :=
  if k.cod ≠ j.dom then (.ok, res)
  else if j.cod ≠ i.dom then (.ok, res)
  else
    match checkAssociativity S same i.mor j.mor k.mor with
    | .error st => (st, res)
    | .ok valid => (.ok, res.count valid)

/-- A loop over the rows, up to the first that fails. -/
def sweep {α : Type} (step : α → CheckResult → Status × CheckResult) :
    List α → CheckResult → Status × CheckResult
  | [], res => (.ok, res)
  | a :: rows, res =>
    match step a res with
    | (.ok, res) => sweep step rows res
    | (st, res) => (st, res)

/-- `cat89_check_category_exhaustive`; a capability that is missing is `NULL`. -/
def checkCategoryExhaustive (eq : Option (Mor → Mor → Bool))
    (enumeration : Option (Enumeration Obj Mor)) (room : Bool) : Status × CheckResult :=
  match eq, enumeration with
  | some same, some en =>
    match excOpenFill S en room with
    | .error st => (st, .init)
    | .ok cs =>
      match sweep (excLeftRight S same) cs .init with
      | (.ok, res) =>
        sweep (fun i => sweep (fun j => sweep (fun k => excTriple S same i j k) cs) cs) cs res
      | (st, res) => (st, res)
  | _, _ => (.notSupported, .init)

end

/-! ## The laws and their failures -/

namespace RawCategory

variable {Obj Mor : Type} (S : RawCategory Obj Mor) (same : Mor → Mor → Bool)

def LeftUnitAt (f : Mor) : Prop := same (S.comp (S.ident (S.cod f)) f (S.dom_ident _)) f = true

def RightUnitAt (f : Mor) : Prop :=
  same (S.comp f (S.ident (S.dom f)) (S.cod_ident _).symm) f = true

/-- The triple `(h, g, f)` composes. -/
def Composable (t : Mor × Mor × Mor) : Prop :=
  S.dom t.1 = S.cod t.2.1 ∧ S.dom t.2.1 = S.cod t.2.2

def AssocAt (t : Mor × Mor × Mor) : Prop :=
  ∃ (hh : S.dom t.1 = S.cod t.2.1) (hg : S.dom t.2.1 = S.cod t.2.2),
    same (S.comp (S.comp t.1 t.2.1 hh) t.2.2 ((S.dom_comp _ _ _).trans hg))
      (S.comp t.1 (S.comp t.2.1 t.2.2 hg) (hh.trans (S.cod_comp _ _ _).symm)) = true

/-- The laws of a category, as far as `same` can tell. -/
structure IsLawful : Prop where
  left_unit : ∀ f, S.LeftUnitAt same f
  right_unit : ∀ f, S.RightUnitAt same f
  assoc : ∀ t, S.Composable t → S.AssocAt same t

variable [DecidableEq Obj]

instance (f : Mor) : Decidable (S.LeftUnitAt same f) :=
  inferInstanceAs (Decidable (_ = true))

instance (f : Mor) : Decidable (S.RightUnitAt same f) :=
  inferInstanceAs (Decidable (_ = true))

instance (t : Mor × Mor × Mor) : Decidable (S.Composable t) :=
  inferInstanceAs (Decidable (_ ∧ _))

instance (t : Mor × Mor × Mor) : Decidable (S.AssocAt same t) :=
  inferInstanceAs (Decidable (∃ (hh : S.dom t.1 = S.cod t.2.1) (hg : S.dom t.2.1 = S.cod t.2.2),
    same (S.comp (S.comp t.1 t.2.1 hh) t.2.2 ((S.dom_comp _ _ _).trans hg))
      (S.comp t.1 (S.comp t.2.1 t.2.2 hg) (hh.trans (S.cod_comp _ _ _).symm)) = true))

variable (en : Enumeration Obj Mor)

def leftFailures : Nat := en.mors.countP fun f => ¬ S.LeftUnitAt same f

def rightFailures : Nat := en.mors.countP fun f => ¬ S.RightUnitAt same f

/-- The composable triples. -/
def triples : List (Mor × Mor × Mor) :=
  (en.mors.product (en.mors.product en.mors)).filter fun t => S.Composable t

def assocFailures : Nat := (S.triples en).countP fun t => ¬ S.AssocAt same t

/-- The cases of the laws. -/
def cases : Nat := 2 * en.mors.length + (S.triples en).length

def failures : Nat := S.leftFailures same en + S.rightFailures same en + S.assocFailures same en

variable {S same en}

theorem failures_le : S.failures same en ≤ S.cases en := by
  have hl : S.leftFailures same en ≤ en.mors.length := countP_le_length
  have hr : S.rightFailures same en ≤ en.mors.length := countP_le_length
  have ha : S.assocFailures same en ≤ (S.triples en).length := countP_le_length
  rw [failures, cases]
  omega

theorem mem_triples {t : Mor × Mor × Mor} : t ∈ S.triples en ↔ S.Composable t := by
  obtain ⟨h, g, f⟩ := t
  simp [triples, en.mem_mors]

theorem failures_eq_zero : S.failures same en = 0 ↔ S.IsLawful same := by
  have hl : S.leftFailures same en = 0 ↔ ∀ f, S.LeftUnitAt same f := by
    simp [leftFailures, countP_eq_zero, en.mem_mors]
  have hr : S.rightFailures same en = 0 ↔ ∀ f, S.RightUnitAt same f := by
    simp [rightFailures, countP_eq_zero, en.mem_mors]
  have ha : S.assocFailures same en = 0 ↔ ∀ t, S.Composable t → S.AssocAt same t := by
    simp only [assocFailures, countP_eq_zero, mem_triples, decide_eq_true_eq, not_not]
  rw [failures, Nat.add_eq_zero_iff, Nat.add_eq_zero_iff, hl, hr, ha, and_assoc]
  exact ⟨fun h => ⟨h.1, h.2.1, h.2.2⟩, fun h => ⟨h.left_unit, h.right_unit, h.assoc⟩⟩

omit [DecidableEq Obj] in
/-- Where `same` tells morphisms apart, what is lawful is a category. -/
theorem isLawful_iff (hsame : ∀ f g, same f g = true ↔ f = g) :
    S.IsLawful same ↔ ∃ K : Category Obj Mor, K.raw = S := by
  constructor
  · intro h
    refine ⟨⟨S.dom, S.cod, S.ident, S.comp, S.dom_ident, S.cod_ident, S.dom_comp, S.cod_comp,
      fun f => (hsame _ _).1 (h.left_unit f), fun f => (hsame _ _).1 (h.right_unit f), ?_⟩, rfl⟩
    intro h' g f hg hh
    obtain ⟨_, _, heq⟩ := h.assoc (h', g, f) ⟨hh, hg⟩
    exact ((hsame _ _).1 heq).symm
  · rintro ⟨K, rfl⟩
    refine ⟨fun f => (hsame _ _).2 (K.ident_comp f), fun f => (hsame _ _).2 (K.comp_ident f), ?_⟩
    rintro t ⟨hh, hg⟩
    exact ⟨hh, hg, (hsame _ _).2 (K.assoc t.1 t.2.1 t.2.2 hg hh).symm⟩

end RawCategory

/-! ## Counting -/

/-- The result with `n` more cases, `m` of which fail. -/
def CheckResult.add (res : CheckResult) (n m : Nat) : CheckResult :=
  { res with checked := res.checked + UInt64.ofNat n, failed := res.failed + UInt64.ofNat m }

theorem CheckResult.add_zero (res : CheckResult) : res.add 0 0 = res := by
  simp [CheckResult.add]

theorem CheckResult.add_add (res : CheckResult) (n m n' m' : Nat) :
    (res.add n m).add n' m' = res.add (n + n') (m + m') := by
  simp [CheckResult.add, UInt64.ofNat_add, UInt64.add_assoc]

theorem CheckResult.count_eq (res : CheckResult) (valid : Bool) :
    res.count valid = res.add 1 (if valid = true then 0 else 1) := by
  cases valid
  · rfl
  · simp [CheckResult.count, CheckResult.add]

theorem sum_map_ite {α : Type} (p : α → Prop) [DecidablePred p] (l : List α) :
    (l.map fun a => if p a then 1 else 0).sum = l.countP fun a => p a := by
  induction l with
  | nil => rfl
  | cons a l ih =>
    by_cases ha : p a
    · simp [ha, ih, Nat.add_comm]
    · simp [ha, ih]

theorem sweep_add {α : Type} {step : α → CheckResult → Status × CheckResult} {n m : α → Nat}
    (hstep : ∀ a res, step a res = (.ok, res.add (n a) (m a))) (l : List α) (res : CheckResult) :
    sweep step l res = (.ok, res.add (l.map n).sum (l.map m).sum) := by
  induction l generalizing res with
  | nil => simp [sweep, CheckResult.add_zero]
  | cons a l ih => simp [sweep, hstep, ih, CheckResult.add_add]

section

variable {Obj Mor : Type} [DecidableEq Obj] {S : RawCategory Obj Mor} {same : Mor → Mor → Bool}
  {en : Enumeration Obj Mor} {room : Bool} {f g h : Mor}

theorem RawCategory.compose_of_eq (hg : S.dom g = S.cod f) : S.compose g f = .ok (S.comp g f hg) :=
  dif_pos hg

theorem composeAndCompare_eq (hg : S.dom g = S.cod f) (w : Mor) :
    composeAndCompare S same g f w = .ok (same (S.comp g f hg) w) := by
  rw [composeAndCompare, RawCategory.compose_of_eq hg]
  rfl

theorem checkLeftIdentity_eq : checkLeftIdentity S same f = .ok (S.LeftUnitAt same f) := by
  rw [checkLeftIdentity, composeAndCompare_eq (S.dom_ident _), Except.ok.injEq, Bool.eq_iff_iff,
    decide_eq_true_eq]
  exact Iff.rfl

theorem checkRightIdentity_eq : checkRightIdentity S same f = .ok (S.RightUnitAt same f) := by
  rw [checkRightIdentity, composeAndCompare_eq (S.cod_ident _).symm, Except.ok.injEq,
    Bool.eq_iff_iff, decide_eq_true_eq]
  exact Iff.rfl

theorem checkAssociativity_eq (hc : S.Composable (h, g, f)) :
    checkAssociativity S same h g f = .ok (S.AssocAt same (h, g, f)) := by
  obtain ⟨hh, hg⟩ : S.dom h = S.cod g ∧ S.dom g = S.cod f := hc
  have hlhs : S.dom (S.comp h g hh) = S.cod f := (S.dom_comp _ _ _).trans hg
  have hrhs : S.dom h = S.cod (S.comp g f hg) := hh.trans (S.cod_comp _ _ _).symm
  have hassoc : S.AssocAt same (h, g, f) ↔
      same (S.comp (S.comp h g hh) f hlhs) (S.comp h (S.comp g f hg) hrhs) = true :=
    ⟨fun ⟨_, _, heq⟩ => heq, fun heq => ⟨hh, hg, heq⟩⟩
  have hrun : checkAssociativity S same h g f =
      .ok (same (S.comp (S.comp h g hh) f hlhs) (S.comp h (S.comp g f hg) hrhs)) := by
    rw [checkAssociativity, RawCategory.compose_of_eq hh, RawCategory.compose_of_eq hg]
    change (do
      let lhs ← S.compose (S.comp h g hh) f
      let rhs ← S.compose h (S.comp g f hg)
      pure (same lhs rhs)) = _
    rw [RawCategory.compose_of_eq hlhs, RawCategory.compose_of_eq hrhs]
    rfl
  rw [hrun, Except.ok.injEq, Bool.eq_iff_iff, decide_eq_true_eq]
  exact hassoc.symm

/-- The row of a morphism. -/
def excRow (S : RawCategory Obj Mor) (m : Mor) : ExcRow Obj Mor := ⟨m, S.dom m, S.cod m⟩

theorem excLeftRight_eq (res : CheckResult) : excLeftRight S same (excRow S f) res =
    (.ok, res.add 2 ((if ¬ S.LeftUnitAt same f then 1 else 0) +
      if ¬ S.RightUnitAt same f then 1 else 0)) := by
  rw [excLeftRight, excRow, checkLeftIdentity_eq, checkRightIdentity_eq]
  simp only [CheckResult.count_eq, CheckResult.add_add, decide_eq_true_eq, ite_not]

theorem excTriple_eq (res : CheckResult) :
    excTriple S same (excRow S h) (excRow S g) (excRow S f) res =
      (.ok, res.add (if S.Composable (h, g, f) then 1 else 0)
        (if S.Composable (h, g, f) ∧ ¬ S.AssocAt same (h, g, f) then 1 else 0)) := by
  rw [excTriple, excRow, excRow, excRow]
  by_cases hc : S.Composable (h, g, f)
  · obtain ⟨hh, hg⟩ : S.dom h = S.cod g ∧ S.dom g = S.cod f := id hc
    rw [if_neg (not_not.2 hg.symm), if_neg (not_not.2 hh.symm), checkAssociativity_eq hc]
    simp only [CheckResult.count_eq, decide_eq_true_eq, hc, true_and, ite_not, if_true]
  · have hskip : S.cod f ≠ S.dom g ∨ S.cod g ≠ S.dom h := by
      by_contra hno
      obtain ⟨hg, hh⟩ := not_or.1 hno
      exact hc ⟨(not_not.1 hh).symm, (not_not.1 hg).symm⟩
    rcases hskip with hne | hne <;> simp [hne, hc, CheckResult.add_zero]

theorem sum_triples (p : Mor × Mor × Mor → Prop) [DecidablePred p] (l : List Mor) :
    (l.map fun h => (l.map fun g => (l.map fun f => if p (h, g, f) then 1 else 0).sum).sum).sum =
      (l.product (l.product l)).countP fun t => p t := by
  simp only [sum_map_ite, product, countP_flatMap]
  refine congrArg sum (map_congr_left fun h _ => ?_)
  rw [Function.comp_apply, countP_map, countP_flatMap]
  refine congrArg sum (map_congr_left fun g _ => ?_)
  rw [Function.comp_apply, countP_map]
  rfl

theorem sweep_map {α β : Type} (step : β → CheckResult → Status × CheckResult) (φ : α → β)
    (l : List α) : sweep step (l.map φ) = sweep (fun a => step (φ a)) l := by
  funext res
  induction l generalizing res with
  | nil => rfl
  | cons a l ih => simp only [map_cons, sweep, ih]

theorem sweep_units (res : CheckResult) :
    sweep (excLeftRight S same) (en.mors.map (excRow S)) res =
      (.ok, res.add (2 * en.mors.length)
        (S.leftFailures same en + S.rightFailures same en)) := by
  have hstep : ∀ f res, excLeftRight S same (excRow S f) res =
      (.ok, res.add 2 ((if ¬ S.LeftUnitAt same f then 1 else 0) +
        if ¬ S.RightUnitAt same f then 1 else 0)) := fun f res => excLeftRight_eq res
  rw [sweep_map, sweep_add hstep, sum_map_add, sum_map_ite, sum_map_ite, map_const',
    sum_replicate_nat, Nat.mul_comm]
  rfl

theorem sweep_triples (res : CheckResult) :
    sweep (fun i => sweep (fun j => sweep (fun k => excTriple S same i j k)
        (en.mors.map (excRow S))) (en.mors.map (excRow S))) (en.mors.map (excRow S)) res =
      (.ok, res.add (S.triples en).length (S.assocFailures same en)) := by
  have hcell : ∀ h g f res, excTriple S same (excRow S h) (excRow S g) (excRow S f) res =
      (.ok, res.add (if S.Composable (h, g, f) then 1 else 0)
        (if S.Composable (h, g, f) ∧ ¬ S.AssocAt same (h, g, f) then 1 else 0)) :=
    fun h g f res => excTriple_eq res
  have hrow := fun h g res => sweep_add (hcell h g) en.mors res
  have hplane := fun h res => sweep_add (hrow h) en.mors res
  simp only [sweep_map]
  rw [sweep_add hplane, sum_triples (fun t => S.Composable t),
    sum_triples (fun t => S.Composable t ∧ ¬ S.AssocAt same t)]
  rw [RawCategory.assocFailures, RawCategory.triples, countP_filter,
    ← countP_eq_length_filter]
  simp only [Bool.decide_and, Bool.and_comm]

/-- The checker counts modulo `2 ^ 64`. -/
theorem checkCategoryExhaustive_eq (hroom : allocates room (en.mors.length * sizeofMor) = true) :
    checkCategoryExhaustive S (some same) (some en) room =
      (.ok, CheckResult.init.add (S.cases en) (S.failures same en)) := by
  have hfill : excOpenFill S en room = .ok (en.mors.map (excRow S)) := by
    rw [excOpenFill, hroom]
    rfl
  simp only [checkCategoryExhaustive, hfill, sweep_units, sweep_triples, CheckResult.add_add]
  rfl

/-- `cat89_check_category_exhaustive` counts the cases of the laws and those that fail, and none
fails exactly in a category. -/
def CheckExact (S : RawCategory Obj Mor) (same : Mor → Mor → Bool) (en : Enumeration Obj Mor)
    (room : Bool) : Prop :=
  ∃ res, checkCategoryExhaustive S (some same) (some en) room = (.ok, res) ∧
    res.checked.toNat = S.cases en ∧ res.failed.toNat = S.failures same en ∧
    (res.failed = 0 ↔ S.IsLawful same)

theorem checkExact_iff (hroom : allocates room (en.mors.length * sizeofMor) = true) :
    CheckExact S same en room ↔ S.cases en < 2 ^ 64 := by
  constructor
  · rintro ⟨res, -, hchecked, -⟩
    rw [← hchecked]
    exact res.checked.toNat_lt
  · intro hlt
    have hfailures : S.failures same en < 2 ^ 64 := RawCategory.failures_le.trans_lt hlt
    refine ⟨_, checkCategoryExhaustive_eq hroom, ?_, ?_, ?_⟩
    · simp only [CheckResult.add, CheckResult.init, UInt64.zero_add]
      exact UInt64.toNat_ofNat_of_lt' hlt
    · simp only [CheckResult.add, CheckResult.init, UInt64.zero_add]
      exact UInt64.toNat_ofNat_of_lt' hfailures
    · rw [← RawCategory.failures_eq_zero]
      simp only [CheckResult.add, CheckResult.init, UInt64.zero_add]
      rw [← UInt64.toNat_inj, UInt64.toNat_ofNat_of_lt' hfailures]
      rfl

end

/-! ## Tables -/

/-- `cat89_finite_build_unchecked`. -/
def finiteBuildUnchecked (b : Builder) (mem : Answers) (eq enum : Bool) : Reply Store :=
  buildCommon b false mem eq enum

namespace Tables

variable {t : Tables} {a b c f g : Nat}

theorem typed_get (f : Fin t.mors.length) : t.Typed f (t.mors.get f).dom (t.mors.get f).cod :=
  getElem?_eq_getElem f.2

theorem Total.ident_typed (ht : t.Total) (a : Fin t.ident.length) :
    t.Typed (t.ident.get a) a a := by
  obtain ⟨e, he, htyped⟩ := ht.identity a a.2
  obtain rfl := Option.some.inj ((getElem?_eq_getElem a.2).symm.trans he)
  exact htyped

theorem Total.lookup (ht : t.Total) (hf : t.Typed f a b) (hg : t.Typed g b c) :
    t.Comp g f (t.compLookup g f).1 ∧ t.Typed (t.compLookup g f).1 a c := by
  obtain ⟨r, hr, htyped⟩ := ht.complete hf hg
  rw [hr.lookup]
  exact ⟨hr, htyped⟩

theorem Ends.dom_lt (hends : t.Ends) (f : Fin t.mors.length) :
    (t.mors.get f).dom < t.ident.length :=
  (hends f _ _ (typed_get f)).1

theorem Ends.cod_lt (hends : t.Ends) (f : Fin t.mors.length) :
    (t.mors.get f).cod < t.ident.length :=
  (hends f _ _ (typed_get f)).2

theorem Total.lookup_get (ht : t.Total) (hends : t.Ends) {g f : Fin t.mors.length}
    (h : (⟨(t.mors.get g).dom, hends.dom_lt g⟩ : Fin t.ident.length) =
      ⟨(t.mors.get f).cod, hends.cod_lt f⟩) :
    t.Comp g f (t.compLookup g f).1 ∧
      t.Typed (t.compLookup g f).1 (t.mors.get f).dom (t.mors.get g).cod := by
  have hg := typed_get g
  rw [Fin.mk.inj h] at hg
  exact ht.lookup (typed_get f) hg

theorem Typed.get (hf : t.Typed f a b) :
    (t.mors.get ⟨f, hf.lt⟩).dom = a ∧ (t.mors.get ⟨f, hf.lt⟩).cod = b :=
  (typed_get ⟨f, hf.lt⟩).unique hf

/-- What total tables give. -/
def raw (t : Tables) (ht : t.Total) (hends : t.Ends) :
    RawCategory (Fin t.ident.length) (Fin t.mors.length) where
  dom f := ⟨(t.mors.get f).dom, hends.dom_lt f⟩
  cod f := ⟨(t.mors.get f).cod, hends.cod_lt f⟩
  ident a := ⟨t.ident.get a, (ht.ident_typed a).lt⟩
  comp g f h := ⟨(t.compLookup g f).1, (ht.lookup_get hends h).2.lt⟩
  dom_ident a := Fin.ext (ht.ident_typed a).get.1
  cod_ident a := Fin.ext (ht.ident_typed a).get.2
  dom_comp _ _ h := Fin.ext (ht.lookup_get hends h).2.get.1
  cod_comp _ _ h := Fin.ext (ht.lookup_get hends h).2.get.2

/-- The enumeration of what tables give. -/
def enumeration (t : Tables) : Enumeration (Fin t.ident.length) (Fin t.mors.length) where
  objs := finRange _
  mors := finRange _
  objs_nodup := nodup_finRange _
  mors_nodup := nodup_finRange _
  mem_objs := mem_finRange
  mem_mors := mem_finRange

/-- `mor_equal_fn`. -/
def sameRow (f g : Fin t.mors.length) : Bool := f.1 == g.1

theorem sameRow_iff {f g : Fin t.mors.length} : sameRow f g = true ↔ f = g := by
  rw [sameRow, beq_iff_eq, Fin.ext_iff]

variable {ht : t.Total} {hends : t.Ends}

theorem lookup_left_unit (h : (t.raw ht hends).IsLawful sameRow) (hf : t.Typed f a b)
    (hb : b < t.ident.length) : (t.compLookup t.ident[b] f).1 = f := by
  have hunit := h.left_unit ⟨f, hf.lt⟩
  rw [RawCategory.LeftUnitAt, sameRow_iff, Fin.ext_iff] at hunit
  have hcod : (t.raw ht hends).cod ⟨f, hf.lt⟩ = ⟨b, hb⟩ :=
    Fin.ext hf.get.2
  change (t.compLookup (t.ident.get ((t.raw ht hends).cod ⟨f, hf.lt⟩)) f).1 = f at hunit
  rw [hcod] at hunit
  exact hunit

theorem lookup_right_unit (h : (t.raw ht hends).IsLawful sameRow) (hf : t.Typed f a b)
    (ha : a < t.ident.length) : (t.compLookup f t.ident[a]).1 = f := by
  have hunit := h.right_unit ⟨f, hf.lt⟩
  rw [RawCategory.RightUnitAt, sameRow_iff, Fin.ext_iff] at hunit
  have hdom : (t.raw ht hends).dom ⟨f, hf.lt⟩ = ⟨a, ha⟩ :=
    Fin.ext hf.get.1
  change (t.compLookup f (t.ident.get ((t.raw ht hends).dom ⟨f, hf.lt⟩))).1 = f at hunit
  rw [hdom] at hunit
  exact hunit

theorem lookup_assoc {d h' : Nat} (h : (t.raw ht hends).IsLawful sameRow) (hf : t.Typed f a b)
    (hg : t.Typed g b c) (hh : t.Typed h' c d) :
    (t.compLookup (t.compLookup h' g).1 f).1 = (t.compLookup h' (t.compLookup g f).1).1 := by
  obtain ⟨-, hcodF⟩ := hf.get
  obtain ⟨hdomG, hcodG⟩ := hg.get
  obtain ⟨hdomH, -⟩ := hh.get
  obtain ⟨_, _, heq⟩ := h.assoc (⟨h', hh.lt⟩, ⟨g, hg.lt⟩, ⟨f, hf.lt⟩)
    ⟨Fin.ext (hdomH.trans hcodG.symm), Fin.ext (hdomG.trans hcodF.symm)⟩
  rw [sameRow_iff, Fin.ext_iff] at heq
  exact heq

/-- The laws of what total tables give are those of the tables. -/
theorem raw_isLawful :
    (t.raw ht hends).IsLawful sameRow ↔ t.IsCategory := by
  constructor
  · intro h
    refine ⟨ht.identity, ht.complete, ht.composable, ?_, ?_, ?_⟩
    · intro f g h' a b c d gf hg hf hg' hh hgf hhg
      obtain ⟨hgf', hgft⟩ := ht.lookup hf hg'
      obtain ⟨hhg', hhgt⟩ := ht.lookup hg' hh
      obtain rfl := hgf.unique hgf'
      obtain rfl := hhg.unique hhg'
      refine ⟨_, (ht.lookup hgft hh).1, ?_⟩
      have heq : (t.compLookup (t.compLookup h' g).1 f).1 =
          (t.compLookup h' (t.compLookup g f).1).1 :=
        lookup_assoc h hf hg' hh
      rw [← heq]
      exact (ht.lookup hf hhgt).1
    · intro f a b e hf he
      obtain ⟨hb, rfl⟩ := List.getElem?_eq_some_iff.1 he
      have htyped : t.Typed t.ident[b] b b := ht.ident_typed ⟨b, hb⟩
      have heq : (t.compLookup t.ident[b] f).1 = f := lookup_left_unit h hf hb
      have hc := (ht.lookup hf htyped).1
      rwa [heq] at hc
    · intro f a b e hf he
      obtain ⟨ha, rfl⟩ := List.getElem?_eq_some_iff.1 he
      have htyped : t.Typed t.ident[a] a a := ht.ident_typed ⟨a, ha⟩
      have heq : (t.compLookup f t.ident[a]).1 = f := lookup_right_unit h hf ha
      have hc := (ht.lookup htyped hf).1
      rwa [heq] at hc
  · intro h
    refine ⟨fun f => ?_, fun f => ?_, ?_⟩
    · have hc := h.left_unit (typed_get f) (getElem?_eq_getElem (hends.cod_lt f))
      rw [RawCategory.LeftUnitAt, sameRow_iff, Fin.ext_iff]
      exact congrArg Prod.fst hc.lookup
    · have hc := h.right_unit (typed_get f) (getElem?_eq_getElem (hends.dom_lt f))
      rw [RawCategory.RightUnitAt, sameRow_iff, Fin.ext_iff]
      exact congrArg Prod.fst hc.lookup
    · rintro ⟨h', g, f⟩ ⟨hh, hg⟩
      refine ⟨hh, hg, ?_⟩
      rw [sameRow_iff, Fin.ext_iff]
      have hg' := typed_get g
      rw [Fin.mk.inj hg] at hg'
      have hh' := typed_get h'
      rw [Fin.mk.inj hh] at hh'
      obtain ⟨r, hl, hr⟩ := h.assoc (typed_get f) hg' hh' (ht.lookup (typed_get f) hg').1
        (ht.lookup hg' hh').1
      change (t.compLookup (t.compLookup h' g).1 f).1 = (t.compLookup h' (t.compLookup g f).1).1
      rw [hl.lookup, hr.lookup]

end Tables

/-! ## The checker is exact -/

/-- `cat89_check_category_exhaustive` is exact on what the tables of `b` give, and its verdict is
that of `cat89_finite_validate`. -/
def CheckAgrees (b : Builder) (ht : b.tables.Total) (hends : b.tables.Ends) (room : Bool) : Prop :=
  CheckExact (b.tables.raw ht hends) Tables.sameRow b.tables.enumeration room ∧
    ∀ res, checkCategoryExhaustive (b.tables.raw ht hends) (some Tables.sameRow)
        (some b.tables.enumeration) room = (.ok, res) →
      finiteValidate b = some (decide (res.failed = 0))

theorem checkAgrees_iff {b : Builder} {ht : b.tables.Total} {hends : b.tables.Ends} {room : Bool}
    (hroom : allocates room (b.tables.mors.length * sizeofMor) = true) :
    CheckAgrees b ht hends room ↔
      (b.tables.raw ht hends).cases b.tables.enumeration < 2 ^ 64 := by
  have hroom' : allocates room (b.tables.enumeration.mors.length * sizeofMor) = true := by
    rwa [Tables.enumeration, length_finRange]
  rw [CheckAgrees, checkExact_iff hroom', and_iff_left_iff_imp]
  intro hlt res hres
  obtain ⟨res', hres', -, -, hzero⟩ := (checkExact_iff hroom').2 hlt
  obtain rfl : res = res' := by
    rw [hres] at hres'
    exact (Prod.mk.inj hres').2
  obtain ⟨v, hv, hiff⟩ := Builder.validate_decides hends
  rw [hv, Option.some_inj, Bool.eq_iff_iff, decide_eq_true_eq, hiff, hzero, Tables.raw_isLawful]

/-- Without a check of the laws, a build needs memory only, and the category it makes is what the
tables give. -/
theorem Builder.unchecked {b : Builder} (ht : b.tables.Total) :
    (∀ mem eq enum, (∀ site, (mem site).isSome) →
      ∃ s, finiteBuildUnchecked b mem eq enum = some (.ok s)) ∧
    ∀ mem eq enum s, finiteBuildUnchecked b mem eq enum = some (.ok s) → Represents s b.tables := by
  refine ⟨fun mem eq enum hmem => ?_, fun mem eq enum s h => ?_⟩
  · obtain ⟨s, hs⟩ := Builder.storeBuild_ok (b := b) hmem
    have hsome : ∀ site, (mem site).isNone = false := by
      intro site
      rw [Option.isNone_eq_false_iff]
      exact hmem site
    refine ⟨s, ?_⟩
    rw [finiteBuildUnchecked, buildCommon, if_neg (by simp), hs]
    simp [hsome]
  · have hlen : b.tables.mors.length ≤ finSentinel := by
      have := Builder.length_le b.mors (show 1 ≤ 16 by omega)
      rwa [Nat.mul_one] at this
    exact (Builder.buildCommon_copies h).2.represents ht hlen

/-- The exhaustive checker counts all cases of the laws and all that fail, and agrees with
`cat89_finite_validate`, exactly as long as there are less than `2 ^ 64` cases. -/
theorem checker_exact_iff {Obj Mor : Type} [DecidableEq Obj] (S : RawCategory Obj Mor)
    (same : Mor → Mor → Bool) (en : Enumeration Obj Mor) {room : Bool}
    (hroom : allocates room (en.mors.length * sizeofMor) = true) :
    (CheckExact S same en room ↔ S.cases en < 2 ^ 64) ∧
    ((∀ f g, same f g = true ↔ f = g) → (S.IsLawful same ↔ ∃ K : Category Obj Mor, K.raw = S)) ∧
    ∀ (w : World) (b : Builder) (hw : w.Reached) (hb : w.builder = some b)
      (ht : b.tables.Total) (room' : Bool),
      allocates room' (b.tables.mors.length * sizeofMor) = true →
      (∀ mem eq enum, (∀ site, (mem site).isSome) →
        ∃ s, finiteBuildUnchecked b mem eq enum = some (.ok s)) ∧
      (∀ mem eq enum s, finiteBuildUnchecked b mem eq enum = some (.ok s) →
        Represents s b.tables) ∧
      (CheckAgrees b ht (hw.ends hb) room' ↔
        (b.tables.raw ht (hw.ends hb)).cases b.tables.enumeration < 2 ^ 64) := by
  refine ⟨checkExact_iff hroom, RawCategory.isLawful_iff, ?_⟩
  intro w b hw hb ht room' hroom'
  exact ⟨(Builder.unchecked ht).1, (Builder.unchecked ht).2, checkAgrees_iff hroom'⟩

/-- Of the monoid with one object, every triple composes. -/
theorem cases_leftZero (n : Nat) :
    (leftZero n).raw.cases (leftZeroEnumeration n) =
      2 * (n + 1) + (n + 1) * ((n + 1) * (n + 1)) := by
  have hlen : (leftZeroEnumeration n).mors.length = n + 1 := by simp [leftZeroEnumeration]
  have hall : (leftZero n).raw.triples (leftZeroEnumeration n) = _ :=
    filter_eq_self.2 fun t _ => by
      rw [decide_eq_true_eq]
      exact ⟨rfl, rfl⟩
  have hproduct : ∀ (l : List (Option (Fin n))), (l.product (l.product l)).length =
      l.length * (l.length * l.length) := fun l => by
    rw [← length_product, ← length_product]
    rfl
  rw [RawCategory.cases, hall, hproduct, hlen]

theorem checker_exact_two :
    CheckExact (leftZero 1).raw (fun f g => f == g) (leftZeroEnumeration 1) true ∧
      (leftZero 1).raw.IsLawful (fun f g => f == g) := by
  obtain ⟨hexact, hlawful, -⟩ := checker_exact_iff (leftZero 1).raw (fun f g => f == g)
    (leftZeroEnumeration 1) (show allocates true _ = true by decide)
  exact ⟨hexact.mpr (by rw [cases_leftZero]; decide),
    (hlawful fun _ _ => beq_iff_eq).mpr ⟨_, rfl⟩⟩

theorem leftZero_exact_iff (n : Nat) (hroom : allocates true ((n + 1) * sizeofMor) = true) :
    CheckExact (leftZero n).raw (fun f g => f == g) (leftZeroEnumeration n) true ↔
      2 * (n + 1) + (n + 1) * ((n + 1) * (n + 1)) < 2 ^ 64 := by
  have hlen : (leftZeroEnumeration n).mors.length = n + 1 := by simp [leftZeroEnumeration]
  rw [checkExact_iff (by rwa [hlen]), cases_leftZero]

/-- With `2 ^ 22` morphisms the counter wraps. -/
theorem not_checker_exact : ¬ CheckExact (leftZero (2 ^ 22)).raw (fun f g => f == g)
    (leftZeroEnumeration (2 ^ 22)) true := by
  intro h
  have hlt := (leftZero_exact_iff (2 ^ 22) (by decide)).1 h
  omega

end Cat89
