import EightyNine.Library.Stall
import EightyNine.Wasm89.Section
import Mathlib.Data.Set.Finite.Basic

/-!
# The search through supertypes

Matching searches the declared supertypes of a type, depth first, for one that stands
for the other.  It stalls exactly when the search comes to a cycle.
-/

namespace Wasm89

open List

open Library (Answers Circles Ends Returns)
open Relation (ReflTransGen)

variable {rts pre : List (RecType Nat)} {rt : RecType Nat} {sub : SubType Nat} {x y z k n : Nat}

/-- The two types stand for the same, up to the mutability of fields. -/
def Same (rts : List (RecType Nat)) (x y : Nat) : Prop :=
  rolled (eraseMuts rts) x = rolled (eraseMuts rts) y

/-- A type reached through declared supertypes stands for `y`. -/
def RisesTo (rts : List (RecType Nat)) (x y : Nat) : Prop :=
  ∃ z, ReflTransGen (Declares rts) x z ∧ Same rts z y

/-- Searching for `y` goes on from `x` to its supertype `z`: `x` is not found to be it, and
the supertypes before `z` do not lead to it. -/
def Seeks (rts : List (RecType Nat)) (y x z : Nat) : Prop :=
  ¬Same rts x y ∧ ∃ sub before after, rts.flatten[x]? = some sub ∧
    sub.supertypes = before ++ z :: after ∧ ∀ w ∈ before, ¬RisesTo rts w y

/-! ## Answers are kept with more fuel -/

section

variable {use use' : Nat → Nat → Option Bool} {env : TypeEnv}

theorem allEq_extends {α β : Type} {eq eq' : α → β → Option Bool}
    (h : ∀ a b, Library.Extends (eq a b) (eq' a b)) (as : List α) (bs : List β) :
    Library.Extends (allEq eq as bs) (allEq eq' as bs) := by
  induction as generalizing bs with
  | nil => exact .refl _
  | cons a as ih =>
    cases bs with
    | nil => exact .refl _
    | cons b bs => exact (h a b).bind fun _ => .ite (ih bs) (.refl _)

variable {f : Nat → Option Bool}

theorem anyOf_extends {f' : Nat → Option Bool} (hf : ∀ x, Library.Extends (f x) (f' x)) (xs : List Nat) :
    Library.Extends (anyOf f xs) (anyOf f' xs) := by
  induction xs with
  | nil => exact .refl _
  | cons x xs ih => exact (hf x).bind fun _ => .ite (.refl _) ih

section

variable (h : ∀ x y, Library.Extends (use x y) (use' x y))
include h

theorem htCanonEq_extends (a b : RefType Nat) : Library.Extends (htCanonEq use a b) (htCanonEq use' a b) := by
  obtain ⟨an, ah⟩ := a
  obtain ⟨bn, bh⟩ := b
  cases ah with
  | idx x =>
    cases bh with
    | idx y => exact h x y
    | abs k => exact .refl _
  | abs j =>
    cases bh with
    | idx y | abs k => exact .refl _

theorem vtCanonEq_extends (a b : ValType Nat) : Library.Extends (vtCanonEq use a b) (vtCanonEq use' a b) := by
  cases a with
  | num n =>
    cases b with
    | num m | ref b => exact .refl _
  | ref a =>
    cases b with
    | num m => exact .refl _
    | ref b => exact .ite (.refl _) (htCanonEq_extends h a b)

theorem fieldCanonEq_extends (a b : FieldType Nat) :
    Library.Extends (fieldCanonEq use a b) (fieldCanonEq use' a b) := by
  obtain ⟨as, am⟩ := a
  obtain ⟨bs, bm⟩ := b
  cases as with
  | packed p =>
    cases bs with
    | packed q | val w => exact .refl _
  | val v =>
    cases bs with
    | packed q => exact .refl _
    | val w => exact vtCanonEq_extends h v w

theorem funcCanonEq_extends (ps rs ps' rs' : List (ValType Nat)) :
    Library.Extends (funcCanonEq use ps rs ps' rs') (funcCanonEq use' ps rs ps' rs') := by
  refine .ite (.refl _) (.ite (.refl _) ?_)
  exact (allEq_extends (vtCanonEq_extends h) ps ps').bind fun _ =>
    .ite (allEq_extends (vtCanonEq_extends h) rs rs') (.refl _)

theorem comptypeCanonEq_extends (a b : SubType Nat) :
    Library.Extends (comptypeCanonEq use a b) (comptypeCanonEq use' a b) := by
  obtain ⟨afin, asup, ac⟩ := a
  obtain ⟨bfin, bsup, bc⟩ := b
  cases ac with
  | func ps rs =>
    cases bc with
    | func ps' rs' => exact funcCanonEq_extends h ps rs ps' rs'
    | struct fs' | array ft' => exact .refl _
  | struct fs =>
    cases bc with
    | func ps' rs' => exact .refl _
    | struct fs' => exact .ite (.refl _) (allEq_extends (fieldCanonEq_extends h) fs fs')
    | array ft' => exact .refl _
  | array ft =>
    cases bc with
    | func ps' rs' | struct fs' => exact .refl _
    | array ft' => exact fieldCanonEq_extends h ft ft'

theorem subCanonEq_extends (a b : SubType Nat) :
    Library.Extends (subCanonEq use (comptypeCanonEq use) a b)
      (subCanonEq use' (comptypeCanonEq use') a b) := by
  refine .ite (.refl _) (.ite (.refl _) ?_)
  exact (allEq_extends h a.supertypes b.supertypes).bind fun _ =>
    .ite (comptypeCanonEq_extends h a b) (.refl _)

theorem typeuseCanonEq_extends (ga gb x y : Nat) :
    Library.Extends (typeuseCanonEq env ga gb use x y) (typeuseCanonEq env ga gb use' x y) :=
  .ite (.refl _) (.ite (.refl _) (.ite (.refl _) (h x y)))

theorem recgroupCanonEq_extends (ga gb : Nat) :
    Library.Extends (recgroupCanonEq env use ga gb) (recgroupCanonEq env use' ga gb) := by
  refine .ite (.refl _) (.ite (.refl _) ?_)
  exact allEq_extends (subCanonEq_extends (typeuseCanonEq_extends h ga gb)) _ _

end

theorem typeCanonEq_extends (n : Nat) (env : TypeEnv) (a b : Nat) :
    Library.Extends (typeCanonEq n env a b) (typeCanonEq (n + 1) env a b) := by
  induction n generalizing a b with
  | zero => exact .none _
  | succ n ih =>
    exact .ite (.refl _) (.ite (.refl _) (.ite (.refl _) (.ite (.refl _)
      (recgroupCanonEq_extends ih _ _))))

theorem matchDeftype_extends (n : Nat) (env : TypeEnv) (a b : Nat) :
    Library.Extends (matchDeftype n env a b) (matchDeftype (n + 1) env a b) := by
  induction n generalizing a with
  | zero => exact .none _
  | succ n ih =>
    refine .ite (.refl _) ((typeCanonEq_extends n env a b).bind fun _ => .ite (.refl _) ?_)
    exact anyOf_extends (fun sp => ih sp) _

end

/-! ## Supertypes -/

theorem Same.risesTo (h : Same rts x y) : RisesTo rts x y := ⟨x, .refl, h⟩

theorem risesTo_iff (h : rts.flatten[x]? = some sub) :
    RisesTo rts x y ↔ Same rts x y ∨ ∃ z ∈ sub.supertypes, RisesTo rts z y := by
  constructor
  · rintro ⟨w, hxw, hw⟩
    rcases ReflTransGen.cases_head hxw with rfl | ⟨z, ⟨sub', hsub', hz⟩, hzw⟩
    · exact .inl hw
    · rw [h] at hsub'
      cases hsub'
      exact .inr ⟨z, hz, w, hzw, hw⟩
  · rintro (hsame | ⟨z, hz, w, hzw, hw⟩)
    · exact hsame.risesTo
    · exact ⟨w, .head ⟨sub, h, hz⟩ hzw, hw⟩

theorem Seeks.declares (h : Seeks rts y x z) : Declares rts x z := by
  obtain ⟨-, sub, before, after, hsub, hsup, -⟩ := h
  exact ⟨sub, hsub, hsup ▸ mem_append_right _ mem_cons_self⟩

theorem RefsOk.declares_lt (hrefs : RefsOk rts) (h : Declares rts x z) : z < rts.flatten.length := by
  obtain ⟨sub, hsub, hz⟩ := h
  obtain ⟨pre, rt, k, sub', hloc⟩ := exists_located (List.getElem?_eq_some_iff.mp hsub).1
  have hflat := hloc.flatten
  rw [hsub] at hflat
  cases hflat
  exact hloc.lt_length (hrefs.located hloc (supertypes_uses hz))

theorem RefsOk.ends_iff (hrefs : RefsOk rts) : Ends (Seeks rts y) x ↔ ¬Circles (Seeks rts y) x := by
  refine Library.ends_iff_not_circles ((Set.finite_lt_nat (rts.flatten.length + x + 1)).subset ?_)
  intro z hz
  show z < rts.flatten.length + x + 1
  rcases ReflTransGen.cases_tail hz with rfl | ⟨w, -, hwz⟩
  · omega
  · have := hrefs.declares_lt hwz.declares
    omega

/-! ## One type after the other -/

theorem anyOf_cons (f : Nat → Option Bool) (x : Nat) (xs : List Nat) :
    anyOf f (x :: xs) = f x >>= fun v => if v = true then some true else anyOf f xs := rfl

variable {P : Nat → Prop} {v : Bool} {xs : List Nat}

theorem anyOf_tells
    (h : ∀ x ∈ xs, ∀ v, f x = some v → (v = true ↔ P x)) (hv : anyOf f xs = some v) :
    v = true ↔ ∃ x ∈ xs, P x := by
  induction xs with
  | nil =>
    cases hv
    simp
  | cons x xs ih =>
    rw [anyOf_cons] at hv
    obtain ⟨u, hu, hrest⟩ := Option.bind_eq_some_iff.mp hv
    have hx := h x mem_cons_self u hu
    cases u with
    | true =>
      cases hrest
      exact iff_of_true rfl ⟨x, mem_cons_self, hx.mp rfl⟩
    | false =>
      have hxs := ih (fun z hz => h z (mem_cons_of_mem _ hz)) hrest
      have hno : ¬P x := fun hP => absurd (hx.mpr hP) Bool.false_ne_true
      rw [hxs]
      simp [hno]

/-- The loop stalls at a supertype when those before it do not lead to the type. -/
theorem anyOf_stalls {before after : List Nat}
    (h : ∀ x ∈ before, ∀ v, f x = some v → (v = true ↔ P x)) (hno : ∀ x ∈ before, ¬P x)
    (hz : f z = none) : anyOf f (before ++ z :: after) = none := by
  induction before with
  | nil =>
    rw [nil_append, anyOf_cons, hz]
    rfl
  | cons x before ih =>
    rw [cons_append, anyOf_cons]
    cases hx : f x with
    | none => rfl
    | some v =>
      cases v with
      | true => exact absurd ((h x mem_cons_self true hx).mp rfl) (hno x mem_cons_self)
      | false =>
        exact ih (fun z hz => h z (mem_cons_of_mem _ hz))
          fun z hz => hno z (mem_cons_of_mem _ hz)

/-- The loop returns when each supertype does that it comes to. -/
theorem anyOf_returns {f : Nat → Nat → Option Bool}
    (htells : ∀ x ∈ xs, ∀ v, Returns (fun n => f n x) v → (v = true ↔ P x))
    (h : ∀ before z after, xs = before ++ z :: after → (∀ w ∈ before, ¬P w) →
      ∃ v, Returns (fun n => f n z) v) : ∃ v, Returns (fun n => anyOf (f n) xs) v := by
  induction xs with
  | nil => exact ⟨false, .pure false⟩
  | cons x xs ih =>
    obtain ⟨v, hv⟩ := h [] x xs rfl fun w hw => absurd hw not_mem_nil
    have hx := htells x mem_cons_self v hv
    cases v with
    | true => exact ⟨true, hv.bind (.pure true)⟩
    | false =>
      have hno : ¬P x := fun hP => absurd (hx.mpr hP) Bool.false_ne_true
      obtain ⟨u, hu⟩ := ih (fun z hz => htells z (mem_cons_of_mem _ hz)) (by
        rintro before z after rfl hbefore
        refine h (x :: before) z after rfl fun w hw => ?_
        rcases mem_cons.mp hw with rfl | hw
        · exact hno
        · exact hbefore w hw)
      exact ⟨u, hv.bind hu⟩

/-! ## Matching -/

section

variable (hrefs : RefsOk rts)
include hrefs

theorem typeCanonEq_tells (hx : x < rts.flatten.length) (hy : y < rts.flatten.length)
    (h : typeCanonEq n (typeenvBuild rts) x y = some v) : v = true ↔ Same rts x y := by
  obtain ⟨u, hu, huP⟩ := typeCanonEq_whether hrefs hx hy
  have hret := Library.returns_of_extends (fun n => typeCanonEq_extends n (typeenvBuild rts) x y) h
  rw [hret.unique hu]
  exact huP

theorem typeCanonEq_returns (hx : x < rts.flatten.length) (hy : y < rts.flatten.length) :
    ∃ v, Returns (fun n => typeCanonEq n (typeenvBuild rts) x y) v := by
  obtain ⟨u, hu, -⟩ := typeCanonEq_whether hrefs hx hy
  exact ⟨u, hu⟩

theorem matchDeftype_tells (hx : x < rts.flatten.length) (hy : y < rts.flatten.length)
    (h : matchDeftype n (typeenvBuild rts) x y = some v) : v = true ↔ RisesTo rts x y := by
  induction n generalizing x v with
  | zero => cases h
  | succ n ih =>
    obtain ⟨pre, rt, k, sub, hloc⟩ := exists_located hx
    rw [matchDeftype, hloc.type] at h
    rw [risesTo_iff hloc.flatten]
    by_cases hxy : x = y
    · rw [if_pos hxy] at h
      cases h
      exact iff_of_true rfl (.inl (hxy ▸ rfl))
    rw [if_neg hxy] at h
    obtain ⟨u, hu, hrest⟩ := Option.bind_eq_some_iff.mp h
    have hsame := typeCanonEq_tells hrefs hx hy hu
    cases u with
    | true =>
      cases hrest
      exact iff_of_true rfl (.inl (hsame.mp rfl))
    | false =>
      have hno : ¬Same rts x y := fun hs => absurd (hsame.mpr hs) Bool.false_ne_true
      rw [or_iff_right hno]
      exact anyOf_tells (fun z hz v hv => ih (hrefs.declares_lt (hloc.declares.mpr hz)) hv) hrest

theorem matchDeftype_stalls (hx : x < rts.flatten.length) (hy : y < rts.flatten.length)
    (h : Circles (Seeks rts y) x) : matchDeftype n (typeenvBuild rts) x y = none := by
  induction n generalizing x with
  | zero => rfl
  | succ n ih =>
    obtain ⟨z, hseeks, hz⟩ := h.step
    have hdecl := hseeks.declares
    obtain ⟨hno, sub, before, after, hsub, hsup, hbefore⟩ := hseeks
    obtain ⟨pre, rt, k, sub', hloc⟩ := exists_located hx
    have hflat := hloc.flatten
    rw [hsub] at hflat
    cases hflat
    have hxy : x ≠ y := fun hxy => hno (hxy ▸ rfl)
    rw [matchDeftype, if_neg hxy, hloc.type]
    cases hcanon : typeCanonEq n (typeenvBuild rts) x y with
    | none => rfl
    | some u =>
      cases u with
      | true => exact absurd ((typeCanonEq_tells hrefs hx hy hcanon).mp rfl) hno
      | false =>
        show anyOf (fun sp => matchDeftype n (typeenvBuild rts) sp y) sub.supertypes = none
        rw [hsup]
        refine anyOf_stalls (fun w hw v hv => matchDeftype_tells hrefs ?_ hy hv) hbefore
          (ih (hrefs.declares_lt hdecl) hz)
        exact hrefs.declares_lt ⟨sub, hsub, hsup ▸ mem_append_left _ hw⟩

theorem matchDeftype_returns (hx : x < rts.flatten.length) (hy : y < rts.flatten.length)
    (h : Ends (Seeks rts y) x) : ∃ v, Returns (fun n => matchDeftype n (typeenvBuild rts) x y) v := by
  induction h with
  | intro x _ ih =>
    obtain ⟨pre, rt, k, sub, hloc⟩ := exists_located hx
    by_cases hxy : x = y
    · refine ⟨true, .succ ?_⟩
      simp only [matchDeftype, if_pos hxy]
      exact .pure true
    obtain ⟨u, hu⟩ := typeCanonEq_returns hrefs hx hy
    have hsame : u = true ↔ Same rts x y := by
      obtain ⟨m, hm⟩ := hu
      exact typeCanonEq_tells hrefs hx hy (hm m le_rfl)
    cases u with
    | true =>
      refine ⟨true, .succ ?_⟩
      simp only [matchDeftype, if_neg hxy]
      exact hu.bind (.pure true)
    | false =>
      have hno : ¬Same rts x y := fun hs => absurd (hsame.mpr hs) Bool.false_ne_true
      have hlt : ∀ z ∈ sub.supertypes, z < rts.flatten.length := fun z hz =>
        hrefs.declares_lt (hloc.declares.mpr hz)
      have hany : ∃ v, Returns (fun n => anyOf (fun sp => matchDeftype n (typeenvBuild rts) sp y)
          sub.supertypes) v := by
        refine anyOf_returns (P := fun z => RisesTo rts z y) ?_ ?_
        · rintro z hz v ⟨m, hm⟩
          exact matchDeftype_tells hrefs (hlt z hz) hy (hm m le_rfl)
        · intro before z after hsplit hbefore
          have hz : z ∈ sub.supertypes := hsplit ▸ mem_append_right _ mem_cons_self
          exact ih z ⟨hno, sub, before, after, hloc.flatten, hsplit, hbefore⟩ (hlt z hz)
      obtain ⟨v, hv⟩ := hany
      refine ⟨v, .succ ?_⟩
      simp only [matchDeftype, if_neg hxy, hloc.type]
      exact hu.bind hv

/-- Matching stalls when the search comes to a cycle, and tells whether it leads to the type
otherwise. -/
theorem matchDeftype_answers (hx : x < rts.flatten.length) (hy : y < rts.flatten.length) :
    Answers true (fun n => matchDeftype n (typeenvBuild rts) x y) (RisesTo rts x y)
      (Circles (Seeks rts y) x) where
  settled := fun _ _ h =>
    Library.returns_of_extends (fun n => matchDeftype_extends n (typeenvBuild rts) x y) h
  stalls := fun h _ => matchDeftype_stalls hrefs hx hy h
  returns := fun h => matchDeftype_returns hrefs hx hy (hrefs.ends_iff.mpr h)
  tells := fun _ ⟨n, hn⟩ => matchDeftype_tells hrefs hx hy (hn n le_rfl)

end

end Wasm89
