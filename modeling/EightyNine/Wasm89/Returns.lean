import EightyNine.Wasm89.Search
import Mathlib.Algebra.Group.Nat.Defs

/-!
# What a comparison of two types asks

Matching two composite types compares references, one after the other, as far as the
types match.  What is asked depends on the two types alone, and not on the answers.
-/

namespace Wasm89

open List
open Library (Answers Circles StallsIn stallsIn_nil stallsIn_cons)

variable {rts : List (RecType Nat)} {D : Nat → Nat → Option Bool} {env : TypeEnv} {x y n bound : Nat}
  {α β : Type}

/-- The references that are compared, in this order, and whether the types match when all of
these do. -/
structure Plan where
  asks : List (Nat × Nat)
  fits : Bool

namespace Plan

def just (b : Bool) : Plan := ⟨[], b⟩

def ask (x y : Nat) : Plan := ⟨[(x, y)], true⟩

/-- What else is compared, if the types match so far. -/
def andThen (p q : Plan) : Plan := if p.fits then ⟨p.asks ++ q.asks, q.fits⟩ else p

end Plan

/-- The references are compared until two of them do not match. -/
def eachMatches (D : Nat → Nat → Option Bool) : List (Nat × Nat) → Option Bool
  | [] => some true
  | q :: qs => do if ← D q.1 q.2 then eachMatches D qs else some false

/-- The comparison, when references are compared as `D` says. -/
def Plan.run (D : Nat → Nat → Option Bool) (p : Plan) : Option Bool := do
  if ← eachMatches D p.asks then some p.fits else some false

/-! ## Plans of the comparisons -/

def listPlan (f : α → β → Plan) : List α → List β → Plan
  | a :: as, b :: bs => (f a b).andThen (listPlan f as bs)
  | _, _ => .just true

section

variable (env : TypeEnv)

def refPlan (a b : RefType Nat) : Plan :=
  match a.ht, b.ht with
  | .abs .bot, _ => .just true
  | .idx x, .idx y => .ask x y
  | .idx x, .abs k => .just (kindMatchesAbstract (env.type x).sub.comp.kind k)
  | .abs h, .idx y => .just (abstractLtType env h y)
  | .abs h, .abs k => .just (abstractLtAbstract h k)

def valPlan (a b : ValType Nat) : Plan :=
  match a, b with
  | .num 0, _ => .just true
  | .num n, .num m => .just (n == m)
  | .ref a, .ref b => if a.nullable && !b.nullable then .just false else refPlan env a b
  | _, _ => .just false

def resultPlan (as bs : List (ValType Nat)) : Plan :=
  if as.length ≠ bs.length then .just false else listPlan (valPlan env) as bs

def storagePlan (a b : FieldType Nat) : Plan :=
  match a.storage, b.storage with
  | .packed p, .packed q => .just (p == q)
  | .val v, .val w => valPlan env v w
  | _, _ => .just false

/-- A mutable field is compared both ways. -/
def fieldPlan (a b : FieldType Nat) : Plan :=
  if a.isMut ≠ b.isMut then .just false
  else (storagePlan env a b).andThen (if !a.isMut then .just true else storagePlan env b a)

/-- Parameters are compared the other way round. -/
def compPlan (a b : SubType Nat) : Plan :=
  match a.comp, b.comp with
  | .func ps rs, .func ps' rs' => (resultPlan env ps' ps).andThen (resultPlan env rs rs')
  | .struct fs, .struct fs' =>
    if fs.length < fs'.length then .just false else listPlan (fieldPlan env) fs fs'
  | .array f, .array f' => fieldPlan env f f'
  | _, _ => .just false

end

/-! ## The comparisons follow their plans -/

namespace Plan

theorem run_ask : (ask x y).run D = D x y := by
  show ((D x y >>= fun v => if v = true then some true else some false) >>=
    fun v => if v = true then some true else some false) = D x y
  cases D x y with
  | none => rfl
  | some v => cases v <;> rfl

theorem eachMatches_append (ps qs : List (Nat × Nat)) :
    eachMatches D (ps ++ qs) = eachMatches D ps >>= fun v =>
      if v = true then eachMatches D qs else some false := by
  induction ps with
  | nil => rfl
  | cons p ps ih =>
    show (D p.1 p.2 >>= fun v => if v = true then eachMatches D (ps ++ qs) else some false) =
      (D p.1 p.2 >>= fun v => if v = true then eachMatches D ps else some false) >>= _
    rw [ih]
    cases D p.1 p.2 with
    | none => rfl
    | some v => cases v <;> rfl

theorem run_andThen (p q : Plan) :
    (p.andThen q).run D = p.run D >>= fun v => if v = true then q.run D else some false := by
  obtain ⟨ps, b⟩ := p
  cases b with
  | true =>
    show (eachMatches D (ps ++ q.asks) >>= fun v => if v = true then some q.fits else some false) =
      (eachMatches D ps >>= fun v => if v = true then some true else some false) >>= _
    rw [eachMatches_append]
    cases eachMatches D ps with
    | none => rfl
    | some v => cases v <;> rfl
  | false =>
    show (eachMatches D ps >>= fun v => if v = true then some false else some false) =
      (eachMatches D ps >>= fun v => if v = true then some false else some false) >>= _
    cases eachMatches D ps with
    | none => rfl
    | some v => cases v <;> rfl

end Plan

theorem run_listPlan {f : α → β → Plan} {eq : α → β → Option Bool}
    (h : ∀ a b, (f a b).run D = eq a b) (as : List α) (bs : List β) :
    (listPlan f as bs).run D = allEq eq as bs := by
  induction as generalizing bs with
  | nil => rfl
  | cons a as ih =>
    cases bs with
    | nil => rfl
    | cons b bs =>
      rw [listPlan, Plan.run_andThen, h, ih]
      rfl

theorem run_refPlan (a b : RefType Nat) :
    (refPlan env a b).run (matchDeftype n env) = htMatch n env a b := by
  obtain ⟨an, ah⟩ := a
  obtain ⟨bn, bh⟩ := b
  cases ah with
  | idx x =>
    cases bh with
    | idx y => exact Plan.run_ask
    | abs k => rfl
  | abs h =>
    cases bh with
    | idx y | abs k => cases h <;> rfl

theorem run_valPlan (a b : ValType Nat) :
    (valPlan env a b).run (matchDeftype n env) = matchValtype n env a b := by
  cases a with
  | num k =>
    cases b with
    | num m | ref b => cases k <;> rfl
  | ref a =>
    cases b with
    | num m => rfl
    | ref b =>
      show (if a.nullable && !b.nullable then Plan.just false else refPlan env a b).run _ =
        if a.nullable && !b.nullable then some false else htMatch n env a b
      by_cases hnull : (a.nullable && !b.nullable) = true
      · rw [if_pos hnull, if_pos hnull]
        rfl
      · rw [if_neg hnull, if_neg hnull]
        exact run_refPlan a b

theorem run_resultPlan (as bs : List (ValType Nat)) :
    (resultPlan env as bs).run (matchDeftype n env) = matchResulttype n env as bs := by
  rw [resultPlan, matchResulttype]
  by_cases hlen : as.length ≠ bs.length
  · rw [if_pos hlen, if_pos hlen]
    rfl
  · rw [if_neg hlen, if_neg hlen]
    exact run_listPlan run_valPlan as bs

theorem run_storagePlan (a b : FieldType Nat) :
    (storagePlan env a b).run (matchDeftype n env) = matchStoragetype n env a b := by
  obtain ⟨as, am⟩ := a
  obtain ⟨bs, bm⟩ := b
  cases as with
  | packed p => cases bs <;> rfl
  | val v =>
    cases bs with
    | packed q => rfl
    | val w => exact run_valPlan v w

theorem run_fieldPlan (a b : FieldType Nat) :
    (fieldPlan env a b).run (matchDeftype n env) = matchFieldtype n env a b := by
  rw [fieldPlan, matchFieldtype]
  by_cases hmut : a.isMut ≠ b.isMut
  · rw [if_pos hmut, if_pos hmut]
    rfl
  · rw [if_neg hmut, if_neg hmut, Plan.run_andThen, run_storagePlan]
    cases a.isMut with
    | true => exact congrArg _ (funext fun v => by cases v with
      | true => exact run_storagePlan b a
      | false => rfl)
    | false => rfl

theorem run_compPlan (a b : SubType Nat) :
    (compPlan env a b).run (matchDeftype n env) = matchComptype n env a b := by
  obtain ⟨afin, asup, ac⟩ := a
  obtain ⟨bfin, bsup, bc⟩ := b
  cases ac with
  | func ps rs =>
    cases bc with
    | func ps' rs' =>
      refine (Plan.run_andThen _ _).trans ?_
      rw [run_resultPlan, run_resultPlan]
      rfl
    | struct fs' | array ft' => rfl
  | struct fs =>
    cases bc with
    | func ps' rs' => rfl
    | struct fs' =>
      show (if fs.length < fs'.length then Plan.just false else listPlan (fieldPlan env) fs fs').run _ =
        if fs.length < fs'.length then some false else allEq (matchFieldtype n env) fs fs'
      by_cases hlen : fs.length < fs'.length
      · rw [if_pos hlen, if_pos hlen]
        rfl
      · rw [if_neg hlen, if_neg hlen]
        exact run_listPlan run_fieldPlan fs fs'
    | array ft' => rfl
  | array ft =>
    cases bc with
    | func ps' rs' | struct fs' => rfl
    | array ft' => exact run_fieldPlan ft ft'

/-! ## References asked about are in range -/

/-- The plan asks about types below a bound. -/
def Plan.Within (bound : Nat) (p : Plan) : Prop := ∀ q ∈ p.asks, q.1 < bound ∧ q.2 < bound

namespace Plan

theorem within_just (b : Bool) : (just b).Within bound := fun _ h => absurd h not_mem_nil

theorem Within.andThen {p q : Plan} (hp : p.Within bound) (hq : q.Within bound) :
    (p.andThen q).Within bound := by
  intro r hr
  unfold Plan.andThen at hr
  cases hfits : p.fits with
  | true =>
    rw [if_pos hfits] at hr
    rcases mem_append.mp hr with hr | hr
    · exact hp r hr
    · exact hq r hr
  | false =>
    rw [if_neg (by simp [hfits])] at hr
    exact hp r hr

end Plan

theorem listPlan_within {f : α → β → Plan} {as : List α} {bs : List β}
    (h : ∀ a ∈ as, ∀ b ∈ bs, (f a b).Within bound) : (listPlan f as bs).Within bound := by
  induction as generalizing bs with
  | nil => exact Plan.within_just true
  | cons a as ih =>
    cases bs with
    | nil => exact Plan.within_just true
    | cons b bs =>
      refine (h a mem_cons_self b mem_cons_self).andThen (ih fun a ha b hb => ?_)
      exact h a (mem_cons_of_mem _ ha) b (mem_cons_of_mem _ hb)

theorem valPlan_within {a b : ValType Nat} (ha : ∀ x ∈ a.uses, x < bound)
    (hb : ∀ x ∈ b.uses, x < bound) : (valPlan env a b).Within bound := by
  cases a with
  | num k =>
    cases b with
    | num m | ref b => cases k <;> exact Plan.within_just _
  | ref a =>
    cases b with
    | num m => exact Plan.within_just false
    | ref b =>
      obtain ⟨an, ah⟩ := a
      obtain ⟨bn, bh⟩ := b
      show (if an && !bn then Plan.just false else refPlan env ⟨an, ah⟩ ⟨bn, bh⟩).Within bound
      by_cases hnull : (an && !bn) = true
      · rw [if_pos hnull]
        exact Plan.within_just false
      rw [if_neg hnull]
      cases ah with
      | idx x =>
        cases bh with
        | idx y =>
          intro q hq
          rw [mem_singleton.mp hq]
          exact ⟨ha x mem_cons_self, hb y mem_cons_self⟩
        | abs k => exact Plan.within_just _
      | abs h =>
        cases bh with
        | idx y | abs k => cases h <;> exact Plan.within_just _

theorem resultPlan_within {as bs : List (ValType Nat)} (ha : ∀ x ∈ as.flatMap ValType.uses, x < bound)
    (hb : ∀ x ∈ bs.flatMap ValType.uses, x < bound) : (resultPlan env as bs).Within bound := by
  unfold resultPlan
  by_cases hlen : as.length ≠ bs.length
  · rw [if_pos hlen]
    exact Plan.within_just false
  · rw [if_neg hlen]
    exact listPlan_within fun a hma b hmb => valPlan_within
      (fun x hx => ha x (mem_flatMap.mpr ⟨a, hma, hx⟩))
      fun x hx => hb x (mem_flatMap.mpr ⟨b, hmb, hx⟩)

theorem storagePlan_within {a b : FieldType Nat} (ha : ∀ x ∈ a.uses, x < bound)
    (hb : ∀ x ∈ b.uses, x < bound) : (storagePlan env a b).Within bound := by
  obtain ⟨as, am⟩ := a
  obtain ⟨bs, bm⟩ := b
  cases as with
  | packed p => cases bs <;> exact Plan.within_just _
  | val v =>
    cases bs with
    | packed q => exact Plan.within_just false
    | val w => exact valPlan_within ha hb

theorem fieldPlan_within {a b : FieldType Nat} (ha : ∀ x ∈ a.uses, x < bound)
    (hb : ∀ x ∈ b.uses, x < bound) : (fieldPlan env a b).Within bound := by
  unfold fieldPlan
  by_cases hmut : a.isMut ≠ b.isMut
  · rw [if_pos hmut]
    exact Plan.within_just false
  · rw [if_neg hmut]
    refine (storagePlan_within ha hb).andThen ?_
    cases a.isMut with
    | true => exact storagePlan_within hb ha
    | false => exact Plan.within_just true

theorem compPlan_within {a b : SubType Nat} (ha : ∀ x ∈ a.comp.uses, x < bound)
    (hb : ∀ x ∈ b.comp.uses, x < bound) : (compPlan env a b).Within bound := by
  obtain ⟨afin, asup, ac⟩ := a
  obtain ⟨bfin, bsup, bc⟩ := b
  cases ac with
  | func ps rs =>
    cases bc with
    | func ps' rs' =>
      refine Plan.Within.andThen (resultPlan_within ?_ ?_) (resultPlan_within ?_ ?_)
      · exact fun x hx => hb x (mem_append_left _ hx)
      · exact fun x hx => ha x (mem_append_left _ hx)
      · exact fun x hx => ha x (mem_append_right _ hx)
      · exact fun x hx => hb x (mem_append_right _ hx)
    | struct fs' | array ft' => exact Plan.within_just false
  | struct fs =>
    cases bc with
    | func ps' rs' | array ft' => exact Plan.within_just false
    | struct fs' =>
      show (if fs.length < fs'.length then Plan.just false
        else listPlan (fieldPlan env) fs fs').Within bound
      by_cases hlen : fs.length < fs'.length
      · rw [if_pos hlen]
        exact Plan.within_just false
      · rw [if_neg hlen]
        exact listPlan_within fun a hma b hmb => fieldPlan_within
          (fun x hx => ha x (mem_flatMap.mpr ⟨a, hma, hx⟩))
          fun x hx => hb x (mem_flatMap.mpr ⟨b, hmb, hx⟩)
  | array ft =>
    cases bc with
    | func ps' rs' | struct fs' => exact Plan.within_just false
    | array ft' => exact fieldPlan_within ha hb

/-! ## What a comparison answers -/

/-- The comparison says that the types match. -/
def Plan.Matches (rts : List (RecType Nat)) (p : Plan) : Prop :=
  p.fits = true ∧ ∀ q ∈ p.asks, RisesTo rts q.1 q.2

/-- A search that the comparison comes to stalls. -/
def Plan.Stalls (rts : List (RecType Nat)) (p : Plan) : Prop :=
  StallsIn (fun q => RisesTo rts q.1 q.2) (fun q => Circles (Seeks rts q.2) q.1) p.asks

theorem eachMatches_answers {D : Nat → Nat → Nat → Option Bool} {P S : Nat × Nat → Prop}
    {qs : List (Nat × Nat)} (h : ∀ q ∈ qs, Answers true (fun n => D n q.1 q.2) (P q) (S q)) :
    Answers true (fun n => eachMatches (D n) qs) (∀ q ∈ qs, P q) (StallsIn P S qs) := by
  induction qs with
  | nil =>
    refine (Answers.pure (iff_of_true rfl fun q hq => ?_)).congr Iff.rfl (iff_of_false not_false ?_)
    · exact absurd hq not_mem_nil
    · exact stallsIn_nil
  | cons q qs ih =>
    have htail := ih fun r hr => h r (mem_cons_of_mem _ hr)
    have hnext : Answers true (fun n => D n q.1 q.2 >>= fun v =>
        if v = true then eachMatches (D n) qs else some false) _ _ :=
      (h q mem_cons_self).andThen (fun _ => htail) fun v hv =>
        ⟨false, Bool.false_ne_true, fun n => if_neg hv⟩
    refine hnext.congr ?_ stallsIn_cons.symm
    simp

theorem Plan.answers (hrefs : RefsOk rts) {p : Plan} (hp : p.Within rts.flatten.length) :
    Answers true (fun n => p.run (matchDeftype n (typeenvBuild rts))) (p.Matches rts)
      (p.Stalls rts) := by
  have heach := eachMatches_answers (D := fun n => matchDeftype n (typeenvBuild rts))
    fun q hq => matchDeftype_answers hrefs (hp q hq).1 (hp q hq).2
  have hall : Answers true (fun n => eachMatches (matchDeftype n (typeenvBuild rts)) p.asks >>=
      fun v => if v = true then some p.fits else some false) _ _ :=
    heach.andThen (fun _ => .pure (Iff.rfl : p.fits = true ↔ p.fits = true)) fun v hv =>
      ⟨false, Bool.false_ne_true, fun n => if_neg hv⟩
  exact hall.congr and_comm (by simp [Plan.Stalls])

end Wasm89

/-!
# Validation returns

Unless the check of a declared supertype comes to a type whose supertypes lead round a
cycle, or an array of the validator grows beyond half of its index range
(`moduleValidate_returns_iff`).  Supertypes are checked type by type, and checking one
searches the supertypes of types whose own have not been checked.
-/

namespace Wasm89

open List
open Library (Answers Circles Returns Runs StallsIn stallsIn_nil stallsIn_cons bind_ok)
open Relation (ReflTransGen TransGen)

variable {rts : List (RecType Nat)} {ε : Type} {i s x y n len : Nat}

/-! ## Arrays of the validator -/

/-- An array of the validator: its length, and a capacity that `grow` has given it. -/
structure Room where
  len : Nat
  cap : Nat
  isCap : cap = 0 ∨ ∃ k, 3 ≤ k ∧ k < 32 ∧ cap = 2 ^ k
  le : len ≤ cap

/-- The loop of `grow`. -/
def growLoop : Nat → Nat → Nat → Option Nat
  | 0, _, _ => none
  | fuel + 1, nc, needed =>
    if nc < needed then growLoop fuel (nc * 2 % 4294967296) needed else some nc

/-- The capacity that `grow` asks for. -/
def grow (fuel cap needed : Nat) : Option Nat :=
  if cap ≥ needed then some cap
  else growLoop fuel (if cap ≠ 0 then cap * 2 % 4294967296 else 8) needed

/-! ## The program -/

/-- What the validation does after the type section: the comparisons of types and the pushes it
makes, each followed by what depends on it, up to its result. -/
inductive FieldChecks (ε : Type) (n : Nat) where
  | done (r : Except ε Unit)
  | compare (a b : {vt : ValType Nat // ∀ x ∈ vt.uses, x < n}) (next : Bool → FieldChecks ε n)
  | push (a : Room) (next : FieldChecks ε n)

/-- `check_module_fields`. -/
def checkModuleFields (fuel : Nat) (env : TypeEnv) : FieldChecks ε n → Option (Except ε Unit)
  | .done r => some r
  | .compare a b next => matchValtype fuel env a b >>= fun v => checkModuleFields fuel env (next v)
  | .push a next => grow fuel a.cap (a.len + 1) >>= fun _ => checkModuleFields fuel env next

/-- What `w89_module_validate` does after the type section. -/
def moduleAfter (fuel : Nat) (rts : List (RecType Nat)) (fields : FieldChecks ε rts.flatten.length) :
    Except TypeFault Unit → Option (Except (TypeFault ⊕ ε) Unit)
  | .error e => some (.error (.inl e))
  | .ok () => checkModuleFields fuel (typeenvBuild rts) fields >>= fun r => some (r.mapError .inr)

/-- `w89_module_validate`. -/
def moduleValidate (fuel : Nat) (rts : List (RecType Nat)) (fields : FieldChecks ε rts.flatten.length) :
    Option (Except (TypeFault ⊕ ε) Unit) :=
  validateTypeSection fuel (typeenvBuild rts) >>= moduleAfter fuel rts fields

/-! ## When it stalls -/

/-- The type `x` of the section. -/
def subOf (rts : List (RecType Nat)) (x : Nat) : SubType Nat := ((typeenvBuild rts).type x).sub

/-- The comparison of the type `i` with its supertype `s`. -/
def superPlan (rts : List (RecType Nat)) (i s : Nat) : Plan :=
  compPlan (typeenvBuild rts) (subOf rts i) (subOf rts s)

/-- The supertype `s` of the type `i` may be compared with it. -/
def Declarable (rts : List (RecType Nat)) (i s : Nat) : Prop := s < i ∧ (subOf rts s).isFinal = false

/-- The supertype `s` of the type `i` is in order. -/
def SuperOk (rts : List (RecType Nat)) (i s : Nat) : Prop :=
  Declarable rts i s ∧ (superPlan rts i s).Matches rts

/-- The check of the supertype comes to a cycle. -/
def SuperStalls (rts : List (RecType Nat)) (i s : Nat) : Prop :=
  Declarable rts i s ∧ (superPlan rts i s).Stalls rts

/-- The declared supertypes of the type `i` are in order. -/
def SupersValid (rts : List (RecType Nat)) (i : Nat) : Prop :=
  ∀ s ∈ (subOf rts i).supertypes, SuperOk rts i s

/-- The type section is in order. -/
def SectionOk (rts : List (RecType Nat)) : Prop :=
  RefsOk rts ∧ ∀ i ∈ range rts.flatten.length, SupersValid rts i

/-- A supertype stalls, when the references are in range and what comes before is in order. -/
def SectionStalls (rts : List (RecType Nat)) : Prop :=
  RefsOk rts ∧ StallsIn (SupersValid rts)
    (fun i => StallsIn (SuperOk rts i) (SuperStalls rts i) (subOf rts i).supertypes)
    (range rts.flatten.length)

/-- What follows the type section comes to a push onto `2 ^ 31` elements. -/
def FieldChecks.Stalls (rts : List (RecType Nat)) : FieldChecks ε n → Prop
  | .done _ => False
  | .compare a b next =>
    ((valPlan (typeenvBuild rts) a b).Matches rts ∧ (next true).Stalls rts) ∨
      (¬(valPlan (typeenvBuild rts) a b).Matches rts ∧ (next false).Stalls rts)
  | .push a next => a.len = 2147483648 ∨ next.Stalls rts

/-! ## Growing -/

theorem growLoop_zero (fuel : Nat) {needed : Nat} (h : 0 < needed) : growLoop fuel 0 needed = none := by
  induction fuel with
  | zero => rfl
  | succ fuel ih => exact (if_pos h).trans ih

theorem growLoop_done {nc needed : Nat} (h : needed ≤ nc) (fuel : Nat) :
    growLoop (fuel + 1) nc needed = some nc := if_neg (not_lt.mpr h)

/-- A capacity doubles, except for the largest, which becomes 0 and stays so. -/
theorem grow_runs (a : Room) :
    Runs (fun n => grow n a.cap (a.len + 1)) (a.len = 2147483648) := by
  obtain ⟨len, cap, hcap, hle⟩ := a
  dsimp only
  have hone : ∀ nc, len + 1 ≤ nc → Runs (fun n => growLoop n nc (len + 1)) False := by
    intro nc hnc
    have hret : Returns (fun n => growLoop n nc (len + 1)) nc := by
      refine .succ ?_
      simp only [growLoop_done hnc]
      exact .pure nc
    refine .of_returns (fun n r hr => ?_) hret
    cases n with
    | zero => cases hr
    | succ n =>
      rw [growLoop_done hnc] at hr
      cases hr
      exact hret
  by_cases hfull : len + 1 ≤ cap
  · have hlen : cap ≤ 2147483648 := by
      rcases hcap with rfl | ⟨k, _, hk, rfl⟩
      · omega
      · exact Nat.pow_le_pow_right (by omega) (show k ≤ 31 by omega)
    simp only [grow, ge_iff_le, if_pos hfull]
    exact (Runs.pure cap).congr (iff_of_false not_false (by omega))
  · simp only [grow, ge_iff_le, if_neg hfull]
    obtain rfl : len = cap := by omega
    rcases hcap with rfl | ⟨k, hk, hk', rfl⟩
    · exact (hone 8 (by omega)).congr (iff_of_false not_false (by omega))
    · have hpos : 2 ^ k ≠ 0 := (Nat.two_pow_pos k).ne'
      rw [if_pos hpos]
      rcases Nat.lt_or_ge k 31 with hlt | hge
      · have hpow : 2 ^ k ≤ 2 ^ 30 := Nat.pow_le_pow_right (by omega) (by omega)
        rw [Nat.mod_eq_of_lt (by omega)]
        exact (hone _ (by omega)).congr (iff_of_false not_false (by omega))
      · obtain rfl : k = 31 := by omega
        have hwrap : 2 ^ 31 * 2 % 4294967296 = 0 := rfl
        rw [hwrap]
        exact {
          settled := fun n r h => by
            rw [growLoop_zero n (by omega)] at h
            cases h
          stalls := fun _ n => growLoop_zero n (by omega)
          returns := fun h => absurd rfl h }

/-! ## The type section -/

theorem eachOk_answers {α : Type} {f : Nat → α → Option (Except TypeFault Unit)} {P S : α → Prop}
    {xs : List α} (h : ∀ x ∈ xs, Answers (.ok ()) (fun n => f n x) (P x) (S x)) :
    Answers (.ok ()) (fun n => eachOk (f n) xs) (∀ x ∈ xs, P x) (StallsIn P S xs) := by
  induction xs with
  | nil =>
    refine (Answers.pure (iff_of_true rfl fun x hx => ?_)).congr Iff.rfl (iff_of_false not_false ?_)
    · exact absurd hx not_mem_nil
    · exact stallsIn_nil
  | cons x xs ih =>
    have htail := ih fun y hy => h y (mem_cons_of_mem _ hy)
    have hnext : Answers (.ok ()) (fun n => eachOk (f n) (x :: xs)) (P x ∧ ∀ y ∈ xs, P y) _ :=
      (h x mem_cons_self).andThen (fun _ => htail) fun r hr => by
        cases r with
        | error e => exact ⟨.error e, hr, fun n => rfl⟩
        | ok u => exact absurd rfl hr
    refine hnext.congr ?_ stallsIn_cons.symm
    simp

section

variable (hrefs : RefsOk rts)
include hrefs

theorem RefsOk.comp_uses (hx : x < rts.flatten.length) :
    ∀ y ∈ (subOf rts x).comp.uses, y < rts.flatten.length := by
  obtain ⟨pre, rt, k, sub, hloc⟩ := exists_located hx
  intro y hy
  rw [subOf, hloc.type] at hy
  exact hloc.lt_length (hrefs.located hloc (mem_append_right _ hy))

theorem superValid_answers (hi : i < rts.flatten.length) :
    Answers (.ok ()) (fun n => superValid n (typeenvBuild rts) i s) (SuperOk rts i s)
      (SuperStalls rts i s) := by
  unfold superValid SuperOk SuperStalls Declarable
  by_cases hlt : s ≥ i
  · simp only [if_pos hlt]
    exact (Answers.pure (iff_of_false (by simp) (by omega))).congr Iff.rfl
      (iff_of_false not_false (by omega))
  simp only [if_neg hlt]
  cases hfin : (subOf rts s).isFinal with
  | true =>
    have hif : ((typeenvBuild rts).type s).sub.isFinal = true := hfin
    simp only [if_pos hif]
    exact (Answers.pure (iff_of_false (by simp) (by simp))).congr Iff.rfl
      (iff_of_false not_false (by simp))
  | false =>
    have hif : ¬((typeenvBuild rts).type s).sub.isFinal = true := by
      rw [show ((typeenvBuild rts).type s).sub.isFinal = false from hfin]
      exact Bool.false_ne_true
    simp only [if_neg hif]
    have hwithin : (superPlan rts i s).Within rts.flatten.length :=
      compPlan_within (hrefs.comp_uses hi) (hrefs.comp_uses (by omega))
    have hplan := Plan.answers hrefs hwithin
    simp only [superPlan, run_compPlan] at hplan
    have hcheck : Answers (.ok ()) (fun n => matchComptype n (typeenvBuild rts) (subOf rts i)
        (subOf rts s) >>= fun v => if v = true then some (Except.ok ())
          else some (Except.error (TypeFault.mismatch i s))) _ _ :=
      hplan.andThen (fun _ => .pure (iff_of_true rfl trivial)) fun v hv =>
        ⟨.error (.mismatch i s), by simp, fun n => if_neg hv⟩
    have hdecl : s < i := by omega
    exact hcheck.congr (by simp [hdecl, superPlan]) (by simp [hdecl, superPlan])

theorem supersValid_answers (hi : i < rts.flatten.length) :
    Answers (.ok ()) (fun n => supersValid n (typeenvBuild rts) i) (SupersValid rts i)
      (StallsIn (SuperOk rts i) (SuperStalls rts i) (subOf rts i).supertypes) :=
  eachOk_answers fun _ _ => superValid_answers hrefs hi

end

/-- The type section is validated unless a supertype stalls. -/
theorem validateTypeSection_answers (rts : List (RecType Nat)) :
    Answers (.ok ()) (fun n => validateTypeSection n (typeenvBuild rts)) (SectionOk rts)
      (SectionStalls rts) := by
  unfold validateTypeSection SectionOk SectionStalls
  rw [typeenvBuild_types]
  cases hloop : (range rts.flatten.length).forM (refsValid (typeenvBuild rts)) with
  | error e =>
    have hrefs : ¬RefsOk rts := by
      intro h
      rw [h.loop] at hloop
      cases hloop
    exact (Answers.pure (iff_of_false (by simp) fun h => hrefs h.1)).congr Iff.rfl
      (iff_of_false not_false fun h => hrefs h.1)
  | ok u =>
    have hrefs : RefsOk rts := refsOk_of_loop hloop
    have heach := eachOk_answers (f := fun n i => supersValid n (typeenvBuild rts) i)
      fun i hi => supersValid_answers hrefs (mem_range.mp hi)
    exact heach.congr (and_iff_right hrefs).symm (and_iff_right hrefs).symm

/-! ## After the type section -/

theorem SectionOk.declares_lt (h : SectionOk rts) (hxy : Declares rts x y) : y < x := by
  obtain ⟨sub, hsub, hy⟩ := hxy
  have hx := (List.getElem?_eq_some_iff.mp hsub).1
  obtain ⟨pre, rt, k, sub', hloc⟩ := exists_located hx
  have hflat := hloc.flatten
  rw [hsub] at hflat
  cases hflat
  have hsup : y ∈ (subOf rts x).supertypes := by
    rw [subOf, hloc.type]
    exact hy
  exact (h.2 x (mem_range.mpr hx) y hsup).1.1

/-- Supertypes come before their subtypes, so that no search comes to a cycle. -/
theorem SectionOk.not_circles (h : SectionOk rts) : ¬Circles (Seeks rts y) x := by
  rintro ⟨z, -, hcycle⟩
  have hlt : ∀ a b, TransGen (Seeks rts y) a b → b < a := by
    intro a b hab
    induction hab with
    | single hs => exact h.declares_lt hs.declares
    | tail _ hs ih => exact (h.declares_lt hs.declares).trans ih
  exact absurd (hlt z z hcycle) (lt_irrefl z)

theorem SectionOk.valtype_answers (h : SectionOk rts)
    (a b : {vt : ValType Nat // ∀ x ∈ vt.uses, x < rts.flatten.length}) :
    Answers true (fun n => matchValtype n (typeenvBuild rts) a b)
      ((valPlan (typeenvBuild rts) a b).Matches rts) False := by
  have hwithin : (valPlan (typeenvBuild rts) a b).Within rts.flatten.length := valPlan_within a.2 b.2
  have hplan := Plan.answers h.1 hwithin
  simp only [run_valPlan] at hplan
  refine hplan.congr Iff.rfl (iff_of_false ?_ not_false)
  rintro ⟨before, q, after, -, -, hcircles⟩
  exact h.not_circles hcircles

theorem checkModuleFields_runs (h : SectionOk rts) (fields : FieldChecks ε rts.flatten.length) :
    Runs (fun n => checkModuleFields n (typeenvBuild rts) fields) (fields.Stalls rts) := by
  induction fields with
  | done r => exact .pure r
  | compare a b next ih =>
    have hmatch := h.valtype_answers a b
    have hruns := hmatch.toRuns.bind fun v _ => ih v
    refine hruns.congr ?_
    obtain ⟨v, hv⟩ := hmatch.returns not_false
    have htells := hmatch.tells v hv
    constructor
    · rintro (hno | ⟨u, hu, hstalls⟩)
      · exact hno.elim
      · cases u with
        | true => exact .inl ⟨(hmatch.tells true hu).mp rfl, hstalls⟩
        | false => exact .inr ⟨mt (hmatch.tells false hu).mpr Bool.false_ne_true, hstalls⟩
    · rintro (⟨hP, hstalls⟩ | ⟨hP, hstalls⟩)
      · exact .inr ⟨v, hv, htells.mpr hP ▸ hstalls⟩
      · have hv' : v = false := Bool.not_eq_true v ▸ mt htells.mp hP
        exact .inr ⟨v, hv, hv' ▸ hstalls⟩
  | push a next ih =>
    have hgrow := grow_runs a
    refine (hgrow.bind fun _ _ => ih).congr (or_congr_right' fun hlen => ?_)
    obtain ⟨r, hr⟩ := hgrow.returns hlen
    exact ⟨fun ⟨_, _, hstalls⟩ => hstalls, fun hstalls => ⟨r, hr, hstalls⟩⟩

/-- Validation returns exactly when no check of a supertype comes to a cycle and, once the type
section is in order, no array is pushed onto at `2 ^ 31` elements.  The checks after it are any
finite tree of comparisons and pushes: the loops over the fields are bounded by their counts. -/
theorem moduleValidate_returns_iff (rts : List (RecType Nat))
    (fields : FieldChecks ε rts.flatten.length) :
    (∃ r, Returns (fun n => moduleValidate n rts fields) r) ↔
      ¬(SectionStalls rts ∨ SectionOk rts ∧ fields.Stalls rts) := by
  have hsection := validateTypeSection_answers rts
  have hafter : ∀ r, Returns (fun n => validateTypeSection n (typeenvBuild rts)) r →
      Runs (fun n => moduleAfter n rts fields r) (SectionOk rts ∧ fields.Stalls rts) := by
    intro r hr
    cases r with
    | error e =>
      have hno : ¬SectionOk rts := mt (hsection.tells _ hr).mpr (by simp)
      exact (Runs.pure _).congr (iff_of_false not_false fun h => hno h.1)
    | ok u =>
      have hok : SectionOk rts := (hsection.tells _ hr).mp rfl
      have hfields := (checkModuleFields_runs hok fields).bind fun r _ =>
        Runs.pure (r.mapError (Sum.inr : ε → TypeFault ⊕ ε))
      exact hfields.congr (by simp [hok])
  have hruns := (hsection.toRuns.bind hafter).returns_iff
  refine hruns.trans (not_congr (or_congr_right' fun hno => ?_))
  obtain ⟨r, hr⟩ := hsection.returns hno
  exact ⟨fun ⟨_, _, h⟩ => h, fun h => ⟨r, hr, h⟩⟩

/-! ## A cycle that validation comes to -/

/-- Four types of one group.  The field of the second is of type 2, which declares itself its
supertype, where the field of its supertype is of type 3. -/
def cyclic : List (RecType Nat) :=
  [[⟨false, [], .struct [⟨.val (.ref ⟨true, .idx 3⟩), false⟩]⟩,
    ⟨false, [0], .struct [⟨.val (.ref ⟨true, .idx 2⟩), false⟩]⟩,
    ⟨false, [2], .struct []⟩,
    ⟨false, [], .struct []⟩]]

theorem cyclic_stalls : SectionStalls cyclic := by
  have hsame : ¬Same cyclic 2 3 := by
    intro h
    change some (Rolled.roll _ 2) = some (Rolled.roll _ 3) at h
    cases h
  have hseeks : Seeks cyclic 3 2 2 :=
    ⟨hsame, _, [], [], rfl, rfl, fun w hw => absurd hw not_mem_nil⟩
  have hplan : (superPlan cyclic 1 0).Stalls cyclic :=
    ⟨[], (2, 3), [], rfl, fun q hq => absurd hq not_mem_nil, 2, .refl, .single hseeks⟩
  have hbefore : ∀ i ∈ [0], SupersValid cyclic i := by
    intro i hi s hs
    rw [mem_singleton.mp hi] at hs
    exact absurd hs not_mem_nil
  exact ⟨refsOk_of_loop rfl, [0], 1, [2, 3], rfl, hbefore, [], 0, [], rfl,
    fun s hs => absurd hs not_mem_nil, ⟨by decide, rfl⟩, hplan⟩

theorem not_moduleValidate_returns : ¬∀ (rts : List (RecType Nat))
    (fields : FieldChecks Empty rts.flatten.length),
    ∃ r, Returns (fun n => moduleValidate n rts fields) r := by
  intro h
  obtain ⟨r, n, hn⟩ := h cyclic (.done (.ok ()))
  have hsome : moduleValidate n cyclic (.done (.ok ())) = some r := hn n le_rfl
  rw [moduleValidate, (validateTypeSection_answers cyclic).stalls cyclic_stalls n] at hsome
  cases hsome

end Wasm89
