import EightyNine.Cat89.BuildOk
import EightyNine.Cat89.FindMem
import Mathlib

/-!
# libcat89: the finders of limits keep the accounts

Whatever fails on its way, a finder that does not succeed has freed each block that it was
handed once and leaves all counts of references as they were; when the limit of one that
succeeds is released, the same holds.
-/

namespace Cat89.Mem

open Library Library.Triple List Option

variable {grants : Nat → Bool} {K : Ambient} {cs : Census} {owned : Multiset (Token Ref)}

/-! ## The caller's functions -/

variable {m : Nat}

theorem ownsMor_spec : Triple grants Ref.vital owned (ownsMor m) fun b o => o = owned ∧
    (.ref (.mor m) ∈ owned → b = true) := by
  refine held.step (add_zero _).symm ?_
  rintro refs _ ⟨rfl, hpos⟩
  rw [add_zero]
  refine done ⟨rfl, fun hmem => ?_⟩
  have := (hpos hmem).1
  simp [Nat.ne_of_gt this]

theorem ownsMor_neutral : Neutral grants Ref.vital (ownsMor m) :=
  (ownsMor_spec).conseq fun _ _ h => h.1

variable {α : Type}

theorem callback_neutral {f : Nat → Except Status α} :
    Neutral grants Ref.vital (callback f) :=
  Neutral.step tick fun _ => Neutral.done

theorem catDom_neutral : Neutral grants Ref.vital (catDom K m) := by
  refine (ownsMor_neutral).step fun owned => ?_
  split
  · exact callback_neutral
  · exact Neutral.done

theorem catCod_neutral : Neutral grants Ref.vital (catCod K m) := by
  refine (ownsMor_neutral).step fun owned => ?_
  split
  · exact callback_neutral
  · exact Neutral.done

variable {f g : Nat}

theorem morEqual_neutral : Neutral grants Ref.vital (morEqual K f g) := by
  refine (ownsMor_neutral).step fun ownedF => (ownsMor_neutral).step fun ownedG => ?_
  split
  · exact callback_neutral
  · exact Neutral.done

/-- The reference to a handle. -/
def morOwn (m : Nat) : Multiset (Token Ref) := {.ref (.mor m)}

theorem handle_spec {f : Nat → Except Status Nat} :
    Triple grants Ref.vital 0 (handle f) fun r o => o = made morOwn r := by
  refine (callback_neutral).call (fun _ => done rfl) fun m => ?_
  refine acquire.step (zero_add _).symm ?_
  rintro _ _ rfl
  exact done (add_zero _)

theorem catCompose_spec :
    Triple grants Ref.vital 0 (catCompose K g f) fun r o => o = made morOwn r := by
  refine pass ownsMor_neutral fun ownedG => pass ownsMor_neutral fun ownedF => ?_
  split
  · refine (callback_neutral).call (fun _ => done rfl) fun y => ?_
    refine (callback_neutral).call (fun _ => done rfl) fun x => ?_
    split
    · exact handle_spec
    · exact done rfl
  · exact done rfl

/-- The reference that a call takes. -/
def refOwn {α : Type} (r : Ref) (_ : α) : Multiset (Token Ref) := {.ref r}

variable {r : Ref}

theorem retain_spec :
    Triple grants Ref.vital 0 (retain r) fun x o => o = made (refOwn r) x := by
  refine held.step (zero_add _).symm ?_
  rintro refs _ ⟨rfl, -⟩
  split
  · exact done rfl
  · refine acquire.step (zero_add _).symm ?_
    rintro _ _ rfl
    exact done (add_zero _)

theorem release_spec (hr : r.vital) :
    Triple grants Ref.vital {.ref r} (release r) fun _ o => o = 0 := by
  refine held.step (add_zero _).symm ?_
  rintro refs _ ⟨rfl, hpos⟩
  have hlt := (hpos (Multiset.mem_singleton_self _)).2 hr
  have hmore : (refDec refs).2 = false := by
    rw [refDec, if_neg (by omega), beq_eq_false_iff_ne]
    omega
  rw [hmore, add_zero]
  exact drop

theorem morRetain_spec :
    Triple grants Ref.vital 0 (morRetain K m) fun x o => o = made (refOwn (.mor m)) x := by
  refine pass ownsMor_neutral fun owned => ?_
  split
  · exact (callback_neutral).call (fun _ => done rfl) fun _ => retain_spec
  · exact done rfl

theorem morRelease_spec :
    Triple grants Ref.vital (morOwn m) (morRelease m) fun _ o => o = 0 := by
  refine (ownsMor_spec).step (add_zero _).symm ?_
  rintro owned _ ⟨rfl, htrue⟩
  rw [htrue (Multiset.mem_singleton_self _), add_zero]
  exact drop

variable {a b : Nat}

theorem rel2_spec :
    Triple grants Ref.vital (morOwn a + morOwn b) (rel2 a b) fun _ o => o = 0 := by
  refine (morRelease_spec).step rfl ?_
  rintro _ _ rfl
  rw [zero_add]
  exact morRelease_spec

theorem iterOpen_spec {it : Ref} {f : Nat → Except Status Unit} :
    Triple grants Ref.vital 0 (iterOpen it f) fun r o => o = made (refOwn it) r := by
  refine (callback_neutral).call (fun _ => done rfl) fun _ => ?_
  refine acquire.step (zero_add _).symm ?_
  rintro _ _ rfl
  exact done (add_zero _)

/-! ## Memory -/

/-- A block that is asked for. -/
def blockOwn (b : Nat) : Multiset (Token Ref) := {.block b}

theorem catAlloc_spec :
    Triple grants Ref.vital 0 (catAlloc grants) fun r o => o = made blockOwn r := by
  refine alloc.step (zero_add _).symm ?_
  rintro p _ rfl
  cases p with
  | none | some b => exact done (add_zero _)

/-- The block of a vector. -/
def VecMem.own {α : Type} (v : VecMem α) : Multiset (Token Ref) := ofPtr v.data

variable {elem : Nat}

theorem vecPush_spec {v : VecMem α} {x : α} :
    Triple grants Ref.vital v.own (vecPush grants elem v x) fun r o =>
      match r with
      | .error _ => o = v.own
      | .ok w => o = w.own ∧ w.items = v.items ++ [x] := by
  rw [vecPush]
  split
  · split
    · exact done rfl
    · refine (catAlloc_spec).call (fun _ => done rfl) fun p => ?_
      refine free.step (add_comm _ _) ?_
      rintro _ _ rfl
      exact done ⟨zero_add _, rfl⟩
  · exact done ⟨rfl, rfl⟩

/-! ## The census -/

/-- The references to the handles of rows. -/
def rowsOwn (rows : List Fmor) : Multiset (Token Ref) := (rows.map fun row => morOwn row.mor).sum

variable {row : Fmor} {rows : List Fmor}

theorem rowsOwn_cons :
    rowsOwn (row :: rows) = morOwn row.mor + rowsOwn rows := by
  rw [rowsOwn, map_cons, sum_cons, rowsOwn]

theorem rowsOwn_snoc :
    rowsOwn (rows ++ [row]) = rowsOwn rows + morOwn row.mor := by
  simp [rowsOwn]

theorem releaseRows_spec :
    Triple grants Ref.vital (rowsOwn rows) (releaseRows rows) fun _ o => o = 0 := by
  induction rows with
  | nil => exact done rfl
  | cons row rows ih =>
    refine (morRelease_spec).step rowsOwn_cons ?_
    rintro _ _ rfl
    rw [zero_add]
    exact ih

/-- What a census owns. -/
def Census.own (cs : Census) : Multiset (Token Ref) :=
  rowsOwn cs.mors.items + (cs.mors.own + cs.objs.own)

theorem censusFree_spec : Triple grants Ref.vital cs.own (censusFree cs) fun _ o => o = 0 := by
  refine (releaseRows_spec).step rfl ?_
  rintro _ _ rfl
  rw [zero_add]
  refine free.step rfl ?_
  rintro _ _ rfl
  rw [zero_add]
  exact free

theorem censusObjsAbort_spec {v : VecMem Nat} :
    Triple grants Ref.vital ({.ref .objIter} + v.own) (censusObjsAbort v) fun _ o => o = 0 := by
  refine drop.step rfl ?_
  rintro _ _ rfl
  rw [zero_add]
  exact free

theorem censusObjsLoop_spec (places : List Nat) (v : VecMem Nat) :
    Triple grants Ref.vital ({.ref .objIter} + v.own) (censusObjsLoop grants K places v)
      fun r o => o = made (fun w => {.ref .objIter} + w.own) r := by
  induction places generalizing v with
  | nil =>
    exact (callback_neutral).call (fun _ => censusObjsAbort_spec) fun _ => done rfl
  | cons i rest ih =>
    refine (callback_neutral).call (fun _ => censusObjsAbort_spec) fun x => ?_
    refine (vecPush_spec).attempt (add_comm _ _) ?_ ?_
    · rintro st _ rfl
      rw [add_comm]
      exact censusObjsAbort_spec
    · rintro w _ ⟨rfl, -⟩
      rw [add_comm]
      exact ih w

theorem censusObjs_spec :
    Triple grants Ref.vital 0 (censusObjs grants K) fun r o => o = made VecMem.own r := by
  refine (iterOpen_spec).call (fun _ => done rfl) fun _ => ?_
  refine (censusObjsLoop_spec _ _).attemptAll rfl ?_ ?_
  · rintro st _ rfl
    exact done rfl
  · rintro v _ rfl
    refine drop.step rfl ?_
    rintro _ _ rfl
    exact done (zero_add _)

variable {v : VecMem Fmor}

theorem censusMorsAbort_spec :
    Triple grants Ref.vital ({.ref .morIter} + (rowsOwn v.items + v.own)) (censusMorsAbort v)
      fun _ o => o = 0 := by
  refine drop.step rfl ?_
  rintro _ _ rfl
  rw [zero_add]
  refine (releaseRows_spec).step rfl ?_
  rintro _ _ rfl
  rw [zero_add]
  exact free

theorem censusMorsDrop_spec :
    Triple grants Ref.vital (morOwn m + ({.ref .morIter} + (rowsOwn v.items + v.own)))
      (censusMorsDrop m v) fun _ o => o = 0 := by
  refine (morRelease_spec).step rfl ?_
  rintro _ _ rfl
  rw [zero_add]
  exact censusMorsAbort_spec

/-- What the loop of `census_mors` owns with the rows up to here. -/
def rowsUnderway (v : VecMem Fmor) : Multiset (Token Ref) :=
  {.ref .morIter} + (rowsOwn v.items + v.own)

theorem censusMorsLoop_spec (places : List Nat) (v : VecMem Fmor) :
    Triple grants Ref.vital (rowsUnderway v) (censusMorsLoop grants K places v)
      fun r o => o = made rowsUnderway r := by
  induction places generalizing v with
  | nil => exact (callback_neutral).call (fun _ => censusMorsAbort_spec) fun _ => done rfl
  | cons i rest ih =>
    refine (handle_spec).call (fun _ => censusMorsAbort_spec) fun m => ?_
    refine (catDom_neutral).call (fun _ => censusMorsDrop_spec) fun x => ?_
    refine (catCod_neutral).call (fun _ => censusMorsDrop_spec) fun y => ?_
    have hpush : morOwn m + rowsUnderway v =
        v.own + (morOwn m + ({.ref .morIter} + rowsOwn v.items)) := by
      rw [rowsUnderway]
      abel
    refine (vecPush_spec).attempt hpush ?_ ?_
    · rintro st _ rfl
      rw [← hpush]
      exact censusMorsDrop_spec
    · rintro w _ ⟨rfl, hitems⟩
      have hnext : w.own + (morOwn m + ({.ref .morIter} + rowsOwn v.items)) = rowsUnderway w := by
        rw [rowsUnderway, hitems, rowsOwn_snoc]
        abel
      rw [hnext]
      exact ih w

theorem censusMors_spec :
    Triple grants Ref.vital 0 (censusMors grants K)
      fun r o => o = made (fun v => rowsOwn v.items + v.own) r := by
  refine (iterOpen_spec).call (fun _ => done rfl) fun _ => ?_
  refine (censusMorsLoop_spec _ _).attemptAll rfl ?_ ?_
  · rintro st _ rfl
    exact done rfl
  · rintro v _ rfl
    refine drop.step rfl ?_
    rintro _ _ rfl
    exact done (zero_add _)

theorem censusBuild_spec :
    Triple grants Ref.vital 0 (censusBuild grants K) fun r o => o = made Census.own r := by
  refine (censusObjs_spec).call (fun _ => done rfl) fun objs => ?_
  refine (censusMors_spec).call (fun _ => ?_) fun mors => ?_
  · refine (censusFree_spec).whole ?_
    simp [Census.own, rowsOwn, VecMem.own, VecMem.init, ofPtr]
  · refine done ?_
    rw [made, Census.own]
    abel

/-! ## The searches -/

variable {x y : Nat}

theorem gatherLoop_spec (rows : List Fmor) (i : Nat) (v : VecMem Nat) :
    Triple grants Ref.vital v.own (gatherLoop grants K x y rows i v)
      fun r o => o = made VecMem.own r := by
  induction rows generalizing i v with
  | nil => exact done rfl
  | cons row rows ih =>
    rw [gatherLoop]
    split
    · refine (vecPush_spec).attempt (add_zero _).symm ?_ ?_
      · rintro st _ rfl
        rw [add_zero]
        exact free
      · rintro w _ ⟨rfl, -⟩
        rw [add_zero]
        exact ih (i + 1) w
    · exact ih (i + 1) v

theorem gatherIndices_spec :
    Triple grants Ref.vital 0 (gatherIndices grants K cs x y) fun r o => o = made VecMem.own r :=
  gatherLoop_spec _ _ .init

theorem relArrays_spec {a b : VecMem Nat} :
    Triple grants Ref.vital (a.own + b.own) (relArrays a b) fun _ o => o = 0 := by
  refine free.step rfl ?_
  rintro _ _ rfl
  rw [zero_add]
  exact free

theorem gathered {x' y' : Nat}
    {k : VecMem Nat → VecMem Nat → Finding (Except Status α)}
    (h : ∀ a b, Triple grants Ref.vital (a.own + b.own) (k a b) fun _ o => o = 0) :
    Neutral grants Ref.vital (Prog.attempt (gatherIndices grants K cs x y) (pure ()) fun a =>
      Prog.attempt (gatherIndices grants K cs x' y') (Prog.free a.data) fun b => k a b) := by
  refine (gatherIndices_spec).call (fun _ => done rfl) fun a => ?_
  refine (gatherIndices_spec).call (fun _ => ?_) fun b => ?_
  · exact free.last rfl fun _ o h => by rw [h]; rfl
  · exact (h a b).whole (by abel)

theorem searched {β : Type} {a b : VecMem Nat} {m : Finding (Except Status α)}
    {f : α → Except Status β} (h : Neutral grants Ref.vital m) :
    Triple grants Ref.vital (a.own + b.own) (Prog.attempt m (relArrays a b) fun r => do
      relArrays a b
      pure (f r)) fun _ o => o = 0 := by
  refine h.call (fun _ => relArrays_spec) fun r => ?_
  refine (relArrays_spec).step (add_zero _).symm ?_
  rintro _ _ rfl
  exact done (add_zero _)

variable {pa pb xa xb : Nat}

theorem evaluateMediator_neutral {mor : Nat} :
    Neutral grants Ref.vital (evaluateMediator K pa pb mor xa xb) := by
  refine (catCompose_spec).call (fun _ => done rfl) fun c1 => ?_
  refine (catCompose_spec).call (fun _ => ?_) fun c2 => ?_
  · exact (morRelease_spec).last rfl fun _ o h => by rw [h]; rfl
  have hpair : morOwn c2 + (morOwn c1 + 0) = morOwn c1 + morOwn c2 := by abel
  rw [hpair]
  refine (morEqual_neutral).call (fun _ => rel2_spec) fun e1 => ?_
  refine (morEqual_neutral).call (fun _ => rel2_spec) fun e2 => ?_
  refine (rel2_spec).step (add_zero _).symm ?_
  rintro _ _ rfl
  exact done (add_zero _)

variable {p : Nat}

theorem countMediators_neutral :
    Neutral grants Ref.vital (countMediators K cs x p pa pb xa xb) := by
  refine Neutral.accumulate (fun n row => ?_) _ _
  split
  · exact (evaluateMediator_neutral).attempt Neutral.done fun med => Neutral.done
  · exact Neutral.done

theorem pairOne_neutral {i : Nat} :
    Neutral grants Ref.vital (pairOne K cs y p pa pb xa i) :=
  (countMediators_neutral).attempt Neutral.done fun _ => Neutral.done

theorem pairCovered_neutral {bids : List Nat} :
    Neutral grants Ref.vital (pairCovered K cs y p pa pb xa bids) := by
  refine (Neutral.firstOf (fun k => ?_) _).attempt Neutral.done fun _ => Neutral.done
  exact (pairOne_neutral).attempt Neutral.done fun _ => Neutral.done

theorem objCheck_neutral :
    Neutral grants Ref.vital (objCheck grants K cs y p a b pa pb) := by
  rw [objCheck]
  split
  · exact Neutral.done
  · refine gathered fun aids bids => searched (Neutral.firstOf (fun j => ?_) _)
    exact (pairCovered_neutral).attempt Neutral.done fun _ => Neutral.done

theorem isProduct_neutral :
    Neutral grants Ref.vital (isProduct grants K cs p a b pa pb) := by
  refine (Neutral.firstOf (fun y => ?_) _).attempt Neutral.done fun _ => Neutral.done
  exact (objCheck_neutral).attempt Neutral.done fun _ => Neutral.done

theorem firstPair_neutral {check : Nat → Nat → Finding (Except Status Bool)}
    (h : ∀ pa pb, Neutral grants Ref.vital (check pa pb)) (aids bids : List Nat) :
    Neutral grants Ref.vital (firstPair cs check aids bids) := by
  refine Neutral.firstOf (fun j => Neutral.firstOf (fun k => ?_) _) _
  exact (h _ _).attempt Neutral.done fun _ => Neutral.done

variable {apex : Nat}

theorem tryApex_neutral :
    Neutral grants Ref.vital (tryApex grants K cs a b apex) :=
  gathered fun _ _ => searched (firstPair_neutral (fun _ _ => isProduct_neutral) _ _)

theorem searchProduct_neutral :
    Neutral grants Ref.vital (searchProduct grants K cs a b) := by
  refine Neutral.firstOf (fun apex => ?_) _
  exact (tryApex_neutral).attempt Neutral.done fun _ => Neutral.done

theorem pbCommute_neutral {wX wY : Nat} :
    Neutral grants Ref.vital (pbCommute K f g wX wY) := by
  refine (catCompose_spec).call (fun _ => done rfl) fun c1 => ?_
  refine (catCompose_spec).call (fun _ => ?_) fun c2 => ?_
  · exact (morRelease_spec).last rfl fun _ o h => by rw [h]; rfl
  have hpair : morOwn c2 + (morOwn c1 + 0) = morOwn c1 + morOwn c2 := by abel
  rw [hpair]
  refine (morEqual_neutral).call (fun _ => rel2_spec) fun e1 => ?_
  refine (rel2_spec).step (add_zero _).symm ?_
  rintro _ _ rfl
  exact done (add_zero _)

variable {w pX pY : Nat}

theorem pbCell_neutral {xi yi : Nat} :
    Neutral grants Ref.vital (pbCell K cs w apex f g pX pY xi yi) := by
  refine (pbCommute_neutral).attempt Neutral.done fun comm => ?_
  split
  · exact (pairOne_neutral).attempt Neutral.done fun _ => Neutral.done
  · exact Neutral.done

theorem pbCells_neutral {xids yids : List Nat} :
    Neutral grants Ref.vital (pbCells K cs w apex f g pX pY xids yids) := by
  refine Neutral.accumulate (fun acc i => Neutral.accumulate (fun acc j => ?_) _ _) _ _
  exact (pbCell_neutral).attempt Neutral.done fun _ => Neutral.done

theorem pbObjCheck_neutral :
    Neutral grants Ref.vital (pbObjCheck grants K cs w x y apex f g pX pY) :=
  gathered fun _ _ => searched pbCells_neutral

theorem isPullback_neutral :
    Neutral grants Ref.vital (isPullback grants K cs apex x y f g pX pY) := by
  refine (pbCommute_neutral).attempt Neutral.done fun comm => ?_
  split
  · refine (Neutral.firstOf (fun w => ?_) _).attempt Neutral.done fun _ => Neutral.done
    exact (pbObjCheck_neutral).attempt Neutral.done fun _ => Neutral.done
  · exact Neutral.done

theorem searchPullback_neutral :
    Neutral grants Ref.vital (searchPullback grants K cs x y f g) :=
  Neutral.firstOf (fun _ => gathered fun _ _ =>
    searched (firstPair_neutral (fun _ _ => isPullback_neutral) _ _)) _

/-! ## Counted objects -/

theorem objectRetain_spec {n : Nat} : Triple grants Ref.vital {.object b n} (objectRetain b)
    fun r o => match r with
      | .error _ => o = {.object b n}
      | .ok _ => o = {.object b (n + 1)} := by
  refine refs.step (add_zero _).symm ?_
  rintro m _ ⟨rfl, rfl⟩
  rw [add_zero]
  cases hinc : refInc m with
  | error st => exact done rfl
  | ok m' =>
    have hm' : m' = m + 1 := by
      rw [refInc] at hinc
      split at hinc
      · cases hinc
      · exact (Except.ok.inj hinc).symm
    subst hm'
    refine (setRefs (t := .object b m) rfl).step (add_zero _).symm ?_
    rintro _ _ rfl
    exact done (add_zero _)

variable {destroy : Finding Unit}

theorem objectRelease_more {n : Nat} :
    Triple grants Ref.vital {.object b (n + 2)} (objectRelease b destroy)
      fun _ o => o = {.object b (n + 1)} := by
  refine refs.step (add_zero _).symm ?_
  rintro m _ ⟨rfl, rfl⟩
  refine (setRefs (t := .object b (n + 2)) rfl).step (add_zero _).symm ?_
  rintro _ _ rfl
  exact done (add_zero _)

theorem objectRelease_last {body after : Multiset (Token Ref)}
    (h : Triple grants Ref.vital ({.object b 0} + body) destroy fun _ o => o = after) :
    Triple grants Ref.vital ({.object b 1} + body) (objectRelease b destroy)
      fun _ o => o = after := by
  refine refs.step rfl ?_
  rintro m _ ⟨rfl, rfl⟩
  refine (setRefs (t := .object b 1) rfl).step rfl ?_
  rintro _ _ rfl
  exact h

/-! ## The shape -/

/-- What a store owns. -/
def ShapeMem.storeOwn (sh : ShapeMem) : Multiset (Token Ref) :=
  {.object sh.store 1} + ofPtrs (sh.objMem :: sh.arrays)

/-- A category over a shape with `n` references. -/
def ShapeMem.own (sh : ShapeMem) (n : Nat) : Multiset (Token Ref) :=
  {.object sh.category n} + sh.storeOwn

/-- The enumeration of a shape, without its reference to the category. -/
def ShapeMem.enumOwn (sh : ShapeMem) : Multiset (Token Ref) := {.object sh.enumeration 1}

variable {sh : ShapeMem} {n : Nat}

theorem storeRelease_spec :
    Triple grants Ref.vital sh.storeOwn (storeRelease sh) fun _ o => o = 0 := by
  refine objectRelease_last (forget ?_)
  refine freeAll.whole ?_
  rw [ofPtrs_cons, ofPtrs_cons, ofPtrs_append]
  have hstore : ofPtrs [some sh.store] = blockOwn sh.store := rfl
  rw [hstore, blockOwn]
  abel

theorem shapeRelease_last :
    Triple grants Ref.vital (sh.own 1) (shapeRelease sh) fun _ o => o = 0 := by
  refine objectRelease_last ?_
  refine (storeRelease_spec).step (add_comm _ _) ?_
  rintro _ _ rfl
  rw [zero_add]
  exact freeToken rfl

theorem shapeRelease_more :
    Triple grants Ref.vital (sh.own (n + 2)) (shapeRelease sh) fun _ o => o = sh.own (n + 1) :=
  (objectRelease_more).last rfl fun _ _ h => by rw [h, ShapeMem.own]

theorem shapeEnumRelease_last :
    Triple grants Ref.vital (sh.enumOwn + sh.own 1) (shapeEnumRelease sh) fun _ o => o = 0 := by
  refine objectRelease_last ?_
  refine (shapeRelease_last).step (add_comm _ _) ?_
  rintro _ _ rfl
  rw [zero_add]
  exact freeToken rfl

theorem shapeEnumRelease_more :
    Triple grants Ref.vital (sh.enumOwn + sh.own (n + 2)) (shapeEnumRelease sh)
      fun _ o => o = sh.own (n + 1) := by
  refine objectRelease_last ?_
  refine (shapeRelease_more).step (add_comm _ _) ?_
  rintro _ _ rfl
  refine (freeToken (t := .object sh.enumeration 0) rfl).last (add_comm _ _) fun _ _ h => ?_
  rw [h, zero_add]

/-! ## The diagram, the cone and the limit -/

/-- A diagram with `n` references, which has the only reference to its shape. -/
def DiagramMem.own (d : DiagramMem) (n : Nat) : Multiset (Token Ref) :=
  {.object d.block n} + ({.block d.ctx} + (d.shape.own 1 + {.ref .category}))

variable {d : DiagramMem}

theorem functorRelease_last :
    Triple grants Ref.vital (d.own 1) (functorRelease d) fun _ o => o = 0 := by
  refine objectRelease_last ?_
  refine (freeToken (t := .block d.ctx) rfl).step (add_left_comm _ _ _) ?_
  rintro _ _ rfl
  rw [zero_add]
  refine (shapeRelease_last).step (add_left_comm _ _ _) ?_
  rintro _ _ rfl
  rw [zero_add]
  refine (release_spec (r := .category) trivial).step (add_comm _ _) ?_
  rintro _ _ rfl
  rw [zero_add]
  exact freeToken rfl

theorem functorRelease_more :
    Triple grants Ref.vital (d.own (n + 2)) (functorRelease d) fun _ o => o = d.own (n + 1) :=
  (objectRelease_more).last rfl fun _ _ h => by rw [h, DiagramMem.own]

/-- The diagram takes a reference to the shape more, and does not own the context if it fails. -/
theorem functorNew_spec {dx : Nat} :
    Triple grants Ref.vital (sh.own 2) (functorNew grants sh dx) fun r o =>
      match r with
      | .error _ => o = sh.own 2
      | .ok d => d.ctx = dx ∧ d.shape = sh ∧
          o = {.object d.block 1} + ({.ref .category} + sh.own 3) := by
  refine (objectRetain_spec (n := 2)).attempt rfl ?_ ?_
  · rintro st _ rfl
    exact done rfl
  · rintro _ _ rfl
    have hown : ({.object sh.category 3} + sh.storeOwn : Multiset (Token Ref)) = sh.own 3 := rfl
    rw [hown]
    refine (retain_spec).call (fun _ => shapeRelease_more) fun _ => ?_
    refine (catAlloc_spec).call (fun _ => ?_) fun b => ?_
    · refine (shapeRelease_more).step (add_comm _ _) ?_
      rintro _ _ rfl
      exact (release_spec (r := .category) trivial).last (add_comm _ _) fun _ _ h => by
        rw [h, zero_add]
    · refine (setRefs (t := .block b) rfl).step rfl ?_
      rintro _ _ rfl
      exact done ⟨rfl, rfl, rfl⟩

/-- The legs of a result context. -/
def legsOwn (legs : List (Option Nat)) : Multiset (Token Ref) :=
  (legs.map fun leg => leg.elim 0 morOwn).sum

variable {leg : Option Nat} {legs : List (Option Nat)}

theorem legsOwn_cons :
    legsOwn (leg :: legs) = leg.elim 0 morOwn + legsOwn legs := by
  rw [legsOwn, map_cons, sum_cons, legsOwn]

theorem rel1_spec :
    Triple grants Ref.vital (leg.elim 0 morOwn) (rel1 leg) fun _ o => o = 0 := by
  cases leg with
  | none => exact done rfl
  | some m => exact morRelease_spec

theorem releaseLegs_spec :
    Triple grants Ref.vital (legsOwn legs) (releaseLegs legs) fun _ o => o = 0 := by
  induction legs with
  | nil => exact done rfl
  | cons leg legs ih =>
    refine (rel1_spec).step legsOwn_cons ?_
    rintro _ _ rfl
    rw [zero_add]
    exact ih

/-- A reference, if it is there yet. -/
def whenOwn (b : Bool) (r : Ref) : Multiset (Token Ref) := if b then {.ref r} else 0

/-- What a result context owns. -/
def ResultMem.own (rx : ResultMem) : Multiset (Token Ref) :=
  {.block rx.block} + (whenOwn rx.enumeration .enumeration +
    (whenOwn rx.eq .equality + legsOwn rx.legs))

theorem whenRelease_spec {b : Bool} (hr : r.vital) :
    Triple grants Ref.vital (whenOwn b r) (releaseIf b r) fun _ o => o = 0 := by
  cases b with
  | false => exact done rfl
  | true => exact release_spec hr

variable {rx : ResultMem}

theorem resultFree_spec : Triple grants Ref.vital rx.own (resultFree rx) fun _ o => o = 0 := by
  refine (whenRelease_spec (r := .enumeration) trivial).step (add_left_comm _ _ _) ?_
  rintro _ _ rfl
  rw [zero_add]
  refine (whenRelease_spec (r := .equality) trivial).step (add_left_comm _ _ _) ?_
  rintro _ _ rfl
  rw [zero_add]
  refine (releaseLegs_spec).step (add_comm _ _) ?_
  rintro _ _ rfl
  rw [zero_add]
  exact freeToken rfl

/-- A cone with `n` references, which has its context and the only reference to its diagram. -/
def ConeMem.own (c : ConeMem) (n : Nat) : Multiset (Token Ref) :=
  {.object c.block n} + (c.ctx.own + c.diagram.own 1)

variable {c : ConeMem}

/-- The cone takes a reference to the diagram more, and does not own the context if it fails. -/
theorem coneNew_spec :
    Triple grants Ref.vital (d.own 1) (coneNew grants K d apex rx) fun r o =>
      match r with
      | .error _ => o = d.own 1
      | .ok c => c.diagram = d ∧ c.ctx = rx ∧ o = {.object c.block 1} + d.own 2 := by
  rw [coneNew]
  split
  · refine (objectRetain_spec (n := 1)).attempt rfl ?_ ?_
    · rintro st _ rfl
      exact done rfl
    · rintro _ _ rfl
      refine (catAlloc_spec).call (fun _ => functorRelease_more) fun b => ?_
      refine (setRefs (t := .block b) rfl).step rfl ?_
      rintro _ _ rfl
      exact done ⟨rfl, rfl, rfl⟩
  · exact done rfl

theorem coneRelease_last :
    Triple grants Ref.vital (c.own 1) (coneRelease c) fun _ o => o = 0 := by
  refine objectRelease_last ?_
  refine (resultFree_spec).step (add_left_comm _ _ _) ?_
  rintro _ _ rfl
  rw [zero_add]
  refine (functorRelease_last).step (add_comm _ _) ?_
  rintro _ _ rfl
  rw [zero_add]
  exact freeToken rfl

theorem coneRelease_more :
    Triple grants Ref.vital (c.own (n + 2)) (coneRelease c) fun _ o => o = c.own (n + 1) :=
  (objectRelease_more).last rfl fun _ _ h => by rw [h, ConeMem.own]

/-- A limit, which has the only reference to its cone. -/
def LimitMem.own (l : LimitMem) : Multiset (Token Ref) := {.object l.block 1} + l.cone.own 1

theorem limitNew_spec :
    Triple grants Ref.vital (c.own 1) (limitNew grants c) fun r o =>
      match r with
      | .error _ => o = c.own 1
      | .ok l => l.cone = c ∧ o = {.object l.block 1} + c.own 2 := by
  refine (objectRetain_spec (n := 1)).attempt rfl ?_ ?_
  · rintro st _ rfl
    exact done rfl
  · rintro _ _ rfl
    refine (catAlloc_spec).call (fun _ => coneRelease_more) fun b => ?_
    refine (setRefs (t := .block b) rfl).step rfl ?_
    rintro _ _ rfl
    exact done ⟨rfl, rfl⟩

theorem limitRelease_spec {l : LimitMem} :
    Triple grants Ref.vital l.own (limitRelease l) fun _ o => o = 0 := by
  refine objectRelease_last ?_
  refine (coneRelease_last).step (add_comm _ _) ?_
  rintro _ _ rfl
  rw [zero_add]
  exact freeToken rfl

/-! ## What is in hand -/

/-- What is owned where there is something. -/
def someOwn {α : Type} (own : α → Multiset (Token Ref)) (p : Option α) :
    Multiset (Token Ref) :=
  p.elim 0 own

theorem whereSome_spec {f : α → Finding Unit} {p : Option α}
    {own : α → Multiset (Token Ref)}
    (h : ∀ a, Triple grants Ref.vital (own a) (f a) fun _ o => o = 0) :
    Triple grants Ref.vital (someOwn own p) (whereSome f p) fun _ o => o = 0 := by
  cases p with
  | none => exact done rfl
  | some a => exact h a

/-- A shape with its enumeration. -/
def ShapeMem.both (sh : ShapeMem) : Multiset (Token Ref) := sh.own 2 + sh.enumOwn

/-- What a finder owns besides the census. -/
def Hands.own (hs : Hands) : Multiset (Token Ref) :=
  someOwn ResultMem.own hs.rx + (hs.lz.elim 0 morOwn + (someOwn (fun d => d.own 1) hs.diagram +
    (ofPtr hs.dx + (someOwn ShapeMem.both hs.shape + someOwn (fun c => c.own 1) hs.cone))))

theorem buildRelease_spec (hs : Hands) (hshape : hs.shapenum = hs.shape) :
    Triple grants Ref.vital (hs.own + cs.own) (buildRelease cs hs) fun _ o => o = 0 := by
  have hown : hs.own + cs.own = someOwn ResultMem.own hs.rx + (hs.lz.elim 0 morOwn +
      (someOwn (fun d => d.own 1) hs.diagram + (ofPtr hs.dx + (someOwn ShapeMem.both hs.shape +
        (someOwn (fun c => c.own 1) hs.cone + cs.own))))) := by
    rw [Hands.own]
    abel
  refine (whereSome_spec fun _ => resultFree_spec).step hown ?_
  rintro _ _ rfl
  rw [zero_add]
  refine (rel1_spec).step rfl ?_
  rintro _ _ rfl
  rw [zero_add]
  refine (whereSome_spec fun _ => functorRelease_last).step rfl ?_
  rintro _ _ rfl
  rw [zero_add]
  refine free.step rfl ?_
  rintro _ _ rfl
  rw [zero_add, hshape]
  have hrest : Triple grants Ref.vital (someOwn (fun c => c.own 1) hs.cone + cs.own)
      (do
        whereSome coneRelease hs.cone
        censusFree cs) fun _ o => o = 0 := by
    refine (whereSome_spec fun _ => coneRelease_last).step rfl ?_
    rintro _ _ rfl
    rw [zero_add]
    exact censusFree_spec
  cases hs.shape with
  | none =>
    have hnone : (someOwn ShapeMem.both none : Multiset (Token Ref)) = 0 := rfl
    rw [hnone, zero_add]
    exact pass Neutral.done fun _ => pass Neutral.done fun _ => hrest
  | some sh =>
    refine (shapeRelease_more).step (add_assoc _ _ _) ?_
    rintro _ _ rfl
    refine (shapeEnumRelease_last).step (add_left_comm _ _ _ |>.trans (add_assoc _ _ _).symm) ?_
    rintro _ _ rfl
    rw [zero_add]
    exact hrest

/-! ## The shape is built -/

/-- What a builder owns. -/
def BuilderMem.own (m : BuilderMem) : Multiset (Token Ref) :=
  ofPtrs [m.ident, m.mors, m.comps, some m.block]

theorem vecRoom_spec {v : Vec α elem} {data : Option Nat} :
    Triple grants Ref.vital (ofPtr data) (vecRoom grants v data) fun r o => o = ofPtr r.2 := by
  rw [vecRoom]
  split
  · split
    · exact done rfl
    · refine alloc.step (zero_add _).symm ?_
      rintro p _ rfl
      cases p with
      | none => exact done (zero_add _)
      | some b =>
        refine free.step (add_comm _ _) ?_
        rintro _ _ rfl
        exact done (zero_add _)
  · exact done rfl

theorem callMem_spec {m : BuilderMem} {c : BuilderCall} :
    Triple grants Ref.vital m.own (callMem grants m c) fun r o => o = r.2.own ∧
      (m.builder.tables.Ends → r.2.builder.tables.Ends) := by
  unfold callMem
  split
  · exact done ⟨rfl, id⟩
  · cases c with
    | addObject =>
      refine framing (ofPtrs [m.mors, m.comps, some m.block]) vecRoom_spec ofPtrs_cons ?_
      rintro r _ rfl
      exact done ⟨ofPtrs_cons.symm, Builder.call_ends⟩
    | addMorphism dom cod =>
      refine framing (ofPtrs [m.ident, m.comps, some m.block]) vecRoom_spec
        (by simp only [BuilderMem.own, ofPtrs_cons]; abel) ?_
      rintro r _ rfl
      exact done ⟨by simp only [BuilderMem.own, ofPtrs_cons]; abel, Builder.call_ends⟩
    | setIdentity obj mor => exact done ⟨rfl, Builder.call_ends⟩
    | setComposition g f result =>
      refine framing (ofPtrs [m.ident, m.mors, some m.block]) vecRoom_spec
        (by simp only [BuilderMem.own, ofPtrs_cons]; abel) ?_
      rintro r _ rfl
      exact done ⟨by simp only [BuilderMem.own, ofPtrs_cons]; abel, Builder.call_ends⟩

theorem callsMem_spec (calls : List BuilderCall) {m : BuilderMem} (hends : m.builder.tables.Ends) :
    Triple grants Ref.vital m.own (callsMem grants calls m) fun r o => o = r.2.own ∧
      r.2.builder.tables.Ends := by
  induction calls generalizing m with
  | nil => exact done ⟨rfl, hends⟩
  | cons c rest ih =>
    refine (callMem_spec).step (add_zero _).symm ?_
    rintro r _ ⟨rfl, hnext⟩
    rw [add_zero]
    split
    · exact ih (hnext hends)
    · exact done ⟨rfl, hnext hends⟩

theorem builderRelease_spec {m : BuilderMem} :
    Triple grants Ref.vital m.own (builderRelease m) fun _ o => o = 0 :=
  freeAll

theorem shapeCounts_spec {c : CategoryMem} {en : CapabilityMem} (hc : c.refs = 2)
    (hen : en.refs = 1) (hstore : c.mem.store.refs = 1) :
    Triple grants Ref.vital ({.block c.block} + ({.block en.block} + ({.block c.mem.block} +
      ofPtrs (c.mem.objMem :: c.mem.arrays)))) (shapeCounts c en)
      fun r o => o = made ShapeMem.both r := by
  rw [shapeCounts, hc, hen, hstore]
  refine (setRefs (t := .block c.block) rfl).step rfl ?_
  rintro _ _ rfl
  refine (setRefs (t := .block en.block) rfl).step (add_left_comm _ _ _) ?_
  rintro _ _ rfl
  refine framing ({.object c.block 2} + ({.object en.block 1} +
    ofPtrs (c.mem.objMem :: c.mem.arrays))) (setRefs (t := .block c.mem.block) rfl) (by abel) ?_
  rintro _ _ rfl
  refine done ?_
  rw [made, ShapeMem.both, ShapeMem.own, ShapeMem.storeOwn, ShapeMem.enumOwn]
  abel

theorem ofPtrs_coe (ps : List (Option Nat)) :
    (((ps.flatMap toList).map Token.block : List (Token Ref)) : Multiset (Token Ref)) =
      ofPtrs ps := by
  induction ps with
  | nil => rfl
  | cons p ps ih =>
    rw [flatMap_cons, map_append, ← Multiset.coe_add, ih, ofPtrs_cons]
    cases p <;> rfl

theorem shapeBuild_spec {b : Builder} (hends : b.tables.Ends) :
    Triple grants Ref.vital 0 (shapeBuild grants b) fun r o => o = made ShapeMem.both r := by
  intro s₀ s frame hs
  rw [zero_add] at hs
  obtain ⟨r, hr, -, hfail, hok⟩ :=
    finiteBuildMem_spec grants ⟨some none, none, some none⟩ s.blocks hends
  by_cases hst : r.status = .ok
  · obtain ⟨⟨c, eq, enum⟩, hbuilt, hmade, ho⟩ := hok hst
    have heq : eq = none := map_eq_none_iff.1 hmade.eq
    obtain ⟨en, rfl, hen⟩ := map_eq_some_iff.1 hmade.enum
    subst heq
    have howned : (((Built.owned ⟨c, none, some en⟩).map Token.block : List (Token Ref)) :
        Multiset (Token Ref)) = {.block c.block} + ({.block en.block} + ({.block c.mem.block} +
          ofPtrs (c.mem.objMem :: c.mem.arrays))) := by
      have hlist : Built.owned ⟨c, none, some en⟩ = en.block :: c.block :: c.mem.owned := rfl
      have hlast : ofPtrs [some c.mem.block] = blockOwn c.mem.block := rfl
      rw [hlist, map_cons, map_cons, ← Multiset.cons_coe, ← Multiset.cons_coe,
        StoreMem.owned, ofPtrs_coe, ofPtrs_cons, ofPtrs_cons, ofPtrs_append, hlast, blockOwn,
        ← Multiset.singleton_add, ← Multiset.singleton_add]
      abel
    have hs' := hs.more ho
    rw [howned] at hs'
    obtain ⟨res, s', o, hrun, hpost, hs''⟩ := shapeCounts_spec hmade.refs hen
      (by rw [hmade.store]; rfl) s₀ _ frame hs'
    refine ⟨res, s', o, ?_, hpost, hs''⟩
    rw [shapeBuild, hr, bind_some, hst, hbuilt]
    exact hrun
  · obtain ⟨-, ho, -⟩ := hfail hst
    refine ⟨.error r.status, { s with blocks := r.blocks }, 0, ?_, rfl, hs.more ho⟩
    rw [shapeBuild, hr, bind_some]
    split
    next hstatus _ => exact absurd hstatus hst
    next => rfl

theorem shapeCategoryNew_spec {kind : ShapeKind} :
    Triple grants Ref.vital 0 (shapeCategoryNew grants kind)
      fun r o => o = made ShapeMem.both r := by
  refine (catAlloc_spec).call (fun _ => done rfl) fun block => ?_
  have hends : builderNew.tables.Ends := by
    intro f x y hf
    cases hf
  have hown : blockOwn block + 0 = BuilderMem.own ⟨block, none, none, none, builderNew⟩ + 0 := by
    simp only [BuilderMem.own, ofPtrs_cons, ofPtr, zero_add]
    rfl
  refine (callsMem_spec _ hends).step hown ?_
  rintro ⟨res, m⟩ _ ⟨rfl, hm⟩
  rw [add_zero]
  cases res with
  | error st =>
    refine (builderRelease_spec).step (add_zero _).symm ?_
    rintro _ _ rfl
    exact done (add_zero _)
  | ok _ =>
    refine (shapeBuild_spec hm).step (zero_add _).symm ?_
    rintro r _ rfl
    refine (builderRelease_spec).step (add_comm _ _) ?_
    rintro _ _ rfl
    exact done (zero_add _)

theorem grab_neutral {kind : ShapeKind} : Neutral grants Ref.vital (grab grants kind) := by
  refine (catAlloc_spec).call (fun _ => done rfl) fun it => ?_
  refine (freeToken (t := .block it) rfl).step rfl ?_
  rintro _ _ rfl
  exact done rfl

/-! ## The steps of both finders -/

variable {kind : ShapeKind}

theorem buildDiagram_spec (lz : Option Nat) :
    Triple grants Ref.vital (lz.elim 0 morOwn + cs.own) (buildDiagram grants cs kind lz)
      fun r o => o = made (fun m => m.2.own 1 + (lz.elim 0 morOwn + cs.own)) r := by
  have hlz : ∀ (p : Option ShapeMem) (dx : Option Nat),
      Triple grants Ref.vital (ofPtr dx + (someOwn ShapeMem.both p + (lz.elim 0 morOwn + cs.own)))
        (buildRelease cs ⟨none, lz, none, dx, p, p, none⟩) fun _ o => o = 0 := by
    intro p dx
    refine (buildRelease_spec ⟨none, lz, none, dx, p, p, none⟩ rfl).whole ?_
    simp only [Hands.own, someOwn, elim_none]
    abel
  have hempty := hlz none none
  refine (shapeCategoryNew_spec).call (fun _ => ?_) fun sh => ?_
  · exact hempty.whole (by simp [ofPtr, someOwn])
  have hshape := hlz (some sh) none
  have hnone : (ofPtr none + (someOwn ShapeMem.both (some sh) + (lz.elim 0 morOwn + cs.own)) :
      Multiset (Token Ref)) = sh.both + (lz.elim 0 morOwn + cs.own) := zero_add _
  rw [hnone] at hshape
  refine (grab_neutral).call (fun _ => hshape) fun pts => ?_
  refine (catAlloc_spec).call (fun _ => hshape) fun dx => ?_
  have hnew : blockOwn dx + (sh.both + (lz.elim 0 morOwn + cs.own)) =
      sh.own 2 + (blockOwn dx + (sh.enumOwn + (lz.elim 0 morOwn + cs.own))) := by
    rw [ShapeMem.both]
    abel
  refine (functorNew_spec).attempt hnew ?_ ?_
  · rintro st _ rfl
    rw [← hnew]
    exact hlz (some sh) (some dx)
  · rintro d _ ⟨rfl, rfl, rfl⟩
    refine framing ({.object d.block 1} + ({.ref .category} +
      (blockOwn d.ctx + (d.shape.enumOwn + (lz.elim 0 morOwn + cs.own)))))
      (shapeRelease_more (n := 1)) (by abel) ?_
    rintro _ _ rfl
    refine framing ({.object d.block 1} + ({.ref .category} +
      (blockOwn d.ctx + (lz.elim 0 morOwn + cs.own)))) (shapeEnumRelease_more (n := 0))
      (by abel) ?_
    rintro _ _ rfl
    refine done ?_
    rw [made, DiagramMem.own, blockOwn]
    abel

variable {hs : Hands}

theorem buildRelease_with (hshape : hs.shapenum = hs.shape) (hrx : hs.rx = none) :
    Triple grants Ref.vital (rx.own + (hs.own + cs.own)) (buildRelease cs { hs with rx := some rx })
      fun _ o => o = 0 := by
  have hown : rx.own + (hs.own + cs.own) = Hands.own { hs with rx := some rx } + cs.own := by
    simp only [Hands.own, someOwn, hrx, elim_none, elim_some]
    abel
  rw [hown]
  exact buildRelease_spec _ hshape

theorem buildResult_spec (legs : List (Option Nat)) (hlegs : legsOwn legs = 0)
    (hshape : hs.shapenum = hs.shape) (hrx : hs.rx = none) :
    Triple grants Ref.vital (hs.own + cs.own) (buildResult grants cs legs hs) fun r o =>
      match r with
      | .error _ => o = 0
      | .ok rx => rx.enumeration = true ∧ rx.eq = true ∧ rx.legs = legs ∧
          o = rx.own + (hs.own + cs.own) := by
  have hgrow : ∀ b : Nat, blockOwn b + (hs.own + cs.own) =
      ResultMem.own ⟨b, false, false, legs⟩ + (hs.own + cs.own) := by
    intro b
    simp [ResultMem.own, whenOwn, hlegs, blockOwn]
  refine (catAlloc_spec).call (fun _ => buildRelease_spec hs hshape) fun b => ?_
  rw [hgrow]
  refine (retain_spec).call (fun _ => buildRelease_with hshape hrx) fun _ => ?_
  have henum : refOwn Ref.enumeration () +
      (ResultMem.own ⟨b, false, false, legs⟩ + (hs.own + cs.own)) =
      ResultMem.own ⟨b, true, false, legs⟩ + (hs.own + cs.own) := by
    simp only [ResultMem.own, whenOwn, refOwn, if_true, Bool.false_eq_true, if_false]
    abel
  rw [henum]
  refine (retain_spec).call (fun _ => buildRelease_with hshape hrx) fun _ => ?_
  refine done ⟨rfl, rfl, rfl, ?_⟩
  simp only [ResultMem.own, whenOwn, refOwn, if_true, Bool.false_eq_true, if_false]
  abel

theorem buildLimit_spec :
    Triple grants Ref.vital (rx.own + (d.own 1 + cs.own)) (buildLimit grants K cs d apex rx)
      fun r o => o = made LimitMem.own r := by
  have hnew : rx.own + (d.own 1 + cs.own) = d.own 1 + (rx.own + cs.own) := add_left_comm _ _ _
  refine (coneNew_spec).attempt hnew ?_ ?_
  · rintro st _ rfl
    refine (buildRelease_spec { Hands.empty with rx := some rx, diagram := some d } rfl).whole ?_
    simp only [Hands.own, Hands.empty, someOwn, elim_none, elim_some, ofPtr]
    abel
  · rintro c _ ⟨rfl, rfl, rfl⟩
    refine framing ({.object c.block 1} + (c.ctx.own + cs.own)) (functorRelease_more (n := 0))
      (by abel) ?_
    rintro _ _ rfl
    have hcone : c.diagram.own 1 + ({.object c.block 1} + (c.ctx.own + cs.own)) =
        c.own 1 + cs.own := by
      rw [ConeMem.own]
      abel
    rw [zero_add, hcone]
    refine (limitNew_spec).attempt rfl ?_ ?_
    · rintro st _ rfl
      refine (buildRelease_spec { Hands.empty with cone := some c } rfl).whole ?_
      simp only [Hands.own, Hands.empty, someOwn, elim_none, elim_some, ofPtr]
      abel
    · rintro l _ ⟨rfl, rfl⟩
      refine framing ({.object l.block 1} + cs.own) (coneRelease_more (n := 0)) (by abel) ?_
      rintro _ _ rfl
      refine framing (l.cone.own 1 + {.object l.block 1}) censusFree_spec (by abel) ?_
      rintro _ _ rfl
      refine done ?_
      rw [made, LimitMem.own]
      abel

theorem ResultMem.own_leg (legs' : List (Option Nat)) {rx : ResultMem}
        {rest : Multiset (Token Ref)} (hrx : rx.legs = legs)
    (hlegs : legsOwn legs' = morOwn m + legsOwn legs) :
    refOwn (.mor m) () + (rx.own + rest) = ResultMem.own { rx with legs := legs' } + rest := by
  rw [ResultMem.own, ResultMem.own, hlegs, hrx, morOwn, refOwn]
  abel

theorem buildProduct_spec :
    Triple grants Ref.vital 0 (buildProduct grants K a b) fun r o =>
      o = made (fun p => p.2.own) r := by
  refine (censusBuild_spec).call (fun _ => done rfl) fun cs => ?_
  rw [add_zero]
  refine (searchProduct_neutral).call (fun _ => censusFree_spec) fun found => ?_
  match found with
  | none =>
    refine (censusFree_spec).step (add_zero _).symm ?_
    rintro _ _ rfl
    exact done (add_zero _)
  | some (apex, pa, pb) =>
    refine (buildDiagram_spec none).attemptAll (by simp) ?_ ?_
    · rintro st _ rfl
      exact done rfl
    · rintro ⟨pts, d⟩ _ rfl
      have hhands : ∀ hs : Hands, hs = { Hands.empty with diagram := some d } →
          made (fun m : List Nat × DiagramMem => m.2.own 1 + (Option.elim none 0 morOwn + cs.own))
            (Except.ok (ε := Status) (pts, d)) = hs.own + cs.own := by
        rintro _ rfl
        simp [made, Hands.own, Hands.empty, someOwn, ofPtr]
      rw [hhands _ rfl]
      refine (buildResult_spec [none, none] rfl rfl rfl).attemptAll rfl ?_ ?_
      · rintro st _ rfl
        exact done rfl
      · rintro rx _ ⟨-, -, hlegs, rfl⟩
        refine (morRetain_spec).call (fun _ => buildRelease_with rfl rfl) fun _ => ?_
        rw [ResultMem.own_leg [some pa, none] hlegs rfl]
        refine (morRetain_spec).call (fun _ => buildRelease_with rfl rfl) fun _ => ?_
        rw [ResultMem.own_leg [some pa, some pb] rfl
          (by simp only [legsOwn_cons, elim_some, elim_none]; abel)]
        refine (buildLimit_spec).attemptAll ?_ ?_ ?_
        · simp [Hands.own, Hands.empty, someOwn, ofPtr]
        · rintro st _ rfl
          exact done rfl
        · rintro l _ rfl
          exact done rfl

theorem buildPullbackLimit_spec :
    Triple grants Ref.vital 0 (buildPullbackLimit grants K f g)
      fun r o => o = made (fun p => p.2.own) r := by
  refine (censusBuild_spec).call (fun _ => done rfl) fun cs => ?_
  rw [add_zero]
  refine (catDom_neutral).call (fun _ => censusFree_spec) fun x => ?_
  refine (catDom_neutral).call (fun _ => censusFree_spec) fun y => ?_
  refine (catCod_neutral).call (fun _ => censusFree_spec) fun z => ?_
  refine (searchPullback_neutral).call (fun _ => censusFree_spec) fun found => ?_
  match found with
  | none =>
    refine (censusFree_spec).step (add_zero _).symm ?_
    rintro _ _ rfl
    exact done (add_zero _)
  | some (apex, pX, pY) =>
    refine (catCompose_spec).call (fun _ => censusFree_spec) fun lz => ?_
    refine (buildDiagram_spec (some lz)).attemptAll rfl ?_ ?_
    · rintro st _ rfl
      exact done rfl
    · rintro ⟨pts, d⟩ _ rfl
      have hhands : ∀ hs : Hands, hs = { Hands.empty with diagram := some d, lz := some lz } →
          made (fun m : List Nat × DiagramMem => m.2.own 1 + ((some lz).elim 0 morOwn + cs.own))
            (Except.ok (ε := Status) (pts, d)) = hs.own + cs.own := by
        rintro _ rfl
        simp only [made, Hands.own, Hands.empty, someOwn, ofPtr, elim_some, elim_none]
        abel
      rw [hhands _ rfl]
      refine (buildResult_spec [none, none, none] rfl rfl rfl).attemptAll rfl ?_ ?_
      · rintro st _ rfl
        exact done rfl
      · rintro rx _ ⟨-, -, hlegs, rfl⟩
        refine (morRetain_spec).call (fun _ => buildRelease_with rfl rfl) fun _ => ?_
        rw [ResultMem.own_leg [some pX, none, none] hlegs rfl]
        refine (morRetain_spec).call (fun _ => buildRelease_with rfl rfl) fun _ => ?_
        rw [ResultMem.own_leg [some pX, some pY, none] rfl
          (by simp only [legsOwn_cons, elim_some, elim_none]; abel)]
        refine (morRetain_spec).call (fun _ => buildRelease_with rfl rfl) fun _ => ?_
        rw [ResultMem.own_leg [some pX, some pY, some lz] rfl
          (by simp only [legsOwn_cons, elim_some, elim_none]; abel)]
        refine framing (ResultMem.own { rx with legs := [some pX, some pY, some lz] } +
          (d.own 1 + cs.own)) morRelease_spec ?_ ?_
        · simp only [Hands.own, Hands.empty, someOwn, ofPtr, elim_some, elim_none]
          abel
        rintro _ _ rfl
        rw [zero_add]
        refine (buildLimit_spec).attemptAll rfl ?_ ?_
        · rintro st _ rfl
          exact done rfl
        · rintro l _ rfl
          exact done rfl

/-! ## The finders -/

/-- Every variable of the caller is `NULL`. -/
def FindOuts.Cleared (outs : FindOuts) : Prop :=
  outs.limit.join = none ∧ ∀ p ∈ outs.points, p.join = none

theorem FindOuts.clear_cleared (outs : FindOuts) : outs.clear.Cleared := by
  refine ⟨by simp [clear, join], fun p hp => ?_⟩
  obtain ⟨q, -, rfl⟩ := mem_map.1 hp
  simp [join]

/-- What the end of a finder hands to the caller. -/
def FindEnd.own (e : FindEnd) : Multiset (Token Ref) := made LimitMem.own e.result

/-- A finder that returns keeps the accounts: if it fails, every variable is `NULL`, all counts are
as before and each block it was handed it has freed once; if not, that is so once its limit is
released. -/
def Accounted (grants : Nat → Bool) (s : Estate Ref) (find : Finding FindEnd) : Prop :=
  ∃ e s', find s = some (e, s') ∧
    match e.result with
    | .error _ => e.outs.Cleared ∧ s'.held = s.held ∧ Owes grants s.blocks s'.blocks []
    | .ok l => ∃ s'', limitRelease l s' = some ((), s'') ∧ s''.held = s.held ∧
        Owes grants s.blocks s''.blocks []

variable {outs : FindOuts}

theorem findEnd_spec (hclear : outs.Cleared)
    {build : Finding (Except Status (List Nat × LimitMem))}
    (h : Triple grants Ref.vital 0 build fun r o => o = made (fun p => p.2.own) r) :
    Triple grants Ref.vital 0 (findEnd outs build) fun e o => o = e.own ∧
      (∀ st, e.result = .error st → e.outs.Cleared) := by
  refine h.step (zero_add _).symm ?_
  rintro r _ rfl
  rw [add_zero]
  match r with
  | .error st => exact done ⟨rfl, fun _ _ => hclear⟩
  | .ok (pts, l) => exact done ⟨rfl, fun _ hst => by cases hst⟩

theorem refused_spec (hclear : outs.Cleared) :
    Triple grants Ref.vital 0 (pure ⟨.error .invalid, outs⟩ : Finding FindEnd) fun e o =>
      o = e.own ∧ ∀ st, e.result = .error st → e.outs.Cleared :=
  done ⟨rfl, fun _ _ => hclear⟩

variable {args : FindArgs}

theorem findBinaryProduct_spec {a b : Option Nat}
    (hlimit : outs.limit ≠ none) :
    Triple grants Ref.vital 0 (findBinaryProduct grants K args a b outs) fun e o => o = e.own ∧
      ∀ st, e.result = .error st → e.outs.Cleared := by
  unfold findBinaryProduct
  rw [if_neg hlimit]
  split
  · split
    · exact findEnd_spec outs.clear_cleared buildProduct_spec
    · exact refused_spec outs.clear_cleared
  · exact refused_spec outs.clear_cleared

theorem findPullback_spec {f g : Option Nat}
    (hlimit : outs.limit ≠ none) :
    Triple grants Ref.vital 0 (findPullback grants K args f g outs) fun e o => o = e.own ∧
      ∀ st, e.result = .error st → e.outs.Cleared := by
  unfold findPullback
  rw [if_neg hlimit]
  split
  · refine pass ownsMor_neutral fun ownedF => pass ownsMor_neutral fun ownedG => ?_
    split
    · refine findEnd_spec outs.clear_cleared ?_
      refine Neutral.call ?_ (fun _ => done rfl) fun _ => buildPullbackLimit_spec
      refine (catCod_neutral).attempt Neutral.done fun x => ?_
      refine (catCod_neutral).attempt Neutral.done fun y => ?_
      split <;> exact Neutral.done
    · exact refused_spec outs.clear_cleared
  · exact refused_spec outs.clear_cleared

variable {s : Estate Ref}

theorem accounted (hs : ∀ r, r.vital → 0 < s.held r) {find : Finding FindEnd}
    (h : Triple grants Ref.vital 0 find fun e o => o = e.own ∧
      ∀ st, e.result = .error st → e.outs.Cleared) : Accounted grants s find := by
  have hnone : ∀ {s' : Estate Ref}, Holds grants Ref.vital s s' 0 →
      s'.held = s.held ∧ Owes grants s.blocks s'.blocks [] := by
    intro s' hs'
    obtain ⟨bs, hbs, ho⟩ := hs'.owes
    obtain rfl : bs = [] := by simpa using hbs
    refine ⟨funext fun r => ?_, ho⟩
    rw [hs'.held r, Multiset.count_zero, Nat.add_zero]
  obtain ⟨e, s', o, hrun, ⟨rfl, hclear⟩, hs'⟩ := h.run hs
  refine ⟨e, s', hrun, ?_⟩
  cases hres : e.result with
  | error st =>
    rw [FindEnd.own, hres] at hs'
    exact ⟨hclear st hres, hnone hs'⟩
  | ok l =>
    rw [FindEnd.own, hres] at hs'
    have hown : made LimitMem.own (Except.ok (ε := Status) l) = l.own + 0 := (add_zero _).symm
    rw [hown] at hs'
    obtain ⟨_, s'', o, hrelease, rfl, hs''⟩ := limitRelease_spec _ _ _ hs'
    rw [add_zero] at hs''
    exact ⟨s'', hrelease, hnone hs''⟩

/-- The finders keep the accounts, whatever of the caller's functions and the allocator fails, if
the variable for the limit is there; if it is not, nothing is touched. -/
theorem finders_accounted (grants : Nat → Bool) (K : Ambient) (s : Estate Ref)
    (hs : ∀ r, r.vital → 0 < s.held r) (args : FindArgs) (a b : Option Nat) (outs : FindOuts) :
    (outs.limit ≠ none → Accounted grants s (findBinaryProduct grants K args a b outs) ∧
      Accounted grants s (findPullback grants K args a b outs)) ∧
    (outs.limit = none →
      findBinaryProduct grants K args a b outs s = some (⟨.error .invalid, outs⟩, s) ∧
        findPullback grants K args a b outs s = some (⟨.error .invalid, outs⟩, s)) := by
  refine ⟨fun hlimit => ⟨accounted hs (findBinaryProduct_spec hlimit),
    accounted hs (findPullback_spec hlimit)⟩, fun hlimit => ?_⟩
  unfold findBinaryProduct findPullback
  rw [if_pos hlimit, if_pos hlimit]
  exact ⟨rfl, rfl⟩

/-- A category with one object and one morphism, which is handed out always by the same handle. -/
def oneAmbient : Ambient where
  nObj := 1
  nMor := 1
  ownsObj x := x == 1
  objSame x y := x == y
  dom _ _ := .ok 1
  cod _ _ := .ok 1
  compose _ _ _ := .ok 2
  morRetain _ _ := .ok ()
  morEqual _ _ _ := .ok true
  objIterOpen _ := .ok ()
  objIterNext _ _ := .ok 1
  morIterOpen _ := .ok ()
  morIterNext _ _ := .ok 2

/-- The caller holds one reference to each. -/
def oneEstate : Estate Ref where
  blocks := ⟨0, [], []⟩
  header _ := 0
  held
    | .category | .enumeration | .equality => 1
    | _ => 0
  calls := 0

theorem oneEstate_held : ∀ r : Ref, r.vital → 0 < oneEstate.held r
  | .category, _ | .enumeration, _ | .equality, _ => Nat.zero_lt_one

theorem finders_accounted_one :
    Accounted (fun i => i != 20) oneEstate (findBinaryProduct (fun i => i != 20) oneAmbient
      ⟨true, some true, some true⟩ (some 1) (some 1) ⟨some none, [some none, none]⟩) :=
  ((finders_accounted _ oneAmbient oneEstate oneEstate_held ⟨true, some true, some true⟩
    (some 1) (some 1) ⟨some none, [some none, none]⟩).1 (by decide)).1

/-- Without the variable for the limit the others are left as they are. -/
theorem not_finders_accounted :
    ¬ Accounted (fun _ => true) oneEstate (findBinaryProduct (fun _ => true) oneAmbient
      ⟨true, some true, some true⟩ (some 1) (some 1) ⟨none, [some (some 7), none]⟩) := by
  rintro ⟨e, s', hrun, hend⟩
  cases hrun
  exact absurd (hend.1.2 (some (some 7)) mem_cons_self) (by decide)

end Cat89.Mem
