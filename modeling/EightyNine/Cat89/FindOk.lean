import EightyNine.Cat89.Find
import EightyNine.Library.Counting
import EightyNine.Library.Settle
import EightyNine.Cat89.CommaOk
import Mathlib.Data.List.ProdSigma

/-!
# libcat89: terminal and initial objects are found

`one_mor` counts the morphisms past the first in an `int`.  As long as each hom set that a
scan comes to holds no more than `INT_MAX + 1` morphisms, the scan finds an object of
its universal property exactly where there is one.
-/

namespace Cat89

open Library List

/-! ## Universal properties -/

namespace Category

variable {Obj Mor : Type} (K : Category Obj Mor)

/-- The morphisms from `x` to `y`. -/
def Hom (x y : Obj) (m : Mor) : Prop := K.dom m = x ∧ K.cod m = y

/-- `g` after `f` is `r`. -/
def Comp (g f r : Mor) : Prop := ∃ h, K.comp g f h = r

def IsTerminal (t : Obj) : Prop := ∀ x, ∃! m, K.Hom x t m

def IsInitial (i : Obj) : Prop := ∀ x, ∃! m, K.Hom i x m

end Category

variable {Obj Mor : Type} [DecidableEq Obj] [DecidableEq Mor] {K : Category Obj Mor}
  {en : Enumeration Obj Mor} {a b x y t : Obj} {m f : Mor} {l : List Mor} {room : Bool}

instance decidableHom : DecidablePred (K.Hom x y) :=
  fun m => inferInstanceAs (Decidable (K.dom m = x ∧ K.cod m = y))

instance decidableComp (g f r : Mor) : Decidable (K.Comp g f r) :=
  inferInstanceAs (Decidable (∃ h, K.comp g f h = r))

omit [DecidableEq Mor] in
theorem inHom_iff : inHom K x y m = true ↔ K.Hom x y m := by
  rw [inHom, Category.Hom]
  split_ifs with hdom hcod
  · simp [hdom]
  · simp [hcod]
  · simp [not_not.1 hdom, not_not.1 hcod]

/-- The morphisms from `x` to `y`, in the order of the enumeration. -/
def Enumeration.homs (en : Enumeration Obj Mor) (K : Category Obj Mor) (x y : Obj) : List Mor :=
  en.mors.filter (inHom K x y)

omit [DecidableEq Mor] in
theorem mem_homs : m ∈ en.homs K x y ↔ K.Hom x y m := by
  rw [Enumeration.homs, mem_filter, inHom_iff, and_iff_right (en.mem_mors m)]

omit [DecidableEq Mor] in
theorem homs_nodup : (en.homs K x y).Nodup := en.mors_nodup.filter _

omit [DecidableEq Mor] in
theorem length_homs_eq_one : (en.homs K x y).length = 1 ↔ ∃! m, K.Hom x y m := by
  rw [Enumeration.homs, ← countP_eq_length_filter, countP_eq_one_iff en.mors_nodup]
  exact existsUnique_congr fun m => by rw [inHom_iff, and_iff_right (en.mem_mors m)]

/-! ## One morphism -/

/-- The largest hom set that `one_mor` can count. -/
def maxHom : Nat := intMax + 1

omit [DecidableEq Mor] in
theorem oneMorStep_out {acc : Option Mor × Nat} (h : ¬ inHom K a b m = true) :
    oneMorStep K a b acc m = some acc := by
  rw [inHom_iff] at h
  rw [oneMorStep]
  split
  next hdom => rw [if_neg fun hcod => h ⟨hdom, hcod⟩]
  next => rfl

omit [DecidableEq Mor] in
theorem foldlM_oneMorStep_some {d : Nat} (hd : d ≤ intMax) :
    l.foldlM (oneMorStep K a b) (some f, d) =
      if d + l.countP (inHom K a b) ≤ intMax then
        some (some f, d + l.countP (inHom K a b)) else none := by
  induction l generalizing d with
  | nil => simp [hd]
  | cons m l ih =>
    rw [foldlM_cons]
    by_cases hin : inHom K a b m = true
    · rw [countP_cons_of_pos hin, oneMorStep, if_pos ((inHom_iff).1 hin).1,
        if_pos ((inHom_iff).1 hin).2, noteDupe]
      by_cases hmax : d = intMax
      · rw [if_pos hmax, if_neg (by omega)]
        rfl
      · rw [if_neg hmax, show d + (l.countP (inHom K a b) + 1) = d + 1 + l.countP (inHom K a b) by
          omega]
        exact ih (by omega)
    · rw [countP_cons_of_neg hin, oneMorStep_out hin]
      exact ih hd

omit [DecidableEq Mor] in
/-- The scan finds the first morphism and counts the others. -/
theorem foldlM_oneMorStep : l.foldlM (oneMorStep K a b) (none, 0) =
    match l.filter (inHom K a b) with
    | [] => some (none, 0)
    | m :: rest => if rest.length ≤ intMax then some (some m, rest.length) else none := by
  induction l with
  | nil => rfl
  | cons m l ih =>
    rw [foldlM_cons]
    by_cases hin : inHom K a b m = true
    · rw [filter_cons_of_pos hin, oneMorStep, if_pos ((inHom_iff).1 hin).1,
        if_pos ((inHom_iff).1 hin).2]
      refine (foldlM_oneMorStep_some (Nat.zero_le _)).trans ?_
      rw [Nat.zero_add, countP_eq_length_filter]
    · rw [filter_cons_of_neg hin, oneMorStep_out hin]
      exact ih

omit [DecidableEq Mor] in
/-- `one_mor` answers with the only morphism where the hom set is not too large. -/
theorem oneMor_eq (h : (en.homs K a b).length ≤ maxHom) :
    oneMor K en a b = some (if (en.homs K a b).length = 1 then (en.homs K a b).head? else none) := by
  rw [oneMor, foldlM_oneMorStep]
  rw [Enumeration.homs] at h ⊢
  cases hl : en.mors.filter (inHom K a b) with
  | nil => rfl
  | cons m rest =>
    rw [hl, maxHom, length_cons] at h
    have hle : rest.length ≤ intMax := by omega
    simp only [if_pos hle, Option.map_some]
    cases rest with
    | nil => rfl
    | cons m' rest => simp

omit [DecidableEq Mor] in
theorem oneMor_none (h : ¬ (en.homs K a b).length ≤ maxHom) : oneMor K en a b = none := by
  rw [oneMor, foldlM_oneMorStep]
  rw [Enumeration.homs] at h
  cases hl : en.mors.filter (inHom K a b) with
  | nil => simp [hl] at h
  | cons m rest =>
    rw [hl, maxHom, length_cons] at h
    have hgt : ¬ rest.length ≤ intMax := by omega
    simp only [if_neg hgt, Option.map_none]

omit [DecidableEq Mor] in
theorem oneHomOk_settles (h : (en.homs K a b).length ≤ maxHom) :
    Settles (oneHomOk K en a b) (∃! m, K.Hom a b m) := by
  have hunique : (en.homs K a b).length = 1 ↔ ∃! m, K.Hom a b m := length_homs_eq_one
  rw [oneHomOk, oneMor_eq h, ← hunique]
  by_cases hone : (en.homs K a b).length = 1
  · obtain ⟨m, hm⟩ := length_eq_one_iff.1 hone
    exact ⟨true, by simp [hm], by simp [hm]⟩
  · exact ⟨false, by simp [hone], by simp [hone]⟩

omit [DecidableEq Mor] in
theorem oneHomOk_none (h : ¬ (en.homs K a b).length ≤ maxHom) : oneHomOk K en a b = none := by
  rw [oneHomOk, oneMor_none h]
  rfl

omit [DecidableEq Mor] in
theorem onlyArrow_oneMor (h : ∃! m, K.Hom a b m) :
    ∃ m, onlyArrow (oneMor K en a b) = some (.ok m) ∧ K.Hom a b m ∧
      ∀ m', K.Hom a b m' → m' = m := by
  have hone : (en.homs K a b).length = 1 := (length_homs_eq_one).2 h
  obtain ⟨m, hm⟩ := length_eq_one_iff.1 hone
  have hmem : K.Hom a b m := (mem_homs).1 (hm ▸ mem_singleton_self m)
  refine ⟨m, ?_, hmem, fun m' hm' => h.unique hm' hmem⟩
  rw [oneMor_eq (by rw [hone, maxHom]; omega), hm]
  rfl

/-! ## The scans -/

/-- The scan for a terminal object comes to no hom set that it cannot count. -/
def TerminalCounted (K : Category Obj Mor) (en : Enumeration Obj Mor) : Prop :=
  LoopFits
    (fun cand => LoopFits (fun x => (en.homs K x cand).length ≤ maxHom)
      (fun x => ∃! m, K.Hom x cand m) en.objs)
    (fun cand => ¬ K.IsTerminal cand) en.objs

/-- The scan for an initial object comes to no hom set that it cannot count. -/
def InitialCounted (K : Category Obj Mor) (en : Enumeration Obj Mor) : Prop :=
  LoopFits
    (fun cand => LoopFits (fun x => (en.homs K cand x).length ≤ maxHom)
      (fun x => ∃! m, K.Hom cand x m) en.objs)
    (fun cand => ¬ K.IsInitial cand) en.objs

omit [DecidableEq Obj] [DecidableEq Mor] in
/-- A scan for a candidate of which a question about each object is answered with yes. -/
theorem scan_spec {ok : Obj → Obj → Option Bool} {fits Q : Obj → Obj → Prop}
    (hfit : ∀ c x, fits c x → Settles (ok c x) (Q c x))
    (hwrong : ∀ c x, ¬ fits c x → ok c x = none) :
    (LoopFits (fun c => LoopFits (fits c) (Q c) en.objs) (fun c => ¬ ∀ x, Q c x) en.objs →
        Finds (en.objs.findM? fun c => en.objs.allM (ok c)) fun t => ∀ x, Q t x) ∧
      (¬ LoopFits (fun c => LoopFits (fits c) (Q c) en.objs) (fun c => ¬ ∀ x, Q c x) en.objs →
        (en.objs.findM? fun c => en.objs.allM (ok c)) = none) := by
  have hall : ∀ c, LoopFits (fits c) (Q c) en.objs →
      Settles (en.objs.allM (ok c)) (∀ x, Q c x) := by
    intro c hc
    refine ((allM_loopFits (hfit c) (hwrong c)).1 hc).congr ?_
    exact ⟨fun h x => h x (en.mem_objs x), fun h x _ => h x⟩
  have hnone : ∀ c, ¬ LoopFits (fits c) (Q c) en.objs → en.objs.allM (ok c) = none :=
    fun c hc => (allM_loopFits (hfit c) (hwrong c)).2 hc
  obtain ⟨hfinds, hno⟩ := findM_loopFits (l := en.objs) hall hnone
  exact ⟨fun h => (hfinds h).congr fun t => and_iff_right (en.mem_objs t), hno⟩

omit [DecidableEq Mor] in
theorem terminalScan_spec :
    (TerminalCounted K en → Finds (terminalScan K en) K.IsTerminal) ∧
      (¬ TerminalCounted K en → terminalScan K en = none) :=
  scan_spec (fun _ _ => oneHomOk_settles) fun _ _ => oneHomOk_none

omit [DecidableEq Mor] in
theorem initialScan_spec :
    (InitialCounted K en → Finds (initialScan K en) K.IsInitial) ∧
      (¬ InitialCounted K en → initialScan K en = none) :=
  scan_spec (fun _ _ => oneHomOk_settles) fun _ _ => oneHomOk_none

/-! ## The finders -/

/-- `cat89_find_terminal` finds a terminal object if there is one, and
`cat89_terminal_arrow` the morphism into it. -/
def TerminalFound (K : Category Obj Mor) (en : Enumeration Obj Mor) (room : Bool) : Prop :=
  (∃ t, findTerminal K en room = some (.ok t) ∧ K.IsTerminal t ∧ ∀ x, ∃ m,
      terminalArrow K en t x = some (.ok m) ∧ K.Hom x t m ∧ ∀ m', K.Hom x t m' → m' = m) ∨
    (findTerminal K en room = some (.error .notFound) ∧ ∀ t, ¬ K.IsTerminal t)

/-- The same for `cat89_find_initial` and `cat89_initial_arrow`. -/
def InitialFound (K : Category Obj Mor) (en : Enumeration Obj Mor) (room : Bool) : Prop :=
  (∃ i, findInitial K en room = some (.ok i) ∧ K.IsInitial i ∧ ∀ x, ∃ m,
      initialArrow K en i x = some (.ok m) ∧ K.Hom i x m ∧ ∀ m', K.Hom i x m' → m' = m) ∨
    (findInitial K en room = some (.error .notFound) ∧ ∀ i, ¬ K.IsInitial i)

omit [DecidableEq Obj] [DecidableEq Mor] in
theorem findObject_of_room {scan : Option (Option Obj)}
    (h : allocates room (en.objs.length * sizeofObj) = true) :
    findObject en room scan = match scan with
      | none => none
      | some none => some (.error .notFound)
      | some (some res) => some (.ok res) := by
  cases scan with
  | none => simp [findObject, collectObjects, h]
  | some res =>
    cases res with
    | none | some o => simp [findObject, collectObjects, h]

omit [DecidableEq Mor] in
theorem terminalFound_iff (h : allocates room (en.objs.length * sizeofObj) = true) :
    TerminalFound K en room ↔ TerminalCounted K en := by
  rw [TerminalFound, findTerminal, findObject_of_room h]
  constructor
  · intro hfound
    by_contra hnot
    rw [(terminalScan_spec).2 hnot] at hfound
    obtain ⟨t, ht, -⟩ | ⟨ht, -⟩ := hfound <;> cases ht
  · intro hc
    rcases (terminalScan_spec).1 hc with ⟨t, ht, hterm⟩ | ⟨ht, hnone⟩
    · rw [ht]
      exact .inl ⟨t, rfl, hterm, fun x => onlyArrow_oneMor (hterm x)⟩
    · rw [ht]
      exact .inr ⟨rfl, hnone⟩

omit [DecidableEq Mor] in
theorem initialFound_iff (h : allocates room (en.objs.length * sizeofObj) = true) :
    InitialFound K en room ↔ InitialCounted K en := by
  rw [InitialFound, findInitial, findObject_of_room h]
  constructor
  · intro hfound
    by_contra hnot
    rw [(initialScan_spec).2 hnot] at hfound
    obtain ⟨t, ht, -⟩ | ⟨ht, -⟩ := hfound <;> cases ht
  · intro hc
    rcases (initialScan_spec).1 hc with ⟨t, ht, hinit⟩ | ⟨ht, hnone⟩
    · rw [ht]
      exact .inl ⟨t, rfl, hinit, fun x => onlyArrow_oneMor (hinit x)⟩
    · rw [ht]
      exact .inr ⟨rfl, hnone⟩

end Cat89

/-!
## libcat89: what the loops over a census come to

Where the test of a row answers for each row of a hom set, `tally` counts the rows that
pass, `factorRow` reads the only one, and `obj_check` decides that each pair of legs has
exactly one mediator.
-/

namespace Cat89

open Library List

variable {Obj Mor : Type} [DecidableEq Obj] [DecidableEq Mor] {K : Category Obj Mor}
  {en : Enumeration Obj Mor} {cs : Census Obj Mor} {x y p : Obj} {m f g r : Mor} {room : Bool}
  {eval : Mor → Except Status Bool} {P : Mor → Prop} [DecidablePred P]

/-! ## Tests of a row -/

omit [DecidableEq Obj] [DecidableEq Mor] in
theorem Category.Comp.unique {r' : Mor} (h : K.Comp g f r) (h' : K.Comp g f r') : r = r' := by
  obtain ⟨-, rfl⟩ := h
  obtain ⟨-, rfl⟩ := h'
  rfl

omit [DecidableEq Obj] [DecidableEq Mor] in
theorem Category.comp_of (h : K.dom g = K.cod f) : K.Comp g f (K.comp g f h) := ⟨h, rfl⟩

omit [DecidableEq Obj] [DecidableEq Mor] in
theorem Category.comp_iff (h : K.dom g = K.cod f) : K.Comp g f r ↔ K.comp g f h = r :=
  ⟨fun ⟨_, hr⟩ => hr, fun hr => ⟨h, hr⟩⟩

theorem evaluate_eq {g' f' xa xb : Mor} (h : K.dom g = K.cod f) (h' : K.dom g' = K.cod f') :
    evaluate (baseCompose K g f) (baseCompose K g' f') xa xb =
      pure (decide (K.Comp g f xa ∧ K.Comp g' f' xb)) := by
  rw [baseCompose_of_eq h, baseCompose_of_eq h']
  change Except.ok _ = Except.ok _
  rw [Except.ok.injEq]
  by_cases hxa : K.comp g f h = xa
  · rw [if_pos hxa, decide_eq_decide, K.comp_iff h, K.comp_iff h', and_iff_right hxa]
  · rw [if_neg hxa, eq_comm, decide_eq_false_iff_not, K.comp_iff h]
    exact fun hc => hxa hc.1

theorem evaluateSame_eq {g' f' : Mor} (h : K.dom g = K.cod f) (h' : K.dom g' = K.cod f') :
    evaluateSame (baseCompose K g f) (baseCompose K g' f') =
      pure (decide (K.comp g f h = K.comp g' f' h')) := by
  rw [baseCompose_of_eq h, baseCompose_of_eq h']
  rfl

/-! ## Counting and choosing rows -/

omit [DecidableEq Mor] in
theorem foldl_count {q : Mor → Bool} {l : List Mor} {n : Nat} :
    l.foldl (fun n m => if q m then n + 1 else n) n = n + l.countP q := by
  induction l generalizing n with
  | nil => rfl
  | cons m l ih =>
    rw [foldl_cons, ih, countP_cons]
    split <;> omega

omit [DecidableEq Mor] in
/-- `tally` counts the rows that pass. -/
theorem tally_eq (h : ∀ m, K.Hom x p m → eval m = pure (decide (P m))) :
    tally K cs x p eval = pure ((gatherIndices K cs x p).countP fun m => P m) := by
  have hstep : ∀ m ∈ cs.mors, ∀ n : Nat,
      (if inHom K x p m = false then pure n
        else do
          let med ← eval m
          pure (if med then n + 1 else n)) =
        (pure (if inHom K x p m && decide (P m) then n + 1 else n) : Except Status Nat) := by
    intro m _ n
    cases hin : inHom K x p m with
    | false => rfl
    | true =>
      rw [if_neg (by simp), h m ((inHom_iff).1 hin), pure_bind]
      rfl
  rw [tally, foldlM_pure_of hstep, foldl_count, Nat.zero_add, gatherIndices, countP_filter]
  simp only [Bool.and_comm]

omit [DecidableEq Obj] [DecidableEq Mor] in
/-- Where one row passes, the last row that passes is that one. -/
theorem foldl_pick {q : Mor → Bool} {l : List Mor} {idx : Option Mor} (hm : m ∈ l) (hq : q m = true)
    (huniq : ∀ m' ∈ l, q m' = true → m' = m) :
    l.foldl (fun idx m => if q m then some m else idx) idx = some m := by
  induction l generalizing idx with
  | nil => cases hm
  | cons a l ih =>
    rw [foldl_cons]
    by_cases hml : m ∈ l
    · exact ih hml fun m' hm' => huniq m' (mem_cons_of_mem _ hm')
    · obtain rfl : m = a := (mem_cons.1 hm).resolve_right hml
      rw [if_pos hq]
      have hnone : ∀ m' ∈ l, ¬ q m' = true := by
        intro m' hm' hq'
        exact hml (huniq m' (mem_cons_of_mem _ hm') hq' ▸ hm')
      clear ih hm hml huniq
      induction l with
      | nil => rfl
      | cons a l ih =>
        rw [foldl_cons, if_neg (hnone a mem_cons_self)]
        exact ih fun m' hm' => hnone m' (mem_cons_of_mem _ hm')

omit [DecidableEq Mor] in
theorem pick_eq (h : ∀ m, K.Hom x p m → eval m = pure (decide (P m))) (hm : m ∈ cs.mors)
    (hhom : K.Hom x p m) (hP : P m)
    (huniq : ∀ m' ∈ cs.mors, K.Hom x p m' → P m' → m' = m) :
    pick K cs x p eval = pure (some m) := by
  have hstep : ∀ m ∈ cs.mors, ∀ idx : Option Mor,
      (if inHom K x p m = false then pure idx
        else do
          let med ← eval m
          pure (if med then some m else idx)) =
        (pure (if inHom K x p m && decide (P m) then some m else idx) :
          Except Status (Option Mor)) := by
    intro m _ idx
    cases hin : inHom K x p m with
    | false => rfl
    | true =>
      rw [if_neg (by simp), h m ((inHom_iff).1 hin), pure_bind]
      rfl
  rw [pick, foldlM_pure_of hstep]
  refine congrArg pure (foldl_pick hm ?_ fun m' hm' hq => ?_)
  · rw [Bool.and_eq_true, inHom_iff, decide_eq_true_eq]
    exact ⟨hhom, hP⟩
  · rw [Bool.and_eq_true, inHom_iff, decide_eq_true_eq] at hq
    exact huniq m' hm' hq.1 hq.2

/-! ## The census of an enumeration -/

/-- The census that `census_build` makes. -/
def Enumeration.census (en : Enumeration Obj Mor) : Census Obj Mor := ⟨en.objs, en.mors⟩

/-- The allocator has room for a census. -/
def Enumeration.Fits (en : Enumeration Obj Mor) (room : Bool) : Prop :=
  allocates room (en.objs.length * sizeofObj) = true ∧
    allocates room (en.mors.length * sizeofFmor) = true

omit [DecidableEq Obj] [DecidableEq Mor] in
theorem Enumeration.Fits.build (h : en.Fits room) : censusBuild en room = .ok en.census := by
  rw [censusBuild, h.1, h.2, if_neg (by simp), if_neg (by simp)]
  rfl

omit [DecidableEq Obj] [DecidableEq Mor] in
theorem Enumeration.Fits.length_lt (h : en.Fits room) : en.mors.length < 2 ^ 64 := by
  have hbytes := h.2
  rw [allocates, Bool.and_eq_true, decide_eq_true_eq, sizeofFmor] at hbytes
  omega

omit [DecidableEq Mor] in
theorem gatherIndices_census : gatherIndices K en.census x y = en.homs K x y := rfl

omit [DecidableEq Mor] in
theorem homCount_census : homCount K en.census x y = (en.homs K x y).length :=
  countP_eq_length_filter

omit [DecidableEq Mor] in
theorem Enumeration.Fits.homs_lt (h : en.Fits room) : (en.homs K x y).length < 2 ^ 64 :=
  (length_filter_le _ _).trans_lt h.length_lt

omit [DecidableEq Mor] in
theorem countP_homs_eq_one :
    ((en.homs K x p).countP fun m => P m) = 1 ↔ ∃! m, K.Hom x p m ∧ P m := by
  rw [countP_eq_one_iff homs_nodup]
  exact existsUnique_congr fun m => by rw [mem_homs, decide_eq_true_eq]

omit [DecidableEq Mor] in
theorem countP_homs_ne_zero :
    ((en.homs K x p).countP fun m => P m) ≠ 0 ↔ ∃ m ∈ en.homs K x p, P m := by
  rw [← Nat.pos_iff_ne_zero, countP_pos_iff]
  simp only [decide_eq_true_eq]

omit [DecidableEq Mor] in
/-- `factor` returns the only mediator. -/
theorem factorCensus_ok (hfits : en.Fits room)
    (h : ∀ m, K.Hom x p m → eval m = pure (decide (P m))) (hone : ∃! m, K.Hom x p m ∧ P m) :
    ∃ m, factorCensus K en room x p eval = some (.ok m) ∧ (K.Hom x p m ∧ P m) ∧
      ∀ m', K.Hom x p m' → P m' → m' = m := by
  have htally : tally K en.census x p eval = .ok 1 := by
    rw [tally_eq h, gatherIndices_census, (countP_homs_eq_one).2 hone]
    rfl
  obtain ⟨m, hm, huniq⟩ := hone
  have hpick : pick K en.census x p eval = .ok (some m) :=
    pick_eq h (en.mem_mors m) hm.1 hm.2 fun m' _ hhom hP => huniq m' ⟨hhom, hP⟩
  have hsingle : single K en.census x p eval = .ok (some m) := by
    rw [single, htally]
    exact hpick
  refine ⟨m, ?_, hm, fun m' hhom hP => huniq m' ⟨hhom, hP⟩⟩
  rw [factorCensus, hfits.build]
  change factorRow K en.census x p eval = _
  rw [factorRow, htally]
  simp only [ne_eq, not_true_eq_false, if_false, hsingle]

/-! ## Pairs of legs -/

omit [DecidableEq Mor] in
/-- The check of an object: each pair of rows has exactly one mediator. -/
theorem objCheckRows_settles {H A B : List Mor} {R : Mor → Mor → Mor → Prop}
    [∀ m xa xb, Decidable (R m xa xb)] {count : Mor → Mor → Except Status Nat}
    (hH : H.Nodup) (hA : A.Nodup) (hB : B.Nodup) (hlen : H.length < 2 ^ 64)
    (htot : ∀ m ∈ H, ∃ xa ∈ A, ∃ xb ∈ B, R m xa xb)
    (hfun : ∀ m xa xb xa' xb', R m xa xb → R m xa' xb' → xa = xa' ∧ xb = xb')
    (hcount : ∀ xa ∈ A, ∀ xb ∈ B, count xa xb = pure (H.countP fun m => R m xa xb)) :
    Settles (objCheckRows H.length A.length B.length A B count)
      (∀ xa ∈ A, ∀ xb ∈ B, ∃! m, m ∈ H ∧ R m xa xb) := by
  have hbij : (H.length = (A.length * B.length) % 2 ^ 64 ∧
      ∀ xa ∈ A, ∀ xb ∈ B, ∃ m ∈ H, R m xa xb) ↔ ∀ xa ∈ A, ∀ xb ∈ B, ∃! m, m ∈ H ∧ R m xa xb := by
    have hpairs : ∀ Q : Mor → Mor → Prop,
        (∀ q ∈ A ×ˢ B, Q q.1 q.2) ↔ ∀ xa ∈ A, ∀ xb ∈ B, Q xa xb := by
      intro Q
      constructor
      · exact fun h xa ha xb hb => h (xa, xb) (mem_product.2 ⟨ha, hb⟩)
      · intro h q hq
        obtain ⟨ha, hb⟩ := mem_product.1 hq
        exact h _ ha _ hb
    have h := bijective_iff_mod (R := fun m (q : Mor × Mor) => R m q.1 q.2) (t := A ×ˢ B)
      hlen hH (hA.product hB) (fun m hm => ?_) fun m _ q q' hq hq' => ?_
    · rwa [length_product, hpairs fun xa xb => ∃ m ∈ H, R m xa xb,
        hpairs fun xa xb => ∃! m, m ∈ H ∧ R m xa xb] at h
    · obtain ⟨xa, ha, xb, hb, hR⟩ := htot m hm
      exact ⟨(xa, xb), mem_product.2 ⟨ha, hb⟩, hR⟩
    · obtain ⟨h1, h2⟩ := hfun m _ _ _ _ hq hq'
      exact Prod.ext h1 h2
  rw [objCheckRows]
  split
  next hne => exact .no fun h => hne (hbij.2 h).1
  next heq =>
    have heq := not_not.1 heq
    refine (Settles.all fun xa ha => Settles.all (R := fun xb => ∃ m ∈ H, R m xa xb)
      fun xb hb => ?_).congr ((and_iff_right heq).symm.trans hbij)
    rw [hcount xa ha xb hb, pure_bind]
    refine Settles.of_decide.congr ?_
    rw [← Nat.pos_iff_ne_zero, countP_pos_iff]
    simp only [decide_eq_true_eq]

omit [DecidableEq Mor] in
theorem firstPair_finds {A B : List Mor} {check : Mor → Mor → Except Status Bool}
    {Q : Mor → Mor → Prop} (h : ∀ pa ∈ A, ∀ pb ∈ B, Settles (check pa pb) (Q pa pb)) :
    Finds (firstPair A B check) fun legs => legs.1 ∈ A ∧ legs.2 ∈ B ∧ Q legs.1 legs.2 := by
  have hinner : ∀ pa ∈ A, Finds (B.findSomeM? fun pb => do
      let ok ← check pa pb
      pure (if ok then some (pa, pb) else none)) fun legs : Mor × Mor =>
        ∃ pb ∈ B, legs = (pa, pb) ∧ Q pa pb :=
    fun pa ha => Finds.some fun pb hb => (h pa ha pb hb).finds (pa, pb)
  refine (Finds.some hinner).congr fun legs => ?_
  constructor
  · rintro ⟨pa, ha, pb, hb, rfl, hQ⟩
    exact ⟨ha, hb, hQ⟩
  · rintro ⟨ha, hb, hQ⟩
    exact ⟨legs.1, ha, legs.2, hb, rfl, hQ⟩

omit [DecidableEq Obj] [DecidableEq Mor] in
theorem firstApex_finds {L : Type} {tryApex : Obj → Except Status (Option L)}
    {Q : Obj → L → Prop} (h : ∀ apex, Finds (tryApex apex) (Q apex)) :
    Finds (firstApex en.census tryApex) fun found => Q found.1 found.2 := by
  have hstep : ∀ apex ∈ en.census.objs, Finds (do
      let legs ← tryApex apex
      pure (legs.map fun legs => (apex, legs))) fun found : Obj × L =>
        found.1 = apex ∧ Q apex found.2 := by
    intro apex _
    rcases h apex with ⟨legs, hl, hQ⟩ | ⟨hl, hnone⟩
    · rw [hl, pure_bind]
      exact .inl ⟨(apex, legs), rfl, rfl, hQ⟩
    · rw [hl, pure_bind]
      exact .inr ⟨rfl, fun found hf => hnone found.2 hf.2⟩
  refine (Finds.some hstep).congr fun found => ?_
  constructor
  · rintro ⟨apex, -, rfl, hQ⟩
    exact hQ
  · exact fun hQ => ⟨found.1, en.mem_objs found.1, rfl, hQ⟩

end Cat89
