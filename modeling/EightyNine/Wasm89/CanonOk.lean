import EightyNine.Wasm89.Rolled

/-!
# Canonical equality is equality of rolled types

Up to the mutability of fields, which the comparisons of the program leave out.  A
reference out of a group is to an earlier group, so a comparison only asks about
earlier types, and it returns.
-/

namespace Wasm89

open List

open Library (Whether Returns)

variable {rts rts' pre pre' post : List (RecType Nat)} {rt rt' : RecType Nat} {sub sub' : SubType Nat}
  {x y k a b : Nat}

/-! ## The environment -/

theorem length_groupTypes (i : Nat) (rt : RecType Nat) : (groupTypes i rt).length = rt.length := by
  rw [groupTypes, length_map, length_zipIdx]

theorem typeenvFrom_types (i idx : Nat) (rts : List (RecType Nat)) :
    (typeenvFrom i idx rts).types.length = rts.flatten.length := by
  induction rts generalizing i idx with
  | nil => rfl
  | cons rt rts ih =>
    rw [typeenvFrom, length_append, length_groupTypes, ih, flatten_cons,
      length_append]

theorem typeenvFrom_located (i idx : Nat) (h : Located rts x pre rt k sub) :
    (typeenvFrom i idx rts).types[x]? = some ⟨sub, i + pre.length, k⟩ ∧
      (typeenvFrom i idx rts).recs[pre.length]? = some ⟨idx + pre.flatten.length, rt.length⟩ := by
  obtain ⟨⟨post, rfl⟩, rfl, hsub⟩ := h
  induction pre generalizing i idx with
  | nil =>
    have hk := (List.getElem?_eq_some_iff.mp hsub).1
    constructor
    · rw [nil_append, typeenvFrom, flatten_nil, length_nil, Nat.zero_add,
        List.getElem?_append_left (by rw [length_groupTypes]; exact hk), groupTypes,
        List.getElem?_map, List.getElem?_zipIdx, hsub, Option.map_some, Option.map_some,
        Nat.zero_add]
      rfl
    · rfl
  | cons rt' pre ih =>
    have hnext := ih (i + 1) (idx + rt'.length)
    rw [cons_append, typeenvFrom, flatten_cons, length_append]
    constructor
    · rw [Nat.add_assoc, List.getElem?_append_right (by rw [length_groupTypes]; omega),
        length_groupTypes, Nat.add_sub_cancel_left, hnext.1, length_cons,
        Nat.add_assoc, Nat.add_comm 1]
    · rw [length_cons, List.getElem?_cons_succ, hnext.2, Nat.add_assoc]

@[simp] theorem typeenvBuild_types (rts : List (RecType Nat)) :
    (typeenvBuild rts).types.length = rts.flatten.length :=
  typeenvFrom_types 0 0 rts

theorem Located.type (h : Located rts x pre rt k sub) :
    (typeenvBuild rts).type x = ⟨sub, pre.length, k⟩ := by
  rw [TypeEnv.type, typeenvBuild, getD_eq_getElem?_getD, (typeenvFrom_located 0 0 h).1,
    Option.getD_some, Nat.zero_add]

theorem Located.group (h : Located rts x pre rt k sub) :
    (typeenvBuild rts).group pre.length = ⟨pre.flatten.length, rt.length⟩ := by
  rw [TypeEnv.group, typeenvBuild, getD_eq_getElem?_getD, (typeenvFrom_located 0 0 h).2,
    Option.getD_some, Nat.zero_add]

theorem Located.sibling (h : Located rts x pre rt k sub) {j : Nat} (hj : j < rt.length) :
    ∃ sub', Located rts (pre.flatten.length + j) pre rt j sub' :=
  ⟨_, h.groups, rfl, List.getElem?_eq_getElem hj⟩

theorem Located.subs (h : Located rts x pre rt k sub) :
    (typeenvBuild rts).subs pre.length = rt := by
  rw [TypeEnv.subs, h.group]
  refine ext_getElem (by simp) fun j hj hj' => ?_
  have hloc : Located rts (pre.flatten.length + j) pre rt j rt[j] :=
    ⟨h.groups, rfl, List.getElem?_eq_getElem hj'⟩
  rw [getElem_map, getElem_range, hloc.type]

theorem Located.mono (h : Located pre x post rt k sub) (rts : List (RecType Nat)) :
    Located (pre ++ rts) x post rt k sub := by
  obtain ⟨⟨l, rfl⟩, hx, hsub⟩ := h
  exact ⟨⟨l ++ rts, by simp⟩, hx, hsub⟩

theorem Located.inGroup (h : Located rts x pre rt k sub)
    (hy : y < pre.flatten.length + rt.length) :
    (typeenvBuild rts).inGroup pre.length y = decide (pre.flatten.length ≤ y) := by
  have hlen : y < (typeenvBuild rts).types.length := by
    obtain ⟨⟨post, rfl⟩, _, _⟩ := h
    rw [typeenvBuild_types, flatten_append, flatten_cons, length_append,
      length_append]
    omega
  rw [TypeEnv.inGroup, if_pos hlen]
  rcases lt_or_ge y pre.flatten.length with hlt | hge
  · obtain ⟨pre', rt', k', sub', hloc⟩ := exists_located hlt
    obtain ⟨l, hl⟩ := hloc.groups
    have hpre : pre'.length < pre.length := by
      rw [hl, length_append, length_cons]
      omega
    obtain ⟨⟨post, rfl⟩, _, _⟩ := h
    rw [(hloc.mono (rt :: post)).type, decide_eq_false (by omega)]
    simpa using hpre.ne
  · obtain ⟨sub', hloc⟩ := h.sibling (j := y - pre.flatten.length) (by omega)
    rw [Nat.add_sub_cancel' hge] at hloc
    rw [hloc.type, decide_eq_true hge]
    simp

theorem Located.recpos (h : Located rts x pre rt k sub) (hge : pre.flatten.length ≤ y)
    (hy : y < pre.flatten.length + rt.length) :
    ((typeenvBuild rts).type y).recpos = y - pre.flatten.length := by
  obtain ⟨sub', hloc⟩ := h.sibling (j := y - pre.flatten.length) (by omega)
  rw [Nat.add_sub_cancel' hge] at hloc
  rw [hloc.type]

/-! ## Erased sections -/

theorem length_flatten_eraseMuts (rts : List (RecType Nat)) :
    (eraseMuts rts).flatten.length = rts.flatten.length := by
  rw [eraseMuts, ← map_flatten, length_map]

theorem Located.erase (h : Located rts x pre rt k sub) :
    Located (eraseMuts rts) x (eraseMuts pre) (rt.map SubType.eraseMut) k sub.eraseMut := by
  obtain ⟨⟨post, rfl⟩, rfl, hsub⟩ := h
  refine ⟨⟨eraseMuts post, ?_⟩, ?_, ?_⟩
  · rw [eraseMuts, map_append, map_cons]
    rfl
  · rw [length_flatten_eraseMuts]
  · rw [List.getElem?_map, hsub]
    rfl

/-! ## Type uses -/

theorem rollRef_lt (h : Located rts a pre rt k sub) (hx : x < pre.flatten.length) :
    ∃ c, rollRef (rolledTypes pre) x = .inr c ∧ rolled rts x = some c := by
  obtain ⟨⟨post, rfl⟩, _, _⟩ := h
  have hget := List.getElem?_eq_getElem (l := rolledTypes pre) (i := x) (by simpa using hx)
  refine ⟨_, by rw [rollRef, hget], ?_⟩
  rw [rolled_append_left hx, rolled, hget]

theorem rollRef_ge (hx : pre.flatten.length ≤ x) :
    rollRef (rolledTypes pre) x = .inl (x - pre.flatten.length) := by
  have hnone : (rolledTypes pre)[x]? = none := by simpa using hx
  rw [rollRef, hnone, length_rolledTypes]

variable {k' : Nat} {deftype : Nat → Nat → Nat → Option Bool}

/-- Two uses are compared by position in their groups, or by the types they stand for. -/
theorem typeuse_whether (ha : Located rts a pre rt k sub)
    (hb : Located rts' b pre' rt' k' sub')
    (ih : ∀ x y, x < pre.flatten.length → y < pre'.flatten.length →
      Whether (fun n => deftype n x y) (rolled (eraseMuts rts) x = rolled (eraseMuts rts') y))
    (hx : x < pre.flatten.length + rt.length) (hy : y < pre'.flatten.length + rt'.length) :
    Whether (fun n => typeuseCanonEqX (typeenvBuild rts) pre.length (typeenvBuild rts')
        pre'.length (deftype n) x y)
      (rollRef (rolledTypes (eraseMuts pre)) x = rollRef (rolledTypes (eraseMuts pre')) y) := by
  unfold typeuseCanonEqX
  dsimp only
  rw [ha.inGroup hx, hb.inGroup hy]
  rcases lt_or_ge x pre.flatten.length with hxlt | hxge
  · obtain ⟨c, hc, hcx⟩ := rollRef_lt ha.erase (by rwa [length_flatten_eraseMuts])
    rw [hc, decide_eq_false (not_le.mpr hxlt)]
    rcases lt_or_ge y pre'.flatten.length with hylt | hyge
    · obtain ⟨d, hd, hdy⟩ := rollRef_lt hb.erase (by rwa [length_flatten_eraseMuts])
      rw [hd, decide_eq_false (not_le.mpr hylt)]
      refine (ih x y hxlt hylt).congr ?_
      rw [hcx, hdy, Option.some_inj, Sum.inr.injEq]
    · rw [rollRef_ge (by rwa [length_flatten_eraseMuts]), decide_eq_true hyge]
      exact .no (by simp)
  · rw [rollRef_ge (by rwa [length_flatten_eraseMuts]), decide_eq_true hxge]
    rcases lt_or_ge y pre'.flatten.length with hylt | hyge
    · obtain ⟨d, hd, _⟩ := rollRef_lt hb.erase (by rwa [length_flatten_eraseMuts])
      rw [hd, decide_eq_false (not_le.mpr hylt)]
      exact .no (by simp)
    · rw [rollRef_ge (by rwa [length_flatten_eraseMuts]), decide_eq_true hyge, ha.recpos hxge hx,
        hb.recpos hyge hy, length_flatten_eraseMuts, length_flatten_eraseMuts, Sum.inl.injEq]
      exact .some (by rw [beq_iff_eq])

/-! ## Composite types -/

section

variable {use : Nat → Nat → Nat → Option Bool} {f g : Nat → Nat ⊕ Rolled}

/-- The comparison of uses decides whether the uses of two lists stand for the same. -/
def UsesTell (use : Nat → Nat → Nat → Option Bool) (f g : Nat → Nat ⊕ Rolled)
    (xs ys : List Nat) : Prop :=
  ∀ x ∈ xs, ∀ y ∈ ys, Whether (fun n => use n x y) (f x = g y)

theorem UsesTell.mono {xs xs' ys ys' : List Nat} (h : UsesTell use f g xs ys)
    (hx : xs' ⊆ xs) (hy : ys' ⊆ ys) : UsesTell use f g xs' ys' :=
  fun x hx' y hy' => h x (hx hx') y (hy hy')

variable {α β γ : Type} {F : α → γ} {G : β → γ} {as : List α} {bs : List β}

theorem allEq_whether {eq : Nat → α → β → Option Bool}
    (hlen : as.length = bs.length)
    (h : ∀ a ∈ as, ∀ b ∈ bs, Whether (fun n => eq n a b) (F a = G b)) :
    Whether (fun n => allEq (eq n) as bs) (as.map F = bs.map G) := by
  induction as generalizing bs with
  | nil =>
    cases bs with
    | nil => exact .yes rfl
    | cons b bs => cases hlen
  | cons a as ih =>
    cases bs with
    | nil => cases hlen
    | cons b bs =>
      have hhead := h a mem_cons_self b mem_cons_self
      have htail := ih (Nat.succ.inj hlen) fun a ha b hb =>
        h a (mem_cons_of_mem _ ha) b (mem_cons_of_mem _ hb)
      refine (hhead.and fun _ => htail).congr ?_
      rw [map_cons, map_cons, List.cons.injEq]

/-- Lists of different lengths are told apart before their elements are compared. -/
theorem lengths_whether {eq : Nat → Option Bool}
    {Q : Prop}
    (h : as.length = bs.length → Whether eq (as.map F = bs.map G ∧ Q)) :
    Whether (fun n => if as.length ≠ bs.length then some false else eq n)
      (as.map F = bs.map G ∧ Q) := by
  by_cases hlen : as.length = bs.length
  · simp only [ne_eq, hlen, not_true, if_false]
    exact h hlen
  · simp only [ne_eq, hlen, not_false_eq_true, if_true]
    refine .no fun hmap => hlen ?_
    have := congrArg List.length hmap.1
    rwa [length_map, length_map] at this

theorem vtCanonEq_whether {a b : ValType Nat} (h : UsesTell use f g a.uses b.uses) :
    Whether (fun n => vtCanonEq (use n) a b) (a.map f = b.map g) := by
  unfold vtCanonEq
  cases a with
  | num n =>
    cases b with
    | num m => exact .some (by simp [ValType.map])
    | ref b => exact .no (by simp [ValType.map])
  | ref a =>
    cases b with
    | num m => exact .no (by simp [ValType.map])
    | ref b =>
      obtain ⟨an, ah⟩ := a
      obtain ⟨bn, bh⟩ := b
      dsimp only
      by_cases hnull : an = bn
      · subst hnull
        simp only [ne_eq, not_true, if_false]
        unfold htCanonEq
        cases ah with
        | idx x =>
          cases bh with
          | idx y =>
            refine (h x mem_cons_self y mem_cons_self).congr ?_
            simp [ValType.map, RefType.map, HeapType.map]
          | abs k => exact .no (by simp [ValType.map, RefType.map, HeapType.map])
        | abs j =>
          cases bh with
          | idx y => exact .no (by simp [ValType.map, RefType.map, HeapType.map])
          | abs k => exact .some (by simp [ValType.map, RefType.map, HeapType.map])
      · simp only [ne_eq, hnull, not_false_eq_true, if_true]
        exact .no (by simp [ValType.map, RefType.map, hnull])

theorem fieldCanonEq_whether {a b : FieldType Nat} (h : UsesTell use f g a.uses b.uses) :
    Whether (fun n => fieldCanonEq (use n) a b) (a.eraseMut.map f = b.eraseMut.map g) := by
  obtain ⟨as, am⟩ := a
  obtain ⟨bs, bm⟩ := b
  unfold fieldCanonEq
  cases as with
  | packed p =>
    cases bs with
    | packed q => exact .some (by simp [FieldType.eraseMut, FieldType.map, StorageType.map])
    | val w => exact .no (by simp [FieldType.eraseMut, FieldType.map, StorageType.map])
  | val v =>
    cases bs with
    | packed q => exact .no (by simp [FieldType.eraseMut, FieldType.map, StorageType.map])
    | val w =>
      refine (vtCanonEq_whether h).congr ?_
      simp [FieldType.eraseMut, FieldType.map, StorageType.map]

theorem funcCanonEq_whether {ps rs ps' rs' : List (ValType Nat)}
    (h : UsesTell use f g (CompType.func ps rs).uses (CompType.func ps' rs').uses) :
    Whether (fun n => funcCanonEq (use n) ps rs ps' rs')
      (ps.map (ValType.map f) = ps'.map (ValType.map g) ∧
        rs.map (ValType.map f) = rs'.map (ValType.map g)) := by
  have hps : ∀ a ∈ ps, ∀ b ∈ ps', Whether (fun n => vtCanonEq (use n) a b) (a.map f = b.map g) :=
    fun a ha b hb => vtCanonEq_whether (h.mono
      (fun x hx => mem_append_left _ (mem_flatMap.mpr ⟨a, ha, hx⟩))
      fun x hx => mem_append_left _ (mem_flatMap.mpr ⟨b, hb, hx⟩))
  have hrs : ∀ a ∈ rs, ∀ b ∈ rs', Whether (fun n => vtCanonEq (use n) a b) (a.map f = b.map g) :=
    fun a ha b hb => vtCanonEq_whether (h.mono
      (fun x hx => mem_append_right _ (mem_flatMap.mpr ⟨a, ha, hx⟩))
      fun x hx => mem_append_right _ (mem_flatMap.mpr ⟨b, hb, hx⟩))
  unfold funcCanonEq
  refine lengths_whether fun hplen => ?_
  refine (lengths_whether (Q := ps.map (ValType.map f) = ps'.map (ValType.map g))
    (F := ValType.map f) (G := ValType.map g) fun hrlen => ?_).congr and_comm
  exact ((allEq_whether hplen hps).and fun _ => allEq_whether hrlen hrs).congr and_comm

theorem fieldsCanonEq_whether {fs fs' : List (FieldType Nat)}
    (h : UsesTell use f g (CompType.struct fs).uses (CompType.struct fs').uses) :
    Whether (fun n => fieldsCanonEq (use n) fs fs')
      (fs.map (fun ft => ft.eraseMut.map f) = fs'.map (fun ft => ft.eraseMut.map g)) := by
  have hfs : ∀ a ∈ fs, ∀ b ∈ fs',
      Whether (fun n => fieldCanonEq (use n) a b) (a.eraseMut.map f = b.eraseMut.map g) :=
    fun a ha b hb => fieldCanonEq_whether (h.mono
      (fun x hx => mem_flatMap.mpr ⟨a, ha, hx⟩) fun x hx => mem_flatMap.mpr ⟨b, hb, hx⟩)
  unfold fieldsCanonEq
  exact (lengths_whether (Q := True) fun hlen =>
    (allEq_whether hlen hfs).congr (and_iff_left trivial).symm).congr (and_iff_left trivial)

/-- What is compared of two composite types: they are equal up to mutability. -/
def SameComp (f g : Nat → Nat ⊕ Rolled) (a b : SubType Nat) : Prop :=
  a.comp.eraseMut.map f = b.comp.eraseMut.map g

theorem comptypeCanonEq_whether {a b : SubType Nat}
    (h : UsesTell use f g a.comp.uses b.comp.uses) :
    Whether (fun n => comptypeCanonEq (use n) a b) (SameComp f g a b) := by
  obtain ⟨afin, asup, ac⟩ := a
  obtain ⟨bfin, bsup, bc⟩ := b
  unfold comptypeCanonEq SameComp
  cases ac with
  | func ps rs =>
    cases bc with
    | func ps' rs' =>
      refine (funcCanonEq_whether h).congr ?_
      simp [CompType.eraseMut, CompType.map]
    | struct fs' | array ft' => exact .no (by simp [CompType.eraseMut, CompType.map])
  | struct fs =>
    cases bc with
    | func ps' rs' | array ft' => exact .no (by simp [CompType.eraseMut, CompType.map])
    | struct fs' =>
      refine (fieldsCanonEq_whether h).congr ?_
      simp [CompType.eraseMut, CompType.map, Function.comp_def]
  | array ft =>
    cases bc with
    | func ps' rs' | struct fs' => exact .no (by simp [CompType.eraseMut, CompType.map])
    | array ft' =>
      refine (fieldCanonEq_whether h).congr ?_
      simp [CompType.eraseMut, CompType.map]

/-- The comparison between modules takes an array type for a structure of one field. -/
theorem comptypeCanonEqX_eq (use : Nat → Nat → Option Bool) :
    comptypeCanonEqX use = comptypeCanonEq use := by
  funext a b
  obtain ⟨afin, asup, ac⟩ := a
  obtain ⟨bfin, bsup, bc⟩ := b
  cases ac <;> cases bc <;> first | rfl | skip
  rename_i ft ft'
  show fieldsCanonEq use [ft] [ft'] = fieldCanonEq use ft ft'
  unfold fieldsCanonEq
  rw [if_neg (by simp), allEq]
  cases fieldCanonEq use ft ft' with
  | none => rfl
  | some v => cases v <;> rfl

theorem subCanonEq_whether {a b : SubType Nat} (h : UsesTell use f g a.uses b.uses) :
    Whether (fun n => subCanonEq (use n) (comptypeCanonEq (use n)) a b)
      (a.eraseMut.map f = b.eraseMut.map g) := by
  have hsup : UsesTell use f g a.supertypes b.supertypes :=
    h.mono (subset_append_left _ _) (subset_append_left _ _)
  have hcomp := comptypeCanonEq_whether
    (h.mono (subset_append_right _ _) (subset_append_right _ _))
  have hmap : a.eraseMut.map f = b.eraseMut.map g ↔ a.isFinal = b.isFinal ∧
      a.supertypes.map f = b.supertypes.map g ∧ SameComp f g a b := by
    simp [SubType.eraseMut, SubType.map, SameComp]
  rw [hmap]
  unfold subCanonEq
  by_cases hfin : a.isFinal = b.isFinal
  · simp only [ne_eq, hfin, not_true, if_false, true_and]
    exact lengths_whether fun hlen => (allEq_whether hlen hsup).and fun _ => hcomp
  · simp only [ne_eq, hfin, not_false_eq_true, if_true, false_and]
    exact .no not_false

end

/-! ## Groups and types -/

/-- The references of the groups, of which the first begins at an index, are to a group itself
or to earlier types. -/
def RefsFrom (first : Nat) : List (RecType Nat) → Prop
  | [] => True
  | rt :: rts => (∀ sub ∈ rt, ∀ y ∈ sub.uses, y < first + rt.length) ∧ RefsFrom (first + rt.length) rts

/-- The references of a type are to its own group or to earlier types. -/
def RefsOk (rts : List (RecType Nat)) : Prop := RefsFrom 0 rts

theorem RefsFrom.located {first : Nat} (h : RefsFrom first rts) (hx : Located rts x pre rt k sub)
    (hy : y ∈ sub.uses) : y < first + pre.flatten.length + rt.length := by
  obtain ⟨⟨post, rfl⟩, hidx, hsub⟩ := hx
  clear hidx
  induction pre generalizing first with
  | nil => exact h.1 sub (mem_of_getElem? hsub) y hy
  | cons rt' pre ih =>
    have hnext := ih h.2
    rw [flatten_cons, length_append]
    omega

theorem RefsOk.located (h : RefsOk rts) (hx : Located rts x pre rt k sub) (hy : y ∈ sub.uses) :
    y < pre.flatten.length + rt.length := by
  have := RefsFrom.located h hx hy
  omega

/-- A rolled group, up to mutability. -/
def rolledSubs (pre : List (RecType Nat)) (rt : RecType Nat) : List (SubType (Nat ⊕ Rolled)) :=
  rt.map fun sub => sub.eraseMut.map (rollRef (rolledTypes (eraseMuts pre)))

theorem Located.rolled_erase (h : Located rts x pre rt k sub) :
    rolled (eraseMuts rts) x = some (.roll (rolledSubs pre rt) k) := by
  rw [h.erase.rolled_eq, map_map]
  rfl

theorem Located.mem (h : Located rts x pre rt k sub) (hs : sub' ∈ rt) :
    ∃ j, Located rts (pre.flatten.length + j) pre rt j sub' := by
  obtain ⟨j, hj⟩ := mem_iff_getElem?.mp hs
  exact ⟨j, h.groups, rfl, hj⟩

theorem Located.group_inj (ha : Located rts a pre rt k sub)
    (hb : Located rts b pre' rt' k' sub') (h : pre.length = pre'.length) : pre = pre' ∧ rt = rt' := by
  obtain ⟨post, hpost⟩ := ha.groups
  obtain ⟨post', hpost'⟩ := hb.groups
  rw [hpost] at hpost'
  obtain ⟨h1, h2⟩ := append_inj hpost' h
  exact ⟨h1, (List.cons.inj h2).1⟩

theorem recgroupCanonEq_eq (env : TypeEnv) (deftype : Nat → Nat → Option Bool) (ga gb : Nat) :
    recgroupCanonEq env deftype ga gb = recgroupCanonEqX true env env deftype ga gb := by
  simp only [recgroupCanonEq, recgroupCanonEqX, typeuseCanonEq, comptypeCanonEqX_eq,
    Bool.true_and, beq_iff_eq]

variable {same : Bool}

theorem recgroupCanonEqX_whether (hsame : same = true → rts = rts')
    (ha : Located rts a pre rt k sub) (hb : Located rts' b pre' rt' k' sub')
    (hrefs : RefsOk rts) (hrefs' : RefsOk rts')
    (ih : ∀ x y, x < pre.flatten.length → y < pre'.flatten.length →
      Whether (fun n => deftype n x y) (rolled (eraseMuts rts) x = rolled (eraseMuts rts') y)) :
    Whether (fun n => recgroupCanonEqX same (typeenvBuild rts) (typeenvBuild rts') (deftype n)
      pre.length pre'.length) (rolledSubs pre rt = rolledSubs pre' rt') := by
  unfold recgroupCanonEqX
  dsimp only
  rw [ha.group, hb.group, ha.subs, hb.subs]
  split
  · rename_i hshort
    rw [Bool.and_eq_true, beq_iff_eq] at hshort
    obtain rfl := hsame hshort.1
    obtain ⟨rfl, rfl⟩ := ha.group_inj hb hshort.2
    exact .yes rfl
  · refine (lengths_whether (Q := True) fun hlen => ?_).congr (and_iff_left trivial)
    refine (allEq_whether hlen fun s hs s' hs' => ?_).congr (and_iff_left trivial).symm
    obtain ⟨j, hj⟩ := ha.mem hs
    obtain ⟨j', hj'⟩ := hb.mem hs'
    have huses : UsesTell (fun n => typeuseCanonEqX (typeenvBuild rts) pre.length
        (typeenvBuild rts') pre'.length (deftype n)) (rollRef (rolledTypes (eraseMuts pre)))
        (rollRef (rolledTypes (eraseMuts pre'))) s.uses s'.uses := fun x hx y hy =>
      typeuse_whether ha hb ih (hrefs.located hj hx) (hrefs'.located hj' hy)
    simp only [comptypeCanonEqX_eq]
    exact subCanonEq_whether huses

theorem deftypeCanonEqX_whether (hsame : same = true → rts = rts')
    (hrefs : RefsOk rts) (hrefs' : RefsOk rts') (ha : a < rts.flatten.length)
    (hb : b < rts'.flatten.length) :
    Whether (fun n => deftypeCanonEqX same n (typeenvBuild rts) a (typeenvBuild rts') b)
      (rolled (eraseMuts rts) a = rolled (eraseMuts rts') b) := by
  induction a using Nat.strong_induction_on generalizing b with
  | _ a ih =>
  obtain ⟨pre, rt, k, sub, hla⟩ := exists_located ha
  obtain ⟨pre', rt', k', sub', hlb⟩ := exists_located hb
  have hxa := hla.index
  have hxb := hlb.index
  refine .succ ?_
  simp only [deftypeCanonEqX, typeenvBuild_types, ge_iff_le, not_le.mpr ha, not_le.mpr hb, if_false,
    hla.type, hlb.type, hla.rolled_erase, hlb.rolled_erase, Option.some_inj,
    Rolled.roll.injEq]
  by_cases hk : k = k'
  · simp only [ne_eq, hk, not_true, if_false, and_true]
    exact recgroupCanonEqX_whether hsame hla hlb hrefs hrefs' fun x y hx hy =>
      ih x (by omega) (by omega) (by omega)
  · simp only [ne_eq, hk, not_false_eq_true, if_true, and_false]
    exact .no not_false

theorem typeCanonEq_whether (hrefs : RefsOk rts) (ha : a < rts.flatten.length)
    (hb : b < rts.flatten.length) :
    Whether (fun n => typeCanonEq n (typeenvBuild rts) a b)
      (rolled (eraseMuts rts) a = rolled (eraseMuts rts) b) := by
  induction a using Nat.strong_induction_on generalizing b with
  | _ a ih =>
  obtain ⟨pre, rt, k, sub, hla⟩ := exists_located ha
  obtain ⟨pre', rt', k', sub', hlb⟩ := exists_located hb
  have hxa := hla.index
  have hxb := hlb.index
  refine .succ ?_
  by_cases hab : a = b
  · subst hab
    simp only [typeCanonEq, if_true]
    exact .yes trivial
  simp only [typeCanonEq, hab, typeenvBuild_types, ge_iff_le, not_le.mpr ha, not_le.mpr hb,
    if_false, hla.type, hlb.type, hla.rolled_erase, hlb.rolled_erase, Option.some_inj,
    Rolled.roll.injEq, recgroupCanonEq_eq]
  by_cases hk : k = k'
  · simp only [ne_eq, hk, not_true, if_false, and_true]
    exact recgroupCanonEqX_whether (fun _ => rfl) hla hlb hrefs hrefs fun x y hx hy =>
      ih x (by omega) (by omega) (by omega)
  · simp only [ne_eq, hk, not_false_eq_true, if_true, and_false]
    exact .no not_false

end Wasm89
