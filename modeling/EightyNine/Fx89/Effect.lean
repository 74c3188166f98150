import EightyNine.Fx89.Step

/-!
# What the processors do

Processing a constraint is a sequence of steps (`process_steps`).  An equality of
two open rows makes its fresh variable first.
-/

namespace Fx89

open List

variable {α : Type} [LinearOrder α]

/-- All the atoms of a goal are in `U`. -/
structure Goal.Within (U : α → Prop) (g : Goal α) : Prop where
  heads : ∀ r ∈ g.operands, ∀ a ∈ r.head, U a
  atom : ∀ a b, g = .member a b ∨ g = .lacks a b → U a

/-- The tail of a row is there. -/
def Row.Scoped (n : Nat) (r : Row α) : Prop := ∀ v, r.tail = some v → v < n

/-- The tails of the rows of a goal are there. -/
def Goal.Scoped (n : Nat) (g : Goal α) : Prop := ∀ r ∈ g.operands, r.Scoped n

/-- A store knows that a row has an atom, or that it lacks it. -/
def Store.Knows (S : Store α) (row : Row α) (a : α) : Side → Prop
  | .required => a ∈ row.head ∨ ∃ v, row.tail = some v ∧ a ∈ S.facts v .required
  | .forbidden => a ∉ row.head ∧ ∀ v, row.tail = some v → a ∈ S.facts v .forbidden

omit [LinearOrder α] in
theorem Store.Knows.mono {S T : Store α} {row : Row α} {a : α} {s : Side} (h : S.Knows row a s)
    (hle : S.Le T) : T.Knows row a s := by
  cases s with
  | required =>
    rcases h with h | ⟨v, hv, h⟩
    · exact .inl h
    · exact .inr ⟨v, hv, hle.facts h⟩
  | forbidden => exact ⟨h.1, fun v hv => hle.facts (h.2 v hv)⟩

namespace Ctx

variable {U : α → Prop} {c c' : Ctx α} {s : Side} {v k root : Nat} {a : α} {row : Row α}

/-- The atoms of a normal form are atoms of the row and of the store. -/
theorem normalize_within (hS : c.store.Ordered) (hU : c.store.Within U) (h : ∀ a ∈ row.head, U a) :
    ∀ a ∈ (c.normalize row).head, U a := by
  intro a ha
  rcases normalize_cases hS row with ⟨_, hn⟩ | ⟨v, hs, e, _, hc, hn⟩
  · rw [hn, mem_rowMake] at ha
    exact h a ha
  · rw [hn, mem_rowMake] at ha
    rcases mem_append.1 ha with ha | ha
    · exact h a ha
    · exact hc.within hU a ha

omit [LinearOrder α] in
theorem mem_tailFacts : a ∈ c.tailFacts row s ↔ ∃ v, row.tail = some v ∧ a ∈ c.store.facts v s := by
  unfold tailFacts
  cases h : row.tail with
  | none => simp
  | some v =>
    simp only [Option.some.injEq, exists_eq_left']
    rfl

/-! ## Facts -/

theorem varFact_ok (h : (varFact s v a c).1 = .ok) :
    a ∈ (varFact s v a c).2.store.facts v s := by
  rcases varFact_cases s v a c with ⟨hs, heq⟩ | ⟨_, _, heq⟩ | ⟨_, _, heq⟩
  · rw [heq]
    exact hs
  · rw [heq] at h
    exact absurd h (by simp)
  · rw [heq]
    simp [Store.push]

theorem open_rowMake (as : List α) : c.Open True (rowMake as none) := fun _ h => by simp at h

theorem factOnRow_knows (h : (factOnRow s row a c).1 = .ok) :
    (factOnRow s row a c).2.store.Knows row a s := by
  by_cases ha : a ∈ row.head
  · rw [factOnRow_head ha] at h ⊢
    cases s with
    | required => exact .inl ha
    | forbidden => exact absurd h (by simp)
  · cases ht : row.tail with
    | none =>
      rw [factOnRow_closed ha ht] at h ⊢
      cases s with
      | required => exact absurd h (by simp)
      | forbidden => exact ⟨ha, fun v hv => by simp [ht] at hv⟩
    | some v =>
      rw [factOnRow_open ha ht] at h ⊢
      have hf := varFact_ok h
      cases s with
      | required => exact .inr ⟨v, ht, hf⟩
      | forbidden =>
        refine ⟨ha, fun w hw => ?_⟩
        obtain rfl := Option.some.inj (ht.symm.trans hw)
        exact hf

theorem applyFact_status : (applyFact s row k a c).1 = (factOnRow s row a c).1 := by
  unfold applyFact
  dsimp only
  split_ifs with h
  · exact h.symm
  · rfl

theorem applyFact_store : (applyFact s row k a c).2.store = (factOnRow s row a c).2.store := by
  unfold applyFact
  dsimp only
  split_ifs
  · exact store_recordConflict _ _ _ _
  · rfl

variable {as : List α}

theorem applyFacts_done (hU : ∀ a ∈ as, U a) (hrow : c.Open True row) :
    Tells U True k c (forAll as (applyFact s row k) c).2 ∧
      ((forAll as (applyFact s row k) c).1 = .ok →
        ∀ a ∈ as, (forAll as (applyFact s row k) c).2.store.Knows row a s) := by
  have htell : ∀ a ∈ as, ∀ c', Tells U True k c c' → Tells U True k c (applyFact s row k a c').2 :=
    fun a ha c' hc => hc.trans (applyFact_tells (hU a ha) (hrow.tells hc))
  refine ⟨forAll_inv (P := Tells U True k c) htell .refl, fun hok => ?_⟩
  refine forAll_done (P := Tells U True k c) (Q := fun a c' => c'.store.Knows row a s) htell ?_ ?_
    .refl hok
  · intro a _ c' _ hok
    rw [applyFact_status] at hok
    rw [applyFact_store]
    exact factOnRow_knows hok
  · intro x a ha c' hc hx
    exact hx.mono (applyFact_tells (hU a ha) (hrow.tells hc)).1.le

/-! ## Bindings -/

/-- A variable and the row it may be bound to. -/
structure Bindable (c : Ctx α) (root : Nat) (row : Row α) : Prop where
  lt : root < c.nvars
  unbound : c.store.binding root = none
  tail : ∀ t, row.tail = some t → root < t ∧ t < c.nvars ∧ c.store.binding t = none

omit [LinearOrder α] in
theorem Bindable.open (h : c.Bindable root row) : c.Open True row :=
  fun t ht => ⟨(h.tail t ht).2.1, fun _ => (h.tail t ht).2.2⟩

omit [LinearOrder α] in
theorem Bindable.tells (h : c.Bindable root row) (ht : Tells U True k c c') :
    c'.Bindable root row := by
  refine ⟨ht.2.2 ▸ h.lt, ht.2.1 ▸ h.unbound, ?_⟩
  rw [ht.2.2, ht.2.1]
  exact h.tail

omit [LinearOrder α] in
theorem Bindable.not_occurs (h : c.Bindable root row) : c.occurs root row = false := by
  unfold occurs
  cases ht : row.tail with
  | none => rfl
  | some t =>
    obtain ⟨hlt, _, hb⟩ := h.tail t ht
    have hbt : (c.vars t).binding = none := hb
    simp [occursWalk, hlt.ne', hbt]

/-- Binding a variable fails while its facts move, or sets the binding once the row
has them all. -/
theorem bindRow_cases (hb : c.Bindable root row) (hU : c.store.Within U) :
    ((bindRow root row k c).1 ≠ .ok ∧ Tells U True k c (bindRow root row k c).2) ∨
      ∃ c', Tells U True k c c' ∧ bindRow root row k c = (.ok, c'.setBinding root row) ∧
        ∀ s, ∀ a ∈ c.store.facts root s, c'.store.Knows row a s := by
  have h1 := applyFacts_done (s := .required) (k := k)
    (fun a (ha : a ∈ (c.vars root).required) => hU.facts (v := root) (s := .required) ha) hb.open
  unfold bindRow
  rw [hb.not_occurs, if_neg (by simp)]
  by_cases hok : (forAll (c.vars root).required (applyFact .required row k) c).1 = .ok
  · rw [andThen_ok hok]
    generalize (forAll (c.vars root).required (applyFact .required row k) c).2 = c1 at h1 ⊢
    have hU1 : c1.store.Within U := h1.1.1.within hU
    have h2 := applyFacts_done (s := .forbidden) (k := k)
      (fun a (ha : a ∈ (c1.vars root).forbidden) => hU1.facts (v := root) (s := .forbidden) ha)
      (hb.tells h1.1).open
    by_cases hok' : (forAll (c1.vars root).forbidden (applyFact .forbidden row k) c1).1 = .ok
    · rw [andThen_ok hok']
      refine .inr ⟨_, h1.1.trans h2.1, rfl, ?_⟩
      intro s a ha
      cases s with
      | required => exact (h1.2 hok a ha).mono h2.1.1.le
      | forbidden =>
        have ha1 : a ∈ c1.store.facts root .forbidden := h1.1.1.le.facts ha
        exact h2.2 hok' a ha1
    · rw [andThen_of_ne hok']
      exact .inl ⟨hok', h1.1.trans h2.1⟩
  · rw [andThen_of_ne hok]
    exact .inl ⟨hok, h1.1⟩

theorem bindRow_steps (hb : c.Bindable root row) (hU : c.store.Within U)
    (hrow : ∀ a ∈ row.head, U a) : Steps U True k c (bindRow root row k c).2 := by
  rcases bindRow_cases (k := k) hb hU with ⟨_, h⟩ | ⟨c', h, heq, _⟩
  · exact h.1
  · rw [heq]
    have hb' := hb.tells h
    exact h.1.tail (.bind hrow hb'.lt hb'.unbound hb'.tail)

/-- The fresh variable of an equality can be the tail of any row. -/
theorem bindable_varNew (hlt : root < c.nvars) (hunb : c.store.binding root = none)
    (as : List α) : c.varNew.2.Bindable root (rowMake as (some c.nvars)) := by
  have hst : c.varNew.2.store = c.store.grow := c.store_varNew
  refine ⟨hlt.trans (Nat.lt_succ_self _), ?_, ?_⟩
  · rw [hst]
    simp [Store.grow, hunb]
  · intro t ht
    obtain rfl : c.nvars = t := Option.some.inj ht
    refine ⟨hlt, Nat.lt_succ_self _, ?_⟩
    rw [hst]
    exact if_pos rfl

omit [LinearOrder α] in
theorem within_varNew (hU : c.store.Within U) : c.varNew.2.store.Within U := by
  rw [store_varNew]
  refine ⟨?_, ?_⟩
  · intro v b hb
    simp only [Store.grow] at hb
    split_ifs at hb
    exact hU.binding hb
  · intro v s a ha
    simp only [Store.grow] at ha
    split_ifs at ha
    · exact absurd ha not_mem_nil
    · exact hU.facts ha

omit [LinearOrder α] in
theorem ordered_varNew (hS : c.store.Ordered) : c.varNew.2.store.Ordered := by
  rw [store_varNew]
  refine ⟨?_, ?_, ?_⟩
  · intro v b t hb ht
    simp only [Store.grow] at hb
    split_ifs at hb
    have := hS.lt hb ht
    exact ⟨this.1, Nat.lt_succ_of_lt this.2⟩
  · intro v hv
    simp only [Store.grow] at hv ⊢
    split_ifs
    · rfl
    · exact hS.blank (by omega)
  · intro v s hv
    simp only [Store.grow] at hv ⊢
    split_ifs
    · rfl
    · exact hS.blankFacts (by omega)

omit [LinearOrder α] in
theorem consistent_varNew (hS : c.store.Consistent) : c.varNew.2.store.Consistent := by
  rw [store_varNew]
  intro v s a ha
  simp only [Store.grow] at ha ⊢
  split_ifs at ha ⊢
  · exact not_mem_nil
  · exact hS v s a ha

omit [LinearOrder α] in
theorem le_varNew (hS : c.store.Ordered) : c.store.Le c.varNew.2.store := by
  rw [store_varNew]
  refine ⟨Nat.le_succ _, ?_, ?_⟩
  · intro v b hb
    have hne : v ≠ c.store.nvars := fun h => by simp [hS.blank h.ge] at hb
    simpa [Store.grow, hne] using hb
  · intro v s a ha
    have hne : v ≠ c.store.nvars := fun h => by simp [hS.blankFacts h.ge] at ha
    simpa [Store.grow, hne] using ha

/-! ## Processors -/

omit [LinearOrder α] in
theorem eqHeads_tells (larr rarr : List α) : Tells U True k c (eqHeads k larr rarr c).2 := by
  unfold eqHeads failEq satisfy
  split_ifs
  · exact (tells_state _).trans (tells_conflict _ _ _)
  · exact (tells_state _).trans (tells_conflict _ _ _)
  · exact tells_state _

variable {o : Outcome α}

omit [LinearOrder α] in
theorem steps_satisfy (h : Steps U True k c o.2) :
    Steps U True k c (o.andThen (satisfy k)).2 :=
  andThen_inv h fun _ hc => hc.tail (.state _)

variable {t : Nat}

theorem bindClosedTail_steps (hlt : t < c.nvars)
    (hunb : c.store.binding t = none) (hU : c.store.Within U) (has : ∀ a ∈ as, U a) :
    Steps U True k c (bindClosedTail k t as c).2 :=
  steps_satisfy (bindRow_steps ⟨hlt, hunb, fun _ h => by simp at h⟩ hU
    fun a ha => has a (mem_rowMake.1 ha))

theorem eqOneClosed_steps {extra : List α} (hlt : t < c.nvars)
    (hunb : c.store.binding t = none) (hU : c.store.Within U) (has : ∀ a ∈ as, U a) :
    Steps U True k c (eqOneClosed k t as extra c).2 := by
  unfold eqOneClosed failEq
  split_ifs
  · exact ((tells_state _).trans (tells_conflict _ _ _)).1
  · exact bindClosedTail_steps hlt hunb hU has

variable {t1 t2 : Nat} {bs : List α}

/-- After the first binding of an equality, the second can be made. -/
theorem bindable_second (hne : t1 ≠ t2) (h1 : t1 < c.nvars)
    (h1' : c.store.binding t1 = none) (h2 : t2 < c.nvars) (h2' : c.store.binding t2 = none)
    (hU : c.store.Within U)
    (hok : (bindRow t1 (rowMake as (some c.nvars)) k c.varNew.2).1 = .ok) :
    (bindRow t1 (rowMake as (some c.nvars)) k c.varNew.2).2.Bindable t2
      (rowMake bs (some c.nvars)) := by
  rcases bindRow_cases (k := k) (bindable_varNew h1 h1' as) (within_varNew hU)
    with ⟨h, _⟩ | ⟨c', ht, heq, _⟩
  · exact absurd hok h
  · rw [heq]
    obtain ⟨hlt, hunb, htail⟩ := (bindable_varNew h2 h2' bs).tells ht
    have hz : c.nvars ≠ t1 := h1.ne'
    refine ⟨?_, ?_, ?_⟩
    · exact hlt.trans_eq (c'.nvars_setBinding t1 _).symm
    · rw [store_setBinding]
      simpa [Store.bind, hne.symm] using hunb
    · intro t htt
      obtain ⟨hlt', hlt'', hb⟩ := htail t htt
      obtain rfl : c.nvars = t := Option.some.inj htt
      refine ⟨hlt', hlt''.trans_eq (c'.nvars_setBinding t1 _).symm, ?_⟩
      rw [store_setBinding]
      simpa [Store.bind, hz] using hb

theorem bindOpenShared_steps (hne : t1 ≠ t2) (h1 : t1 < c.nvars)
    (h1' : c.store.binding t1 = none) (h2 : t2 < c.nvars) (h2' : c.store.binding t2 = none)
    (hU : c.store.Within U) (has : ∀ a ∈ as, U a) (hbs : ∀ a ∈ bs, U a) :
    Steps U True k c.varNew.2 (bindOpenShared k t1 as t2 bs c).2 := by
  have hU1 := within_varNew hU
  have hs1 : Steps U True k c.varNew.2
      (bindRow t1 (rowMake as (some c.nvars)) k c.varNew.2).2 :=
    bindRow_steps (bindable_varNew h1 h1' as) hU1 fun a ha => has a (mem_rowMake.1 ha)
  change Steps U True k c.varNew.2 (Outcome.andThen
    (bindRow t1 (rowMake as (some c.nvars)) k c.varNew.2)
    fun c' => Outcome.andThen (bindRow t2 (rowMake bs (some c.nvars)) k c') (satisfy k)).2
  by_cases hok : (bindRow t1 (rowMake as (some c.nvars)) k c.varNew.2).1 = .ok
  · rw [andThen_ok hok]
    exact steps_satisfy (hs1.trans (bindRow_steps
      (bindable_second hne h1 h1' h2 h2' hU hok) (hs1.within hU1)
      fun a ha => hbs a (mem_rowMake.1 ha)))
  · rw [andThen_of_ne hok]
    exact hs1

/-- Whole-row equality is a sequence of steps; where it binds two tails, after a
fresh variable. -/
theorem equalRows_steps {na nb : Row α} (ha : c.Open True na) (hb : c.Open True nb)
    (hU : c.store.Within U) (hna : ∀ a ∈ na.head, U a) (hnb : ∀ a ∈ nb.head, U a) :
    Steps U True k c (equalRows k na nb c).2 ∨
      (∃ t, nb.tail = some t) ∧ Steps U True k c.varNew.2 (equalRows k na nb c).2 := by
  have hl : ∀ a ∈ diffAtoms na nb, U a := fun a h => hna a (mem_of_mem_filter h)
  have hr : ∀ a ∈ diffAtoms nb na, U a := fun a h => hnb a (mem_of_mem_filter h)
  unfold equalRows
  cases hta : na.tail with
  | none =>
    cases htb : nb.tail with
    | none => exact .inl (eqHeads_tells _ _).1
    | some t2 => exact .inl (eqOneClosed_steps (hb t2 htb).1 ((hb t2 htb).2 trivial) hU hl)
  | some t1 =>
    cases htb : nb.tail with
    | none => exact .inl (eqOneClosed_steps (ha t1 hta).1 ((ha t1 hta).2 trivial) hU hr)
    | some t2 =>
      dsimp only
      split_ifs with h
      · exact .inl (eqHeads_tells _ _).1
      · exact .inr ⟨⟨t2, rfl⟩, bindOpenShared_steps h (ha t1 hta).1 ((ha t1 hta).2 trivial)
          (hb t2 htb).1 ((hb t2 htb).2 trivial) hU hr hl⟩

omit [LinearOrder α] in
theorem fact_then_satisfy_tells (h : Tells U True k c o.2) :
    Tells U True k c (Outcome.andThen (orFail k o) (satisfy k)).2 :=
  andThen_inv (P := Tells U True k c) (orFail_tells h) fun _ hc => hc.trans (tells_state _)

variable {b : Row α}

theorem processMember_tells (hS : c.store.Ordered) (hb : b.Scoped c.nvars) (ha : U a) :
    Tells U True k c (processMember k a b c).2 := by
  have ho := open_normalize hS hb
  unfold processMember
  dsimp only
  split_ifs
  · exact tells_state _
  · cases ht : (c.normalize b).tail with
    | none => exact tells_state _
    | some v =>
      exact fact_then_satisfy_tells (varFact_tells ha (ho v ht).1 (ho v ht).2)

theorem processLacks_tells (hS : c.store.Ordered) (hb : b.Scoped c.nvars) (ha : U a) :
    Tells U True k c (processLacks k a b c).2 := by
  have ho := open_normalize hS hb
  unfold processLacks
  dsimp only
  split_ifs
  · exact tells_state _
  · cases ht : (c.normalize b).tail with
    | none => exact tells_state _
    | some v =>
      exact fact_then_satisfy_tells (varFact_tells ha (ho v ht).1 (ho v ht).2)

theorem requireRhs_tells (ha : U a) (h : c.Open True row) :
    Tells U True k c (requireRhs k row a c).2 := by
  unfold requireRhs
  split_ifs
  · exact .refl
  · exact orFail_tells (factOnRow_tells ha h)

theorem forbidIfAbsent_tells {rhs : Row α} (ha : U a) (h : c.Open True row) :
    Tells U True k c (forbidIfAbsent k row rhs a c).2 := by
  unfold forbidIfAbsent
  split_ifs
  · exact .refl
  · exact orFail_tells (factOnRow_tells ha h)

omit [LinearOrder α] in
theorem tailFacts_within (hU : c.store.Within U) : ∀ a ∈ c.tailFacts row s, U a := by
  intro a ha
  obtain ⟨v, _, h⟩ := mem_tailFacts.1 ha
  exact hU.facts h

/-- The three loops of `process_subset`, one after the other. -/
theorem processSubset_tells {a : Row α} (hS : c.store.Ordered) (ha : a.Scoped c.nvars)
    (hb : b.Scoped c.nvars) (hU : c.store.Within U) (hla : ∀ x ∈ a.head, U x) :
    Tells U True k c (processSubset k a b c).2 := by
  have hoa := open_normalize hS ha
  have hob := open_normalize hS hb
  have hna := normalize_within hS hU hla
  have hreq : ∀ as : List α, (∀ x ∈ as, U x) → ∀ c', Tells U True k c c' →
      Tells U True k c (forAll as (requireRhs k (c.normalize b)) c').2 := fun as has c' hc =>
    forAll_inv (fun x hx c'' h => h.trans (requireRhs_tells (has x hx) (hob.tells h))) hc
  have hforb : ∀ as : List α, (∀ x ∈ as, U x) → ∀ c', Tells U True k c c' →
      Tells U True k c (forAll as (forbidIfAbsent k (c.normalize a) (c.normalize b)) c').2 :=
    fun as has c' hc =>
      forAll_inv (fun x hx c'' h => h.trans (forbidIfAbsent_tells (has x hx) (hoa.tells h))) hc
  unfold processSubset
  refine andThen_inv (hreq _ hna c .refl) fun c1 h1 => ?_
  refine andThen_inv (hreq _ (tailFacts_within (h1.1.within hU)) c1 h1) fun c2 h2 => ?_
  refine andThen_inv (hforb _ (tailFacts_within (h2.1.within hU)) c2 h2) fun c3 h3 => ?_
  split_ifs
  · exact h3.trans (tells_state _)
  · exact h3.trans (tells_state _)

/-! ## Joins -/

variable {x : α} {support : List α}

theorem mem_joinSupport : x ∈ joinSupport support a ↔ x ∈ support ∨ x = a := by
  unfold joinSupport
  split_ifs with h
  · constructor
    · exact .inl
    · rintro (hx | rfl)
      · exact hx
      · exact h
  · simp

theorem mem_joinCollect : x ∈ c.joinCollect support row ↔
    x ∈ support ∨ x ∈ row.head ∨ ∃ s, x ∈ c.tailFacts row s := by
  have hfold : ∀ (as support : List α),
      x ∈ as.foldl joinSupport support ↔ x ∈ support ∨ x ∈ as := by
    intro as
    induction as with
    | nil => simp
    | cons a as ih =>
      intro support
      rw [foldl_cons, ih, mem_joinSupport, mem_cons, or_assoc]
  have hside : (∃ s, x ∈ c.tailFacts row s) ↔
      x ∈ c.tailFacts row .required ∨ x ∈ c.tailFacts row .forbidden := by
    constructor
    · rintro ⟨s, h⟩
      cases s with
      | required => exact .inl h
      | forbidden => exact .inr h
    · rintro (h | h)
      · exact ⟨_, h⟩
      · exact ⟨_, h⟩
  rw [joinCollect, hfold, hside, mem_append, mem_append, or_assoc]

variable {l r : Row α}

omit [LinearOrder α] in
/-- A rule of the join puts a fact on one of its rows, for a reason. -/
theorem mem_joinRules {o : Row α} {mo ml mr : Truth} {p : Side × Row α} :
    p ∈ joinRules o l r mo ml mr ↔
      ((ml = .true ∧ mo ≠ .true) ∧ p = (.required, o)) ∨
      ((mr = .true ∧ mo ≠ .true) ∧ p = (.required, o)) ∨
      ((mo = .false ∧ ml ≠ .false) ∧ p = (.forbidden, l)) ∨
      ((mo = .false ∧ mr ≠ .false) ∧ p = (.forbidden, r)) ∨
      ((ml = .false ∧ mr = .false ∧ mo ≠ .false) ∧ p = (.forbidden, o)) ∨
      ((ml = .false ∧ mr ≠ .false ∧ mo = .true) ∧ p = (.required, r)) ∨
      ((mr = .false ∧ ml ≠ .false ∧ mo = .true) ∧ p = (.required, l)) := by
  have hif : ∀ (P : Prop) [Decidable P] (q : Side × Row α),
      (p ∈ if P then [q] else []) ↔ P ∧ p = q := by
    intro P _ q
    split_ifs with h <;> simp [h]
  simp only [joinRules, mem_append, hif, or_assoc]

theorem joinRule_tells {o : Row α} (ha : U a) (ho : c.Open True o) (hl : c.Open True l)
    (hr : c.Open True r) : Tells U True k c (joinRule k o l r a c).2 := by
  unfold joinRule
  refine forAll_inv (P := Tells U True k c) ?_ .refl
  intro p hp c' hc
  have hrow : c'.Open True p.2 := by
    rcases mem_joinRules.1 hp with ⟨_, rfl⟩ | ⟨_, rfl⟩ | ⟨_, rfl⟩ | ⟨_, rfl⟩ | ⟨_, rfl⟩ |
      ⟨_, rfl⟩ | ⟨_, rfl⟩
    · exact ho.tells hc
    · exact ho.tells hc
    · exact hl.tells hc
    · exact hr.tells hc
    · exact ho.tells hc
    · exact hr.tells hc
    · exact hl.tells hc
  exact hc.trans (orFail_tells (factOnRow_tells ha hrow))

theorem joinCollect_within (hU : c.store.Within U) (hs : ∀ a ∈ support, U a)
    (hrow : ∀ a ∈ row.head, U a) : ∀ a ∈ c.joinCollect support row, U a := by
  intro a ha
  rcases mem_joinCollect.1 ha with ha | ha | ⟨s, ha⟩
  · exact hs a ha
  · exact hrow a ha
  · exact tailFacts_within hU a ha

theorem joinResidual_tells {no nl nr : Row α} (hU : c.store.Within U) (ho : c.Open True no)
    (hl : c.Open True nl) (hr : c.Open True nr) (hno : ∀ a ∈ no.head, U a)
    (hnl : ∀ a ∈ nl.head, U a) (hnr : ∀ a ∈ nr.head, U a) :
    Tells U True k c (joinResidual k no nl nr c).2 := by
  have hsup := joinCollect_within hU (joinCollect_within hU
    (joinCollect_within hU (forall_mem_nil U) hno) hnl) hnr
  unfold joinResidual
  refine andThen_inv (P := Tells U True k c) (forAll_inv ?_ .refl) fun c' h =>
    h.trans (tells_state _)
  intro a ha c' hc
  exact hc.trans (joinRule_tells (hsup a ha) (ho.tells hc) (hl.tells hc) (hr.tells hc))

/-- Processing is a sequence of steps, for an equality perhaps after a fresh
variable. -/
theorem process_steps {g : Goal α} (hS : c.store.Ordered) (hU : c.store.Within U)
    (hg : g.Within U) (hsc : g.Scoped c.nvars) :
    Steps U True k c (process k g c).2 ∨
      (∃ a b, g = .equal a b) ∧ Steps U True k c.varNew.2 (process k g c).2 := by
  cases g with
  | equal a b =>
    have ha := open_normalize hS (hsc a (by simp [Goal.operands]))
    have hb := open_normalize hS (hsc b (by simp [Goal.operands]))
    rcases equalRows_steps (k := k) ha hb hU
      (normalize_within hS hU (hg.heads a (by simp [Goal.operands])))
      (normalize_within hS hU (hg.heads b (by simp [Goal.operands]))) with h | ⟨_, h⟩
    · exact .inl h
    · exact .inr ⟨⟨a, b, rfl⟩, h⟩
  | subset a b =>
    exact .inl (processSubset_tells hS (hsc a (by simp [Goal.operands]))
      (hsc b (by simp [Goal.operands])) hU (hg.heads a (by simp [Goal.operands]))).1
  | member x b =>
    exact .inl (processMember_tells hS (hsc b (by simp [Goal.operands]))
      (hg.atom x b (.inl rfl))).1
  | lacks x b =>
    exact .inl (processLacks_tells hS (hsc b (by simp [Goal.operands]))
      (hg.atom x b (.inr rfl))).1
  | join o l r =>
    have ho := open_normalize hS (hsc o (by simp [Goal.operands]))
    have hl := open_normalize hS (hsc l (by simp [Goal.operands]))
    have hr := open_normalize hS (hsc r (by simp [Goal.operands]))
    have hno := normalize_within hS hU (hg.heads o (by simp [Goal.operands]))
    have hnl := normalize_within hS hU (hg.heads l (by simp [Goal.operands]))
    have hnr := normalize_within hS hU (hg.heads r (by simp [Goal.operands]))
    change Steps U True k c (processJoin k o l r c).2 ∨ _
    unfold processJoin
    dsimp only
    split_ifs
    · have hsup := joinCollect_within hU (joinCollect_within hU (forall_mem_nil U) hnl) hnr
      rcases equalRows_steps (k := k) ho (open_rowMake _) hU hno
        (fun a ha => hsup a (mem_rowMake.1 ha)) with h | ⟨⟨_, h⟩, _⟩
      · exact .inl h
      · exact absurd h (by simp)
    · exact .inl (joinResidual_tells hU ho hl hr hno hnl hnr).1

/-- The work on one constraint: steps, with at most one fresh variable on the way. -/
def Work (U : α → Prop) (k : Nat) (c c' : Ctx α) : Prop :=
  Steps U True k c c' ∨ ∃ c1, Steps U True k c c1 ∧ Steps U True k c1.varNew.2 c'

theorem solveOne_work (hS : c.store.Ordered) (hU : c.store.Within U)
    (hg : (c.constraints k).goal.Within U)
    (hsc : (c.constraints k).state = .pending → (c.constraints k).goal.Scoped c.nvars) :
    Work U k c (solveOne k c).2 := by
  unfold solveOne
  split_ifs with hp
  · have hst : (c.trailAppend (.state k .pending)).store = c.store := c.store_trailAppend _
    have hn : (c.trailAppend (.state k .pending)).nvars = c.nvars := congrArg Store.nvars hst
    have hrec : Steps U True k c (c.trailAppend (.state k .pending)) := .single (.record _)
    rcases process_steps (k := k) (c := c.trailAppend (.state k .pending)) (hst ▸ hS)
      (hst ▸ hU) hg (hn ▸ hsc hp) with h | ⟨_, h⟩
    · exact .inl (hrec.trans h)
    · exact .inr ⟨_, hrec, h⟩
  · exact .inl .refl

omit [LinearOrder α] in
theorem Work.keeps (h : Work U k c c') (hS : c.store.Ordered) :
    c.store.Le c'.store ∧ c'.store.Ordered ∧ (c.store.Consistent → c'.store.Consistent) ∧
      (c.store.Within U → c'.store.Within U) := by
  rcases h with h | ⟨c1, h1, h2⟩
  · exact ⟨h.le, h.ordered hS, h.consistent, h.within⟩
  · have hS1 := h1.ordered hS
    exact ⟨(h1.le.trans (le_varNew hS1)).trans h2.le, h2.ordered (ordered_varNew hS1),
      fun hc => h2.consistent (consistent_varNew (h1.consistent hc)),
      fun hU => h2.within (within_varNew (h1.within hU))⟩

omit [LinearOrder α] in
theorem Work.frame (h : Work U k c c') :
    c'.nconstraints = c.nconstraints ∧ (∀ j, (c'.constraints j).goal = (c.constraints j).goal) ∧
      (∀ j, (c'.constraints j).live = (c.constraints j).live) ∧ c'.checkpoints = c.checkpoints ∧
      c'.solving = c.solving := by
  rcases h with h | ⟨c1, h1, h2⟩
  · have hf := Steps.sameFrame h
    exact ⟨hf.nconstraints, hf.goal, hf.live, hf.checkpoints, hf.solving⟩
  · have hf1 := Steps.sameFrame h1
    have hf2 := Steps.sameFrame h2
    exact ⟨hf2.nconstraints.trans hf1.nconstraints, fun j => (hf2.goal j).trans (hf1.goal j),
      fun j => (hf2.live j).trans (hf1.live j), hf2.checkpoints.trans hf1.checkpoints,
      hf2.solving.trans hf1.solving⟩

variable {j : Nat}

omit [LinearOrder α] in
theorem Work.queue (h : Work U k c c') (hj : j ∈ c'.queue) :
    j ∈ c.queue ∨ (c.constraints j).live = true := by
  rcases h with h | ⟨c1, h1, h2⟩
  · exact Steps.queue h hj
  · rcases Steps.queue h2 hj with hj | hj
    · exact Steps.queue h1 hj
    · exact .inr ((Steps.sameFrame h1).live j ▸ hj)

omit [LinearOrder α] in
theorem Work.state_eq (h : Work U k c c') (hj : j ≠ k) :
    (c'.constraints j).state = (c.constraints j).state := by
  rcases h with h | ⟨c1, h1, h2⟩
  · exact Steps.state_eq h hj
  · have hfirst := Steps.state_eq h1 hj
    exact (Steps.state_eq h2 hj).trans hfirst

omit [LinearOrder α] in
/-- The fresh variable of an equality is listed, and there. -/
theorem Work.varList (h : Work U k c c') (hv : ∀ v ∈ c.varList, v < c.nvars) :
    ∀ v ∈ c'.varList, v < c'.nvars := by
  have hsteps : ∀ {c c' : Ctx α}, Steps U True k c c' → (∀ v ∈ c.varList, v < c.nvars) →
      ∀ v ∈ c'.varList, v < c'.nvars := by
    intro c c' h hv v hmem
    rw [(Steps.sameFrame h).varList] at hmem
    exact (hv v hmem).trans_le (Steps.le h).nvars
  rcases h with h | ⟨c1, h1, h2⟩
  · exact hsteps h hv
  · refine hsteps h2 fun v hmem => ?_
    rcases mem_cons.1 hmem with rfl | hmem
    · exact Nat.lt_succ_self _
    · exact (hsteps h1 hv v hmem).trans (Nat.lt_succ_self _)

end Ctx

end Fx89
