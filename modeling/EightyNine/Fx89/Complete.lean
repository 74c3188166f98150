import EightyNine.Fx89.Sound

/-!
# What is satisfied stays satisfied

A constraint is marked satisfied when the store implies it: every valuation that
agrees with the store the constraint is processed into, in whatever row algebra,
satisfies its goal (`process_settles`).  Stores only grow, so this stays true.
-/

namespace Fx89

open Library

variable {α : Type} [LinearOrder α]

/-- Every valuation that agrees with the store satisfies the goal. -/
def Store.Implies (S : Store α) (g : Goal α) : Prop :=
  ∀ (X : Type) (A : RowAlgebra α X) (V : Nat → X), Agrees A V S → Sat A V g

variable {S : Store α} {g : Goal α}

theorem Store.Implies.mono {T : Store α} (h : S.Implies g) (hle : S.Le T) :
    T.Implies g := fun X A V hV => h X A V (hV.mono hle)

namespace Ctx

variable {X : Type} {A : RowAlgebra α X} {V : Nat → X} {c c' : Ctx α} {root k : Nat} {a : α}
  {row : Row α}

/-- The constraint is satisfied, with its goal implied, or it is pending. -/
def Settles (k : Nat) (g : Goal α) (c : Ctx α) : Prop :=
  (c.constraints k).state = .pending ∨
    ((c.constraints k).state = .satisfied ∧ c.store.Implies g)

omit [LinearOrder α] in
theorem state_setState (s : State) : ((c.setState k s).constraints k).state = s := by
  simp [setState, setConstraint]

theorem settles_satisfy (h : c.store.Implies g) : Settles k g (c.setState k .satisfied) :=
  .inr ⟨state_setState _, h⟩

/-! ## Equality -/

/-- The binding a successful `bind_row` sets. -/
theorem bindRow_binding (hb : c.Bindable root row) (hok : (bindRow root row k c).1 = .ok) :
    (bindRow root row k c).2.store.binding root = some row := by
  have hU := c.store.within_true
  rcases bindRow_cases (k := k) hb hU with ⟨h, _⟩ | ⟨c', _, heq, _⟩
  · exact absurd hok h
  · rw [heq, store_setBinding]
    exact if_pos rfl

variable {na nb : Row α}

theorem diffAtoms_subset (h : diffAtoms na nb = []) :
    na.head.toFinset ⊆ nb.head.toFinset := by
  rw [← Finset.sdiff_eq_empty_iff_subset, ← toFinset_diffAtoms, h]
  rfl

omit [LinearOrder α] in
theorem eqHeads_ok {larr rarr : List α} (h : (eqHeads k larr rarr c).1 = .ok) :
    larr = [] ∧ rarr = [] ∧ eqHeads k larr rarr c = satisfy k c := by
  unfold eqHeads failEq at h ⊢
  split_ifs at h ⊢ with hl hr
  exact ⟨not_not.1 hl, not_not.1 hr, rfl⟩

/-- Rows on which `equal_rows` succeeds are equal from then on. -/
def EqualFrom (na nb : Row α) (S : Store α) : Prop :=
  ∀ (X : Type) (A : RowAlgebra α X) (V : Nat → X), Agrees A V S →
    rowValue A V na = rowValue A V nb

theorem EqualFrom.symm (h : EqualFrom na nb S) :
    EqualFrom nb na S := fun X A V hV => (h X A V hV).symm

theorem equalFrom_heads (ht : na.tail = nb.tail)
    (hl : diffAtoms na nb = []) (hr : diffAtoms nb na = []) : EqualFrom na nb S := by
  intro X A V _
  have hF : na.head.toFinset = nb.head.toFinset :=
    (diffAtoms_subset hl).antisymm (diffAtoms_subset hr)
  unfold rowValue
  rw [ht, hF]

variable {o : Outcome α}

omit [LinearOrder α] in
theorem andThen_satisfy_ok (h : (o.andThen (satisfy k)).1 = .ok) :
    o.1 = .ok ∧ (o.andThen (satisfy k)).2 = o.2.setState k .satisfied := by
  obtain ⟨ho, heq⟩ := andThen_status h
  exact ⟨ho, by rw [heq]; rfl⟩

/-- An open row bound to what it lacks of a closed one equals the closed one. -/
theorem eqOneClosed_ok {t : Nat} (hb : c.Open True nb) (hta : na.tail = none)
    (htb : nb.tail = some t)
    (hok : (eqOneClosed k t (diffAtoms na nb) (diffAtoms nb na) c).1 = .ok) :
    ∃ d, (eqOneClosed k t (diffAtoms na nb) (diffAtoms nb na) c).2 = setState d k .satisfied ∧
      EqualFrom nb na d.store := by
  unfold eqOneClosed failEq at hok ⊢
  split_ifs at hok ⊢ with hex
  obtain ⟨hbok, heq⟩ := andThen_satisfy_ok hok
  refine ⟨_, heq, fun X A V hV => ?_⟩
  have hsub := diffAtoms_subset (not_not.1 hex)
  have hbind := hV.binding (bindRow_binding
    ⟨(hb t htb).1, (hb t htb).2 trivial, fun u hu => absurd hu (by simp)⟩ hbok)
  rw [rowValue_make] at hbind
  rw [rowValue_open htb, rowValue_closed hta, hbind]
  simp only [A.adjoin_only, toFinset_diffAtoms, Finset.union_sdiff_of_subset hsub]

/-- Two open rows whose tails share what both lack are equal. -/
theorem bindOpenShared_ok {t1 t2 : Nat} (ha : c.Open True na)
    (hb : c.Open True nb) (hne : t1 ≠ t2) (hta : na.tail = some t1) (htb : nb.tail = some t2)
    (hok : (bindOpenShared k t1 (diffAtoms nb na) t2 (diffAtoms na nb) c).1 = .ok) :
    ∃ d, (bindOpenShared k t1 (diffAtoms nb na) t2 (diffAtoms na nb) c).2 =
        setState d k .satisfied ∧ EqualFrom na nb d.store := by
  have hU := c.store.within_true
  obtain ⟨hlt1, hunb1⟩ := ha t1 hta
  obtain ⟨hlt2, hunb2⟩ := hb t2 htb
  have hopen : bindOpenShared k t1 (diffAtoms nb na) t2 (diffAtoms na nb) c =
      Outcome.andThen (bindRow t1 (rowMake (diffAtoms nb na) (some c.nvars)) k c.varNew.2)
        fun c' => Outcome.andThen
          (bindRow t2 (rowMake (diffAtoms na nb) (some c.nvars)) k c') (satisfy k) := rfl
  rw [hopen] at hok ⊢
  have hb1 := bindable_varNew hlt1 (hunb1 trivial) (diffAtoms nb na)
  obtain ⟨hok1, heq1⟩ := andThen_status hok
  rw [heq1] at hok ⊢
  have hb2 : (bindRow t1 (rowMake (diffAtoms nb na) (some c.nvars)) k c.varNew.2).2.Bindable t2
      (rowMake (diffAtoms na nb) (some c.nvars)) :=
    bindable_second hne hlt1 (hunb1 trivial) hlt2 (hunb2 trivial) hU hok1
  obtain ⟨hok2, heq2⟩ := andThen_satisfy_ok hok
  refine ⟨_, heq2, fun X A V hV => ?_⟩
  have hbind1 := bindRow_binding hb1 hok1
  have hbind2 := bindRow_binding hb2 hok2
  have hU1 := (bindRow t1 (rowMake (diffAtoms nb na) (some c.nvars)) k c.varNew.2).2.store.within_true
  have hle := (bindRow_steps (k := k) hb2 hU1 fun _ _ => trivial).le
  have hV1 := hV.binding (hle.binding hbind1)
  have hV2 := hV.binding hbind2
  rw [rowValue_make] at hV1 hV2
  rw [rowValue_open hta, rowValue_open htb, hV1, hV2]
  simp only [A.adjoin_adjoin, toFinset_diffAtoms, Finset.union_sdiff_self_eq_union]
  rw [Finset.union_comm]

theorem equalRows_ok (ha : c.Open True na) (hb : c.Open True nb)
    (hok : (equalRows k na nb c).1 = .ok) :
    ∃ d, (equalRows k na nb c).2 = setState d k .satisfied ∧ EqualFrom na nb d.store := by
  unfold equalRows at hok ⊢
  cases hta : na.tail with
  | none =>
    cases htb : nb.tail with
    | none =>
      simp only [hta, htb] at hok ⊢
      obtain ⟨hl, hr, heq⟩ := eqHeads_ok hok
      exact ⟨c, by rw [heq]; rfl, equalFrom_heads (hta.trans htb.symm) hl hr⟩
    | some t2 =>
      simp only [hta, htb] at hok ⊢
      obtain ⟨d, heq, h⟩ := eqOneClosed_ok hb hta htb hok
      exact ⟨d, heq, h.symm⟩
  | some t1 =>
    cases htb : nb.tail with
    | none =>
      simp only [hta, htb] at hok ⊢
      exact eqOneClosed_ok ha htb hta hok
    | some t2 =>
      simp only [hta, htb] at hok ⊢
      split_ifs at hok ⊢ with ht
      · obtain ⟨hl, hr, heq⟩ := eqHeads_ok hok
        exact ⟨c, by rw [heq]; rfl, equalFrom_heads (hta.trans (ht ▸ htb.symm)) hl hr⟩
      · exact bindOpenShared_ok ha hb ht hta htb hok

/-! ## The other constraints -/

omit [LinearOrder α] in
theorem orFail_ok (h : (orFail k o).1 = .ok) : o.1 = .ok ∧ orFail k o = o := by
  unfold orFail at h ⊢
  split_ifs at h ⊢ with ho
  · exact ⟨h, rfl⟩
  · exact absurd h ho

omit [LinearOrder α] in
theorem fact_then_satisfy_ok (h : (Outcome.andThen (orFail k o) (satisfy k)).1 = .ok) :
    o.1 = .ok ∧ (Outcome.andThen (orFail k o) (satisfy k)).2 = o.2.setState k .satisfied := by
  obtain ⟨ho, heq⟩ := andThen_satisfy_ok h
  obtain ⟨hok, hf⟩ := orFail_ok ho
  exact ⟨hok, by rw [heq, hf]⟩

variable {b : Row α}

/-- What a successful `varFact` leaves known of a normal form holds of the row. -/
theorem holds_of_varFact {v : Nat} {s : Side} (hS : c.store.Ordered)
    (ht : (c.normalize b).tail = some v) (hmem : a ∉ (c.normalize b).head)
    (hok : (varFact s v a c).1 = .ok) (hlt : v < c.nvars)
    (hV : Agrees A V (varFact s v a c).2.store) : Holds A s a (rowValue A V b) := by
  have htell : Tells (fun _ => True) True 0 c (varFact s v a c).2 :=
    varFact_tells trivial hlt fun _ => normalize_tail_unbound hS ht
  rw [← (hV.mono htell.1.le).normalize hS b]
  exact (holds_tail ht hmem).2 (hV.facts (varFact_ok hok))

theorem processMember_settles (hS : c.store.Ordered) (hb : b.Scoped c.nvars)
    (hok : (processMember k a b c).1 = .ok) :
    Settles k (.member a b) (processMember k a b c).2 := by
  have ho := open_normalize hS hb
  unfold processMember at hok ⊢
  dsimp only at hok ⊢
  split_ifs at hok ⊢ with hmem
  · refine settles_satisfy fun X A V hV => ?_
    change A.has a (rowValue A V b)
    rw [← Agrees.normalize hV hS b]
    exact has_of_mem hmem
  · cases ht : (c.normalize b).tail with
    | none => simp [ht] at hok
    | some v =>
      simp only [ht] at hok ⊢
      obtain ⟨hok', heq⟩ := fact_then_satisfy_ok hok
      rw [heq]
      refine settles_satisfy fun X A V hV => ?_
      exact holds_of_varFact (s := .required) hS ht hmem hok' (ho v ht).1 hV

theorem processLacks_settles (hS : c.store.Ordered) (hb : b.Scoped c.nvars)
    (hok : (processLacks k a b c).1 = .ok) :
    Settles k (.lacks a b) (processLacks k a b c).2 := by
  have ho := open_normalize hS hb
  unfold processLacks at hok ⊢
  dsimp only at hok ⊢
  split_ifs at hok ⊢ with hmem
  cases ht : (c.normalize b).tail with
  | none =>
    simp only [ht] at hok ⊢
    refine settles_satisfy fun X A V hV => ?_
    change A.lacks a (rowValue A V b)
    rw [← Agrees.normalize hV hS b, rowValue_closed ht]
    exact A.lacks_only.2 fun hm => hmem (List.mem_toFinset.1 hm)
  | some v =>
    simp only [ht] at hok ⊢
    obtain ⟨hok', heq⟩ := fact_then_satisfy_ok hok
    rw [heq]
    refine settles_satisfy fun X A V hV => ?_
    exact holds_of_varFact (s := .forbidden) hS ht hmem hok' (ho v ht).1 hV

theorem requireRhs_knows (hok : (requireRhs k row a c).1 = .ok) :
    (requireRhs k row a c).2.store.Knows row a .required := by
  unfold requireRhs at hok ⊢
  split_ifs at hok ⊢ with hmem
  · exact .inl hmem
  · obtain ⟨hok', heq⟩ := orFail_ok hok
    rw [heq]
    exact factOnRow_knows (s := .required) hok'

/-- Two closed rows pass `process_subset` only if one is a subset of the other. -/
theorem processSubset_settles {a : Row α} (hS : c.store.Ordered) (ha : a.Scoped c.nvars)
    (hb : b.Scoped c.nvars) (hok : (processSubset k a b c).1 = .ok) :
    Settles k (.subset a b) (processSubset k a b c).2 := by
  have hU := c.store.within_true
  have htell := processSubset_tells (k := k) hS ha hb hU fun _ _ => trivial
  have hob := open_normalize hS hb
  have hfun : processSubset k a b c =
      Outcome.andThen (forAll (c.normalize a).head (requireRhs k (c.normalize b)) c) fun c1 =>
        Outcome.andThen
          (forAll (c1.tailFacts (c.normalize a) .required) (requireRhs k (c.normalize b)) c1) fun c2 =>
          Outcome.andThen
            (forAll (c2.tailFacts (c.normalize b) .forbidden)
              (forbidIfAbsent k (c.normalize a) (c.normalize b)) c2) fun c3 =>
            if (c.normalize a).tail = none ∧ (c.normalize b).tail = none then satisfy k c3
            else (.ok, c3.setState k .pending) := rfl
  have hhead : (forAll (c.normalize a).head (requireRhs k (c.normalize b)) c).1 = .ok :=
    (andThen_status (hfun ▸ hok)).1
  by_cases ht : (c.normalize a).tail = none ∧ (c.normalize b).tail = none
  · have hknows : ∀ x ∈ (c.normalize a).head, x ∈ (c.normalize b).head := by
      intro x hx
      have hdone := forAll_done (P := Tells (fun _ => True) True k c)
        (Q := fun x c' => c'.store.Knows (c.normalize b) x .required)
        (fun x _ c' hc => hc.trans (requireRhs_tells trivial (hob.tells hc)))
        (fun x _ c' _ hok => requireRhs_knows hok)
        (fun x y _ c' hc hx =>
          hx.mono (requireRhs_tells (U := fun _ => True) trivial (hob.tells hc)).1.le)
        .refl hhead x hx
      rcases hdone with h | ⟨v, hv, _⟩
      · exact h
      · rw [ht.2] at hv
        exact absurd hv (by simp)
    have hsat : c.store.Implies (.subset a b) := by
      intro X A V hV
      have hva := Agrees.normalize hV hS a
      have hvb := Agrees.normalize hV hS b
      intro x
      rw [← hva, ← hvb, rowValue_closed ht.1, rowValue_closed ht.2, A.has_only, A.has_only,
        A.lacks_only, A.lacks_only]
      simp only [List.mem_toFinset]
      exact ⟨hknows x, fun hn hx => hn (hknows x hx)⟩
    obtain ⟨_, h1⟩ := andThen_status (hfun ▸ hok)
    rw [hfun, h1] at hok ⊢
    obtain ⟨_, h2⟩ := andThen_status hok
    rw [h2] at hok ⊢
    obtain ⟨_, h3⟩ := andThen_status hok
    rw [hfun, h1, h2, h3, if_pos ht] at htell
    rw [h3, if_pos ht]
    exact .inr ⟨state_setState _, hsat.mono htell.1.le⟩
  · obtain ⟨_, h1⟩ := andThen_status (hfun ▸ hok)
    rw [hfun, h1] at hok ⊢
    obtain ⟨_, h2⟩ := andThen_status hok
    rw [h2] at hok ⊢
    obtain ⟨_, h3⟩ := andThen_status hok
    rw [h3, if_neg ht]
    exact .inl (state_setState _)

variable {l r : Row α}

theorem sat_join_closed {o : Row α} {F G : Finset α} (ho : rowValue A V o = A.only (F ∪ G))
    (hl : rowValue A V l = A.only F) (hr : rowValue A V r = A.only G) :
    Sat A V (.join o l r) := by
  refine ⟨fun a => ?_, fun F' G' hF hG => ?_⟩
  · rw [ho, hl, hr]
    constructor <;> simp only [A.has_only, A.lacks_only, Finset.mem_union] <;> tauto
  · rw [ho, A.only_inj (hl.symm.trans hF), A.only_inj (hr.symm.trans hG)]

theorem processJoin_settles {o : Row α} (hS : c.store.Ordered) (ho : o.Scoped c.nvars)
    (hok : (processJoin k o l r c).1 = .ok) :
    Settles k (.join o l r) (processJoin k o l r c).2 := by
  have hopen := open_normalize hS ho
  unfold processJoin joinClosed at hok ⊢
  dsimp only at hok ⊢
  split_ifs at hok ⊢ with ht
  · obtain ⟨d, heq, heqv⟩ := equalRows_ok hopen (fun _ hu => by simp at hu) hok
    have hU := c.store.within_true
    have hle : c.store.Le d.store := by
      rcases equalRows_steps (k := k) hopen
        (open_rowMake (c.joinCollect (c.joinCollect [] (c.normalize l)) (c.normalize r)))
        hU (fun _ _ => trivial) fun _ _ => trivial with h | ⟨⟨_, h⟩, _⟩
      · have hle := Steps.le h
        rw [heq] at hle
        exact hle
      · exact absurd h (by simp)
    rw [heq]
    refine settles_satisfy fun X A V hV => ?_
    have hV0 := Agrees.mono hV hle
    have hvo := heqv X A V hV
    rw [rowValue_joinCollect ht.1 ht.2, hV0.normalize hS o] at hvo
    exact sat_join_closed hvo (hV0.normalize hS l ▸ rowValue_closed ht.1)
      (hV0.normalize hS r ▸ rowValue_closed ht.2)
  · unfold joinResidual at hok ⊢
    obtain ⟨_, h⟩ := andThen_status hok
    rw [h]
    exact .inl (state_setState _)

/-- A constraint processed with success is pending, or its goal is implied. -/
theorem process_settles (hS : c.store.Ordered) (hg : g.Scoped c.nvars)
    (hok : (process k g c).1 = .ok) : Settles k g (process k g c).2 := by
  cases g with
  | equal a b =>
    have ha := open_normalize hS (hg a (by simp [Goal.operands]))
    have hb := open_normalize hS (hg b (by simp [Goal.operands]))
    obtain ⟨d, heq, heqv⟩ := equalRows_ok ha hb hok
    have hU := c.store.within_true
    have hle : c.store.Le (equalRows k (c.normalize a) (c.normalize b) c).2.store := by
      rcases equalRows_steps (k := k) ha hb hU (fun _ _ => trivial) fun _ _ => trivial with h | ⟨_, h⟩
      · exact Steps.le h
      · exact (le_varNew hS).trans (Steps.le h)
    rw [heq] at hle
    change Settles k (.equal a b) (equalRows k (c.normalize a) (c.normalize b) c).2
    rw [heq]
    refine settles_satisfy fun X A V hV => ?_
    have hV0 : Agrees A V c.store := Agrees.mono hV hle
    change rowValue A V a = rowValue A V b
    rw [← hV0.normalize hS a, ← hV0.normalize hS b]
    exact heqv X A V hV
  | subset a b =>
    exact processSubset_settles hS (hg a (by simp [Goal.operands]))
      (hg b (by simp [Goal.operands])) hok
  | member x b => exact processMember_settles hS (hg b (by simp [Goal.operands])) hok
  | lacks x b => exact processLacks_settles hS (hg b (by simp [Goal.operands])) hok
  | join o l r => exact processJoin_settles hS (hg o (by simp [Goal.operands])) hok

end Ctx

end Fx89
