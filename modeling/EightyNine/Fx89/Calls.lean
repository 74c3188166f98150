import EightyNine.Fx89.Scheme
import EightyNine.Fx89.Trail

/-!
# What the calls of the host keep

Constructors of rows forbid atoms on tails, and the union makes a fresh variable and
posts a join.  None of them binds a variable.

What is kept of a context (`I`) and of the rows handed out (`G`) depends on what is
to be proved; a `RowClass` says what the calls need of it, and `row_hands` gives it for
all of them.  A row opened on a given tail is the one case that is left to the class.
-/

namespace Fx89

open Option

variable {α : Type} [LinearOrder α]

namespace Ctx

variable {c c' c'' : Ctx α} {v k : Nat} {a : α} {row : Row α}

/-! ## Constraints stay as they are -/

section Constraints

variable (c)

omit [LinearOrder α]

@[simp] theorem constraints_solveNotify (v : Nat) :
    (c.solveNotify v).constraints = c.constraints := by
  obtain ⟨queue, h⟩ := c.solveNotify_eq v
  rw [h]

@[simp] theorem constraints_trailAppend (rec : TrailRec α) :
    (c.trailAppend rec).constraints = c.constraints := by
  obtain ⟨trail, h⟩ := c.trailAppend_eq rec
  rw [h]

@[simp] theorem constraints_recordConflict (kind : ConflictKind) (p q : Option Nat) :
    (c.recordConflict kind p q).constraints = c.constraints :=
  c.constraints_trailAppend _

@[simp] theorem constraints_pushFact (s : Side) (v : Nat) (a : α) :
    (c.pushFact s v a).constraints = c.constraints := by
  rw [pushFact, constraints_solveNotify, constraints_trailAppend]
  rfl

@[simp] theorem constraints_setBinding (v : Nat) (b : Row α) :
    (c.setBinding v b).constraints = c.constraints := by
  rw [setBinding, constraints_solveNotify, setVar, constraints_trailAppend]

end Constraints

@[simp] theorem constraints_varFact {s : Side} : (varFact s v a c).2.constraints = c.constraints := by
  rcases varFact_cases s v a c with ⟨_, h⟩ | ⟨_, _, h⟩ | ⟨_, _, h⟩
  · rw [h]
  · rw [h, constraints_recordConflict]
  · rw [h, constraints_pushFact]

/-! ## Facts put outside the solver -/

/-- Facts put on variables, and nothing else. -/
structure Quiet (c c' : Ctx α) : Prop where
  tells : Tells (fun _ => True) False 0 c c'
  constraints : c'.constraints = c.constraints

/-- Only forbidden ones. -/
structure Forbids (c c' : Ctx α) : Prop extends Quiet c c' where
  required : ∀ v, c'.store.facts v .required = c.store.facts v .required

omit [LinearOrder α] in
theorem Quiet.refl : Quiet c c := ⟨.refl, rfl⟩

omit [LinearOrder α] in
theorem Quiet.trans (h : Quiet c c') (h' : Quiet c' c'') : Quiet c c'' :=
  ⟨h.tells.trans h'.tells, h'.constraints.trans h.constraints⟩

omit [LinearOrder α] in
theorem Forbids.refl : Forbids c c := ⟨.refl, fun _ => rfl⟩

omit [LinearOrder α] in
theorem Forbids.trans (h : Forbids c c') (h' : Forbids c' c'') : Forbids c c'' :=
  ⟨h.toQuiet.trans h'.toQuiet, fun v => (h'.required v).trans (h.required v)⟩

theorem varFact_quiet {s : Side} (hv : v < c.nvars) : Quiet c (varFact s v a c).2 :=
  ⟨varFact_tells trivial hv fun h => h.elim, constraints_varFact⟩

theorem varForbid_forbids (hv : v < c.nvars) : Forbids c (varForbid v a c).2 := by
  refine ⟨varFact_quiet hv, fun w => ?_⟩
  unfold varForbid
  rcases varFact_cases .forbidden v a c with ⟨_, h⟩ | ⟨_, _, h⟩ | ⟨_, _, h⟩
  · rw [h]
  · rw [h, store_recordConflict]
  · rw [h, store_pushFact]
    exact if_neg fun h => by simp at h

theorem forbidHeadFromTail_forbids (hr : row.Scoped c.nvars) :
    Forbids c (c.forbidHeadFromTail row).2 ∧ ((c.forbidHeadFromTail row).1 = .ok →
      ∀ v, row.tail = some v → ∀ a ∈ row.head,
        a ∈ (c.forbidHeadFromTail row).2.store.facts v .forbidden) := by
  unfold forbidHeadFromTail
  cases ht : row.tail with
  | none => exact ⟨.refl, fun _ v hv => by simp at hv⟩
  | some root =>
    have hroot := hr root ht
    have hone : ∀ (a : α) (c' : Ctx α), Forbids c c' → Forbids c' (c'.varForbid root a).2 :=
      fun a c' h => varForbid_forbids (h.tells.2.2 ▸ hroot)
    have hloop : ∀ a ∈ row.head, ∀ c', Forbids c c' → Forbids c (c'.varForbid root a).2 :=
      fun a _ c' h => h.trans (hone a c' h)
    refine ⟨forAll_inv (P := Forbids c) hloop .refl, fun hok v hv a ha => ?_⟩
    obtain rfl := some.inj hv
    refine forAll_done (P := Forbids c)
      (Q := fun a c' => a ∈ c'.store.facts root .forbidden) hloop ?_ ?_ .refl hok a ha
    · exact fun a _ c' _ hok => varFact_ok hok
    · exact fun x a _ c' h hx => (Steps.le (hone a c' h).tells.1).facts hx

/-! ## Posting -/

theorem constraintPush_eq (g : Goal α) : ∃ vars, c.constraintPush g =
    { c with
      vars := vars
      constraints := Function.update c.constraints c.nconstraints { goal := g }
      nconstraints := c.nconstraints + 1 } :=
  watchRegister_eq { c.setConstraint c.nconstraints { goal := g } with
    nconstraints := c.nconstraints + 1 } c.nconstraints

theorem store_constraintPush (g : Goal α) : (c.constraintPush g).store = c.store :=
  store_watchRegister _ _

/-! ## What a class of contexts and rows must have -/

/-- A kind of contexts and of rows in them that the calls keep. -/
structure RowClass (I : Ctx α → Prop) (G : Ctx α → Row α → Prop) : Prop where
  ordered : ∀ {c}, I c → c.store.Ordered
  inScope : ∀ {c r}, G c r → r.Scoped c.nvars
  closed : ∀ {c r}, I c → r.tail = none → G c r
  var : ∀ {c v}, I c → v < c.nvars → G c (rowMake [] (some v))
  opened : ∀ {c r v}, I c → r.tail = some v → v < c.nvars → c.store.binding v = none →
    (∀ a ∈ r.head, a ∈ c.store.facts v .forbidden) → G c r
  sub : ∀ {c r r'}, G c r → r'.tail = r.tail → (∀ a ∈ r'.head, a ∈ r.head) → G c r'
  normal : ∀ {c r}, I c → G c r → G c (c.normalize r)
  binding : ∀ {c v b}, I c → c.store.binding v = some b → G c (c.normalize b)
  quiet : ∀ {c c'}, I c → Quiet c c' → I c' ∧ ∀ r, G c r → G c' r
  grow : ∀ {c}, I c → I c.varNew.2 ∧ ∀ r, G c r → G c.varNew.2 r
  post : ∀ {c g}, I c → (∀ r ∈ g.operands, G c r) →
    I (c.constraintPush g) ∧ ∀ r, G c r → G (c.constraintPush g) r

/-- What a call keeps, and what it leaves as it was. -/
structure Makes (I : Ctx α → Prop) (G : Ctx α → Row α → Prop) (c c' : Ctx α) : Prop where
  inv : I c'
  keeps : ∀ r, G c r → G c' r
  le : c.store.Le c'.store
  binding : ∀ v, c'.store.binding v = c.store.binding v
  traced : Traced c c'
  nconstraints : c.nconstraints ≤ c'.nconstraints
  constraints : ∀ k, k < c.nconstraints → c'.constraints k = c.constraints k

/-- Nothing required is new, either. -/
structure Constructs (I : Ctx α → Prop) (G : Ctx α → Row α → Prop) (c c' : Ctx α) : Prop
    extends Makes I G c c' where
  required : ∀ v, c'.store.facts v .required = c.store.facts v .required

/-- A call that hands out a row. -/
def Hands (I : Ctx α → Prop) (G : Ctx α → Row α → Prop) (c : Ctx α) (o : RowOutcome α) : Prop :=
  Constructs I G c o.2.2 ∧ ∀ r ∈ o.2.1, G o.2.2 r

section Class

variable {I : Ctx α → Prop} {G : Ctx α → Row α → Prop}

omit [LinearOrder α] in
theorem Makes.refl (h : I c) : Makes I G c c :=
  ⟨h, fun _ => id, .refl _, fun _ => rfl, .refl, le_rfl, fun _ _ => rfl⟩

omit [LinearOrder α] in
theorem Makes.trans (h : Makes I G c c') (h' : Makes I G c' c'') : Makes I G c c'' where
  inv := h'.inv
  keeps r hr := h'.keeps r (h.keeps r hr)
  le := h.le.trans h'.le
  binding v := (h'.binding v).trans (h.binding v)
  traced := h.traced.trans h'.traced
  nconstraints := h.nconstraints.trans h'.nconstraints
  constraints k hk := (h'.constraints k (hk.trans_le h.nconstraints)).trans (h.constraints k hk)

omit [LinearOrder α] in
theorem Constructs.refl (h : I c) : Constructs I G c c := ⟨.refl h, fun _ => rfl⟩

omit [LinearOrder α] in
theorem Constructs.trans (h : Constructs I G c c') (h' : Constructs I G c' c'') :
    Constructs I G c c'' :=
  ⟨h.toMakes.trans h'.toMakes, fun v => (h'.required v).trans (h.required v)⟩

theorem RowClass.makes_quiet (K : RowClass I G) (h : I c) (hq : Quiet c c') : Makes I G c c' where
  inv := (K.quiet h hq).1
  keeps := (K.quiet h hq).2
  le := Steps.le hq.tells.1
  binding v := congrFun hq.tells.2.1 v
  traced := Steps.traced hq.tells.1
  nconstraints := (Steps.sameFrame hq.tells.1).nconstraints.ge
  constraints k _ := by rw [hq.constraints]

theorem RowClass.makes_varNew (K : RowClass I G) (h : I c) : Constructs I G c c.varNew.2 := by
  have hsame : c.varNew.2.store.Same c.store := by
    rw [store_varNew]
    exact Store.same_grow (K.ordered h)
  refine ⟨⟨(K.grow h).1, (K.grow h).2, le_varNew (K.ordered h), fun v => ?_,
    traced_varNew (K.ordered h), le_rfl, fun _ _ => rfl⟩, fun v => ?_⟩
  · rw [hsame.binding]
  · rw [hsame.facts]

theorem RowClass.makes_post (K : RowClass I G) {g : Goal α} (h : I c)
    (hg : ∀ r ∈ g.operands, G c r) : Constructs I G c (c.constraintPush g) := by
  have hst := store_constraintPush (c := c) g
  obtain ⟨vars, hw⟩ := constraintPush_eq (c := c) g
  refine ⟨⟨(K.post h hg).1, (K.post h hg).2, hst ▸ .refl _, fun v => by rw [hst], ?_, ?_, ?_⟩,
    fun v => by rw [hst]⟩
  · exact traced_of_store (by rw [hw]) (by rw [hw]) (hst ▸ .refl _)
  · rw [hw]
    exact Nat.le_succ _
  · intro k hk
    rw [hw]
    exact Function.update_of_ne hk.ne _ _

/-! ## Calls that hand out rows -/

omit [LinearOrder α] in
theorem hands_unchanged {o : RowOutcome α} (h : I c) (hc : o.2.2 = c)
    (hr : ∀ x ∈ o.2.1, G c x) : Hands I G c o := by
  obtain ⟨st, r, d⟩ := o
  obtain rfl : d = c := hc
  exact ⟨.refl h, hr⟩

omit [LinearOrder α] in
theorem hands_some (h : I c) (hr : G c row) : Hands I G c (.ok, some row, c) :=
  hands_unchanged h rfl fun _ hx => some.inj hx ▸ hr

/-- A row made with `forbid_head_from_tail` is handed out when its head could be
forbidden. -/
theorem RowClass.hands_forbidden (K : RowClass I G) (h : I c) (hr : row.Scoped c.nvars)
    (hG : ∀ c', Forbids c c' → (∀ v, row.tail = some v → ∀ a ∈ row.head,
      a ∈ c'.store.facts v .forbidden) → G c' row) : Hands I G c (c.forbidden row) := by
  obtain ⟨hf, hok⟩ := forbidHeadFromTail_forbids hr
  have hmakes := K.makes_quiet h hf.toQuiet
  unfold forbidden
  dsimp only
  split_ifs with hst
  · refine ⟨⟨hmakes, hf.required⟩, fun r hmem => ?_⟩
    obtain rfl : row = r := some.inj hmem
    exact hG _ hf (hok hst)
  · exact ⟨⟨hmakes, hf.required⟩, fun r hmem => absurd hmem (by simp)⟩

theorem RowClass.hands_open (K : RowClass I G) (h : I c) (hr : row.Scoped c.nvars)
    (hunb : ∀ v, row.tail = some v → c.store.binding v = none) :
    Hands I G c (c.forbidden row) := by
  refine K.hands_forbidden h hr fun c' hf hforb => ?_
  have hI' := (K.quiet h hf.toQuiet).1
  cases ht : row.tail with
  | none => exact K.closed hI' ht
  | some v =>
    refine K.opened hI' ht (hf.tells.2.2 ▸ hr v ht) ?_ (hforb v ht)
    rw [hf.tells.2.1]
    exact hunb v ht

theorem RowClass.rowRemove_hands (K : RowClass I G) (h : I c) (hr : G c row) :
    (rowRemove row a c).2.2 = c ∧ ∀ r ∈ (rowRemove row a c).2.1, G c r := by
  have hn := K.normal h hr
  unfold rowRemove
  dsimp only
  split_ifs
  · refine ⟨rfl, fun r hmem => ?_⟩
    obtain rfl := some.inj hmem
    exact K.sub hn rfl fun _ hx => List.mem_of_mem_erase (mem_rowMake.1 hx)
  · cases (c.normalize row).tail with
    | none =>
      refine ⟨rfl, fun r hmem => ?_⟩
      obtain rfl := some.inj hmem
      exact hn
    | some root =>
      dsimp only
      split_ifs
      · refine ⟨rfl, fun r hmem => ?_⟩
        obtain rfl := some.inj hmem
        exact hn
      · exact ⟨rfl, fun r hmem => absurd hmem (by simp)⟩

theorem RowClass.rowRemoveMany_hands (K : RowClass I G) (h : I c) (hr : G c row) (as : List α) :
    (rowRemoveMany row as c).2.2 = c ∧ ∀ r ∈ (rowRemoveMany row as c).2.1, G c r := by
  induction as generalizing row with
  | nil =>
    refine ⟨rfl, fun r hmem => ?_⟩
    obtain rfl := some.inj hmem
    exact hr
  | cons a as ih =>
    obtain ⟨hc, hrow⟩ := K.rowRemove_hands (a := a) h hr
    unfold rowRemoveMany
    split
    · rename_i cur d heq
      rw [heq] at hc hrow
      obtain rfl : d = c := hc
      exact ih (hrow cur rfl)
    · exact ⟨hc, hrow⟩

/-- The union of rows that are not both closed is a fresh variable with a join. -/
theorem RowClass.rowUnion_hands (K : RowClass I G) {a b : Row α} (h : I c) (ha : G c a)
    (hb : G c b) : Hands I G c (rowUnion a b c) := by
  unfold rowUnion
  dsimp only
  split_ifs
  · exact hands_some h hb
  · exact hands_some h ha
  · exact hands_some h (K.closed h rfl)
  · have hnew := K.makes_varNew h
    have ho : G c.varNew.2 (rowMake [] (some c.nvars)) :=
      K.var hnew.inv (Nat.lt_succ_self _)
    have hpost := K.makes_post (g := .join (rowMake [] (some c.nvars)) a b) hnew.inv (by
      simp only [Goal.operands, List.mem_cons, List.not_mem_nil, or_false, forall_eq_or_imp,
        forall_eq]
      exact ⟨ho, hnew.keeps a ha, hnew.keeps b hb⟩)
    refine ⟨hnew.trans hpost, fun r hmem => ?_⟩
    obtain rfl : rowMake [] (some c.nvars) = r := some.inj hmem
    exact hpost.keeps _ ho

/-- Every call that hands out a row, given rows handed out and variables that are
there. -/
theorem RowClass.row_hands (K : RowClass I G) {rc : RowCall α} (h : I c)
    (hrows : ∀ r ∈ rc.rows, G c r) (hvars : ∀ v ∈ rc.vars, v < c.nvars)
    (hopen : ∀ atoms tail c', rc = .openRow atoms tail → Forbids c c' →
      (∀ a ∈ atoms, a ∈ c'.store.facts tail .forbidden) → G c' (rowMake atoms (some tail))) :
    Hands I G c (rc.run c) := by
  cases rc with
  | empty | closed atoms => exact hands_some h (K.closed h rfl)
  | var v => exact hands_some h (K.var h (hvars v (by simp [RowCall.vars])))
  | openRow atoms tail =>
    refine K.hands_forbidden h (fun v hv => ?_) fun c' hf hforb => ?_
    · obtain rfl := some.inj hv
      exact hvars tail (by simp [RowCall.vars])
    · exact hopen atoms tail c' rfl hf fun a ha => hforb tail rfl a (mem_rowMake.2 ha)
  | extend base atom =>
    have hn := K.normal h (hrows base (by simp [RowCall.rows]))
    exact K.hands_open h (fun v hv => K.inScope hn v hv) fun v hv =>
      normalize_tail_unbound (K.ordered h) hv
  | normalize row =>
    have hn := K.normal h (hrows row (by simp [RowCall.rows]))
    exact K.hands_open h (K.inScope hn) fun v hv => normalize_tail_unbound (K.ordered h) hv
  | union a b =>
    exact K.rowUnion_hands h (hrows a (by simp [RowCall.rows])) (hrows b (by simp [RowCall.rows]))
  | remove row atom =>
    obtain ⟨hc, hr⟩ := K.rowRemove_hands (a := atom) h (hrows row (by simp [RowCall.rows]))
    exact hands_unchanged h hc hr
  | removeMany row atoms =>
    obtain ⟨hc, hr⟩ := K.rowRemoveMany_hands h (hrows row (by simp [RowCall.rows])) atoms
    exact hands_unchanged h hc hr
  | binding v =>
    change Hands I G c (varBinding v c)
    unfold varBinding
    cases hb : (c.vars v).binding with
    | none => exact hands_unchanged h rfl fun _ hx => absurd hx (by simp)
    | some b => exact hands_some h (K.binding h hb)

end Class

end Ctx

end Fx89
