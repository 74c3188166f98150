import EightyNine.Fx89.Calls
import EightyNine.Fx89.Complete

/-!
# Contexts between two calls

A context is *ready* when its rows are what the host was handed, the worklist has
live constraints only, and the store implies every constraint marked satisfied.
The solver keeps this however it ends (`solve_ready`): a constraint it fails on is
never marked satisfied.
-/

namespace Fx89

open Library List

variable {α : Type} [LinearOrder α]

/-- A row whose tail is there, and lacks the atoms of the head in every model. -/
def Store.Handed (S : Store α) (r : Row α) : Prop :=
  r.Scoped S.nvars ∧ ∀ (X : Type) (A : RowAlgebra α X) (V : Nat → X), Models A V S → Apart A V r

theorem Store.Handed.mono {S T : Store α} {r : Row α} (h : S.Handed r) (hle : S.Le T) :
    T.Handed r :=
  ⟨fun v hv => (h.1 v hv).trans_le hle.nvars, fun X A V hV => h.2 X A V (hV.mono hle)⟩

namespace Ctx

variable {c c' : Ctx α} {s : Side} {v k : Nat} {a : α} {row : Row α}

/-! ## What processing fails on -/

@[simp] theorem constraints_factOnRow :
    (factOnRow s row a c).2.constraints = c.constraints := by
  unfold factOnRow
  split_ifs
  · rfl
  · rfl
  · cases row.tail with
    | none => rfl
    | some v => exact constraints_varFact
  · cases row.tail with
    | none => rfl
    | some v => exact constraints_varFact

@[simp] theorem constraints_applyFact :
    (applyFact s row k a c).2.constraints = c.constraints := by
  unfold applyFact
  dsimp only
  split_ifs
  · rw [constraints_recordConflict, constraints_factOnRow]
  · exact constraints_factOnRow

@[simp] theorem constraints_bindRow {root : Nat} :
    (bindRow root row k c).2.constraints = c.constraints := by
  have hloop : ∀ (s : Side) (as : List α) (c' : Ctx α), c'.constraints = c.constraints →
      (forAll as (applyFact s row k) c').2.constraints = c.constraints := fun s as c' h =>
    forAll_inv (P := fun c' => c'.constraints = c.constraints)
      (fun _ _ _ h => constraints_applyFact.trans h) h
  unfold bindRow
  split_ifs
  · exact constraints_recordConflict ..
  · refine andThen_inv (P := fun c' => c'.constraints = c.constraints) (hloop _ _ c rfl) fun c1 h1 => ?_
    refine andThen_inv (P := fun c' => c'.constraints = c.constraints) (hloop _ _ c1 h1) fun c2 h2 => ?_
    exact (constraints_setBinding ..).trans h2

/-! ## What fails is not satisfied -/

/-- The constraint is not marked satisfied. -/
def Unsettled (k : Nat) (c : Ctx α) : Prop := (c.constraints k).state ≠ .satisfied

section Fails

variable {o : Outcome α} {f : Ctx α → Outcome α}

omit [LinearOrder α]

theorem unsettled_congr (h : c'.constraints = c.constraints) (hc : Unsettled k c) :
    Unsettled k c' := by
  unfold Unsettled
  rw [h]
  exact hc

theorem unsettled_failed : Unsettled k (c.setState k .failed) := by
  unfold Unsettled
  rw [state_setState]
  decide

theorem andThen_fails (h : (o.andThen f).1 ≠ .ok) (ho : Unsettled k o.2)
    (hf : o.1 = .ok → (f o.2).1 ≠ .ok → Unsettled k (f o.2).2) :
    Unsettled k (o.andThen f).2 := by
  by_cases hok : o.1 = .ok
  · rw [andThen_ok hok] at h ⊢
    exact hf hok h
  · rw [andThen_of_ne hok]
    exact ho

theorem satisfy_fails (h : (o.andThen (satisfy k)).1 ≠ .ok) (ho : Unsettled k o.2) :
    Unsettled k (o.andThen (satisfy k)).2 :=
  andThen_fails h ho fun _ hs => absurd rfl hs

theorem unsettled_orFail (h : Unsettled k o.2) : Unsettled k (orFail k o).2 := by
  unfold orFail
  split_ifs
  · exact h
  · exact unsettled_failed

theorem failEq_unsettled : Unsettled k (failEq k c).2 :=
  unsettled_congr (constraints_recordConflict ..) unsettled_failed

theorem eqHeads_fails {larr rarr : List α} (h : (eqHeads k larr rarr c).1 ≠ .ok) :
    Unsettled k (eqHeads k larr rarr c).2 := by
  unfold eqHeads at h ⊢
  split_ifs at h ⊢
  · exact failEq_unsettled
  · exact failEq_unsettled
  · exact absurd rfl h

end Fails

theorem eqOneClosed_fails {t : Nat} {as extra : List α} (hc : Unsettled k c)
    (h : (eqOneClosed k t as extra c).1 ≠ .ok) : Unsettled k (eqOneClosed k t as extra c).2 := by
  unfold eqOneClosed at h ⊢
  split_ifs at h ⊢
  · exact failEq_unsettled
  · exact satisfy_fails h (unsettled_congr constraints_bindRow hc)

theorem equalRows_fails {na nb : Row α} (hc : Unsettled k c)
    (h : (equalRows k na nb c).1 ≠ .ok) : Unsettled k (equalRows k na nb c).2 := by
  unfold equalRows at h ⊢
  cases hta : na.tail with
  | none =>
    cases htb : nb.tail with
    | none =>
      simp only [hta, htb] at h ⊢
      exact eqHeads_fails h
    | some t2 =>
      simp only [hta, htb] at h ⊢
      exact eqOneClosed_fails hc h
  | some t1 =>
    cases htb : nb.tail with
    | none =>
      simp only [hta, htb] at h ⊢
      exact eqOneClosed_fails hc h
    | some t2 =>
      simp only [hta, htb] at h ⊢
      split_ifs at h ⊢
      · exact eqHeads_fails h
      · have hz : Unsettled k c.varNew.2 := hc
        refine andThen_fails h (unsettled_congr constraints_bindRow hz) fun _ h => ?_
        refine satisfy_fails h (unsettled_congr constraints_bindRow ?_)
        exact unsettled_congr constraints_bindRow hz

theorem processSubset_fails {a b : Row α} (hc : Unsettled k c)
    (h : (processSubset k a b c).1 ≠ .ok) : Unsettled k (processSubset k a b c).2 := by
  have hreq : ∀ (as : List α) (c' : Ctx α), Unsettled k c' →
      Unsettled k (forAll as (requireRhs k (c.normalize b)) c').2 := by
    refine fun as c' h => forAll_inv (P := Unsettled k) (fun x _ c'' h => ?_) h
    unfold requireRhs
    split_ifs
    · exact h
    · exact unsettled_orFail (unsettled_congr constraints_factOnRow h)
  have hforb : ∀ (as : List α) (c' : Ctx α), Unsettled k c' →
      Unsettled k (forAll as (forbidIfAbsent k (c.normalize a) (c.normalize b)) c').2 := by
    refine fun as c' h => forAll_inv (P := Unsettled k) (fun x _ c'' h => ?_) h
    unfold forbidIfAbsent
    split_ifs
    · exact h
    · exact unsettled_orFail (unsettled_congr constraints_factOnRow h)
  unfold processSubset at h ⊢
  refine andThen_fails h (hreq _ c hc) fun _ h => ?_
  refine andThen_fails h (hreq _ _ (hreq _ c hc)) fun _ h => ?_
  refine andThen_fails h (hforb _ _ (hreq _ _ (hreq _ c hc))) fun _ h => ?_
  split_ifs at h ⊢
  · exact absurd rfl h
  · exact absurd rfl h

theorem joinResidual_fails {no nl nr : Row α} (hc : Unsettled k c)
    (h : (joinResidual k no nl nr c).1 ≠ .ok) : Unsettled k (joinResidual k no nl nr c).2 := by
  refine andThen_fails h (forAll_inv (P := Unsettled k) (fun x _ c' h => ?_) hc)
    fun _ h => absurd rfl h
  exact forAll_inv (P := Unsettled k)
    (fun p _ c'' h => unsettled_orFail (unsettled_congr constraints_factOnRow h)) h

theorem process_fails {g : Goal α} (hc : Unsettled k c) (h : (process k g c).1 ≠ .ok) :
    Unsettled k (process k g c).2 := by
  cases g with
  | equal a b => exact equalRows_fails hc h
  | subset a b => exact processSubset_fails hc h
  | member x b =>
    change Unsettled k (processMember k x b c).2
    change (processMember k x b c).1 ≠ .ok at h
    unfold processMember at h ⊢
    dsimp only at h ⊢
    split_ifs at h ⊢
    · exact absurd rfl h
    · cases ht : (c.normalize b).tail with
      | none => exact unsettled_failed
      | some v =>
        simp only [ht] at h
        exact satisfy_fails h (unsettled_orFail (unsettled_congr constraints_varFact hc))
  | lacks x b =>
    change Unsettled k (processLacks k x b c).2
    change (processLacks k x b c).1 ≠ .ok at h
    unfold processLacks at h ⊢
    dsimp only at h ⊢
    split_ifs at h ⊢
    · exact unsettled_failed
    · cases ht : (c.normalize b).tail with
      | none =>
        simp only [ht] at h
        exact absurd rfl h
      | some v =>
        simp only [ht] at h
        exact satisfy_fails h (unsettled_orFail (unsettled_congr constraints_varFact hc))
  | join o l r =>
    change Unsettled k (processJoin k o l r c).2
    change (processJoin k o l r c).1 ≠ .ok at h
    unfold processJoin at h ⊢
    dsimp only at h ⊢
    split_ifs at h ⊢
    · exact equalRows_fails hc h
    · exact joinResidual_fails hc h

/-! ## Fresh variables -/

/-- Every variable made on the way is the tail a variable is bound to. -/
def Shared (c c' : Ctx α) : Prop :=
  ∀ z, c.nvars ≤ z → z < c'.nvars → ∃ t b, c'.store.binding t = some b ∧ b.tail = some z

omit [LinearOrder α] in
theorem shared_of_nvars (h : c'.nvars = c.nvars) : Shared c c' :=
  fun _ hz hz' => absurd (hz.trans_lt hz') (h ▸ lt_irrefl _)

omit [LinearOrder α] in
theorem Shared.trans {c'' : Ctx α} (h : Shared c c') (h' : Shared c' c'')
    (hle : c'.store.Le c''.store) : Shared c c'' := by
  intro z hz hz'
  by_cases hlt : z < c'.nvars
  · obtain ⟨t, b, hb, ht⟩ := h z hz hlt
    exact ⟨t, b, hle.binding hb, ht⟩
  · exact h' z (not_lt.1 hlt) hz'

theorem bindOpenShared_shared {t1 t2 : Nat} {as bs : List α} (hne : t1 ≠ t2) (h1 : t1 < c.nvars)
    (h1' : c.store.binding t1 = none) (h2 : t2 < c.nvars) (h2' : c.store.binding t2 = none)
    (hok : (bindOpenShared k t1 as t2 bs c).1 = .ok) :
    Shared c (bindOpenShared k t1 as t2 bs c).2 := by
  have hU := c.store.within_true
  have hn : (bindOpenShared k t1 as t2 bs c).2.nvars = c.varNew.2.nvars :=
    Steps.nvars (bindOpenShared_steps hne h1 h1' h2 h2' hU (fun _ _ => trivial) fun _ _ => trivial)
  intro z hz hz'
  obtain rfl : c.nvars = z := by
    rw [hn] at hz'
    exact hz.antisymm (Nat.lt_succ_iff.1 hz')
  have hopen : bindOpenShared k t1 as t2 bs c =
      Outcome.andThen (bindRow t1 (rowMake as (some c.nvars)) k c.varNew.2)
        fun c' => Outcome.andThen (bindRow t2 (rowMake bs (some c.nvars)) k c') (satisfy k) := rfl
  rw [hopen] at hok ⊢
  obtain ⟨hok1, heq1⟩ := andThen_status hok
  rw [heq1] at hok ⊢
  obtain ⟨hok2, heq2⟩ := andThen_satisfy_ok hok
  rw [heq2]
  exact ⟨t2, rowMake bs (some c.nvars),
    bindRow_binding (bindable_second hne h1 h1' h2 h2' hU hok1) hok2, rfl⟩

/-- A fresh variable of a processed constraint is one an equality shares. -/
theorem process_shared {g : Goal α} (hS : c.store.Ordered) (hg : g.Scoped c.nvars)
    (hok : (process k g c).1 = .ok) : Shared c (process k g c).2 := by
  have hU := c.store.within_true
  rcases process_steps (k := k) hS hU
    ⟨fun _ _ _ _ => trivial, fun _ _ _ => trivial⟩ hg with h | ⟨⟨a, b, rfl⟩, -⟩
  · exact shared_of_nvars (Steps.nvars h)
  · have ha := open_normalize hS (hg a (by simp [Goal.operands]))
    have hb := open_normalize hS (hg b (by simp [Goal.operands]))
    change Shared c (equalRows k (c.normalize a) (c.normalize b) c).2
    change (equalRows k (c.normalize a) (c.normalize b) c).1 = .ok at hok
    unfold equalRows at hok ⊢
    cases hta : (c.normalize a).tail with
    | none =>
      cases htb : (c.normalize b).tail with
      | none => exact shared_of_nvars (eqHeads_tells (U := fun _ => True) (k := k) _ _).2.2
      | some t2 =>
        exact shared_of_nvars (Steps.nvars (eqOneClosed_steps (k := k) (hb t2 htb).1
          ((hb t2 htb).2 trivial) hU fun _ _ => trivial))
    | some t1 =>
      cases htb : (c.normalize b).tail with
      | none =>
        exact shared_of_nvars (Steps.nvars (eqOneClosed_steps (k := k) (ha t1 hta).1
          ((ha t1 hta).2 trivial) hU fun _ _ => trivial))
      | some t2 =>
        simp only [hta, htb] at hok
        dsimp only
        split_ifs at hok ⊢ with ht
        · exact shared_of_nvars (eqHeads_tells (U := fun _ => True) (k := k) _ _).2.2
        · exact bindOpenShared_shared ht (ha t1 hta).1 ((ha t1 hta).2 trivial) (hb t2 htb).1
            ((hb t2 htb).2 trivial) hok

/-! ## Ready contexts -/

/-- A context between two calls, or between two passes of the solver. -/
structure Ready (c : Ctx α) : Prop where
  ordered : c.store.Ordered
  consistent : c.store.Consistent
  vars : ∀ v ∈ c.varList, v < c.nvars
  listed : ∀ k, (c.constraints k).live = true → k < c.nconstraints
  rows : ∀ k, (c.constraints k).live = true → ∀ r ∈ (c.constraints k).goal.operands,
    c.store.Handed r
  settled : ∀ k, (c.constraints k).live = true → (c.constraints k).state = .satisfied →
    c.store.Implies (c.constraints k).goal
  queued : ∀ k ∈ c.queue, (c.constraints k).live = true

theorem ready_new : (ctxNew : Ctx α).Ready where
  ordered := ⟨fun h => by simp [store, ctxNew] at h, fun _ => rfl, fun {_ s} _ => by cases s <;> rfl⟩
  consistent v s a h := by cases s <;> simp [store, ctxNew, Var.facts] at h
  vars v h := by simp [ctxNew] at h
  listed k h := by simp [ctxNew] at h
  rows k h := by simp [ctxNew] at h
  settled k h := by simp [ctxNew] at h
  queued k h := by simp [ctxNew] at h

theorem Ready.inScope (h : c.Ready) (hk : (c.constraints k).live = true) :
    (c.constraints k).goal.Scoped c.nvars := fun r hr => (h.rows k hk r hr).1

theorem Ready.congr (h : c.Ready) (hs : c'.store = c.store) (hc : c'.constraints = c.constraints)
    (hv : c'.varList = c.varList) (hk : c'.nconstraints = c.nconstraints)
    (hq : ∀ k ∈ c'.queue, (c.constraints k).live = true) : c'.Ready := by
  have hn : c'.nvars = c.nvars := congrArg Store.nvars hs
  refine ⟨hs ▸ h.ordered, hs ▸ h.consistent, ?_, hc ▸ hk ▸ h.listed, ?_, ?_, hc ▸ hq⟩
  · rw [hv, hn]
    exact h.vars
  · rw [hc, hs]
    exact h.rows
  · rw [hc, hs]
    exact h.settled

/-- What a run of the solver leaves as it was. -/
structure Solved (c c' : Ctx α) : Prop where
  le : c.store.Le c'.store
  nconstraints : c'.nconstraints = c.nconstraints
  goal : ∀ k, (c'.constraints k).goal = (c.constraints k).goal
  live : ∀ k, (c'.constraints k).live = (c.constraints k).live
  checkpoints : c'.checkpoints = c.checkpoints

omit [LinearOrder α] in
theorem Solved.trans {c'' : Ctx α} (h : Solved c c') (h' : Solved c' c'') : Solved c c'' where
  le := h.le.trans h'.le
  nconstraints := h'.nconstraints.trans h.nconstraints
  goal k := (h'.goal k).trans (h.goal k)
  live k := (h'.live k).trans (h.live k)
  checkpoints := h'.checkpoints.trans h.checkpoints

/-- What a run of the solver that succeeds brings about. -/
structure Done (c c' : Ctx α) : Prop where
  failed : ∀ j, (c'.constraints j).state = .failed → (c.constraints j).state = .failed
  shared : Shared c c'

theorem solveOne_shared (h : c.Ready) (hk : (c.constraints k).live = true)
    (hok : (solveOne k c).1 = .ok) : Shared c (solveOne k c).2 := by
  unfold solveOne at hok ⊢
  split_ifs at hok ⊢
  · have hst : (c.trailAppend (.state k .pending)).store = c.store := c.store_trailAppend _
    have hn : (c.trailAppend (.state k .pending)).nvars = c.nvars := congrArg Store.nvars hst
    intro z hz
    exact process_shared (hst ▸ h.ordered) (hn ▸ h.inScope hk) hok z (hn ▸ hz)
  · exact shared_of_nvars rfl

/-- The work on a live constraint keeps the context ready; when it succeeds, no
constraint is marked failed. -/
theorem solveOne_ready (h : c.Ready) (hk : (c.constraints k).live = true) :
    (solveOne k c).2.Ready ∧ Solved c (solveOne k c).2 ∧
      ((solveOne k c).1 = .ok → Done c (solveOne k c).2) := by
  have hwork : Work (fun _ => True) k c (solveOne k c).2 :=
    solveOne_work h.ordered c.store.within_true
      ⟨fun _ _ _ _ => trivial, fun _ _ _ => trivial⟩ fun _ => h.inScope hk
  obtain ⟨hle, hord, hcon, -⟩ := hwork.keeps h.ordered
  obtain ⟨hnc, hgoal, hlive, hcp, -⟩ := hwork.frame
  have hpass : ((solveOne k c).1 = .ok ∧
        ((solveOne k c).2.constraints k).state = (c.constraints k).state ∧
        (solveOne k c).2.store = c.store) ∨
      ((solveOne k c).1 = .ok ∧ Settles k (c.constraints k).goal (solveOne k c).2) ∨
      ((solveOne k c).1 ≠ .ok ∧ Unsettled k (solveOne k c).2) := by
    by_cases hp : (c.constraints k).state = .pending
    · rw [solveOne, if_pos hp]
      have hst : (c.trailAppend (.state k .pending)).store = c.store := c.store_trailAppend _
      by_cases hok : (process k (c.constraints k).goal (c.trailAppend (.state k .pending))).1 = .ok
      · refine .inr (.inl ⟨hok, process_settles (hst ▸ h.ordered) ?_ hok⟩)
        have hn : (c.trailAppend (.state k .pending)).nvars = c.nvars := congrArg Store.nvars hst
        rw [hn]
        exact h.inScope hk
      · refine .inr (.inr ⟨hok, process_fails ?_ hok⟩)
        exact unsettled_congr (constraints_trailAppend ..) (by rw [Unsettled, hp]; decide)
    · rw [solveOne, if_neg hp]
      exact .inl ⟨rfl, rfl, rfl⟩
  refine ⟨⟨hord, hcon h.consistent, hwork.varList h.vars, ?_, ?_, ?_, ?_⟩,
    ⟨hle, hnc, hgoal, hlive, hcp⟩, ?_⟩
  · intro j hj
    rw [hlive] at hj
    exact hnc ▸ h.listed j hj
  · intro j hj r hr
    rw [hlive] at hj
    rw [hgoal] at hr
    exact (h.rows j hj r hr).mono hle
  · intro j hj hs
    rw [hlive] at hj
    rw [hgoal]
    by_cases hjk : j = k
    · subst hjk
      rcases hpass with ⟨_, heq, _⟩ | ⟨_, hp | ⟨_, hi⟩⟩ | ⟨_, hu⟩
      · exact (h.settled j hj (heq ▸ hs)).mono hle
      · rw [hs] at hp
        exact absurd hp (by decide)
      · exact hi
      · exact absurd hs hu
    · exact (h.settled j hj ((hwork.state_eq hjk).symm.trans hs)).mono hle
  · intro j hj
    rw [hlive]
    rcases hwork.queue hj with hj | hj
    · exact h.queued j hj
    · exact hj
  · refine fun hok => ⟨fun j hf => ?_, solveOne_shared h hk hok⟩
    by_cases hjk : j = k
    · subst hjk
      rcases hpass with ⟨_, heq, _⟩ | ⟨_, hp | ⟨hp, _⟩⟩ | ⟨hne, _⟩
      · exact heq ▸ hf
      · rw [hf] at hp
        exact absurd hp (by decide)
      · rw [hf] at hp
        exact absurd hp (by decide)
      · exact absurd hok hne
    · exact (hwork.state_eq hjk).symm.trans hf

theorem solveLoop_ready {fuel : Nat} {o : Outcome α} (h : c.Ready)
    (ho : solveLoop fuel c = some o) :
    o.2.Ready ∧ Solved c o.2 ∧ (o.1 = .ok → Done c o.2) := by
  induction fuel generalizing c with
  | zero => exact absurd ho (by simp [solveLoop])
  | succ fuel ih =>
    unfold solveLoop at ho
    cases hq : c.queue with
    | nil =>
      simp only [hq, Option.some.injEq] at ho
      subst ho
      exact ⟨h.congr rfl rfl rfl rfl fun k hk => absurd hk not_mem_nil, ⟨.refl _, rfl, fun _ => rfl, fun _ => rfl, rfl⟩,
        fun _ => ⟨fun _ hf => hf, shared_of_nvars rfl⟩⟩
    | cons k queue =>
      have hready : ({ c with queue := queue } : Ctx α).Ready :=
        h.congr rfl rfl rfl rfl fun j hj => h.queued j (hq ▸ mem_cons_of_mem _ hj)
      obtain ⟨hr, hs, hf⟩ := solveOne_ready (k := k) hready (h.queued k (hq ▸ mem_cons_self))
      have hs' : Solved c (solveOne k { c with queue := queue }).2 :=
        ⟨hs.le, hs.nconstraints, hs.goal, hs.live, hs.checkpoints⟩
      simp only [hq] at ho
      split_ifs at ho with hok
      · obtain ⟨vars, hw⟩ := (solveOne k { c with queue := queue }).2.watchRegister_eq k
        have hst := (solveOne k { c with queue := queue }).2.store_watchRegister k
        rw [hw] at ho hst
        obtain ⟨hr', hs'', hf'⟩ := ih (hr.congr hst rfl rfl rfl hr.queued) ho
        have hreg : Solved (solveOne k { c with queue := queue }).2
            { (solveOne k { c with queue := queue }).2 with vars := vars } :=
          ⟨hst ▸ .refl _, rfl, fun _ => rfl, fun _ => rfl, rfl⟩
        refine ⟨hr', hs'.trans (hreg.trans hs''), fun hok' => ?_⟩
        obtain ⟨hfail, hshare⟩ := hf hok
        obtain ⟨hfail', hshare'⟩ := hf' hok'
        have hshare1 : Shared c (solveOne k { c with queue := queue }).2 := hshare
        exact ⟨fun j hj => hfail j (hfail' j hj), hshare1.trans hshare' (hst ▸ hs''.le)⟩
      · obtain rfl := Option.some.inj ho
        exact ⟨hr.congr rfl rfl rfl rfl hr.queued, ⟨hs'.le, hs'.nconstraints, hs'.goal, hs'.live,
          hs'.checkpoints⟩, fun h => absurd h hok⟩

/-- `fx_solve` keeps the context ready, however it ends. -/
theorem solve_ready {fuel : Nat} {o : Outcome α} (h : c.Ready) (ho : solve fuel c = some o) :
    o.2.Ready ∧ Solved c o.2 ∧ (o.1 = .ok → Done c o.2) := by
  obtain ⟨queue, heq, hmem⟩ := c.solveStart_eq
  rw [solve, heq] at ho
  have hready : ({ c with solving := true, queue := queue } : Ctx α).Ready := by
    refine h.congr rfl rfl rfl rfl fun k hk => ?_
    rcases (hmem k).1 hk with hk | ⟨hk, _⟩
    · exact h.queued k hk
    · exact (mem_filter.1 hk).2
  obtain ⟨hr, hs, hf⟩ := solveLoop_ready hready ho
  exact ⟨hr, ⟨hs.le, hs.nconstraints, hs.goal, hs.live, hs.checkpoints⟩,
    fun hok => ⟨(hf hok).failed, (hf hok).shared⟩⟩

/-! ## The other calls -/

section Rows

variable {S : Store α} {r r' : Row α}

theorem handed_closed (h : r.tail = none) : S.Handed r :=
  ⟨fun v hv => by simp [h] at hv, fun _ _ _ _ v hv => by simp [h] at hv⟩

theorem handed_of_forbidden (hs : r.Scoped S.nvars)
    (hf : ∀ v, r.tail = some v → ∀ a ∈ r.head, a ∈ S.facts v .forbidden) : S.Handed r :=
  ⟨hs, fun _ _ _ hV v hv a ha => hV.facts (hf v hv a ha)⟩

theorem handed_var (hv : v < S.nvars) : S.Handed (rowMake [] (some v)) :=
  handed_of_forbidden (fun _ hw => Option.some.inj hw ▸ hv)
    fun _ _ _ ha => absurd (mem_rowMake.1 ha) not_mem_nil

theorem handed_normalize (h : c.store.Handed r) (hS : c.store.Ordered) :
    c.store.Handed (c.normalize r) :=
  ⟨fun v hv => (open_normalize hS h.1 v hv).1, fun X A V hV => hV.normalize hS (h.2 X A V hV)⟩

end Rows

theorem Ready.quiet (h : c.Ready) (hq : Quiet c c') : c'.Ready := by
  have hframe := Steps.sameFrame hq.tells.1
  have hle := Steps.le hq.tells.1
  refine ⟨Steps.ordered hq.tells.1 h.ordered, Steps.consistent hq.tells.1 h.consistent, ?_, ?_,
    ?_, ?_, ?_⟩
  · rw [hframe.varList, hq.tells.2.2]
    exact h.vars
  · rw [hq.constraints, hframe.nconstraints]
    exact h.listed
  · rw [hq.constraints]
    exact fun k hk r hr => (h.rows k hk r hr).mono hle
  · rw [hq.constraints]
    exact fun k hk hs => (h.settled k hk hs).mono hle
  · rw [hq.constraints]
    exact fun k hk => (Steps.queue hq.tells.1 hk).elim (h.queued k) id

theorem ready_varNew (h : c.Ready) : c.varNew.2.Ready := by
  have hle := le_varNew h.ordered
  refine ⟨ordered_varNew h.ordered, consistent_varNew h.consistent, ?_, h.listed, ?_, ?_, h.queued⟩
  · intro v hv
    rcases mem_cons.1 hv with rfl | hv
    · exact Nat.lt_succ_self _
    · exact (h.vars v hv).trans (Nat.lt_succ_self _)
  · exact fun k hk r hr => (h.rows k hk r hr).mono hle
  · exact fun k hk hs => (h.settled k hk hs).mono hle

/-- A posted constraint over rows handed out keeps the context ready. -/
theorem constraintPush_ready {g : Goal α} (h : c.Ready)
    (hg : ∀ r ∈ g.operands, c.store.Handed r) : (c.constraintPush g).Ready := by
  have hst := store_constraintPush (c := c) g
  obtain ⟨vars, hw⟩ := constraintPush_eq (c := c) g
  have hn : (c.constraintPush g).nvars = c.nvars := congrArg Store.nvars hst
  refine ⟨hst ▸ h.ordered, hst ▸ h.consistent, ?_, ?_, ?_, ?_, ?_⟩
  · rw [hn, hw]
    exact h.vars
  · intro j hj
    rw [hw] at hj ⊢
    by_cases hjk : j = c.nconstraints
    · exact hjk ▸ Nat.lt_succ_self _
    · simp only [Function.update_of_ne hjk] at hj
      exact (h.listed j hj).trans (Nat.lt_succ_self _)
  · intro j hj r hr
    rw [hst]
    rw [hw] at hj hr
    by_cases hjk : j = c.nconstraints
    · simp only [hjk, Function.update_self] at hr
      exact hg r hr
    · simp only [Function.update_of_ne hjk] at hj hr
      exact h.rows j hj r hr
  · intro j hj hs
    rw [hst]
    rw [hw] at hj hs ⊢
    by_cases hjk : j = c.nconstraints
    · simp [hjk] at hs
    · simp only [Function.update_of_ne hjk] at hj hs ⊢
      exact h.settled j hj hs
  · intro j hj
    rw [hw] at hj ⊢
    by_cases hjk : j = c.nconstraints
    · simp [hjk]
    · simp only [Function.update_of_ne hjk]
      exact h.queued j hj

theorem readyHanded : RowClass (Ready (α := α)) fun c r => c.store.Handed r where
  ordered h := h.ordered
  inScope h := h.1
  closed _ ht := handed_closed ht
  var _ hv := handed_var hv
  opened _ ht hv _ hf :=
    handed_of_forbidden (fun w hw => Option.some.inj (ht.symm.trans hw) ▸ hv)
      fun w hw => Option.some.inj (ht.symm.trans hw) ▸ hf
  sub h ht hh := ⟨fun v hv => h.1 v (ht ▸ hv),
    fun X A V hV v hv a ha => h.2 X A V hV v (ht ▸ hv) a (hh a ha)⟩
  normal h hr := handed_normalize hr h.ordered
  binding h hb := handed_normalize
    ⟨fun t ht => (h.ordered.lt hb ht).2, fun X A V hV => hV.apart hb⟩ h.ordered
  quiet h hq := ⟨h.quiet hq, fun r hr => hr.mono (Steps.le hq.tells.1)⟩
  grow h := ⟨ready_varNew h, fun r hr => hr.mono (le_varNew h.ordered)⟩
  post h hg := ⟨constraintPush_ready h hg, fun r hr => by rw [store_constraintPush]; exact hr⟩

end Ctx

end Fx89
