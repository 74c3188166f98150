import EightyNine.Fx89.Ready

/-!
# Solving preserves solutions

An assignment gives every variable a finite set of atoms.  A host builds rows,
posts constraints over them and solves; what a row call forbids on a tail, and
what a solver run makes of the variables it introduces, is assumed of the
assignment (`Built`).  A run of the solver that succeeds leaves a store with the
same solutions, and one that fails has none (`solve_preserves`).

Constraints that an earlier run marked failed stay so: the solver takes the
pending ones only.
-/

namespace Fx89

open Library Finset Option

variable {α : Type} [LinearOrder α]

/-! ## Assignments -/

/-- The atoms of a row. -/
def Row.atoms (σ : Nat → Finset α) (r : Row α) : Finset α :=
  match r.tail with
  | none => r.head.toFinset
  | some v => r.head.toFinset ∪ σ v

/-- What each kind of constraint says. -/
def Goal.Satisfied (σ : Nat → Finset α) : Goal α → Prop
  | .equal a b => a.atoms σ = b.atoms σ
  | .subset a b => a.atoms σ ⊆ b.atoms σ
  | .member x b => x ∈ b.atoms σ
  | .lacks x b => x ∉ b.atoms σ
  | .join o l r => o.atoms σ = l.atoms σ ∪ r.atoms σ

instance decidableSatisfied (σ : Nat → Finset α) (g : Goal α) : Decidable (g.Satisfied σ) :=
  match g with
  | .equal a b => inferInstanceAs (Decidable (a.atoms σ = b.atoms σ))
  | .subset a b => inferInstanceAs (Decidable (a.atoms σ ⊆ b.atoms σ))
  | .member x b => inferInstanceAs (Decidable (x ∈ b.atoms σ))
  | .lacks x b => inferInstanceAs (Decidable (x ∉ b.atoms σ))
  | .join o l r => inferInstanceAs (Decidable (o.atoms σ = l.atoms σ ∪ r.atoms σ))

namespace Ctx

/-- All the constraints posted. -/
def Posted (σ : Nat → Finset α) (c : Ctx α) : Prop :=
  ∀ k ∈ c.listed, (c.constraints k).goal.Satisfied σ

instance decidablePosted (σ : Nat → Finset α) (c : Ctx α) : Decidable (c.Posted σ) :=
  inferInstanceAs (Decidable (∀ k ∈ c.listed, _))

/-- The pending ones. -/
def Pending (σ : Nat → Finset α) (c : Ctx α) : Prop :=
  ∀ k ∈ c.listed, (c.constraints k).state = .pending → (c.constraints k).goal.Satisfied σ

/-- The bindings and the facts hold. -/
structure Fits (σ : Nat → Finset α) (c : Ctx α) : Prop where
  binding : ∀ v b, (c.vars v).binding = some b → σ v = b.atoms σ
  required : ∀ v, ∀ a ∈ (c.vars v).required, a ∈ σ v
  forbidden : ∀ v, ∀ a ∈ (c.vars v).forbidden, a ∉ σ v

/-- The atoms forbidden between two contexts. -/
def Lacking (σ : Nat → Finset α) (c c' : Ctx α) : Prop :=
  ∀ v, ∀ a ∈ (c'.vars v).forbidden, a ∉ (c.vars v).forbidden → a ∉ σ v

/-- A variable introduced between two contexts is what a tail bound to it has beyond
the head. -/
def Remainders (σ : Nat → Finset α) (c c' : Ctx α) : Prop :=
  ∀ z, c.nvars ≤ z → z < c'.nvars →
    ∃ t b, (c'.vars t).binding = some b ∧ b.tail = some z ∧ σ z = σ t \ b.head.toFinset

end Ctx

/-- The calls that build rows, post constraints and solve. -/
def Call.Builds : Call α → Prop
  | .checkpoint => False
  | .rollback _ => False
  | .commit _ => False
  | .schemeNew _ _ _ => False
  | .generalize _ _ => False
  | .instantiate _ => False
  | _ => True

/-- What a call adds to the assumptions on assignments. -/
def Call.Assumes (st : Status) (c c' : Ctx α) (σ : Nat → Finset α) : Call α → Prop
  | .row _ => c.Lacking σ c'
  | .solve => st = .ok → c.Remainders σ c'
  | _ => True

/-- The worlds built from a new context, with the assumptions on assignments. -/
inductive Built : World α → ((Nat → Finset α) → Prop) → Prop
  | new : Built World.new fun _ => True
  | call (call : Call α) (fuel : Nat) {w w' : World α} {C : (Nat → Finset α) → Prop} {st : Status}
      (h : Built w C) (hc : call.Builds) (hw : w.call fuel call = some (st, w')) :
      Built w' fun σ => C σ ∧ call.Assumes st w.ctx w'.ctx σ

/-! ## Assignments as valuations -/

section Valuations

variable {σ : Nat → Finset α} {c c' : Ctx α}

theorem rowValue_finsets (r : Row α) : rowValue RowAlgebra.finsets σ r = r.atoms σ := by
  unfold rowValue Row.atoms
  cases r.tail with
  | none | some v => rfl

theorem joinAt_union (F G : Finset α) (a : α) : JoinAt RowAlgebra.finsets (F ∪ G) F G a where
  left h := mem_union_left _ h
  right h := mem_union_right _ h
  lacksLeft h ha := h (mem_union_left _ ha)
  lacksRight h ha := h (mem_union_right _ ha)
  lacksOut hl hr ha := (mem_union.1 ha).elim hl hr
  fromLeft hr ha := (mem_union.1 ha).resolve_right hr
  fromRight hl ha := (mem_union.1 ha).resolve_left hl

theorem sat_finsets {g : Goal α} : Sat RowAlgebra.finsets σ g ↔ g.Satisfied σ := by
  cases g with
  | equal a b => simp only [Sat, Goal.Satisfied, rowValue_finsets]
  | subset a b =>
    simp only [Sat, Goal.Satisfied, rowValue_finsets]
    constructor
    · exact fun h x => (h x).1
    · exact fun h x => ⟨fun hx => h hx, fun hx hx' => hx (h hx')⟩
  | member x b =>
    change x ∈ rowValue RowAlgebra.finsets σ b ↔ x ∈ b.atoms σ
    rw [rowValue_finsets]
  | lacks x b =>
    change x ∉ rowValue RowAlgebra.finsets σ b ↔ x ∉ b.atoms σ
    rw [rowValue_finsets]
  | join o l r =>
    simp only [Sat, Goal.Satisfied, rowValue_finsets]
    constructor
    · exact fun h => h.2 _ _ rfl rfl
    · intro h
      refine ⟨fun a => h ▸ joinAt_union _ _ a, fun F G hF hG => ?_⟩
      subst hF hG
      exact h

theorem agrees_finsets : Agrees RowAlgebra.finsets σ c.store ↔ c.Fits σ := by
  constructor
  · intro h
    refine ⟨fun v b hb => ?_, fun v a ha => ?_, fun v a ha => ?_⟩
    · exact (h.binding (v := v) hb).trans (rowValue_finsets b)
    · exact h.facts (v := v) (s := .required) ha
    · exact h.facts (v := v) (s := .forbidden) ha
  · intro h
    refine ⟨fun {v b} hb => (h.binding v b hb).trans (rowValue_finsets b).symm, ?_⟩
    intro v s a ha
    cases s with
    | required => exact h.required v a ha
    | forbidden => exact h.forbidden v a ha

/-- Between a ready context and one after it, valuations that model the later one are
given by the remainders. -/
theorem eq_of_remainders {τ : Nat → Finset α} (hS : c'.store.Ordered)
    (hτ : Models RowAlgebra.finsets τ c'.store) (hext : c.Extends σ τ)
    (hrem : c.Remainders σ c') : ∀ v, v < c'.nvars → τ v = σ v := by
  intro v
  induction v using Nat.strong_induction_on with
  | _ v ih =>
    intro hv
    by_cases hlt : v < c.nvars
    · exact hext v hlt
    · obtain ⟨t, b, hb, htail, hval⟩ := hrem v (not_lt.1 hlt) hv
      have hbs : c'.store.binding t = some b := hb
      have htv := (hS.lt hbs htail).1
      have hbind := hτ.binding hbs
      have hap := hτ.apart hbs v htail
      rw [rowValue_open htail] at hbind
      rw [hval, ← ih t htv (htv.trans hv), hbind]
      ext a
      have hlack : a ∈ b.head → a ∉ τ v := fun ha => hap a ha
      simp only [RowAlgebra.finsets, mem_sdiff, mem_union, List.mem_toFinset]
      tauto

/-- A valuation matters at the variables that are there. -/
theorem models_congr {τ : Nat → Finset α} (hS : c.store.Ordered)
    (h : Models RowAlgebra.finsets τ c.store) (heq : ∀ v, v < c.nvars → τ v = σ v) :
    Models RowAlgebra.finsets σ c.store := by
  have hlt : ∀ {v b}, c.store.binding v = some b → v < c.nvars := by
    intro v b hb
    by_contra hge
    rw [hS.blank (not_lt.1 hge)] at hb
    exact absurd hb (by simp)
  have htail : ∀ {v b}, c.store.binding v = some b → ∀ t, b.tail = some t → σ t = τ t :=
    fun hb t ht => (heq t (hS.lt hb ht).2).symm
  refine ⟨⟨fun {v b} hb => ?_, fun {v s a} ha => ?_⟩, fun {v b} hb => ?_⟩
  · rw [← heq v (hlt hb), h.binding hb, rowValue_congr (htail hb)]
  · have hv : v < c.nvars := by
      by_contra hge
      rw [hS.blankFacts (not_lt.1 hge)] at ha
      exact absurd ha List.not_mem_nil
    exact heq v hv ▸ h.facts ha
  · exact (h.apart hb).congr (htail hb)

end Valuations

/-! ## Runs -/

/-- What holds of the worlds of a run: the assignments the constraints posted and the
assumptions allow model the store. -/
structure Sound (w : World α) (C : (Nat → Finset α) → Prop) : Prop where
  ready : w.ctx.Ready
  rows : ∀ r ∈ w.rows, w.ctx.store.Handed r
  models : ∀ σ, C σ → w.ctx.Posted σ → Models RowAlgebra.finsets σ w.ctx.store

section Runs

variable {w w' : World α} {C C' : (Nat → Finset α) → Prop} {σ : Nat → Finset α} {fuel : Nat}
  {st : Status}

theorem mem_listed {c : Ctx α} (h : c.Ready) {k : Nat} :
    k ∈ c.listed ↔ (c.constraints k).live = true := by
  rw [Ctx.listed, List.mem_filter, List.mem_range]
  exact ⟨And.right, fun hk => ⟨h.listed k hk, hk⟩⟩

/-- A model of the store that satisfies the constraints posted makes the solver
succeed. -/
theorem loopSound_of_posted {c : Ctx α} (h : c.Ready)
    (hm : Models RowAlgebra.finsets σ c.store) (hp : c.Posted σ) :
    c.LoopSound RowAlgebra.finsets σ := by
  refine ⟨hm, h.ordered, fun k hk _ => ?_⟩
  have hlive : (c.constraints k).live = true := hk.elim (h.queued k) id
  exact ⟨h.inScope hlive, fun r hr => (h.rows k hlive r hr).2 _ _ _ hm,
    sat_finsets.2 (hp k ((mem_listed h).2 hlive))⟩

theorem sound_new : Sound (World.new : World α) fun _ => True where
  ready := Ctx.ready_new
  rows r h := by simp [World.new] at h
  models σ _ _ := by
    refine ⟨⟨fun {v b} hb => ?_, fun {v s a} ha => ?_⟩, fun {v b} hb => ?_⟩
    · simp [World.new, ctxNew, Ctx.store] at hb
    · cases s <;> simp [World.new, ctxNew, Ctx.store, Var.facts] at ha
    · simp [World.new, ctxNew, Ctx.store] at hb

theorem sound_varNew (h : Sound w C) : Sound { w with ctx := w.ctx.varNew.2 } C where
  ready := Ctx.ready_varNew h.ready
  rows r hr := (h.rows r hr).mono (Ctx.le_varNew h.ready.ordered)
  models σ hC hp := by
    have hm := (h.models σ hC hp).grow (z := σ w.ctx.store.nvars) h.ready.ordered
    rw [Function.update_eq_self] at hm
    rw [Ctx.store_varNew]
    exact hm

theorem posted_of {c c' : Ctx α} (h : c.Ready) (h' : c'.Ready)
    (hk : ∀ k, (c.constraints k).live = true → (c'.constraints k).live = true ∧
      (c'.constraints k).goal = (c.constraints k).goal) (hp : c'.Posted σ) : c.Posted σ := by
  intro k hmem
  obtain ⟨hlive, hgoal⟩ := hk k ((mem_listed h).1 hmem)
  rw [← hgoal]
  exact hp k ((mem_listed h').2 hlive)

theorem sound_row {o : RowOutcome α} (h : Sound w C)
    (ho : Ctx.Hands Ctx.Ready (fun c r => c.store.Handed r) w.ctx o) :
    Sound (w.handRow o).2 fun σ => C σ ∧ w.ctx.Lacking σ o.2.2 where
  ready := ho.1.inv
  rows r hr := by
    rcases List.mem_append.1 hr with hr | hr
    · exact ho.2 r (mem_toList.1 hr)
    · exact ho.1.keeps r (h.rows r hr)
  models σ hC hp := by
    obtain ⟨hC, hlack⟩ := hC
    have hp0 : w.ctx.Posted σ := posted_of h.ready ho.1.inv
      (fun k hk => by rw [ho.1.constraints k (h.ready.listed k hk)]; exact ⟨hk, rfl⟩) hp
    have hm := h.models σ hC hp0
    have hb : ∀ {v b}, o.2.2.store.binding v = some b → w.ctx.store.binding v = some b :=
      fun {v b} h => (ho.1.binding v).symm.trans h
    refine ⟨⟨fun {v b} h => hm.binding (hb h), fun {v s a} ha => ?_⟩, fun {v b} h => hm.apart (hb h)⟩
    cases s with
    | required => exact hm.facts (ho.1.required v ▸ ha)
    | forbidden =>
      by_cases hold : a ∈ w.ctx.store.facts v .forbidden
      · exact hm.facts hold
      · exact hlack v a ha hold

theorem sound_post {g : Goal α} (h : Sound w C) (hg : ∀ r ∈ g.operands, w.ctx.store.Handed r) :
    Sound { w with ctx := w.ctx.constraintPush g } C := by
  have hst := Ctx.store_constraintPush (c := w.ctx) g
  have hready := Ctx.constraintPush_ready h.ready hg
  refine ⟨hready, fun r hr => ?_, fun σ hC hp => ?_⟩
  · change (w.ctx.constraintPush g).store.Handed r
    rw [hst]
    exact h.rows r hr
  · change Models RowAlgebra.finsets σ (w.ctx.constraintPush g).store
    rw [hst]
    refine h.models σ hC (posted_of h.ready hready (fun k hk => ?_) hp)
    rw [(Ctx.readyHanded.makes_post h.ready hg).constraints k (h.ready.listed k hk)]
    exact ⟨hk, rfl⟩

theorem sound_solve {o : Outcome α} (h : Sound w C) (ho : w.ctx.solve fuel = some o) :
    Sound { w with ctx := o.2 } fun σ => C σ ∧ (o.1 = .ok → w.ctx.Remainders σ o.2) := by
  obtain ⟨hready, hsolved, -⟩ := Ctx.solve_ready h.ready ho
  refine ⟨hready, fun r hr => (h.rows r hr).mono hsolved.le, fun σ hC hp => ?_⟩
  obtain ⟨hC, hrem⟩ := hC
  have hp0 : w.ctx.Posted σ := posted_of h.ready hready
    (fun k hk => ⟨(hsolved.live k).trans hk, hsolved.goal k⟩) hp
  obtain ⟨τ, hext, hok, hm⟩ :=
    Ctx.solve_sound (loopSound_of_posted h.ready (h.models σ hC hp0) hp0) ho
  exact models_congr hready.ordered hm (eq_of_remainders hready.ordered hm hext (hrem hok))

theorem sound_posted {rows : List (Row α)} {g : Goal α} (h : Sound w C)
    (hg : ∀ r ∈ g.operands, r ∈ rows ∨ r.tail = none) (hC : ∀ σ, C' σ → C σ)
    (hw : w.post rows (fun c => c.constraintPush g) = some (st, w')) : Sound w' C' := by
  unfold World.post at hw
  split_ifs at hw with hrows
  obtain ⟨-, rfl⟩ := Prod.mk.inj (some.inj hw)
  have hs := sound_post (g := g) h fun r hr =>
    (hg r hr).elim (fun hr => h.rows r (hrows.1 r hr)) Ctx.handed_closed
  exact ⟨hs.ready, hs.rows, fun σ hσ => hs.models σ (hC σ hσ)⟩

/-- What the calls built is sound. -/
theorem Built.sound (h : Built w C) : Sound w C := by
  induction h with
  | new => exact sound_new
  | @call call fuel w w' C st _ hc hw ih =>
    have hC : ∀ {P : (Nat → Finset α) → Prop}, ∀ σ, C σ ∧ P σ → C σ := fun _ h => h.1
    cases call with
    | varNew =>
      obtain ⟨-, rfl⟩ := Prod.mk.inj (some.inj hw)
      have hs := sound_varNew ih
      exact ⟨hs.ready, hs.rows, fun σ hσ => hs.models σ hσ.1⟩
    | row rc =>
      simp only [World.call] at hw
      split_ifs at hw with hh
      obtain ⟨-, rfl⟩ := Prod.mk.inj (some.inj hw)
      refine sound_row ih (Ctx.readyHanded.row_hands ih.ready (fun r hr => ih.rows r (hh.1 r hr))
        (fun v hv => ih.ready.vars v (hh.2.1 v hv)) fun atoms tail c' hrc hf hforb => ?_)
      refine Ctx.handed_of_forbidden (fun v hv => ?_) fun v hv a ha => ?_
      · obtain rfl := some.inj hv
        subst hrc
        have hlt := ih.ready.vars tail (hh.2.1 tail (by simp [RowCall.vars]))
        exact hlt.trans_eq hf.tells.2.2.symm
      · obtain rfl := some.inj hv
        exact hforb a (mem_rowMake.1 ha)
    | equal a b =>
      exact sound_posted (g := .equal a b) ih (fun r hr => .inl hr) hC hw
    | subset a b =>
      exact sound_posted (g := .subset a b) ih (fun r hr => .inl hr) hC hw
    | member x b =>
      exact sound_posted (g := .member x b) ih (fun r hr => .inl hr) hC hw
    | lacks x b =>
      exact sound_posted (g := .lacks x b) ih (fun r hr => .inl hr) hC hw
    | join o l r =>
      exact sound_posted (g := .join o l r) ih (fun r hr => .inl hr) hC hw
    | pure a =>
      refine sound_posted (g := .equal a (rowMake [] none)) ih (fun r hr => ?_) hC hw
      simp only [Goal.operands, List.mem_cons, List.not_mem_nil, or_false] at hr
      rcases hr with rfl | rfl
      · exact .inl List.mem_cons_self
      · exact .inr rfl
    | solve =>
      simp only [World.call, map_eq_some_iff] at hw
      obtain ⟨o, ho, heq⟩ := hw
      obtain ⟨rfl, rfl⟩ := Prod.mk.inj heq
      exact sound_solve ih ho
    | checkpoint | rollback token | commit token | schemeNew vars body cons
    | generalize body vars | instantiate scheme => exact hc.elim

/-- **A run of the solver that succeeds preserves the solutions, and one that fails has
none.** -/
theorem solve_preserves (h : Built w C) (hs : w.call fuel .solve = some (st, w')) :
    (st = .ok →
      (∀ k ∈ w'.ctx.listed, (w'.ctx.constraints k).state = .failed →
        (w.ctx.constraints k).state = .failed) ∧
      (∀ σ, C σ → w.ctx.Posted σ → ∃ τ, (∀ v, v < w.ctx.nvars → τ v = σ v) ∧
        w.ctx.Remainders τ w'.ctx ∧ w'.ctx.Fits τ ∧ w'.ctx.Pending τ) ∧
      ∀ σ, w'.ctx.Fits σ → w'.ctx.Pending σ → ∀ k ∈ w'.ctx.listed,
        (w'.ctx.constraints k).state ≠ .failed → (w'.ctx.constraints k).goal.Satisfied σ) ∧
    (st ≠ .ok → ∀ σ, C σ → ¬ w.ctx.Posted σ) := by
  simp only [World.call, map_eq_some_iff] at hs
  obtain ⟨o, ho, heq⟩ := hs
  obtain ⟨rfl, rfl⟩ := Prod.mk.inj heq
  obtain ⟨hready, hrows, hmodels⟩ := h.sound
  obtain ⟨hready', hsolved, hdone⟩ := Ctx.solve_ready hready ho
  have hext : ∀ σ, C σ → w.ctx.Posted σ →
      ∃ τ, w.ctx.Extends σ τ ∧ Ctx.Succeeds RowAlgebra.finsets τ o := fun σ hC hp =>
    Ctx.solve_sound (loopSound_of_posted hready (hmodels σ hC hp) hp) ho
  refine ⟨fun hok => ⟨fun k _ hf => (hdone hok).failed k hf, ?_, ?_⟩, ?_⟩
  · intro σ hC hp
    obtain ⟨τ, hτ, -, hm⟩ := hext σ hC hp
    refine ⟨τ, hτ, fun z hz hz' => ?_, agrees_finsets.1 hm.toAgrees, fun k hk _ => ?_⟩
    · obtain ⟨t, b, hb, htail⟩ := (hdone hok).shared z hz hz'
      refine ⟨t, b, hb, htail, ?_⟩
      have hap := hm.apart hb z htail
      rw [hm.binding hb, rowValue_open htail]
      ext a
      have hlack : a ∈ b.head → a ∉ τ z := fun ha => hap a ha
      simp only [RowAlgebra.finsets, mem_sdiff, mem_union, List.mem_toFinset]
      tauto
    · have hlive : (w.ctx.constraints k).live = true :=
        (hsolved.live k).symm.trans ((mem_listed hready').1 hk)
      have hmeets : Ctx.Meets RowAlgebra.finsets σ w.ctx.nvars (w.ctx.constraints k).goal :=
        ⟨hready.inScope hlive, fun r hr => (hready.rows k hlive r hr).2 _ _ _ (hmodels σ hC hp),
          sat_finsets.2 (hp k ((mem_listed hready).2 hlive))⟩
      rw [hsolved.goal]
      exact sat_finsets.1 (hmeets.extends hτ le_rfl).sat
  · intro σ hfits hpend k hk hstate
    have hlive := (mem_listed hready').1 hk
    cases hst : (o.2.constraints k).state with
    | pending => exact hpend k hk hst
    | satisfied =>
      exact sat_finsets.1 (hready'.settled k hlive hst _ _ _ (agrees_finsets.2 hfits))
    | failed => exact absurd hst hstate
  · intro hne σ hC hp
    obtain ⟨τ, -, hok, -⟩ := hext σ hC hp
    exact hne hok

end Runs

/-- The solver shares a fresh variable between the tails of `{0 | 0}` and `{1 | 1}`. -/
theorem solve_preserves_shared :
    ∃ (w w' : World Nat) (C : (Nat → Finset Nat) → Prop), Built w C ∧
      w.call 4 .solve = some (.ok, w') ∧ w.ctx.nvars = 2 ∧ w'.ctx.nvars = 3 ∧
      ∀ σ, C σ → w.ctx.Posted σ → ∃ τ, (∀ v, v < w.ctx.nvars → τ v = σ v) ∧
        w.ctx.Remainders τ w'.ctx ∧ w'.ctx.Fits τ ∧ w'.ctx.Pending τ := by
  have hv := (Built.new.call (.varNew : Call Nat) 0 trivial rfl).call .varNew 0 trivial rfl
  have hr := (hv.call (.row (.openRow [0] 0)) 0 trivial rfl).call
    (.row (.openRow [1] 1)) 0 trivial rfl
  have hw := hr.call (.equal ⟨[0], some 0⟩ ⟨[1], some 1⟩) 0 trivial rfl
  exact ⟨_, _, _, hw, rfl, rfl, rfl, ((solve_preserves hw (rfl : World.call 4 _ _ = _)).1 rfl).2.1⟩

/-- A constraint that failed stays failed, and `fx_solve` succeeds on the others; and it
fails on `0 ∈ e` once `{0 | e}` is built, though the sets `e = {0}` satisfy that. -/
theorem solve_not_preserves :
    (∃ (w w' : World Nat) (C : (Nat → Finset Nat) → Prop) (fuel : Nat), Built w C ∧
      w.call fuel .solve = some (.ok, w') ∧
      ∃ k ∈ w'.ctx.listed, (w'.ctx.constraints k).state = .failed) ∧
    ∃ (w w' : World Nat) (C : (Nat → Finset Nat) → Prop) (fuel : Nat), Built w C ∧
      w.call fuel .solve = some (.errUnsat, w') ∧ ∃ σ, w.ctx.Posted σ := by
  constructor
  · have hw := Built.new.call (.row (.empty : RowCall Nat)) 0 trivial rfl
    refine ⟨_, _, _, 3, (hw.call (.member 0 ⟨[], none⟩) 0 trivial rfl).call .solve 3 trivial rfl,
      rfl, 0, ?_, ?_⟩
    · decide
    · decide
  · have hw := (Built.new.call (.varNew : Call Nat) 0 trivial rfl).call
      (.row (.openRow [0] 0)) 0 trivial rfl
    refine ⟨_, _, _, 3, (hw.call (.row (.var 0)) 0 trivial rfl).call
      (.member 0 ⟨[], some 0⟩) 0 trivial rfl, rfl, fun _ => {0}, ?_⟩
    decide

end Fx89
