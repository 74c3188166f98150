import EightyNine.Dl89.JoinOk
import Mathlib.Data.Set.Finite.List

/-!
# Semi-naive evaluation computes the least model

Every round keeps the store closed up to the delta: what is new is in the next
delta, and an instance whose facts are all older is used or has a fact in the
last delta, so that a variant of its rule uses it now.  The least model is
finite, because a rule invents no constants, so the rounds come to an end.
-/

namespace Dl89

open Library List

variable {σ ι : Type} {ops : StoreOps σ ι} {law : Lawful ops} {M : Finset Fact}

/-- The ground instances of compiled rules. -/
def codeClauses (codes : List Code) : Set (Clause Fact) :=
  {c | ∃ code ∈ codes, c ∈ code.clauses}

variable {code : Code}

theorem closed_code {codes : List Code} {S : Set Fact} (h : Closed (codeClauses codes) S)
    (hcode : code ∈ codes) : Closed code.clauses S :=
  fun c hc => h c ⟨code, hcode, hc⟩

/-! ## Finite models -/

/-- The constant of a head term, if it is one. -/
def CTerm.constant : CTerm → Option Const
  | .const c => some c
  | .slot _ => none

/-- The least model of rules that invent no constants is finite. -/
theorem least_finite {codes : List Code} (hok : ∀ code ∈ codes, code.Ok) (S : Finset Fact) :
    (least (codeClauses codes) (S : Set Fact)).Finite := by
  -- the constants of the facts and of the heads
  let D : Set Const := {c | (∃ f ∈ S, c ∈ f.tuple) ∨
    ∃ code ∈ codes, CTerm.const c ∈ code.head.terms}
  have hD : D.Finite := by
    refine Set.Finite.union ?_ ?_
    · refine (S.biUnion fun f => f.tuple.toFinset).finite_toSet.subset ?_
      rintro c ⟨f, hf, hc⟩
      exact Finset.mem_coe.2 (Finset.mem_biUnion.2 ⟨f, hf, mem_toFinset.2 hc⟩)
    · refine ((codes.flatMap fun code => code.head.terms).filterMap
        CTerm.constant).toFinset.finite_toSet.subset ?_
      rintro c ⟨code, hcode, hc⟩
      refine Finset.mem_coe.2 (mem_toFinset.2 (mem_filterMap.2 ⟨.const c, ?_, rfl⟩))
      exact mem_flatMap.2 ⟨code, hcode, hc⟩
  let heads : Set Fact := {f | ∃ code ∈ codes, f.relation = code.head.relation ∧
    f.tuple.length = code.head.arity ∧ ∀ c ∈ f.tuple, c ∈ D}
  have hheads : heads.Finite := by
    have hbound : heads ⊆ ⋃ code ∈ codes.toFinset,
        (Fact.mk code.head.relation '' (List.map Subtype.val ''
          {l : List D | l.length = code.head.arity})) := by
      rintro ⟨relation, tuple⟩ ⟨code, hcode, hrel, hlen, hconst⟩
      refine Set.mem_biUnion (mem_toFinset.2 hcode) ⟨tuple, ⟨tuple.attach.map fun c =>
        ⟨c.1, hconst c.1 c.2⟩, ?_, ?_⟩, congrArg (fun r => Fact.mk r tuple) hrel.symm⟩
      · show (tuple.attach.map _).length = _
        rw [length_map, length_attach]
        exact hlen
      · rw [map_map]
        exact attach_map_subtype_val tuple
    have := hD.to_subtype
    refine Set.Finite.subset (Set.Finite.biUnion codes.toFinset.finite_toSet fun code _ => ?_) hbound
    exact ((finite_length_eq D code.head.arity).image _).image _
  refine (S.finite_toSet.union hheads).subset (least_subset Set.subset_union_left ?_)
  rintro c ⟨code, hcode, ρ, rfl⟩ hprem
  refine .inr ⟨code, hcode, rfl, length_map _, fun x hx => ?_⟩
  obtain ⟨t, ht, rfl⟩ := mem_map.1 hx
  cases t with
  | const c => exact .inr ⟨code, hcode, ht⟩
  | slot i =>
    -- a slot of the head is a slot of a body atom, whose fact has its value
    obtain ⟨a, ha, hai⟩ := (hok code hcode).safe i ht
    have hval : ρ i ∈ (a.ground ρ).tuple := mem_map.2 ⟨.slot i, hai, rfl⟩
    rcases hprem ⟨a, ha, rfl⟩ with hf | ⟨code', hcode', -, -, hconst⟩
    · exact .inl ⟨a.ground ρ, hf, hval⟩
    · exact hconst _ hval

/-! ## Loops over the rules -/

variable {idb : Rel → Prop} {s s' : σ} {t t' : DeltaTable}

theorem Grown.trans {s'' : σ} {t'' : DeltaTable}
    (h : Grown law M idb s t s' t') (h' : Grown law M idb s' t' s'' t'') :
    Grown law M idb s t s'' t'' where
  grows := h.grows.trans h'.grows
  sound := h'.sound
  heads f hf hnot := by
    by_cases hf' : f ∈ law.contents s'
    · exact h.heads f hf' hnot
    · exact h'.heads f hf hf'
  sink relation arity tuple := by
    rw [h'.sink, h.sink, or_assoc]
    refine or_congr_right ⟨?_, ?_⟩
    · rintro (⟨ha, hin, hnot⟩ | ⟨ha, hin, hnot⟩)
      · exact ⟨ha, h'.grows hin, hnot⟩
      · exact ⟨ha, hin, fun hin' => hnot (h.grows hin')⟩
    · rintro ⟨ha, hin, hnot⟩
      by_cases hin' : ⟨relation, tuple⟩ ∈ law.contents s'
      · exact .inl ⟨ha, hin', hnot⟩
      · exact .inr ⟨ha, hin, hin'⟩
  total := by
    have h₁ := h.total
    have h₂ := h'.total
    omega

theorem Grown.refl (hM : law.contents s ⊆ M) :
    Grown law M idb s t s t where
  grows := Finset.Subset.refl _
  sound := hM
  heads _ hf hnot := absurd hf hnot
  sink _ _ _ := (or_iff_left fun h => h.2.2 h.2.1).symm
  total := rfl

theorem Grown.mono {idb' : Rel → Prop}
    (h : Grown law M idb s t s' t') (hidb : ∀ r, idb r → idb' r) : Grown law M idb' s t s' t' :=
  { h with heads := fun f hf hnot => hidb _ (h.heads f hf hnot) }

variable {rules : List CRule}

/-- A loop over the rules: each rule starts above the store at the start of the
loop and ends below the store at its end. -/
theorem eachRule_spec (run : Nat → CRule → σ → DeltaTable →
      Option (Status × CRule × σ × DeltaTable))
    (idb : Rel → Prop) (Q : Code → Finset Fact → Finset Fact → Prop)
    (hmono : ∀ code S S' T T', Q code S' T → S ⊆ S' → T ⊆ T' → Q code S T')
    (hrun : ∀ rule ∈ rules, ∀ store table, law.contents store ⊆ M →
      ∃ rule' store' table', Returns (fun fuel => run fuel rule store table)
          (.ok, rule', store', table') ∧ rule'.code = rule.code ∧
        Grown law M idb store table store' table' ∧
        Q rule.code (law.contents store) (law.contents store'))
    (store : σ) (table : DeltaTable) (hM : law.contents store ⊆ M) :
    ∃ rules' store' table', Returns (fun fuel => eachRule (run fuel) rules store table)
        (.ok, rules', store', table') ∧ rules'.map CRule.code = rules.map CRule.code ∧
      Grown law M idb store table store' table' ∧
      ∀ code ∈ rules.map CRule.code, Q code (law.contents store) (law.contents store') := by
  induction rules generalizing store table with
  | nil => exact ⟨[], store, table, .pure _, rfl, .refl hM, fun code hcode => by cases hcode⟩
  | cons rule rules ih =>
    obtain ⟨rule', s₁, t₁, hret₁, hcode₁, hg₁, hQ₁⟩ :=
      hrun rule mem_cons_self store table hM
    obtain ⟨rules', s₂, t₂, hret₂, hcode₂, hg₂, hQ₂⟩ :=
      ih (fun r hr => hrun r (mem_cons_of_mem rule hr)) s₁ t₁ hg₁.sound
    refine ⟨rule' :: rules', s₂, t₂, hret₁.bind (hret₂.bind (.pure _)), ?_, hg₁.trans hg₂,
      fun code hcode => ?_⟩
    · rw [map_cons, map_cons, hcode₁, hcode₂]
    · rcases mem_cons.1 hcode with rfl | hcode
      · exact hmono _ _ _ _ _ hQ₁ (Finset.Subset.refl _) hg₂.grows
      · exact hmono _ _ _ _ _ (hQ₂ code hcode) hg₁.grows (Finset.Subset.refl _)

/-! ## Instances that fire -/

variable {pos depth : Nat} {S : Finset Fact} {ρ : Nat → Const} {atoms : List CAtom}

theorem fires_none (h : ∀ a ∈ atoms, a.ground ρ ∈ S) : Fires none pos S ρ depth atoms := by
  induction atoms generalizing depth with
  | nil => trivial
  | cons atom rest ih =>
    exact ⟨h atom mem_cons_self, ih fun a ha => h a (mem_cons_of_mem atom ha)⟩

theorem fires_some {d : Delta}
    (h : ∀ a ∈ atoms, a.ground ρ ∈ S)
    (hpos : ∀ i a, atoms[i]? = some a → depth + i = pos → (a.ground ρ).tuple ∈ d.tuples) :
    Fires (some d) pos S ρ depth atoms := by
  induction atoms generalizing depth with
  | nil => trivial
  | cons atom rest ih =>
    refine ⟨?_, ih (fun a ha => h a (mem_cons_of_mem atom ha)) fun i a hi heq => ?_⟩
    · by_cases hd : depth = pos
      · simp only [if_pos hd]
        exact hpos 0 atom rfl hd
      · simp only [if_neg hd]
        exact h atom mem_cons_self
    · exact hpos (i + 1) a hi (by omega)

/-! ## Rounds -/

/-- Every instance with a fact of the delta at a derivable position is used. -/
def UsesDelta (idb : Rel → Bool) (delta : DeltaTable) (code : Code) (S T : Finset Fact) : Prop :=
  ∀ pos atom d ρ, code.body[pos]? = some atom → idb atom.relation = true →
    deltaFind delta atom.relation atom.arity = some d →
    Fires (some d) pos S ρ 0 code.body → code.head.ground ρ ∈ T

/-- The delta holds facts of the store, in relations that have rules. -/
structure DeltaSound (law : Lawful ops) (idb : Rel → Bool) (store : σ) (delta : DeltaTable) :
    Prop where
  fact : ∀ relation arity tuple, delta.Has relation arity tuple →
    arity = tuple.length ∧ ⟨relation, tuple⟩ ∈ law.contents store ∧ idb relation = true
  total : ∀ relation arity tuple, delta.Has relation arity tuple → 0 < delta.total

variable {delta : DeltaTable} {store : σ}

/-- A rule is run once for each atom with a delta. -/
theorem runVariants_spec {idb : Rel → Bool}
    (hdelta : ∀ relation arity tuple, delta.Has relation arity tuple →
      arity = tuple.length ∧ ⟨relation, tuple⟩ ∈ M)
    (hclosed : Closed code.clauses (M : Set Fact)) (hok : code.Ok)
    (hdrop : code.body.drop pos = atoms) {rule : CRule}
    (hcode : rule.code = code) (table : DeltaTable) (hM : law.contents store ⊆ M) :
    ∃ rule' store' table',
      Returns (fun fuel => runVariants ops fuel idb delta atoms pos rule store table)
        (.ok, rule', store', table') ∧ rule'.code = code ∧
      Grown law M (fun r => r = code.head.relation) store table store' table' ∧
      ∀ i atom d ρ, pos ≤ i → code.body[i]? = some atom → idb atom.relation = true →
        deltaFind delta atom.relation atom.arity = some d →
        Fires (some d) i (law.contents store) ρ 0 code.body →
        code.head.ground ρ ∈ law.contents store' := by
  induction atoms generalizing pos rule store table with
  | nil =>
    refine ⟨rule, store, table, .pure _, hcode, .refl hM, fun i atom d ρ hi hatom => ?_⟩
    have hle := drop_eq_nil_iff.1 hdrop
    have hlt := (List.getElem?_eq_some_iff.1 hatom).1
    omega
  | cons atom rest ih =>
    have hrest : code.body.drop (pos + 1) = rest := by
      rw [← drop_drop, hdrop]
      rfl
    have hatom : code.body[pos]? = some atom := by
      rw [← List.head?_drop, hdrop]
      rfl
    -- the variant at this position, when there is one
    have hvariant : ∃ rule' store' table',
        Returns (fun fuel => runVariant ops fuel idb delta rule pos atom store table)
          (.ok, rule', store', table') ∧ rule'.code = code ∧
        Grown law M (fun r => r = code.head.relation) store table store' table' ∧
        ∀ d ρ, idb atom.relation = true → deltaFind delta atom.relation atom.arity = some d →
          Fires (some d) pos (law.contents store) ρ 0 code.body →
          code.head.ground ρ ∈ law.contents store' := by
      by_cases hidb : idb atom.relation = true
      · obtain hnone | ⟨d, hd⟩ :=
          Option.eq_none_or_eq_some (deltaFind delta atom.relation atom.arity)
        · refine ⟨rule, store, table, ?_, hcode, .refl hM, fun d ρ _ hd => ?_⟩
          · simp only [runVariant, if_pos hidb, hnone]
            exact .pure _
          · rw [hnone] at hd
            cases hd
        · have hdok : DeltaOk rule.code M (some d) pos := by
            intro d' hd' atom' hatom' t ht
            cases hd'
            rw [hcode, hatom] at hatom'
            cases hatom'
            obtain ⟨hlen, hin⟩ := hdelta _ _ _ ⟨d, hd, ht⟩
            exact ⟨hlen.symm, hin⟩
          obtain ⟨scratch, s₁, t₁, hret, hg, hfires⟩ := joinRule_spec table
            (hcode ▸ hclosed) (hcode ▸ hok) hdok hM
          rw [hcode] at hg hfires
          refine ⟨{ rule with scratch := scratch }, s₁, t₁, ?_, hcode, hg,
            fun d' ρ _ hd' hF => ?_⟩
          · simp only [runVariant, if_pos hidb, hd]
            exact hret
          · rw [hd] at hd'
            cases hd'
            exact hfires ρ hF
      · refine ⟨rule, store, table, ?_, hcode, .refl hM, fun d ρ h => absurd h hidb⟩
        simp only [runVariant, if_neg hidb]
        exact .pure _
    obtain ⟨rule₁, s₁, t₁, hret₁, hcode₁, hg₁, hfires₁⟩ := hvariant
    obtain ⟨rule₂, s₂, t₂, hret₂, hcode₂, hg₂, hfires₂⟩ :=
      ih hrest hcode₁ t₁ hg₁.sound
    refine ⟨rule₂, s₂, t₂, hret₁.bind hret₂, hcode₂, hg₁.trans hg₂,
      fun i atom' d ρ hi hatom' hidb hd hF => ?_⟩
    by_cases hip : i = pos
    · subst hip
      rw [hatom] at hatom'
      cases hatom'
      exact hg₂.grows (hfires₁ d ρ hidb hd hF)
    · exact hfires₂ i atom' d ρ (by omega) hatom' hidb hd (hF.mono hg₁.grows)

/-- What is in a delta. -/
def DeltaTable.facts (delta : DeltaTable) : Set Fact :=
  {f | delta.Has f.relation f.tuple.length f.tuple}

theorem relationIsIdb_iff {r : Rel} :
    relationIsIdb rules r = true ↔ ∃ code ∈ rules.map CRule.code, code.head.relation = r := by
  simp [relationIsIdb]

section Rounds

variable {codes : List Code} (hclosed : Closed (codeClauses codes) (M : Set Fact))
  (hok : ∀ code ∈ codes, code.Ok)

include hclosed hok

/-- Round 0 leaves the store closed up to what it recorded. -/
theorem firstRound_spec (hcodes : rules.map CRule.code = codes)
    (hM : law.contents store ⊆ M) :
    ∃ rules' store' delta,
      Returns (fun fuel => eachRule (fun rule store sink =>
        joinRule ops fuel rule store sink none 0) rules store .init) (.ok, rules', store', delta) ∧
      rules'.map CRule.code = codes ∧
      Grown law M (fun r => relationIsIdb rules r = true) store .init store' delta ∧
      ClosedUpTo (codeClauses codes) (law.contents store') delta.facts := by
  obtain ⟨rules', store', delta, hret, hcodes', hg, hQ⟩ := eachRule_spec (M := M)
    (fun fuel rule store sink => joinRule ops fuel rule store sink none 0)
    (fun r => relationIsIdb rules r = true)
    (fun code S T => ∀ ρ, Fires none 0 S ρ 0 code.body → code.head.ground ρ ∈ T)
    (fun code S S' T T' hQ hS hT ρ hF => hT (hQ ρ (hF.mono hS)))
    (fun rule hrule store table hM => by
      have hcode : rule.code ∈ codes := hcodes ▸ mem_map_of_mem hrule
      obtain ⟨scratch, s, t, hret, hg, hfires⟩ := joinRule_spec table
        (closed_code hclosed hcode) (hok _ hcode) (DeltaOk.none rule.code M 0) hM
      refine ⟨_, s, t, hret, rfl, hg.mono fun r hr => ?_, hfires⟩
      exact relationIsIdb_iff.2 ⟨rule.code, mem_map_of_mem hrule, hr.symm⟩)
    store .init hM
  refine ⟨rules', store', delta, hret, hcodes'.trans hcodes, hg,
    closedUpTo_first (S := (law.contents store : Set Fact)) ?_ fun f hf hnot => ?_⟩
  · rintro c ⟨code, hcode, ρ, rfl⟩ hprem
    exact hQ code (hcodes ▸ hcode) ρ (fires_none fun a ha => hprem ⟨a, ha, rfl⟩)
  · exact (hg.sink _ _ _).2 (.inr ⟨rfl, hf, hnot⟩)

/-- A later round leaves the store closed up to what it recorded. -/
theorem runRound_spec (hcodes : rules.map CRule.code = codes)
    (next : DeltaTable) (hM : law.contents store ⊆ M)
    (hdelta : ∀ relation arity tuple, delta.Has relation arity tuple → arity = tuple.length ∧
      ⟨relation, tuple⟩ ∈ law.contents store ∧ relationIsIdb rules relation = true)
    (hup : ClosedUpTo (codeClauses codes) (law.contents store) delta.facts) :
    ∃ rules' store' next',
      Returns (fun fuel => runRound ops fuel rules store delta next) (.ok, rules', store', next') ∧
      rules'.map CRule.code = codes ∧
      Grown law M (fun r => relationIsIdb rules r = true) store next store' next' ∧
      ClosedUpTo (codeClauses codes) (law.contents store') next'.facts := by
  obtain ⟨rules', store', next', hret, hcodes', hg, hQ⟩ := eachRule_spec (M := M)
    (fun fuel rule => runVariants ops fuel (relationIsIdb rules) delta rule.code.body 0 rule)
    (fun r => relationIsIdb rules r = true) (UsesDelta (relationIsIdb rules) delta)
    (fun code S S' T T' hQ hS hT pos atom d ρ hatom hidb hd hF =>
      hT (hQ pos atom d ρ hatom hidb hd (hF.mono hS)))
    (fun rule hrule store₁ table hM₁ => by
      have hcode : rule.code ∈ codes := hcodes ▸ mem_map_of_mem hrule
      obtain ⟨rule', s, t, hret, hcode', hg, hfires⟩ := runVariants_spec (M := M)
        (fun relation arity tuple h => ⟨(hdelta _ _ _ h).1, hM (hdelta _ _ _ h).2.1⟩)
        (closed_code hclosed hcode) (hok _ hcode) drop_zero rfl table hM₁
      refine ⟨rule', s, t, hret, hcode', hg.mono fun r hr => ?_,
        fun pos atom d ρ hatom hidb hd hF => hfires pos atom d ρ (Nat.zero_le _) hatom hidb hd hF⟩
      exact relationIsIdb_iff.2 ⟨rule.code, mem_map_of_mem hrule, hr.symm⟩)
    store next hM
  refine ⟨rules', store', next', hret, hcodes'.trans hcodes, hg,
    hup.round (fun f hf => hg.grows hf) ?_ fun f hf hnot => ?_⟩
  · rintro c ⟨code, hcode, ρ, rfl⟩ hprem ⟨f, ⟨a, ha, rfl⟩, hfΔ⟩
    obtain ⟨d, hd, htuple⟩ := hfΔ
    obtain ⟨-, -, hidb⟩ := hdelta _ _ _ ⟨d, hd, htuple⟩
    obtain ⟨pos, hpos⟩ := List.getElem?_of_mem ha
    have harity : (a.ground ρ).tuple.length = a.arity := length_map _
    rw [harity] at hd
    refine hQ code (hcodes ▸ hcode) pos a d ρ hpos hidb hd
      (fires_some (fun b hb => hprem ⟨b, hb, rfl⟩) fun i b hb hi => ?_)
    obtain rfl : i = pos := by omega
    rw [hpos] at hb
    cases hb
    exact htuple
  · exact (hg.sink _ _ _).2 (.inr ⟨rfl, hf, hnot⟩)

variable {next : DeltaTable}

omit hclosed hok in
theorem Grown.deltaSound {idb : Rel → Bool} {store' : σ} {next' : DeltaTable}
    (h : Grown law M (fun r => idb r = true) store next store' next')
    (hnext : ∀ relation arity tuple, ¬ next.Has relation arity tuple) (htotal : next.total = 0) :
    DeltaSound law idb store' next' := by
  have hnew : ∀ relation arity tuple, next'.Has relation arity tuple → arity = tuple.length ∧
      ⟨relation, tuple⟩ ∈ law.contents store' ∧ ⟨relation, tuple⟩ ∉ law.contents store :=
    fun _ _ _ hhas => ((h.sink _ _ _).1 hhas).resolve_left (hnext _ _ _)
  refine ⟨fun relation arity tuple hhas => ?_, fun relation arity tuple hhas => ?_⟩
  · obtain ⟨ha, hin, hnot⟩ := hnew _ _ _ hhas
    exact ⟨ha, hin, h.heads _ hin hnot⟩
  · obtain ⟨-, hin, hnot⟩ := hnew _ _ _ hhas
    have hlt : (law.contents store).card < (law.contents store').card :=
      Finset.card_lt_card (Finset.ssubset_iff_subset_ne.2 ⟨h.grows, fun heq => hnot (heq ▸ hin)⟩)
    have htot := h.total
    omega

omit hclosed hok in
theorem fixpointLoop_done (h : delta.total = 0) :
    Returns (fun fuel => fixpointLoop ops fuel rules store delta next) (.ok, rules, store) := by
  refine Returns.succ ?_
  have hnot : ¬ delta.total > 0 := by omega
  simp only [fixpointLoop, if_neg hnot]
  exact .pure _

theorem fixpointLoop_spec (hcodes : rules.map CRule.code = codes)
    (next : DeltaTable) (hM : law.contents store ⊆ M)
    (hdelta : DeltaSound law (relationIsIdb rules) store delta)
    (hnext : ∀ relation arity tuple, ¬ next.Has relation arity tuple) (htotal : next.total = 0)
    (hup : ClosedUpTo (codeClauses codes) (law.contents store) delta.facts) :
    ∃ rules' store', Returns (fun fuel => fixpointLoop ops fuel rules store delta next)
        (.ok, rules', store') ∧ rules'.map CRule.code = codes ∧
      law.contents store ⊆ law.contents store' ∧ law.contents store' ⊆ M ∧
      Closed (codeClauses codes) (law.contents store' : Set Fact) := by
  have hempty : delta.total = 0 → Closed (codeClauses codes) (law.contents store : Set Fact) :=
    fun h => hup.closed fun f hf => Nat.ne_of_gt (hdelta.total _ _ _ hf) h
  induction hroom : M.card - (law.contents store).card using Nat.strong_induction_on
    generalizing rules store delta next with
  | _ room ih =>
  by_cases hzero : delta.total = 0
  · exact ⟨rules, store, fixpointLoop_done hzero, hcodes, Finset.Subset.refl _, hM, hempty hzero⟩
  obtain ⟨rules₁, store₁, delta₁, hret₁, hcodes₁, hg₁, hup₁⟩ :=
    runRound_spec hclosed hok hcodes next hM hdelta.fact hup
  have hidb : relationIsIdb rules₁ = relationIsIdb rules := by
    funext r
    rw [Bool.eq_iff_iff, relationIsIdb_iff, relationIsIdb_iff, hcodes, hcodes₁]
  have hdelta₁ : DeltaSound law (relationIsIdb rules₁) store₁ delta₁ := by
    rw [hidb]
    exact hg₁.deltaSound hnext htotal
  have hempty₁ : delta₁.total = 0 → Closed (codeClauses codes) (law.contents store₁ : Set Fact) :=
    fun h => hup₁.closed fun f hf => Nat.ne_of_gt (hdelta₁.total _ _ _ hf) h
  -- a round that records nothing is the last one
  have hrest : ∃ rules' store',
      Returns (fun fuel => fixpointLoop ops fuel rules₁ store₁ delta₁ (deltaTableClear delta))
        (.ok, rules', store') ∧ rules'.map CRule.code = codes ∧
      law.contents store₁ ⊆ law.contents store' ∧ law.contents store' ⊆ M ∧
      Closed (codeClauses codes) (law.contents store' : Set Fact) := by
    by_cases hzero₁ : delta₁.total = 0
    · exact ⟨rules₁, store₁, fixpointLoop_done hzero₁, hcodes₁, Finset.Subset.refl _, hg₁.sound,
        hempty₁ hzero₁⟩
    · refine ih _ ?_ hcodes₁ _ hg₁.sound hdelta₁ (fun _ _ _ => not_has_clear) rfl hup₁ hempty₁ rfl
      have htot := hg₁.total
      have hle := Finset.card_le_card hg₁.sound
      omega
  obtain ⟨rules₂, store₂, hret₂, hcodes₂, hgrows₂, hsound₂, hclosed₂⟩ := hrest
  refine ⟨rules₂, store₂, Returns.succ ?_, hcodes₂, hg₁.grows.trans hgrows₂, hsound₂, hclosed₂⟩
  have hpos : delta.total > 0 := by omega
  simp only [fixpointLoop, if_pos hpos]
  exact hret₁.bind hret₂

end Rounds

/-- `dl89_fixpoint_run` ends with the least model of the rules above the store. -/
theorem fixpointRun_spec (law : Lawful ops)
    (hok : ∀ rule ∈ rules, rule.code.Ok) (store : σ) :
    ∃ rules' store', Returns (fun fuel => fixpointRun ops fuel rules store) (.ok, rules', store') ∧
      rules'.map CRule.code = rules.map CRule.code ∧
      (law.contents store' : Set Fact) =
        least (codeClauses (rules.map CRule.code)) (law.contents store) := by
  have hok' : ∀ code ∈ rules.map CRule.code, code.Ok := by
    intro code hcode
    obtain ⟨rule, hrule, rfl⟩ := mem_map.1 hcode
    exact hok rule hrule
  have hfinite := least_finite hok' (law.contents store)
  have hMcoe : (hfinite.toFinset : Set Fact) =
      least (codeClauses (rules.map CRule.code)) (law.contents store) := hfinite.coe_toFinset
  have hclosed : Closed (codeClauses (rules.map CRule.code)) (hfinite.toFinset : Set Fact) := by
    rw [hMcoe]
    exact closed_least
  have hM : law.contents store ⊆ hfinite.toFinset := by
    rw [← Finset.coe_subset, hMcoe]
    exact subset_least
  obtain ⟨rules₁, store₁, delta, hret₁, hcodes₁, hg₁, hup₁⟩ :=
    firstRound_spec hclosed hok' rfl hM
  have hidb : relationIsIdb rules₁ = relationIsIdb rules := by
    funext r
    rw [Bool.eq_iff_iff, relationIsIdb_iff, relationIsIdb_iff, hcodes₁]
  have hdelta : DeltaSound law (relationIsIdb rules₁) store₁ delta := by
    rw [hidb]
    exact hg₁.deltaSound (fun _ _ _ => not_has_init) rfl
  obtain ⟨rules₂, store₂, hret₂, hcodes₂, hgrows₂, hsound₂, hclosed₂⟩ :=
    fixpointLoop_spec hclosed hok' hcodes₁ .init hg₁.sound hdelta
      (fun _ _ _ => not_has_init) rfl hup₁
  refine ⟨rules₂, store₂, hret₁.bind hret₂, hcodes₂, eq_least ?_ hclosed₂ ?_⟩
  · exact Finset.coe_subset.2 (hg₁.grows.trans hgrows₂)
  · rw [← hMcoe]
    exact Finset.coe_subset.2 hsound₂

end Dl89
