import EightyNine.Dl89.Model

/-!
# A join fires every matching instance

A join at some depth leaves the bindings and the log of the shallower depths as
they were, keeps the scans that are open, and adds to the store instances of the
head that hold in every model (`Frame`).  It adds the head of every instance
whose remaining body facts are there when it starts (`Fires`).  One tuple, the
loop over a scan and the loop over a delta each keep this, and the join follows
by induction on the remaining atoms.
-/

namespace Dl89

open Library List

variable {σ ι : Type} {ops : StoreOps σ ι} (law : Lawful ops) (code : Code) (M : Finset Fact)

/-! ## What a join keeps -/

/-- What a join at `depth` may change, for the open scans in `K`. -/
structure Frame (depth : Nat) (K : ι → Prop) (st st' : Join σ) : Prop where
  grows : law.contents st.store ⊆ law.contents st'.store
  sound : law.contents st'.store ⊆ M
  heads : ∀ f ∈ law.contents st'.store, f ∉ law.contents st.store →
    f.relation = code.head.relation
  bound : st'.scratch.bound = st.scratch.bound
  env : ∀ i, st.scratch.bound i = true → st'.scratch.env i = st.scratch.env i
  log : ∀ k, k < depth * code.tupleCap → st'.scratch.boundLog k = st.scratch.boundLog k
  scans : ∀ h v, K h → law.scans st.store h = some v →
    ∃ left, law.scans st'.store h = some { v with left := left } ∧
      (law.contents st'.store = law.contents st.store → left ≤ v.left)
  sink : ∀ relation arity tuple, st'.sink.Has relation arity tuple ↔
    st.sink.Has relation arity tuple ∨ arity = tuple.length ∧
      ⟨relation, tuple⟩ ∈ law.contents st'.store ∧ ⟨relation, tuple⟩ ∉ law.contents st.store
  total : st'.sink.total + (law.contents st.store).card =
    st.sink.total + (law.contents st'.store).card

variable {law code M} {depth : Nat} {K : ι → Prop} {st st' st'' : Join σ}

/-- Changes that keep the facts, the sink and the scans in `K`. -/
theorem Frame.of_contents (hM : law.contents st.store ⊆ M)
    (hcont : law.contents st'.store = law.contents st.store) (hsink : st'.sink = st.sink)
    (hscans : ∀ h v, K h → law.scans st.store h = some v → law.scans st'.store h = some v)
    (hbound : st'.scratch.bound = st.scratch.bound)
    (henv : ∀ i, st.scratch.bound i = true → st'.scratch.env i = st.scratch.env i)
    (hlog : ∀ k, k < depth * code.tupleCap → st'.scratch.boundLog k = st.scratch.boundLog k) :
    Frame law code M depth K st st' where
  grows := by rw [hcont]
  sound := by rw [hcont]; exact hM
  heads f hf hnot := by rw [hcont] at hf; exact absurd hf hnot
  bound := hbound
  env := henv
  log := hlog
  scans h v hK hv := ⟨v.left, hscans h v hK hv, fun _ => Nat.le_refl _⟩
  sink relation arity tuple := by
    rw [hcont, hsink]
    exact (or_iff_left fun h => h.2.2 h.2.1).symm
  total := by rw [hcont, hsink]

theorem Frame.of_scratch {scratch : Scratch} (hM : law.contents st.store ⊆ M)
    (hbound : scratch.bound = st.scratch.bound)
    (henv : ∀ i, st.scratch.bound i = true → scratch.env i = st.scratch.env i)
    (hlog : ∀ k, k < depth * code.tupleCap → scratch.boundLog k = st.scratch.boundLog k) :
    Frame law code M depth K st { st with scratch := scratch } :=
  .of_contents hM rfl rfl (fun _ _ _ h => h) hbound henv hlog

theorem Frame.refl (hM : law.contents st.store ⊆ M) : Frame law code M depth K st st :=
  .of_contents hM rfl rfl (fun _ _ _ h => h) rfl (fun _ _ => rfl) fun _ _ => rfl

theorem Frame.trans (h : Frame law code M depth K st st') (h' : Frame law code M depth K st' st'') :
    Frame law code M depth K st st'' where
  grows := h.grows.trans h'.grows
  sound := h'.sound
  heads f hf hnot := by
    by_cases hf' : f ∈ law.contents st'.store
    · exact h.heads f hf' hnot
    · exact h'.heads f hf hf'
  bound := h'.bound.trans h.bound
  env i hi := by rw [h'.env i (by rw [h.bound]; exact hi), h.env i hi]
  log k hk := by rw [h'.log k hk, h.log k hk]
  scans k v hK hv := by
    obtain ⟨left, hv', hle⟩ := h.scans k v hK hv
    obtain ⟨left', hv'', hle'⟩ := h'.scans k _ hK hv'
    refine ⟨left', hv'', fun heq => ?_⟩
    have heq' : law.contents st'.store = law.contents st.store :=
      Finset.Subset.antisymm (heq ▸ h'.grows) h.grows
    exact (hle' (heq.trans heq'.symm)).trans (hle heq')
  sink relation arity tuple := by
    rw [h'.sink, h.sink, or_assoc]
    refine or_congr_right ⟨?_, ?_⟩
    · rintro (⟨ha, hin, hnot⟩ | ⟨ha, hin, hnot⟩)
      · exact ⟨ha, h'.grows hin, hnot⟩
      · exact ⟨ha, hin, fun hin' => hnot (h.grows hin')⟩
    · rintro ⟨ha, hin, hnot⟩
      by_cases hin' : ⟨relation, tuple⟩ ∈ law.contents st'.store
      · exact .inl ⟨ha, hin', hnot⟩
      · exact .inr ⟨ha, hin, hin'⟩
  total := by
    have h₁ := h.total
    have h₂ := h'.total
    omega

theorem Frame.weaken {depth' : Nat} {K' : ι → Prop} (h : Frame law code M depth' K' st st')
    (hdepth : depth ≤ depth') (hK : ∀ i, K i → K' i) : Frame law code M depth K st st' :=
  { h with
    log := fun k hk => h.log k (hk.trans_le (Nat.mul_le_mul_right _ hdepth))
    scans := fun i v hi => h.scans i v (hK i hi) }

variable {ρ : Nat → Const}

theorem Frame.extended (h : Frame law code M depth K st st')
    (hρ : st.scratch.Extended ρ) : st'.scratch.Extended ρ := by
  intro i hi
  rw [h.bound] at hi
  rw [hρ i hi, h.env i hi]

/-! ## Instances -/

/-- The remaining body facts of an instance are there: at the delta position in
the delta, elsewhere in the store. -/
def Fires (delta : Option Delta) (pos : Nat) (S : Finset Fact) (ρ : Nat → Const) :
    Nat → List CAtom → Prop
  | _, [] => True
  | depth, atom :: rest =>
    (match delta with
      | none => atom.ground ρ ∈ S
      | some d => if depth = pos then (atom.ground ρ).tuple ∈ d.tuples else atom.ground ρ ∈ S) ∧
    Fires delta pos S ρ (depth + 1) rest

variable {delta : Option Delta} {pos : Nat}

variable {atoms : List CAtom}

theorem Fires.mono {S S' : Finset Fact}
    (h : Fires delta pos S ρ depth atoms) (hS : S ⊆ S') : Fires delta pos S' ρ depth atoms := by
  induction atoms generalizing depth with
  | nil => trivial
  | cons atom rest ih =>
    refine ⟨?_, ih h.2⟩
    have h₁ := h.1
    cases delta with
    | none => exact hS h₁
    | some d =>
      by_cases hd : depth = pos
      · simp only [if_pos hd] at h₁ ⊢
        exact h₁
      · simp only [if_neg hd] at h₁ ⊢
        exact hS h₁

/-- The facts of the atoms before `depth` hold in the model, under bindings that
are made. -/
structure Ready (law : Lawful ops) (code : Code) (M : Finset Fact) (depth : Nat) (st : Join σ) :
    Prop where
  sound : law.contents st.store ⊆ M
  past : ∀ a ∈ code.body.take depth, a.ground st.scratch.env ∈ M ∧
    ∀ i, a.Uses i → st.scratch.bound i = true

theorem Ready.frame (h : Ready law code M depth st) (hf : Frame law code M depth K st st') :
    Ready law code M depth st' where
  sound := hf.sound
  past a ha := by
    obtain ⟨hin, hb⟩ := h.past a ha
    refine ⟨?_, fun i hi => by rw [hf.bound]; exact hb i hi⟩
    rw [CAtom.ground_congr fun i hi => hf.env i (hb i hi)]
    exact hin

/-- A step of a join, which adds the head of every instance in `F`. -/
def Joins (law : Lawful ops) (code : Code) (M : Finset Fact) (depth : Nat) (K : ι → Prop)
    (F : (Nat → Const) → Prop) (run : Nat → Option (Status × Join σ)) (st : Join σ) : Prop :=
  ∃ st', Returns run (.ok, st') ∧ Frame law code M depth K st st' ∧
    ∀ ρ, st.scratch.Extended ρ → F ρ → code.head.ground ρ ∈ law.contents st'.store

/-! ## The head -/

/-- The head of a rule is inserted. -/
theorem emitHead_spec (hclosed : Closed code.clauses (M : Set Fact)) (hok : code.Ok)
    (h : Ready law code M code.body.length st) (F : (Nat → Const) → Prop) :
    Joins law code M code.body.length K F (fun _ => some (emitHead ops code st)) st := by
  have htake : code.body.take code.body.length = code.body := take_length
  have hpast : ∀ a ∈ code.body, a.ground st.scratch.env ∈ M ∧
      ∀ i, a.Uses i → st.scratch.bound i = true := fun a ha => h.past a (by rw [htake]; exact ha)
  have hhead : code.head.ground st.scratch.env ∈ M :=
    Code.closed_iff.1 hclosed st.scratch.env fun a ha => (hpast a ha).1
  obtain ⟨s', inserted, hins, hnew, hcont, hscans⟩ := law.insert_spec st.store code.head.relation
    (code.head.terms.map (headValue st.scratch.env))
  rw [length_map] at hins
  have hfact : (⟨code.head.relation, code.head.terms.map (headValue st.scratch.env)⟩ : Fact) =
      code.head.ground st.scratch.env := rfl
  rw [hfact] at hnew hcont hscans
  have hmem : ∀ f, f ∈ law.contents s' ↔
      f = code.head.ground st.scratch.env ∨ f ∈ law.contents st.store := fun f => by
    rw [hcont, Finset.mem_insert]
  have hfires : ∀ ρ, st.scratch.Extended ρ →
      code.head.ground ρ = code.head.ground st.scratch.env := by
    intro ρ hρ
    refine CAtom.ground_congr fun i hi => ?_
    obtain ⟨a, ha, hai⟩ := hok.safe i hi
    exact hρ i ((hpast a ha).2 i hai)
  have heq : emitHead ops code st = (.ok, ⟨s', { st.scratch with
      tuple := code.head.terms.map (headValue st.scratch.env) },
      if inserted then deltaRecord st.sink code.head.relation code.head.arity
        (code.head.terms.map (headValue st.scratch.env)) else st.sink⟩) := by
    simp only [emitHead, CAtom.arity, hins]
    cases inserted with
    | true | false => simp
  rw [heq]
  refine ⟨_, .pure _, ⟨fun f hf => (hmem f).2 (.inr hf), fun f hf => ?_, fun f hf hnot => ?_,
    rfl, fun _ _ => rfl, fun _ _ => rfl, fun k v _ hv => ?_, fun relation arity tuple => ?_, ?_⟩,
    fun ρ hρ _ => (hmem _).2 (.inl (hfires ρ hρ))⟩
  · rcases (hmem f).1 hf with rfl | hf
    · exact hhead
    · exact h.sound hf
  · rcases (hmem f).1 hf with rfl | hf
    · rfl
    · exact absurd hf hnot
  · obtain ⟨left, hv', hle⟩ := hscans k v hv
    refine ⟨left, hv', fun hsame => hle ?_⟩
    have hin := (hmem (code.head.ground st.scratch.env)).2 (.inl rfl)
    exact hsame ▸ hin
  · show DeltaTable.Has (if inserted then _ else st.sink) relation arity tuple ↔ _
    cases inserted with
    | true =>
      have hnot := hnew.1 rfl
      simp only [if_true]
      rw [has_deltaRecord]
      refine or_congr_right ⟨?_, ?_⟩
      · rintro ⟨rfl, rfl, rfl⟩
        exact ⟨(length_map _).symm, (hmem _).2 (.inl rfl), hnot⟩
      · rintro ⟨rfl, hin, hnot'⟩
        rcases (hmem _).1 hin with heq' | hin
        · obtain ⟨rfl, rfl⟩ := Fact.mk.inj heq'
          exact ⟨rfl, length_map _, rfl⟩
        · exact absurd hin hnot'
    | false =>
      have hin : code.head.ground st.scratch.env ∈ law.contents st.store := by
        by_contra hnot
        exact Bool.false_ne_true (hnew.2 hnot)
      simp only [Bool.false_eq_true, if_false]
      refine (or_iff_left ?_).symm
      rintro ⟨-, hin', hnot⟩
      rcases (hmem _).1 hin' with heq' | hin'
      · exact hnot (heq' ▸ hin)
      · exact hnot hin'
  · show DeltaTable.total (if inserted then _ else st.sink) + _ = _ + (law.contents s').card
    cases inserted with
    | true =>
      rw [hcont, Finset.card_insert_of_notMem (hnew.1 rfl)]
      simp only [if_true, deltaRecord]
      omega
    | false =>
      have hin : code.head.ground st.scratch.env ∈ law.contents st.store := by
        by_contra hnot
        exact Bool.false_ne_true (hnew.2 hnot)
      rw [hcont, Finset.insert_eq_of_mem hin]
      simp

/-! ## One tuple -/

variable {atom : CAtom} {rest : List CAtom} {inner : Nat → Join σ → Option (Status × Join σ)}

section

variable (hok : code.Ok) (hdrop : code.body.drop depth = atom :: rest)
    (hinner : ∀ st, Ready law code M (depth + 1) st →
      Joins law code M (depth + 1) (fun _ => True)
        (fun ρ => Fires delta pos (law.contents st.store) ρ (depth + 1) rest)
        (fun fuel => inner fuel st) st)

include hok hdrop hinner

theorem deltaStep_spec {tuple : List Const} (h : Ready law code M depth st)
    (hlen : tuple.length = atom.arity) (htuple : ⟨atom.relation, tuple⟩ ∈ M) :
    Joins law code M depth (fun _ => True)
      (fun ρ => atom.ground ρ = ⟨atom.relation, tuple⟩ ∧
        Fires delta pos (law.contents st.store) ρ (depth + 1) rest)
      (fun fuel => deltaStep code atom depth (inner fuel) tuple st) st := by
  have hmem : atom ∈ code.body := mem_of_mem_drop (hdrop ▸ mem_cons_self)
  have hbase : depth * code.tupleCap + atom.arity ≤ (depth + 1) * code.tupleCap := by
    rw [Nat.succ_mul]
    exact Nat.add_le_add_left (hok.fits atom hmem) _
  obtain ⟨s₁, n, matched, heq, hu, hle, hm, hρ⟩ :=
    unifyTuple_spec (depth * code.tupleCap) atom.terms tuple st.scratch 0 hlen
  rw [Nat.zero_add] at hle
  have hle' : n ≤ atom.arity := hle
  cases matched with
  | false =>
    refine ⟨⟨st.store, unbind s₁ (depth * code.tupleCap) n, st.sink⟩, ⟨0, fun fuel _ => ?_⟩,
      .of_scratch h.sound (hu.unbind rfl fun _ _ => rfl) (fun i hi => ?_) fun k hk => ?_,
      fun ρ hext hF => ?_⟩
    · simp [deltaStep, heq]
    · rw [unbind_env]
      exact hu.env i hi
    · rw [unbind_log]
      exact hu.log k hk
    · exact absurd (hρ ρ hext (Fact.mk.inj hF.1).2).1 Bool.false_ne_true
  | true =>
    obtain ⟨hground, hslots⟩ := hm rfl
    -- the bindings of the shallower atoms are not touched by the unification
    have hready : Ready law code M (depth + 1) { st with scratch := s₁ } := by
      refine ⟨h.sound, fun a ha => ?_⟩
      have hone : code.body.take (depth + 1) = code.body.take depth ++ [atom] := by
        rw [take_add_one, ← List.head?_drop, hdrop]
        rfl
      rw [hone, mem_append, mem_singleton] at ha
      rcases ha with ha | rfl
      · obtain ⟨hin, hb⟩ := h.past a ha
        refine ⟨?_, fun i hi => (hu.bound i).2 (.inl (hb i hi))⟩
        rw [CAtom.ground_congr fun i hi => hu.env i (hb i hi)]
        exact hin
      · refine ⟨?_, fun i hi => hslots i hi⟩
        rw [CAtom.ground, hground]
        exact htuple
    obtain ⟨st₂, hret, hf, hfires⟩ := hinner _ hready
    have hlog : ∀ k, k < depth * code.tupleCap + n →
        st₂.scratch.boundLog k = s₁.boundLog k := fun k hk => hf.log k (by omega)
    refine ⟨{ st₂ with scratch := unbind st₂.scratch (depth * code.tupleCap) n }, ?_, ?_,
      fun ρ hext hF => hfires ρ (hρ ρ hext (Fact.mk.inj hF.1).2).2 hF.2⟩
    · simp only [deltaStep, heq, if_true]
      exact hret.bind (.pure _)
    · refine ⟨hf.grows, hf.sound, hf.heads, hu.unbind hf.bound hlog, fun i hi => ?_,
        fun k hk => ?_, hf.scans, hf.sink, hf.total⟩
      · rw [unbind_env, hf.env i ((hu.bound i).2 (.inl hi)), hu.env i hi]
      · rw [unbind_log, hf.log k (by omega), hu.log k hk]

/-! ## The loops -/

/-- The scan returns what it owes, and ends because nothing new can be inserted
for ever. -/
theorem scanLoop_spec {scan : ι} {v : ScanView} (h : Ready law code M depth st)
    (hv : law.scans st.store scan = some v) (hrel : v.relation = atom.relation)
    (hlen : v.values.length = atom.arity) :
    Joins law code M depth (fun i => i ≠ scan)
      (fun ρ => (atom.ground ρ).tuple ∈ v.owed ∧
        Fires delta pos (law.contents st.store) ρ (depth + 1) rest)
      (fun fuel => scanLoop ops code atom depth inner scan fuel st) st := by
  induction hroom : M.card - (law.contents st.store).card using Nat.strong_induction_on
    generalizing st v with
  | _ room ihroom =>
  induction hleft : v.left using Nat.strong_induction_on generalizing st v with
  | _ left ihleft =>
  obtain ⟨s', found, hnext, hcont, hothers, hfound⟩ := law.next_spec st.store scan v hv
  have hroom_le := Finset.card_le_card h.sound
  have hframe : ∀ scratch : Scratch, scratch.bound = st.scratch.bound →
      scratch.env = st.scratch.env → scratch.boundLog = st.scratch.boundLog →
      Frame law code M depth (fun i => i ≠ scan) st ⟨s', scratch, st.sink⟩ :=
    fun scratch hb he hl => .of_contents h.sound hcont rfl (fun k w hk hw => hothers k w hk hw) hb
      (fun i _ => congrFun he i) fun k _ => congrFun hl k
  cases found with
  | none =>
    refine ⟨⟨s', st.scratch, st.sink⟩, Returns.succ ?_, hframe _ rfl rfl rfl, fun ρ _ hF => ?_⟩
    · simp only [scanLoop, hnext]
      exact .pure _
    · have hempty : v.owed = ∅ := hfound
      rw [hempty] at hF
      exact hF.1.elim
  | some tuple =>
    obtain ⟨hin, hmatch, owed, left', hv', howed, hlt⟩ := hfound
    rw [hrel] at hin
    have hf₁ := hframe { st.scratch with tuple := tuple } rfl rfl rfl
    obtain ⟨st₂, hret₂, hf₂, hfires₂⟩ := deltaStep_spec hok hdrop hinner
      (h.frame hf₁) (hmatch.1.trans hlen) (h.sound hin)
    have hf₂' := hf₁.trans (hf₂.weaken (Nat.le_refl _) (K := fun i => i ≠ scan) fun _ _ => trivial)
    obtain ⟨left'', hv₂, hle⟩ := hf₂.scans scan _ trivial hv'
    -- either a new fact is in the store, or the scan has less left
    have hnext : Joins law code M depth (fun i => i ≠ scan)
        (fun ρ => (atom.ground ρ).tuple ∈ owed ∧
          Fires delta pos (law.contents st₂.store) ρ (depth + 1) rest)
        (fun fuel => scanLoop ops code atom depth inner scan fuel st₂) st₂ := by
      by_cases hsame : law.contents st₂.store = law.contents st.store
      · refine ihleft left'' ?_ (h.frame hf₂') hv₂ hrel hlen (by rw [hsame]; exact hroom) rfl
        have hle' : left'' ≤ left' := hle (hsame.trans hcont.symm)
        omega
      · refine ihroom _ ?_ (h.frame hf₂') hv₂ hrel hlen rfl
        have hlt' := Finset.card_lt_card (Finset.ssubset_iff_subset_ne.2 ⟨hf₂'.grows, Ne.symm hsame⟩)
        have hle' := Finset.card_le_card hf₂'.sound
        omega
    obtain ⟨st₃, hret₃, hf₃, hfires₃⟩ := hnext
    refine ⟨st₃, Returns.succ ?_, hf₂'.trans hf₃, fun ρ hρ hF => ?_⟩
    · simp only [scanLoop, hnext]
      exact hret₂.bind hret₃
    · by_cases heq : (atom.ground ρ).tuple = tuple
      · refine hf₃.grows (hfires₂ ρ (hf₁.extended hρ) ⟨?_, ?_⟩)
        · rw [← heq]
          rfl
        · exact hF.2.mono (Finset.subset_of_eq hcont.symm)
      · exact hfires₃ ρ (hf₂'.extended hρ) ⟨howed _ hF.1 heq, hF.2.mono hf₂'.grows⟩

theorem deltaAtom_spec {tuples : List (List Const)}
    (h : Ready law code M depth st)
    (htuples : ∀ t ∈ tuples, t.length = atom.arity ∧ ⟨atom.relation, t⟩ ∈ M) :
    Joins law code M depth (fun _ => True)
      (fun ρ => (atom.ground ρ).tuple ∈ tuples ∧
        Fires delta pos (law.contents st.store) ρ (depth + 1) rest)
      (fun fuel => deltaAtom code atom depth (inner fuel) tuples st) st := by
  induction tuples generalizing st with
  | nil => exact ⟨st, .pure _, .refl h.sound, fun ρ _ hF => by cases hF.1⟩
  | cons tuple tuples ih =>
    obtain ⟨hlen, hin⟩ := htuples tuple mem_cons_self
    obtain ⟨st₁, hret₁, hf₁, hfires₁⟩ := deltaStep_spec hok hdrop hinner h hlen hin
    obtain ⟨st₂, hret₂, hf₂, hfires₂⟩ :=
      ih (h.frame hf₁) fun t ht => htuples t (mem_cons_of_mem tuple ht)
    refine ⟨st₂, hret₁.bind hret₂, hf₁.trans hf₂, fun ρ hρ hF => ?_⟩
    rcases mem_cons.1 hF.1 with heq | hmem
    · refine hf₂.grows (hfires₁ ρ hρ ⟨?_, hF.2⟩)
      rw [← heq]
      rfl
    · exact hfires₂ ρ (hf₁.extended hρ) ⟨hmem, hF.2.mono hf₁.grows⟩

omit hok hdrop hinner in
/-- The bindings of a scan are those every instance shares. -/
theorem matches_buildBindings {s : Scratch} (hρ : s.Extended ρ) :
    Matches (buildBindings s atom).values (buildBindings s atom).bvalues (atom.ground ρ).tuple := by
  refine ⟨by simp [buildBindings, CAtom.ground], fun p hp => ?_⟩
  simp only [buildBindings, CAtom.ground, List.getElem?_map, Option.map_eq_some_iff] at hp ⊢
  obtain ⟨t, ht, hb⟩ := hp
  rw [ht, Option.map_some, Option.map_some]
  cases t with
  | const c => rfl
  | slot i =>
    by_cases hi : s.bound i = true
    · rw [bindPosition, if_pos hi, headValue, hρ i hi]
    · rw [bindPosition, if_neg hi] at hb
      cases hb

theorem scanAtom_spec (h : Ready law code M depth st) :
    Joins law code M depth (fun _ => True)
      (fun ρ => atom.ground ρ ∈ law.contents st.store ∧
        Fires delta pos (law.contents st.store) ρ (depth + 1) rest)
      (fun fuel => scanAtom ops code atom depth inner fuel st) st := by
  obtain ⟨s₁, scan, v, hopen, hcont, hnew, hv, hrel, hvalues, -, howed, hothers⟩ :=
    law.open_spec st.store atom.relation (buildBindings st.scratch atom).values
      (buildBindings st.scratch atom).bvalues
  have harity : (buildBindings st.scratch atom).values.length = atom.arity := length_map _
  rw [harity] at hopen
  have hf₁ : Frame law code M depth (fun _ => True) st
      ⟨s₁, buildBindings st.scratch atom, st.sink⟩ :=
    .of_contents h.sound hcont rfl (fun k w _ hw => hothers k w hw) rfl (fun _ _ => rfl)
      fun _ _ => rfl
  obtain ⟨st₂, hret₂, hf₂, hfires₂⟩ := scanLoop_spec hok hdrop hinner
    (h.frame hf₁) hv hrel (by rw [hvalues]; exact harity)
  obtain ⟨hclose, hclosed⟩ := law.close_spec st₂.store scan
  have hf₃ : Frame law code M depth (fun i => i ≠ scan) st₂
      { st₂ with store := ops.scanClose st₂.store scan } :=
    .of_contents hf₂.sound hclose rfl (fun k w hk hw => hclosed k w hk hw) rfl (fun _ _ => rfl)
      fun _ _ => rfl
  have hf := (hf₁.weaken (Nat.le_refl _) (K := fun i => i ≠ scan) fun _ _ => trivial).trans
    (hf₂.trans hf₃)
  refine ⟨_, ?_, { hf with scans := fun k w _ hw => hf.scans k w ?_ hw }, fun ρ hρ hF => ?_⟩
  · simp only [scanAtom, hopen]
    exact hret₂.bind (.pure _)
  · -- the new scan is none of those that were open
    rintro rfl
    rw [hnew] at hw
    cases hw
  · rw [show law.contents (Join.store _) = law.contents st₂.store from hclose]
    refine hfires₂ ρ (hf₁.extended hρ) ⟨howed _ hF.1 (matches_buildBindings hρ), ?_⟩
    exact hF.2.mono (Finset.subset_of_eq hcont.symm)

end

/-! ## The body -/

/-- The delta at a position is for the atom there and holds in the model. -/
def DeltaOk (code : Code) (M : Finset Fact) (delta : Option Delta) (pos : Nat) : Prop :=
  ∀ d, delta = some d → ∀ atom, code.body[pos]? = some atom →
    ∀ t ∈ d.tuples, t.length = atom.arity ∧ ⟨atom.relation, t⟩ ∈ M

theorem DeltaOk.none (code : Code) (M : Finset Fact) (pos : Nat) : DeltaOk code M none pos :=
  fun _ h => nomatch h

/-- `eval_body` on the atoms from `depth` on, by induction on the atoms. -/
theorem evalBody_spec (hclosed : Closed code.clauses (M : Set Fact)) (hok : code.Ok)
    (hdelta : DeltaOk code M delta pos) (hdrop : code.body.drop depth = atoms)
    (hdepth : depth ≤ code.body.length) (h : Ready law code M depth st) :
    Joins law code M depth (fun _ => True)
      (fun ρ => Fires delta pos (law.contents st.store) ρ depth atoms)
      (fun fuel => evalBody ops code delta pos atoms depth fuel st) st := by
  induction atoms generalizing depth st with
  | nil =>
    obtain rfl : depth = code.body.length :=
      Nat.le_antisymm hdepth (drop_eq_nil_iff.1 hdrop)
    exact emitHead_spec hclosed hok h _
  | cons atom rest ih =>
    have hrest : code.body.drop (depth + 1) = rest := by
      rw [← drop_drop, hdrop]
      rfl
    have hatom : code.body[depth]? = some atom := by
      rw [← List.head?_drop, hdrop]
      rfl
    have hlt : depth + 1 ≤ code.body.length := (List.getElem?_eq_some_iff.1 hatom).1
    have hinner : ∀ st, Ready law code M (depth + 1) st →
        Joins law code M (depth + 1) (fun _ => True)
          (fun ρ => Fires delta pos (law.contents st.store) ρ (depth + 1) rest)
          (fun fuel => evalBody ops code delta pos rest (depth + 1) fuel st) st :=
      fun st h => ih hrest hlt h
    have hscan := scanAtom_spec hok hdrop hinner h
    cases delta with
    | none => exact hscan
    | some d =>
      by_cases hpos : depth = pos
      · obtain ⟨st', hret, hf, hfires⟩ :=
          deltaAtom_spec hok hdrop hinner h (hdelta d rfl atom (hpos ▸ hatom))
        refine ⟨st', ?_, hf, fun ρ hρ hF => hfires ρ hρ ?_⟩
        · simp only [evalBody, if_pos hpos]
          exact hret
        · simp only [Fires, if_pos hpos] at hF
          exact hF
      · obtain ⟨st', hret, hf, hfires⟩ := hscan
        refine ⟨st', ?_, hf, fun ρ hρ hF => hfires ρ hρ ?_⟩
        · simp only [evalBody, if_neg hpos]
          exact hret
        · simp only [Fires, if_neg hpos] at hF
          exact hF

/-- What a join of one or more rules does to the store and the sink. -/
structure Grown (law : Lawful ops) (M : Finset Fact) (idb : Rel → Prop) (store : σ)
    (table : DeltaTable) (store' : σ) (table' : DeltaTable) : Prop where
  grows : law.contents store ⊆ law.contents store'
  sound : law.contents store' ⊆ M
  heads : ∀ f ∈ law.contents store', f ∉ law.contents store → idb f.relation
  sink : ∀ relation arity tuple, table'.Has relation arity tuple ↔
    table.Has relation arity tuple ∨ arity = tuple.length ∧
      ⟨relation, tuple⟩ ∈ law.contents store' ∧ ⟨relation, tuple⟩ ∉ law.contents store
  total : table'.total + (law.contents store).card = table.total + (law.contents store').card

/-- `dl89_join_rule` fires every instance whose body facts are there. -/
theorem joinRule_spec {rule : CRule} {store : σ} (sink : DeltaTable)
    (hclosed : Closed rule.code.clauses (M : Set Fact)) (hok : rule.code.Ok)
    (hdelta : DeltaOk rule.code M delta pos) (hM : law.contents store ⊆ M) :
    ∃ scratch store' sink',
      Returns (fun fuel => joinRule ops fuel rule store sink delta pos)
        (.ok, { rule with scratch := scratch }, store', sink') ∧
      Grown law M (fun r => r = rule.code.head.relation) store sink store' sink' ∧
      ∀ ρ, Fires delta pos (law.contents store) ρ 0 rule.code.body →
        rule.code.head.ground ρ ∈ law.contents store' := by
  have hready : Ready law rule.code M 0 ⟨store, clearBound rule.scratch, sink⟩ :=
    ⟨hM, fun a ha => by cases ha⟩
  obtain ⟨st', hret, hf, hfires⟩ := evalBody_spec hclosed hok hdelta drop_zero
    (Nat.zero_le _) hready
  refine ⟨st'.scratch, st'.store, st'.sink, hret.bind (.pure _),
    ⟨hf.grows, hf.sound, hf.heads, hf.sink, hf.total⟩, fun ρ hF => hfires ρ ?_ hF⟩
  intro i hi
  cases hi

end Dl89
