import EightyNine.Dl89.FixpointOk
import Mathlib.Data.List.GetD

/-!
# The evaluator computes the least model

A checked rule and its compiled form have the same closed sets, and a compiled
rule meets what evaluation relies on.  So after any successful calls, a run from
any store terminates and leaves the least set that contains the store and is
closed under the installed rules (`evalRun_least`).
-/

namespace Dl89

open Library List

/-! ## Compiled rules -/

/-- A term with its variables numbered by a list. -/
def Term.resolve (ids : List Var) : Term → CTerm
  | .const c => .const c
  | .var v => .slot (ids.idxOf v)
  | .other _ => .const 0

def Atom.resolve (ids : List Var) (a : Atom) : CAtom :=
  ⟨a.relation, a.terms.map (Term.resolve ids)⟩

theorem resolve_var {ids more : List Var} {v : Var} (hv : v ∈ ids) :
    Term.resolve (ids ++ more) (.var v) = .slot (ids.idxOf v) :=
  congrArg CTerm.slot (idxOf_append_of_mem hv)

theorem copyTermOne_spec (ids : List Var) (t : Term) :
    ∃ more, (copyTermOne ids t).2 = ids ++ more ∧
      (∀ rest, (copyTermOne ids t).1 = t.resolve (ids ++ more ++ rest)) ∧
      ∀ v, t = .var v → v ∈ ids ++ more := by
  cases t with
  | const c | other k =>
    exact ⟨[], (append_nil ids).symm, fun _ => rfl, fun v hv => by cases hv⟩
  | var v =>
    by_cases hv : v ∈ ids
    · have hidx : ids.idxOf? v = some (ids.idxOf v) := by
        obtain ⟨i, hi⟩ := Option.isSome_iff_exists.1 (isSome_idxOf?.2 hv)
        rw [idxOf_eq_getD_idxOf?, hi]
        rfl
      refine ⟨[], ?_, fun rest => ?_, fun w hw => ?_⟩
      · simp [copyTermOne, hidx]
      · rw [append_nil, resolve_var hv]
        simp [copyTermOne, hidx]
      · cases hw
        rw [append_nil]
        exact hv
    · have hidx : ids.idxOf? v = none := List.idxOf?_eq_none_iff.2 hv
      have hmem : v ∈ ids ++ [v] := mem_append_right ids mem_cons_self
      refine ⟨[v], ?_, fun rest => ?_, fun w hw => ?_⟩
      · simp [copyTermOne, hidx]
      · rw [resolve_var hmem, idxOf_append_of_notMem hv]
        simp [copyTermOne, hidx]
      · cases hw
        exact hmem

theorem copyTermList_spec (ts : List Term) (ids : List Var) :
    ∃ more, (copyTermList ts ids).2 = ids ++ more ∧
      (∀ rest, (copyTermList ts ids).1 = ts.map (Term.resolve (ids ++ more ++ rest))) ∧
      ∀ v, .var v ∈ ts → v ∈ ids ++ more := by
  induction ts generalizing ids with
  | nil => exact ⟨[], (append_nil ids).symm, fun _ => rfl, fun v hv => by cases hv⟩
  | cons t ts ih =>
    obtain ⟨more, hids, hterm, hvar⟩ := copyTermOne_spec ids t
    obtain ⟨more', hids', hterms, hvars⟩ := ih (ids ++ more)
    refine ⟨more ++ more', ?_, fun rest => ?_, fun v hv => ?_⟩
    · simp only [copyTermList, hids, hids', append_assoc]
    · simp only [copyTermList, hids, map_cons, ← append_assoc, hterms rest]
      rw [hterm (more' ++ rest), ← append_assoc]
    · rw [← append_assoc]
      rcases mem_cons.1 hv with heq | hv
      · exact mem_append_left more' (hvar v heq.symm)
      · exact hvars v hv

theorem copyTerms_spec (a : Atom) (ids : List Var) :
    ∃ more, (copyTerms a ids).2 = ids ++ more ∧
      (∀ rest, (copyTerms a ids).1 = a.resolve (ids ++ more ++ rest)) ∧
      ∀ v, .var v ∈ a.terms → v ∈ ids ++ more := by
  obtain ⟨more, hids, hterms, hvars⟩ := copyTermList_spec a.terms ids
  exact ⟨more, hids, fun rest => congrArg (CAtom.mk a.relation) (hterms rest), hvars⟩

theorem copyBody_spec (body : List Atom) (ids : List Var) :
    ∃ more, (copyBody body ids).2 = ids ++ more ∧
      (∀ rest, (copyBody body ids).1 = body.map (Atom.resolve (ids ++ more ++ rest))) ∧
      ∀ a ∈ body, ∀ v, .var v ∈ a.terms → v ∈ ids ++ more := by
  induction body generalizing ids with
  | nil => exact ⟨[], (append_nil ids).symm, fun _ => rfl, fun a ha => by cases ha⟩
  | cons a body ih =>
    obtain ⟨more, hids, hatom, hvar⟩ := copyTerms_spec a ids
    obtain ⟨more', hids', hatoms, hvars⟩ := ih (ids ++ more)
    refine ⟨more ++ more', ?_, fun rest => ?_, fun b hb v hv => ?_⟩
    · simp only [copyBody, hids, hids', append_assoc]
    · simp only [copyBody, hids, map_cons, ← append_assoc, hatoms rest]
      rw [hatom (more' ++ rest), ← append_assoc]
    · rw [← append_assoc]
      rcases mem_cons.1 hb with rfl | hb
      · exact mem_append_left more' (hvar v hv)
      · exact hvars b hb v hv

/-- A compiled rule is the rule with its variables numbered. -/
theorem cruleCompile_spec (rule : Rule) :
    ∃ ids : List Var, (cruleCompile rule).code.head = rule.head.resolve ids ∧
      (cruleCompile rule).code.body = rule.body.map (Atom.resolve ids) ∧
      ∀ a ∈ rule.atoms, ∀ v, .var v ∈ a.terms → v ∈ ids := by
  obtain ⟨more, hids, hhead, hvars⟩ := copyTerms_spec rule.head []
  obtain ⟨more', hids', hbody, hvars'⟩ := copyBody_spec rule.body ([] ++ more)
  refine ⟨[] ++ more ++ more', hhead more', ?_, fun a ha v hv => ?_⟩
  · have h := hbody []
    rw [append_nil] at h
    rw [← h, ← hids]
    rfl
  · rcases mem_cons.1 ha with rfl | ha
    · exact mem_append_left more' (hvars v hv)
    · exact hvars' a ha v hv

theorem ground_resolve (ids : List Var) (a : Atom) (env : Nat → Const) :
    (a.resolve ids).ground env = a.ground fun v => env (ids.idxOf v) := by
  refine congrArg (Fact.mk a.relation) ?_
  show (a.terms.map (Term.resolve ids)).map (headValue env) = _
  rw [map_map]
  refine map_congr_left fun t _ => ?_
  cases t with
  | const c | var v | other k => rfl

/-- Assignments that agree on the variables of an atom give it one instance. -/
theorem Atom.ground_congr {a : Atom} {θ θ' : Var → Const}
    (h : ∀ v, .var v ∈ a.terms → θ v = θ' v) : a.ground θ = a.ground θ' := by
  refine congrArg (Fact.mk a.relation) (map_congr_left fun t ht => ?_)
  cases t with
  | const c => rfl
  | var v => exact h v ht
  | other k => rfl

/-- A rule and its compiled form have the same closed sets. -/
theorem closed_cruleCompile (rule : Rule) (S : Set Fact) :
    Closed (cruleCompile rule).code.clauses S ↔ Closed rule.clauses S := by
  obtain ⟨ids, hhead, hbody, hvars⟩ := cruleCompile_spec rule
  rw [Code.closed_iff, hhead, hbody]
  constructor
  · rintro h c ⟨θ, rfl⟩ hprem
    have hground : ∀ a ∈ rule.atoms,
        (a.resolve ids).ground (fun i => θ (ids.getD i 0)) = a.ground θ := by
      intro a ha
      rw [ground_resolve]
      refine Atom.ground_congr fun v hv => congrArg θ ?_
      have hlt := idxOf_lt_length_of_mem (hvars a ha v hv)
      rw [getD_eq_getElem _ _ hlt, getElem_idxOf]
    show rule.head.ground θ ∈ S
    rw [← hground rule.head mem_cons_self]
    refine h _ fun a' ha' => ?_
    obtain ⟨a, ha, rfl⟩ := mem_map.1 ha'
    rw [hground a (mem_cons_of_mem _ ha)]
    exact hprem ⟨a, ha, rfl⟩
  · intro h env hprem
    rw [ground_resolve]
    refine h _ ⟨_, rfl⟩ ?_
    rintro f ⟨a, ha, rfl⟩
    rw [← ground_resolve]
    exact hprem _ (mem_map_of_mem ha)

theorem le_maxArityOf (rule : Rule) : ∀ a ∈ rule.body, a.arity ≤ maxArityOf rule := by
  have hstep : ∀ (body : List Atom) (m : Nat),
      m ≤ body.foldl (fun max a => if a.arity > max then a.arity else max) m ∧
        ∀ a ∈ body, a.arity ≤ body.foldl (fun max a => if a.arity > max then a.arity else max) m := by
    intro body
    induction body with
    | nil => exact fun m => ⟨Nat.le_refl m, fun a ha => by cases ha⟩
    | cons b body ih =>
      intro m
      obtain ⟨hle, hall⟩ := ih (if b.arity > m then b.arity else m)
      have hm : m ≤ (if b.arity > m then b.arity else m) ∧
          b.arity ≤ (if b.arity > m then b.arity else m) := by
        split <;> omega
      refine ⟨hm.1.trans hle, fun a ha => ?_⟩
      rcases mem_cons.1 ha with rfl | ha
      · exact hm.2.trans hle
      · exact hall a ha
  exact (hstep rule.body rule.head.arity).2

/-- A rule that passes the check compiles to code evaluation can rely on. -/
theorem ruleCheck_ok {arities : List Arity} {rule : Rule} (h : ruleCheck arities rule = .ok) :
    (cruleCompile rule).code.Ok := by
  have hsafe : checkHeadSafety rule = .ok := by
    simp only [ruleCheck] at h
    split at h
    · split at h
      · split at h
        · exact h
        · exact absurd h ‹_›
      · exact absurd h ‹_›
    · cases h
  obtain ⟨ids, hhead, hbody, -⟩ := cruleCompile_spec rule
  constructor
  · intro i hi
    rw [hhead] at hi
    obtain ⟨t, ht, heq⟩ := mem_map.1 hi
    cases t with
    | const c | other k => cases heq
    | var v =>
      cases heq
      have hnot : headVarUnsafe rule v = false := by
        by_contra hv
        rw [Bool.not_eq_false] at hv
        have hany : rule.head.terms.any (headTermUnsafe rule) = true :=
          any_eq_true.2 ⟨.var v, ht, hv⟩
        rw [checkHeadSafety, if_pos hany] at hsafe
        cases hsafe
      simp only [headVarUnsafe] at hnot
      split at hnot
      · cases hnot
      · rw [Bool.not_eq_false', varInBody, any_eq_true] at hnot
        obtain ⟨a, ha, hav⟩ := hnot
        obtain ⟨t, hta, heq⟩ := any_eq_true.1 hav
        obtain rfl := beq_iff_eq.1 heq
        refine ⟨a.resolve ids, ?_, mem_map.2 ⟨.var v, hta, rfl⟩⟩
        rw [hbody]
        exact mem_map_of_mem ha
  · intro a ha
    rw [hbody] at ha
    obtain ⟨b, hb, rfl⟩ := mem_map.1 ha
    have hle := le_maxArityOf rule b hb
    show (b.terms.map _).length ≤ maxArityOf rule
    rw [length_map]
    exact hle

/-! ## Calls -/

section Calls

variable {σ ι : Type} {ops : StoreOps σ ι}

/-- A call that installs a rule or adds a fact. -/
inductive Call where
  | addRule (rule : Rule)
  | addFact (relation : Rel) (tuple : List Const)

def call (ops : StoreOps σ ι) (e : Eval) (store : σ) : Call → Status × Eval × σ
  | .addRule rule =>
    let (st, e) := evalAddRule e rule
    (st, e, store)
  | .addFact relation tuple => evalAddFact ops e store relation tuple

/-- Successful calls on a new evaluator over the given store. -/
inductive Calls (ops : StoreOps σ ι) (store₀ : σ) : List Call → Eval → σ → Prop
  | create : Calls ops store₀ [] evalCreate store₀
  | call {cs : List Call} {e e' : Eval} {store store' : σ} (c : Call)
      (before : Calls ops store₀ cs e store) (ok : call ops e store c = (.ok, e', store')) :
      Calls ops store₀ (cs ++ [c]) e' store'

/-- The rules the calls install. -/
def rulesOf (cs : List Call) : List Rule :=
  cs.filterMap fun
    | .addRule rule => some rule
    | .addFact _ _ => none

/-- The facts the calls add. -/
def factsOf (cs : List Call) : List Fact :=
  cs.filterMap fun
    | .addRule _ => none
    | .addFact relation tuple => some ⟨relation, tuple⟩

/-- What successful calls leave behind: the compiled rules, and the facts in the
store. -/
theorem Calls.spec (law : Lawful ops) {cs : List Call} {e : Eval} {store₀ store : σ}
    (h : Calls ops store₀ cs e store) :
    e.rules.map CRule.code = (rulesOf cs).map (fun r => (cruleCompile r).code) ∧
      (∀ rule ∈ e.rules, rule.code.Ok) ∧
      ∀ f, f ∈ law.contents store ↔ f ∈ law.contents store₀ ∨ f ∈ factsOf cs := by
  induction h with
  | create =>
    exact ⟨rfl, fun rule hrule => (by cases hrule),
      fun f => (or_iff_left fun hf => (by cases hf)).symm⟩
  | @call cs e e' store store' c before ok ih =>
    obtain ⟨hcodes, hok, hfacts⟩ := ih
    cases c with
    | addRule rule =>
      simp only [Dl89.call, evalAddRule] at ok
      split at ok
      · cases ok
      · obtain ⟨st, hst⟩ : ∃ st, ruleCheck e.arities rule = st := ⟨_, rfl⟩
        simp only [ruleInstall, hst] at ok
        cases st with
        | ok =>
          cases ok
          refine ⟨?_, fun r hr => ?_, fun f => ?_⟩
          · simp [rulesOf, hcodes]
          · rcases mem_append.1 hr with hr | hr
            · exact hok r hr
            · rw [mem_singleton.1 hr]
              exact ruleCheck_ok hst
          · rw [hfacts]
            simp [factsOf]
        | einval | enomem | eprogram | estore | ebusy => cases ok
    | addFact relation tuple =>
      obtain ⟨s', inserted, hins, -, hcont, -⟩ := law.insert_spec store relation tuple
      have hresult : e'.rules = e.rules ∧ store' = s' := by
        simp only [Dl89.call, evalAddFact, hins] at ok
        split at ok
        · cases ok
        · split at ok
          · cases ok
            exact ⟨rfl, rfl⟩
          · split at ok
            · cases ok
            · cases ok
              exact ⟨rfl, rfl⟩
      obtain ⟨hrules, rfl⟩ := hresult
      refine ⟨?_, by rw [hrules]; exact hok, fun f => ?_⟩
      · rw [hrules, hcodes]
        simp [rulesOf]
      · rw [hcont, Finset.mem_insert, hfacts]
        simp only [factsOf, filterMap_append, mem_append]
        simp [or_comm, or_left_comm]

theorem closed_codes (rules : List Rule) (S : Set Fact) :
    Closed (codeClauses (rules.map fun r => (cruleCompile r).code)) S ↔
      Closed (clauses rules) S := by
  constructor
  · rintro h c ⟨rule, hrule, hc⟩
    exact (closed_cruleCompile rule S).1
      (closed_code h (mem_map_of_mem (f := fun r => (cruleCompile r).code) hrule)) c hc
  · rintro h c ⟨code, hcode, hc⟩
    obtain ⟨rule, hrule, rfl⟩ := mem_map.1 hcode
    exact (closed_cruleCompile rule S).2 (fun c hc => h c ⟨rule, hrule, hc⟩) c hc

/-- Rules that say the same up to the order of their bodies. -/
def Rule.Reorders (r r' : Rule) : Prop := r'.head = r.head ∧ r'.body.Perm r.body

theorem Rule.Reorders.clauses {r r' : Rule} (h : r.Reorders r') : r'.clauses = r.clauses := by
  have hmem : ∀ a, a ∈ r'.body ↔ a ∈ r.body := fun a => h.2.mem_iff
  simp only [Rule.clauses, hmem, h.1]

/-- After any successful calls, the store holds its first contents and the facts
that were added.  From any store, whatever an earlier run left in it and in the
scratch arrays, a run terminates and leaves the least set that contains the
store and is closed under the installed rules.  The order of the rules and of
their bodies does not matter. -/
theorem evalRun_least (law : Lawful ops) (cs : List Call) (e : Eval) (store₀ store : σ)
    (h : Calls ops store₀ cs e store) :
    (∀ f, f ∈ law.contents store ↔ f ∈ law.contents store₀ ∨ f ∈ factsOf cs) ∧
    (∀ e' : Eval, e'.rules.map CRule.code = e.rules.map CRule.code → e'.running = false →
      ∀ s, ∃ e'' s', Returns (fun fuel => evalRun ops fuel e' s) (.ok, e'', s') ∧
        (law.contents s' : Set Fact) = least (clauses (rulesOf cs)) (law.contents s)) ∧
    ∀ rules, (∀ r ∈ rulesOf cs, ∃ r' ∈ rules, r.Reorders r') →
      (∀ r' ∈ rules, ∃ r ∈ rulesOf cs, r.Reorders r') →
      ∀ S, least (clauses rules) S = least (clauses (rulesOf cs)) S := by
  obtain ⟨hcodes, hok, hfacts⟩ := h.spec law
  refine ⟨hfacts, fun e' he' hrunning s => ?_, fun rules hto hback S => ?_⟩
  · have hok' : ∀ rule ∈ e'.rules, rule.code.Ok := by
      intro rule hrule
      have hmem : rule.code ∈ e.rules.map CRule.code := he' ▸ mem_map_of_mem hrule
      obtain ⟨r, hr, heq⟩ := mem_map.1 hmem
      exact heq ▸ hok r hr
    obtain ⟨rules', s', hret, -, hleast⟩ := fixpointRun_spec law hok' s
    refine ⟨{ e' with rules := rules', running := false }, s', ?_, ?_⟩
    · simp only [evalRun, hrunning, Bool.false_eq_true, if_false]
      exact hret.bind (.pure _)
    · rw [hleast, he', hcodes]
      ext f
      exact forall_congr' fun T => imp_congr_right fun _ =>
        imp_congr (closed_codes (rulesOf cs) T) Iff.rfl
  · have hclauses : clauses rules = clauses (rulesOf cs) := by
      ext c
      constructor
      · rintro ⟨r', hr', hc⟩
        obtain ⟨r, hr, hre⟩ := hback r' hr'
        exact ⟨r, hr, hre.clauses ▸ hc⟩
      · rintro ⟨r, hr, hc⟩
        obtain ⟨r', hr', hre⟩ := hto r hr
        exact ⟨r', hr', hre.clauses.symm ▸ hc⟩
    rw [hclauses]

theorem Calls.step {cs : List Call} {e : Eval} {store₀ store : σ} (h : Calls ops store₀ cs e store)
    (c : Call) (ok : (Dl89.call ops e store c).1 = .ok) :
    Calls ops store₀ (cs ++ [c]) (Dl89.call ops e store c).2.1 (Dl89.call ops e store c).2.2 :=
  .call c h (Prod.ext ok rfl)

end Calls

/-! ## A store of snapshots -/

instance (values : List Const) (bvalues : List Bool) (tuple : List Const) :
    Decidable (Matches values bvalues tuple) :=
  decidable_of_iff (tuple.length = values.length ∧
      ∀ p, p < bvalues.length → bvalues[p]? = some true → tuple[p]? = values[p]?) (by
    refine and_congr_right fun _ => ⟨fun h p hp => h p ?_ hp, fun h p _ => h p⟩
    exact (List.getElem?_eq_some_iff.1 hp).1)

/-- A scan over the facts that were there when it was opened. -/
structure Snapshot where
  relation : Rel
  values : List Const
  bvalues : List Bool
  rest : List (List Const)

/-- A list of facts and the snapshots of its scans, which hold facts of the
list. -/
structure SnapshotStore where
  facts : List Fact
  scans : List Snapshot
  ok : ∀ snap ∈ scans, ∀ t ∈ snap.rest,
    ⟨snap.relation, t⟩ ∈ facts ∧ Matches snap.values snap.bvalues t

namespace SnapshotStore

open List

def empty : SnapshotStore := ⟨[], [], fun _ h => by cases h⟩

def add (s : SnapshotStore) (f : Fact) : SnapshotStore :=
  ⟨f :: s.facts, s.scans, fun snap hsnap t ht =>
    ⟨mem_cons_of_mem f (s.ok snap hsnap t ht).1, (s.ok snap hsnap t ht).2⟩⟩

def insert (s : SnapshotStore) (relation : Rel) (tuple : List Const) :
    SnapshotStore × Int × Bool :=
  if ⟨relation, tuple⟩ ∈ s.facts then (s, 0, false) else (s.add ⟨relation, tuple⟩, 0, true)

/-- The matching tuples of a relation. -/
def select (s : SnapshotStore) (relation : Rel) (values : List Const) (bvalues : List Bool) :
    List (List Const) :=
  s.facts.filterMap fun f =>
    if f.relation = relation ∧ Matches values bvalues f.tuple then some f.tuple else none

theorem mem_select {s : SnapshotStore} {relation : Rel} {values : List Const} {bvalues : List Bool}
    {t : List Const} : t ∈ s.select relation values bvalues ↔
      ⟨relation, t⟩ ∈ s.facts ∧ Matches values bvalues t := by
  rw [select, mem_filterMap]
  constructor
  · rintro ⟨f, hf, heq⟩
    split at heq
    · rename_i h
      cases heq
      exact ⟨h.1 ▸ hf, h.2⟩
    · cases heq
  · rintro ⟨hf, hm⟩
    exact ⟨_, hf, if_pos ⟨rfl, hm⟩⟩

def scanOpen (s : SnapshotStore) (relation : Rel) (values : List Const) (bvalues : List Bool) :
    SnapshotStore × Int × Option Nat :=
  (⟨s.facts, s.scans ++ [⟨relation, values, bvalues, s.select relation values bvalues⟩], by
    intro snap hsnap t ht
    rcases mem_append.1 hsnap with hsnap | hsnap
    · exact s.ok snap hsnap t ht
    · rw [mem_singleton.1 hsnap] at ht ⊢
      exact mem_select.1 ht⟩, 0, some s.scans.length)

/-- The snapshot without its first tuple. -/
def advance (s : SnapshotStore) (h : Nat) (snap : Snapshot) (hsnap : snap ∈ s.scans)
    (t : List Const) (rest : List (List Const)) (hrest : snap.rest = t :: rest) : SnapshotStore :=
  ⟨s.facts, s.scans.set h { snap with rest := rest }, by
    intro snap' hsnap' t' ht'
    rcases mem_or_eq_of_mem_set hsnap' with hold | rfl
    · exact s.ok snap' hold t' ht'
    · exact s.ok snap hsnap t' (hrest ▸ mem_cons_of_mem t ht')⟩

def scanNext (s : SnapshotStore) (h : Nat) : SnapshotStore × Int × Option (List Const) :=
  match hsnap : s.scans[h]? with
  | none => (s, 1, none)
  | some snap =>
    match hrest : snap.rest with
    | [] => (s, 0, none)
    | t :: rest => (s.advance h snap (mem_of_getElem? hsnap) t rest hrest, 0, some t)

def ops : StoreOps SnapshotStore Nat where
  insert s relation _ tuple := s.insert relation tuple
  scanOpen s relation _ values bvalues := s.scanOpen relation values bvalues
  scanNext := scanNext
  scanClose s _ := s

/-- A snapshot owes what is left of it. -/
def view (snap : Snapshot) : ScanView :=
  ⟨snap.relation, snap.values, snap.bvalues, {t | t ∈ snap.rest}, snap.rest.length⟩

/-- The store of snapshots is lawful. -/
def lawful : Lawful ops where
  contents s := s.facts.toFinset
  scans s h := s.scans[h]?.map view
  insert_spec s relation tuple := by
    by_cases hin : ⟨relation, tuple⟩ ∈ s.facts
    · refine ⟨s, false, ?_, ?_, ?_, fun h v hv => ⟨v.left, hv, fun _ => Nat.le_refl _⟩⟩
      · show s.insert relation tuple = _
        rw [insert, if_pos hin]
      · simp [hin]
      · rw [Finset.insert_eq_of_mem (mem_toFinset.2 hin)]
    · refine ⟨s.add ⟨relation, tuple⟩, true, ?_, ?_, ?_, ?_⟩
      · show s.insert relation tuple = _
        rw [insert, if_neg hin]
      · simp [hin]
      · exact toFinset_cons
      · exact fun h v hv => ⟨v.left, hv, fun _ => Nat.le_refl _⟩
  open_spec s relation values bvalues := by
    refine ⟨_, s.scans.length, view ⟨relation, values, bvalues, s.select relation values bvalues⟩,
      rfl, rfl, ?_, ?_, rfl, rfl, rfl, ?_, ?_⟩
    · simp
    · simp
    · exact fun t ht hm => mem_select.2 ⟨mem_toFinset.1 ht, hm⟩
    · intro h' w hw
      obtain ⟨snap, hsnap, rfl⟩ := Option.map_eq_some_iff.1 hw
      have hlt := (List.getElem?_eq_some_iff.1 hsnap).1
      refine Option.map_eq_some_iff.2 ⟨snap, ?_, rfl⟩
      show (s.scans ++ [_])[h']? = some snap
      rw [List.getElem?_append_left hlt, hsnap]
  next_spec s h v hv := by
    obtain ⟨snap, hsnap, rfl⟩ := Option.map_eq_some_iff.1 hv
    have hmem := mem_of_getElem? hsnap
    obtain ⟨relation, values, bvalues, rest⟩ := snap
    cases rest with
    | nil =>
      refine ⟨s, none, ?_, rfl, fun _ _ _ hw => hw, ?_⟩
      · show s.scanNext h = _
        rw [scanNext]
        split
        · rename_i hnone
          rw [hsnap] at hnone
          cases hnone
        · rename_i snap hsome
          rw [hsnap] at hsome
          cases hsome
          rfl
      · show {t | t ∈ []} = ∅
        simp
    | cons t rest =>
      refine ⟨s.advance h _ hmem t rest rfl, some t, ?_, rfl, fun h' w hne hw => ?_,
        mem_toFinset.2 (s.ok _ hmem t mem_cons_self).1,
        (s.ok _ hmem t mem_cons_self).2, {t | t ∈ rest}, rest.length, ?_, ?_,
        Nat.lt_succ_self _⟩
      · show s.scanNext h = _
        rw [scanNext]
        split
        · rename_i hnone
          rw [hsnap] at hnone
          cases hnone
        · rename_i snap hsome
          rw [hsnap] at hsome
          cases hsome
          rfl
      · show Option.map view (s.scans.set h _)[h']? = some w
        rw [List.getElem?_set_ne (Ne.symm hne)]
        exact hw
      · have hlt := (List.getElem?_eq_some_iff.1 hsnap).1
        show Option.map view (s.scans.set h _)[h]? = _
        rw [List.getElem?_set_self hlt]
        rfl
      · intro t' ht' hne
        exact (mem_cons.1 ht').resolve_left hne
  close_spec s h := ⟨rfl, fun _ _ _ hw => hw⟩

end SnapshotStore

/-- `path(X, Y) :- edge(X, Y)`, `path(X, Z) :- path(X, Y), edge(Y, Z)` and two
edges, with `edge = 0` and `path = 1`. -/
def pathCalls : List Call :=
  [.addRule ⟨⟨1, [.var 0, .var 1]⟩, [⟨0, [.var 0, .var 1]⟩]⟩,
    .addRule ⟨⟨1, [.var 0, .var 2]⟩, [⟨1, [.var 0, .var 1]⟩, ⟨0, [.var 1, .var 2]⟩]⟩,
    .addFact 0 [7, 8], .addFact 0 [8, 9]]

theorem evalRun_least_path :
    ∃ e store e' s', Calls SnapshotStore.ops .empty pathCalls e store ∧
      Returns (fun fuel => evalRun SnapshotStore.ops fuel e store) (.ok, e', s') ∧
      (SnapshotStore.lawful.contents s' : Set Fact) =
        least (clauses (rulesOf pathCalls)) (SnapshotStore.lawful.contents store) := by
  have h₀ : Calls SnapshotStore.ops .empty [] evalCreate .empty := .create
  have h := (((h₀.step (pathCalls[0]) rfl).step (pathCalls[1]) rfl).step (pathCalls[2]) rfl).step
    (pathCalls[3]) rfl
  obtain ⟨e', s', hret, hleast⟩ :=
    (evalRun_least SnapshotStore.lawful pathCalls _ _ _ h).2.1 _ rfl rfl _
  exact ⟨_, _, e', s', h, hret, hleast⟩

end Dl89
