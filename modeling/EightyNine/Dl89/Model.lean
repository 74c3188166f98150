import EightyNine.Dl89.Join
import EightyNine.Library.Clause
import Mathlib.Data.Finset.Card
import Mathlib.Data.Finset.Insert

/-!
# Facts, stores and compiled rules

A fact is a relation and a tuple.  A rule stands for its ground instances, as
clauses over facts.  The instances of a compiled rule are those of its source
(`Rule.closed_code`).  A lawful store holds a finite set of facts: an insertion
reports whether the fact is new, and a scan returns every matching fact that was
there when it was opened, possibly some that were inserted since, and ends when
nothing new is inserted (`Lawful`).
-/

namespace Dl89

open Library

/-- A tuple in a relation. -/
structure Fact where
  relation : Rel
  tuple : List Const
  deriving DecidableEq

/-! ## Ground instances -/

/-- The value of a term of the source under an assignment. -/
def Term.value (θ : Var → Const) : Term → Const
  | .const c => c
  | .var v => θ v
  | .other _ => 0

def Atom.ground (θ : Var → Const) (a : Atom) : Fact :=
  ⟨a.relation, a.terms.map (Term.value θ)⟩

/-- The ground instances of a rule. -/
def Rule.clauses (r : Rule) : Set (Clause Fact) :=
  {c | ∃ θ, c = ⟨{f | ∃ a ∈ r.body, f = a.ground θ}, r.head.ground θ⟩}

/-- The ground instances of some rules. -/
def clauses (rules : List Rule) : Set (Clause Fact) :=
  {c | ∃ r ∈ rules, c ∈ r.clauses}

def CAtom.ground (env : Nat → Const) (a : CAtom) : Fact :=
  ⟨a.relation, a.terms.map (headValue env)⟩

/-- The ground instances of a compiled rule. -/
def Code.clauses (code : Code) : Set (Clause Fact) :=
  {c | ∃ env, c = ⟨{f | ∃ a ∈ code.body, f = a.ground env}, code.head.ground env⟩}

theorem Code.closed_iff {code : Code} {S : Set Fact} :
    Closed code.clauses S ↔
      ∀ env, (∀ a ∈ code.body, a.ground env ∈ S) → code.head.ground env ∈ S := by
  constructor
  · intro h env hbody
    refine h _ ⟨env, rfl⟩ ?_
    rintro f ⟨a, ha, rfl⟩
    exact hbody a ha
  · rintro h c ⟨env, rfl⟩ hprem
    exact h env fun a ha => hprem ⟨a, ha, rfl⟩

/-- The slots of an atom. -/
def CAtom.Uses (a : CAtom) (i : Nat) : Prop := CTerm.slot i ∈ a.terms

/-- Assignments that agree on the slots of an atom give it one instance. -/
theorem CAtom.ground_congr {a : CAtom} {env env' : Nat → Const}
    (h : ∀ i, a.Uses i → env i = env' i) : a.ground env = a.ground env' := by
  refine congrArg (Fact.mk a.relation) (List.map_congr_left fun t ht => ?_)
  cases t with
  | const c => rfl
  | slot i => exact h i ht

/-- What evaluation relies on in a compiled rule: the slots of the head are
slots of the body, and a tuple fits the log of its depth. -/
structure Code.Ok (code : Code) : Prop where
  safe : ∀ i, code.head.Uses i → ∃ a ∈ code.body, a.Uses i
  fits : ∀ a ∈ code.body, a.arity ≤ code.tupleCap

/-! ## Lawful stores -/

/-- A tuple agrees with the bound positions of a scan. -/
def Matches (values : List Const) (bvalues : List Bool) (tuple : List Const) : Prop :=
  tuple.length = values.length ∧
    ∀ p : Nat, bvalues[p]? = some true → tuple[p]? = values[p]?

/-- An open scan: its pattern, the tuples it still owes, and how many tuples it
returns at most when nothing new is inserted. -/
structure ScanView where
  relation : Rel
  values : List Const
  bvalues : List Bool
  owed : Set (List Const)
  left : Nat

/-- A store of a finite set of facts, whose callbacks never fail. -/
structure Lawful {σ ι : Type} (ops : StoreOps σ ι) where
  contents : σ → Finset Fact
  scans : σ → ι → Option ScanView
  /-- An insertion reports whether the fact is new.  A scan that is open may
  return it later. -/
  insert_spec : ∀ s relation tuple, ∃ s' inserted,
    ops.insert s relation tuple.length tuple = (s', 0, inserted) ∧
      (inserted = true ↔ ⟨relation, tuple⟩ ∉ contents s) ∧
      contents s' = insert ⟨relation, tuple⟩ (contents s) ∧
      ∀ h v, scans s h = some v → ∃ left, scans s' h = some { v with left := left } ∧
        (⟨relation, tuple⟩ ∈ contents s → left ≤ v.left)
  /-- A new scan owes the matching facts. -/
  open_spec : ∀ s relation values bvalues, ∃ s' h v,
    ops.scanOpen s relation values.length values bvalues = (s', 0, some h) ∧
      contents s' = contents s ∧ scans s h = none ∧ scans s' h = some v ∧
      v.relation = relation ∧ v.values = values ∧ v.bvalues = bvalues ∧
      (∀ tuple, ⟨relation, tuple⟩ ∈ contents s → Matches values bvalues tuple → tuple ∈ v.owed) ∧
      ∀ h' w, scans s h' = some w → scans s' h' = some w
  /-- A scan returns a matching fact of the store, or ends and owes nothing. -/
  next_spec : ∀ s h v, scans s h = some v → ∃ s' found,
    ops.scanNext s h = (s', 0, found) ∧ contents s' = contents s ∧
      (∀ h' w, h' ≠ h → scans s h' = some w → scans s' h' = some w) ∧
      match found with
      | none => v.owed = ∅
      | some tuple => ⟨v.relation, tuple⟩ ∈ contents s ∧ Matches v.values v.bvalues tuple ∧
          ∃ owed left, scans s' h = some { v with owed := owed, left := left } ∧
            (∀ t ∈ v.owed, t ≠ tuple → t ∈ owed) ∧ left < v.left
  close_spec : ∀ s h, contents (ops.scanClose s h) = contents s ∧
    ∀ h' w, h' ≠ h → scans s h' = some w → scans (ops.scanClose s h) h' = some w

end Dl89

/-!
# Unification and delta tables

Matching a tuple against an atom binds slots and logs them, and unbinding the
log restores the bindings.  A match extends the bindings as little as possible:
every assignment that extends them and gives the atom this tuple still extends
them afterwards.  A delta table holds what was recorded in it.
-/

namespace Dl89

open List

/-! ## Unification -/

/-- The assignment extends the current bindings. -/
def Scratch.Extended (s : Scratch) (ρ : Nat → Const) : Prop :=
  ∀ i, s.bound i = true → ρ i = s.env i

/-- What a unification from entry `n` of the log at `base` leaves behind. -/
structure Unified (base n : Nat) (s s' : Scratch) (n' : Nat) : Prop where
  le : n ≤ n'
  bound : ∀ i, s'.bound i = true ↔
    s.bound i = true ∨ ∃ k, n ≤ k ∧ k < n' ∧ s'.boundLog (base + k) = i
  fresh : ∀ k, n ≤ k → k < n' → s.bound (s'.boundLog (base + k)) = false
  env : ∀ i, s.bound i = true → s'.env i = s.env i
  log : ∀ k, k < base + n → s'.boundLog k = s.boundLog k

theorem Unified.refl (base n : Nat) (s : Scratch) : Unified base n s s n where
  le := Nat.le_refl n
  bound i := by
    refine (or_iff_left ?_).symm
    rintro ⟨k, h₁, h₂, -⟩
    omega
  fresh k h₁ h₂ := by omega
  env _ _ := rfl
  log _ _ := rfl

variable {base n : Nat} {s : Scratch}

theorem Unified.trans {n' n'' : Nat} {s' s'' : Scratch} (h : Unified base n s s' n')
    (h' : Unified base n' s' s'' n'') : Unified base n s s'' n'' where
  le := h.le.trans h'.le
  bound i := by
    rw [h'.bound, h.bound]
    constructor
    · rintro ((hb | ⟨k, h₁, h₂, hk⟩) | ⟨k, h₁, h₂, hk⟩)
      · exact .inl hb
      · exact .inr ⟨k, h₁, h₂.trans_le h'.le, by rw [h'.log _ (by omega), hk]⟩
      · exact .inr ⟨k, h.le.trans h₁, h₂, hk⟩
    · rintro (hb | ⟨k, h₁, h₂, hk⟩)
      · exact .inl (.inl hb)
      · by_cases hkn : k < n'
        · exact .inl (.inr ⟨k, h₁, hkn, by rw [← h'.log _ (by omega), hk]⟩)
        · exact .inr ⟨k, by omega, h₂, hk⟩
  fresh k h₁ h₂ := by
    by_cases hkn : k < n'
    · rw [h'.log _ (by omega)]
      exact h.fresh k h₁ hkn
    · have hf := h'.fresh k (by omega) h₂
      refine Bool.eq_false_iff.2 fun hb => ?_
      rw [(h.bound _).2 (.inl hb)] at hf
      cases hf
  env i hb := by rw [h'.env i ((h.bound i).2 (.inl hb)), h.env i hb]
  log k hk := by
    have := h.le
    rw [h'.log k (by omega), h.log k hk]

theorem unifyPosition_spec (s : Scratch) (base n : Nat) (t : CTerm) (value : Const) :
    ∃ s' n' matched, unifyPosition s base n t value = (s', n', matched) ∧
      Unified base n s s' n' ∧ n' ≤ n + 1 ∧
      (matched = true → headValue s'.env t = value ∧ ∀ i, t = .slot i → s'.bound i = true) ∧
      ∀ ρ, s.Extended ρ → headValue ρ t = value → matched = true ∧ s'.Extended ρ := by
  cases t with
  | const c =>
    refine ⟨s, n, value == c, rfl, .refl base n s, by omega, fun h => ⟨?_, fun i hi => by cases hi⟩,
      fun ρ hρ hv => ⟨?_, hρ⟩⟩
    · exact (beq_iff_eq.1 h).symm
    · exact beq_iff_eq.2 hv.symm
  | slot i =>
    by_cases hb : s.bound i = true
    · refine ⟨s, n, s.env i == value, by rw [unifyPosition, if_pos hb], .refl base n s, by omega,
        fun h => ⟨beq_iff_eq.1 h, ?_⟩, fun ρ hρ hv => ⟨?_, hρ⟩⟩
      · rintro j hj
        cases hj
        exact hb
      · exact beq_iff_eq.2 ((hρ i hb).symm.trans hv)
    · refine ⟨_, _, _, by rw [unifyPosition, if_neg hb], ?_, Nat.le_refl _, fun _ => ⟨?_, ?_⟩,
        fun ρ hρ hv => ⟨rfl, ?_⟩⟩
      · have hbf := Bool.eq_false_iff.2 hb
        refine ⟨by omega, fun j => ?_, fun k h₁ h₂ => ?_, fun j hj => ?_, fun k hk => ?_⟩
        · show (if j = i then true else s.bound j) = true ↔ _
          by_cases hji : j = i
          · rw [if_pos hji]
            exact iff_of_true rfl (.inr ⟨n, by omega, by omega, by simp [hji]⟩)
          · rw [if_neg hji]
            refine (or_iff_left ?_).symm
            rintro ⟨k, h₁, h₂, hk⟩
            obtain rfl : k = n := by omega
            simp only [if_true] at hk
            exact hji hk.symm
        · obtain rfl : k = n := by omega
          simp only [if_true]
          exact hbf
        · have hji : j ≠ i := by
            rintro rfl
            exact hb hj
          simp only [if_neg hji]
        · have hkn : k ≠ base + n := by omega
          simp only [if_neg hkn]
      · simp [headValue]
      · rintro j hj
        cases hj
        simp
      · intro j hj
        by_cases hji : j = i
        · subst hji
          simp only [if_true]
          exact hv
        · simp only [if_neg hji] at hj ⊢
          exact hρ j hj

/-- A tuple of the arity of the atom: the outcome and what it means. -/
theorem unifyTuple_spec (base : Nat) (ts : List CTerm) (tuple : List Const) (s : Scratch) (n : Nat)
    (hlen : tuple.length = ts.length) :
    ∃ s' n' matched, unifyTuple base ts tuple s n = (s', n', matched) ∧
      Unified base n s s' n' ∧ n' ≤ n + ts.length ∧
      (matched = true → ts.map (headValue s'.env) = tuple ∧
        ∀ i, CTerm.slot i ∈ ts → s'.bound i = true) ∧
      ∀ ρ, s.Extended ρ → ts.map (headValue ρ) = tuple → matched = true ∧ s'.Extended ρ := by
  induction ts generalizing tuple s n with
  | nil =>
    obtain rfl := length_eq_zero_iff.1 hlen
    exact ⟨s, n, true, rfl, .refl base n s, Nat.le_refl n, fun _ => ⟨rfl, fun i hi => by cases hi⟩,
      fun ρ hρ _ => ⟨rfl, hρ⟩⟩
  | cons t ts ih =>
    obtain _ | ⟨value, tuple⟩ := tuple
    · cases hlen
    obtain ⟨s₁, n₁, matched, heq, hu, hle, hm, hρ₁⟩ := unifyPosition_spec s base n t value
    cases matched with
    | false =>
      refine ⟨s₁, n₁, false, by simp only [unifyTuple, headD_cons, heq], hu, ?_,
        fun h => (by cases h), fun ρ hρ hv => ?_⟩
      · rw [length_cons]
        omega
      · rw [map_cons, List.cons.injEq] at hv
        exact absurd (hρ₁ ρ hρ hv.1).1 Bool.false_ne_true
    | true =>
      obtain ⟨s₂, n₂, matched, heq₂, hu₂, hle₂, hm₂, hρ₂⟩ :=
        ih tuple s₁ n₁ (Nat.succ.inj hlen)
      obtain ⟨hval, hslot⟩ := hm rfl
      refine ⟨s₂, n₂, matched, by simp only [unifyTuple, headD_cons, tail_cons, heq, heq₂],
        hu.trans hu₂, ?_, fun h => ?_, fun ρ hρ hv => ?_⟩
      · rw [length_cons]
        omega
      · obtain ⟨hvals, hslots⟩ := hm₂ h
        constructor
        · rw [map_cons, hvals, List.cons.injEq]
          refine ⟨?_, rfl⟩
          cases t with
          | const c => exact hval
          | slot i => exact (hu₂.env i (hslot i rfl)).trans hval
        · intro i hi
          rcases mem_cons.1 hi with rfl | hi
          · exact (hu₂.bound i).2 (.inl (hslot i rfl))
          · exact hslots i hi
      · rw [map_cons, List.cons.injEq] at hv
        exact hρ₂ ρ (hρ₁ ρ hρ hv.1).2 hv.2

theorem unbind_env (s : Scratch) (base count : Nat) : (unbind s base count).env = s.env := by
  induction count with
  | zero => rfl
  | succ count ih => exact ih

theorem unbind_log (s : Scratch) (base count : Nat) :
    (unbind s base count).boundLog = s.boundLog := by
  induction count with
  | zero => rfl
  | succ count ih => exact ih

theorem unbind_bound (s : Scratch) (base count i : Nat) :
    (unbind s base count).bound i = true ↔
      s.bound i = true ∧ ∀ k, k < count → s.boundLog (base + k) ≠ i := by
  induction count with
  | zero => simp [unbind]
  | succ count ih =>
    show (if i = s.boundLog (base + count) then false else (unbind s base count).bound i) = true ↔ _
    by_cases hi : i = s.boundLog (base + count)
    · rw [if_pos hi]
      refine iff_of_false Bool.false_ne_true fun h => ?_
      exact h.2 count (by omega) hi.symm
    · rw [if_neg hi, ih]
      refine and_congr_right fun _ => ⟨fun h k hk => ?_, fun h k hk => h k (by omega)⟩
      by_cases hkc : k = count
      · subst hkc
        exact fun h => hi h.symm
      · exact h k (by omega)

/-- Unbinding the log of a unification restores the bindings, when nothing in
between changed them. -/
theorem Unified.unbind {s₁ s₂ : Scratch} (h : Unified base 0 s s₁ n)
    (hbound : s₂.bound = s₁.bound) (hlog : ∀ k, k < base + n → s₂.boundLog k = s₁.boundLog k) :
    (unbind s₂ base n).bound = s.bound := by
  funext i
  refine Bool.eq_iff_iff.2 ?_
  rw [unbind_bound, hbound, h.bound]
  constructor
  · rintro ⟨hb | ⟨k, -, hk, heq⟩, hnot⟩
    · exact hb
    · refine absurd ?_ (hnot k hk)
      rw [hlog _ (by omega), heq]
  · intro hb
    refine ⟨.inl hb, fun k hk heq => ?_⟩
    rw [hlog _ (by omega)] at heq
    have hf := h.fresh k (by omega) hk
    rw [heq, hb] at hf
    cases hf

/-! ## Delta tables -/

/-- The table holds the tuple for the relation and the arity. -/
def DeltaTable.Has (table : DeltaTable) (relation : Rel) (arity : Nat) (tuple : List Const) : Prop :=
  ∃ d, deltaFind table relation arity = some d ∧ tuple ∈ d.tuples

theorem find_recordEntry (relation relation' : Rel) (arity arity' : Nat) (tuple tuple' : List Const)
    (entries : List Delta) :
    (∃ d, (recordEntry relation arity tuple entries).find? (fun d => d.isFor relation' arity') =
        some d ∧ tuple' ∈ d.tuples) ↔
      (∃ d, entries.find? (fun d => d.isFor relation' arity') = some d ∧ tuple' ∈ d.tuples) ∨
        relation' = relation ∧ arity' = arity ∧ tuple' = tuple := by
  induction entries with
  | nil =>
    simp only [recordEntry, Delta.isFor, List.find?]
    by_cases h : relation = relation' ∧ arity = arity'
    · obtain ⟨rfl, rfl⟩ := h
      simp
    · have hf : (relation == relation' && arity == arity') = false := by
        rw [Bool.and_eq_false_iff, beq_eq_false_iff_ne, beq_eq_false_iff_ne]
        exact not_and_or.1 h
      rw [hf]
      simp only [false_and, exists_false, false_or, reduceCtorEq, false_iff]
      rintro ⟨rfl, rfl, -⟩
      exact h ⟨rfl, rfl⟩
  | cons d ds ih =>
    by_cases hd : d.isFor relation arity = true
    · rw [recordEntry, if_pos hd]
      have hkey : ∀ ts, Delta.isFor { d with tuples := ts } relation' arity' =
          d.isFor relation' arity' := fun _ => rfl
      rw [List.find?, List.find?, hkey]
      by_cases hd' : d.isFor relation' arity' = true
      · rw [hd']
        simp only [Option.some.injEq, exists_eq_left', mem_append, mem_singleton]
        refine or_congr_right ?_
        rw [Delta.isFor, Bool.and_eq_true, beq_iff_eq, beq_iff_eq] at hd hd'
        constructor
        · exact fun h => ⟨hd'.1.symm.trans hd.1, hd'.2.symm.trans hd.2, h⟩
        · exact fun h => h.2.2
      · rw [Bool.eq_false_iff.2 hd']
        refine (or_iff_left ?_).symm
        rintro ⟨rfl, rfl, -⟩
        exact hd' hd
    · rw [recordEntry, if_neg hd, List.find?, List.find?]
      by_cases hd' : d.isFor relation' arity' = true
      · rw [hd']
        refine (or_iff_left ?_).symm
        rintro ⟨rfl, rfl, -⟩
        exact hd hd'
      · rw [Bool.eq_false_iff.2 hd']
        exact ih

variable {table : DeltaTable} {relation : Rel} {arity : Nat} {tuple : List Const}

theorem has_deltaRecord {relation' : Rel} {arity' : Nat}
    {tuple' : List Const} :
    (deltaRecord table relation arity tuple).Has relation' arity' tuple' ↔
      table.Has relation' arity' tuple' ∨
        relation' = relation ∧ arity' = arity ∧ tuple' = tuple :=
  find_recordEntry relation relation' arity arity' tuple tuple' table.entries

theorem not_has_clear :
    ¬ (deltaTableClear table).Has relation arity tuple := by
  rintro ⟨d, hd, ht⟩
  have hmem := mem_of_find?_eq_some hd
  obtain ⟨d', -, rfl⟩ := mem_map.1 hmem
  cases ht

theorem not_has_init :
    ¬ DeltaTable.init.Has relation arity tuple := by
  rintro ⟨d, hd, -⟩
  cases hd

end Dl89
