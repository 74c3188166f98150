import EightyNine.Cat89.Build
import EightyNine.Cat89.FiniteExact
import Mathlib.Algebra.GroupWithZero.Nat

/-!
# libcat89: builds are all or nothing

A build that fails has freed each block once, and its outputs are `NULL` again but in two
cases: the category is not asked for, so the others are not looked at, or the equality was
made and the enumeration was not.
-/

namespace Cat89

open Library Store Option

/-! ## What is owed -/

section

variable {grants : Nat → Bool} {h₀ h h' : Blocks} {own : List Nat} {t : Tables} {count : Nat}

/-- The requests that an array of `count` numbers takes. -/
def arrayRequests (count : Nat) : Nat := if count = 0 then 0 else 1

variable {st : Status}

theorem allocUlArrayMem_spec (hcount : count * 8 ≤ ulongMax) (ho : Owes grants h₀ h own)
    {p : Option Nat} (hrun : allocUlArrayMem grants h count = (st, p, h')) :
    Owes grants h₀ h' (p.toList ++ own) ∧
      Answered grants h h' (arrayRequests count) (st = .ok) := by
  rw [allocUlArrayMem] at hrun
  rw [arrayRequests]
  split at hrun
  next h0 =>
    cases hrun
    rw [if_pos h0]
    exact ⟨ho, .none rfl rfl⟩
  next h0 =>
    rw [if_neg h0, sizeMul_of_le hcount (by decide)] at *
    simp only at hrun
    split at hrun
    next h₁ halloc =>
      cases hrun
      obtain ⟨ho', hasked, hg⟩ := ho.alloc_none halloc
      exact ⟨ho', .no (by simp) hg⟩
    next p h₁ halloc =>
      cases hrun
      obtain ⟨ho', hasked, hg⟩ := ho.alloc_some halloc
      exact ⟨ho', .yes rfl hasked hg⟩

theorem allocUlArraysMem_spec {counts : List Nat} (hcounts : ∀ n ∈ counts, n * 8 ≤ ulongMax)
    (ho : Owes grants h₀ h own) {ps : List (Option Nat)}
    (hrun : allocUlArraysMem grants counts h = (st, ps, h')) :
    Owes grants h₀ h' (ps.flatMap toList ++ own) ∧
      Answered grants h h' (counts.map arrayRequests).sum (st = .ok) := by
  induction counts generalizing h h' own st ps with
  | nil =>
    cases hrun
    exact ⟨ho, .none rfl rfl⟩
  | cons count counts ih =>
    rw [allocUlArraysMem] at hrun
    obtain ⟨hhead, htail⟩ := List.forall_mem_cons.1 hcounts
    rw [List.map_cons, List.sum_cons]
    split at hrun
    next p h₁ hone =>
      obtain ⟨ho₁, ha₁⟩ := allocUlArrayMem_spec hhead ho hone
      generalize hrest : allocUlArraysMem grants counts h₁ = rest at hrun
      obtain ⟨st', ps', h₂⟩ := rest
      cases hrun
      obtain ⟨ho₂, ha₂⟩ := ih htail ho₁ hrest
      refine ⟨ho₂.perm ?_, ha₁.andThen (fun _ _ => ha₂) fun hno => absurd rfl hno⟩
      rw [List.flatMap_cons, List.append_assoc]
      exact List.perm_append_comm_assoc _ _ _
    next st' p h₁ hne hone =>
      cases hrun
      obtain ⟨ho₁, ha₁⟩ := allocUlArrayMem_spec hhead ho hone
      have hst : st ≠ .ok := hne
      refine ⟨by simpa using ho₁, ?_⟩
      exact ha₁.andThen (fun hok => absurd hok hst) fun hno => hno

/-- The requests of `store_alloc_arrays`. -/
def arraysRequests (t : Tables) : Nat :=
  arrayRequests t.ident.length + ((storeArrayCounts t).map arrayRequests).sum

/-- No array is too large to be asked for. -/
def Tables.Fit (t : Tables) : Prop := ∀ n ∈ storeArrayCounts t, n * 8 ≤ ulongMax

theorem Builder.fit (b : Builder) : b.tables.Fit := by
  have hident : b.tables.ident.length * 8 ≤ ulongMax := Builder.length_le b.ident le_rfl
  have hmors : b.tables.mors.length * 8 ≤ ulongMax := Builder.length_le b.mors (by omega)
  have hcomps : b.tables.comps.length * 8 ≤ ulongMax := Builder.length_le b.comps (by omega)
  simp [Tables.Fit, storeArrayCounts, hident, hmors, hcomps]

theorem storeAllocArraysMem_spec (hfit : t.Fit) (ho : Owes grants h₀ h own)
    {objMem : Option Nat} {arrays : List (Option Nat)}
    (hrun : storeAllocArraysMem grants t h = (st, objMem, arrays, h')) :
    Owes grants h₀ h' (objMem.toList ++ (arrays.flatMap toList ++ own)) ∧
      Answered grants h h' (arraysRequests t) (st = .ok) := by
  rw [storeAllocArraysMem] at hrun
  rw [arraysRequests, arrayRequests]
  split at hrun
  next hpos =>
    rw [if_neg hpos.ne']
    cases halloc : h.alloc grants with
    | mk p h₁ =>
      rw [halloc] at hrun
      cases p with
      | none =>
        cases hrun
        obtain ⟨ho₁, hasked, hg⟩ := ho.alloc_none halloc
        have hno : Answered grants h h' 1 (Status.nomem = .ok) := .no (by simp) hg
        exact ⟨ho₁, hno.andThen (fun hok => by cases hok) fun hno => hno⟩
      | some p =>
        generalize hrest : allocUlArraysMem grants (storeArrayCounts t) h₁ = rest at hrun
        obtain ⟨st', ps', h₂⟩ := rest
        simp only [hrest] at hrun
        cases hrun
        obtain ⟨ho₁, hasked, hg⟩ := ho.alloc_some halloc
        obtain ⟨ho₂, ha₂⟩ := allocUlArraysMem_spec hfit ho₁ hrest
        have hyes : Answered grants h h₁ 1 True := .yes trivial hasked hg
        refine ⟨ho₂.perm ?_, hyes.andThen (fun _ _ => ha₂) fun hno => absurd trivial hno⟩
        exact List.perm_middle
  next hpos =>
    have h0 : t.ident.length = 0 := by omega
    rw [if_pos h0, Nat.zero_add]
    generalize hrest : allocUlArraysMem grants (storeArrayCounts t) h = rest at hrun
    obtain ⟨st', ps', h₂⟩ := rest
    cases hrun
    exact allocUlArraysMem_spec hfit ho hrest

/-- The blocks of a store. -/
def StoreMem.owned (mem : StoreMem) : List Nat :=
  (mem.objMem :: (mem.arrays ++ [some mem.block])).flatMap toList

/-- The requests of `store_build`. -/
def storeRequests (t : Tables) : Nat := 1 + arraysRequests t

theorem storeBuildMem_spec (hfit : t.Fit) (ho : Owes grants h₀ h own) :
    ∃ res h', storeBuildMem grants t h = some (res, h') ∧
      Answered grants h h' (storeRequests t) (∃ mem, res = .ok mem) ∧
      (∀ mem, res = .ok mem → Owes grants h₀ h' (mem.owned ++ own) ∧
        mem.store = storeCopyRows t mem.objMem) ∧
      ∀ st, res = .error st → st ≠ .ok ∧ Owes grants h₀ h' own := by
  rw [storeBuildMem, storeRequests]
  cases halloc : h.alloc grants with
  | mk p h₁ =>
    cases p with
    | none =>
      obtain ⟨ho₁, hasked, hg⟩ := ho.alloc_none halloc
      refine ⟨.error .nomem, h₁, rfl, ?_, ?_, ?_⟩
      · have hno : Answered grants h h₁ 1 (∃ mem : StoreMem, Except.error Status.nomem = .ok mem) :=
          .no (by simp) hg
        exact hno.andThen (fun hok => absurd hok (by simp)) fun hno => hno
      · intro mem hmem
        cases hmem
      · intro st hst
        cases hst
        exact ⟨by simp, ho₁⟩
    | some block =>
      obtain ⟨ho₁, hasked, hg⟩ := ho.alloc_some halloc
      have hyes : Answered grants h h₁ 1 True := .yes trivial hasked hg
      generalize harrays : storeAllocArraysMem grants t h₁ = made
      obtain ⟨st, objMem, arrays, h₂⟩ := made
      obtain ⟨ho₂, ha₂⟩ := storeAllocArraysMem_spec hfit ho₁ harrays
      have howned : Owes grants h₀ h₂
          ((objMem :: (arrays ++ [some block])).flatMap toList ++ own) := by
        simpa using ho₂
      by_cases hst : st = .ok
      · subst hst
        refine ⟨.ok ⟨block, objMem, arrays, storeCopyRows t objMem⟩, h₂, ?_, ?_, ?_, ?_⟩
        · simp only [harrays]
        · exact hyes.andThen (fun _ _ => ha₂.congr (by simp)) fun hno => absurd trivial hno
        · intro mem hmem
          cases hmem
          exact ⟨howned, rfl⟩
        · intro st hst
          cases hst
      · obtain ⟨h₃, hfree, ho₃, hasked₃⟩ := howned.freeAll
        refine ⟨.error st, h₃, ?_, ?_, ?_, ?_⟩
        · simp only [harrays]
          rw [storeFree, hfree]
          rfl
        · refine hyes.andThen (fun _ _ => ?_) fun hno => absurd trivial hno
          exact (ha₂.later fun _ => hasked₃).congr (by simp [hst])
        · intro mem hmem
          cases hmem
        · intro st' hst'
          cases hst'
          exact ⟨hst, ho₃⟩

variable {mem : StoreMem}

theorem storeReleaseMem_spec (hrefs : mem.store.refs = 1)
    (ho : Owes grants h₀ h (mem.owned ++ own)) :
    ∃ mem' h', storeReleaseMem mem h = some (mem', h') ∧ Owes grants h₀ h' own := by
  obtain ⟨h₁, hfree, ho₁, -⟩ := ho.freeAll
  refine ⟨{ mem with store := { mem.store with refs := 0 } }, h₁, ?_, ho₁⟩
  rw [storeReleaseMem, hrefs, storeFree, hfree]
  rfl

/-- The blocks of a category. -/
def CategoryMem.owned (c : CategoryMem) : List Nat := c.block :: c.mem.owned

theorem categoryRelease_last {c : CategoryMem} (hrefs : c.refs = 1) (hstore : c.mem.store.refs = 1)
    (ho : Owes grants h₀ h (c.owned ++ own)) :
    ∃ c' h', categoryRelease c h = some (c', h') ∧ Owes grants h₀ h' own := by
  have hperm : (c.owned ++ own).Perm (c.mem.owned ++ (c.block :: own)) :=
    List.perm_middle.symm
  obtain ⟨mem', h₁, hrun₁, ho₁⟩ := storeReleaseMem_spec hstore (ho.perm hperm)
  obtain ⟨h₂, hfree, ho₂, -⟩ := ho₁.free
  refine ⟨⟨0, c.block, mem'⟩, h₂, ?_, ho₂⟩
  rw [categoryRelease, hrefs, hrun₁]
  change (h₁.free (some c.block)).map _ = _
  rw [hfree]
  rfl

theorem categoryRelease_drop {c : CategoryMem} (hrefs : c.refs = 2) :
    categoryRelease c h = some ({ c with refs := 1 }, h) := by
  rw [categoryRelease, hrefs]
  rfl

theorem capabilityNew_spec {c : CategoryMem} (hrefs : c.refs < ulongMax)
    (ho : Owes grants h₀ h own) :
    ∃ res c' h', capabilityNew grants c h = some (res, c', h') ∧
      Answered grants h h' 1 (∃ cap, res = .ok cap) ∧
      (∀ cap, res = .ok cap → cap.refs = 1 ∧ c' = { c with refs := c.refs + 1 } ∧
        Owes grants h₀ h' (cap.block :: own)) ∧
      ∀ st, res = .error st → st ≠ .ok ∧ c' = c ∧ Owes grants h₀ h' own := by
  rw [capabilityNew]
  cases halloc : h.alloc grants with
  | mk p h₁ =>
    cases p with
    | none =>
      obtain ⟨ho₁, hasked, hg⟩ := ho.alloc_none halloc
      refine ⟨.error .nomem, c, h₁, rfl, .no (by simp) hg, ?_, ?_⟩
      · intro cap hcap
        cases hcap
      · intro st hst
        cases hst
        exact ⟨by simp, rfl, ho₁⟩
    | some block =>
      obtain ⟨ho₁, hasked, hg⟩ := ho.alloc_some halloc
      refine ⟨.ok ⟨1, block⟩, { c with refs := c.refs + 1 }, h₁, ?_,
        .yes ⟨_, rfl⟩ hasked hg, ?_, ?_⟩
      · simp only [refInc_of_lt hrefs]
      · intro cap hcap
        cases hcap
        exact ⟨rfl, rfl, ho₁⟩
      · intro st hst
        cases hst

variable {eq : CapabilityMem}

theorem eqRelease_spec {c : CategoryMem} (heq : eq.refs = 1)
    (hrefs : c.refs = 2) (ho : Owes grants h₀ h (eq.block :: own)) :
    ∃ h', eqRelease eq c h = some ({ c with refs := 1 }, h') ∧ Owes grants h₀ h' own := by
  obtain ⟨h₁, hfree, ho₁, -⟩ := ho.free
  refine ⟨h₁, ?_, ho₁⟩
  rw [eqRelease, heq, categoryRelease_drop hrefs]
  change (h.free (some eq.block)).map _ = _
  rw [hfree]
  rfl

/-! ## The ends of a build -/

/-- All variables that the caller supplies hold `NULL`. -/
def Outs.Cleared (outs : Outs) : Prop :=
  outs.category.join = none ∧ outs.eq.join = none ∧ outs.enum.join = none

instance (outs : Outs) : Decidable outs.Cleared :=
  inferInstanceAs (Decidable (_ ∧ _ ∧ _))

/-- The requests that an output takes. -/
def outRequests (out : Option (Option Nat)) : Nat := if out.isSome then 1 else 0

/-- The blocks of what is built. -/
def Built.owned (built : Built) : List Nat :=
  (built.enum.map CapabilityMem.block).toList ++
    ((built.eq.map CapabilityMem.block).toList ++ built.category.owned)

/-- What was built holds the tables and what is asked for, each with its references, and the
variables hold its handles. -/
structure Built.Made (built : Built) (t : Tables) (outs outs' : Outs) : Prop where
  store : built.category.mem.store = storeCopyRows t built.category.mem.objMem
  refs : built.category.refs = 1 + (outRequests outs.eq + outRequests outs.enum)
  eq : built.eq.map CapabilityMem.refs = outs.eq.map fun _ => 1
  enum : built.enum.map CapabilityMem.refs = outs.enum.map fun _ => 1
  outs : outs' = ⟨some (some built.category.block), built.eq.map fun eq => some eq.block,
    built.enum.map fun enum => some enum.block⟩

variable {outs : Outs} {c : CategoryMem}

theorem buildFail_spec (outs : Outs) (hrefs : c.refs = 1)
    (hstore : c.mem.store.refs = 1) (ho : Owes grants h₀ h c.owned) :
    ∃ r, buildFail st outs c h = some r ∧ r.status = st ∧ r.outs = outs ∧ r.built = none ∧
      Owes grants h₀ r.blocks [] := by
  have ho' : Owes grants h₀ h (c.owned ++ []) := by rwa [List.append_nil]
  obtain ⟨c', h₁, hrun, ho₁⟩ := categoryRelease_last hrefs hstore ho'
  exact ⟨⟨st, outs, h₁, none⟩, by rw [buildFail, hrun]; rfl, rfl, rfl, rfl, ho₁⟩

theorem buildFailEq_spec (outs : Outs)
    (heq : eq.refs = 1) (hrefs : c.refs = 2) (hstore : c.mem.store.refs = 1)
    (ho : Owes grants h₀ h (eq.block :: c.owned)) :
    ∃ r, buildFailEq st outs c eq h = some r ∧ r.status = st ∧ r.outs = outs ∧ r.built = none ∧
      Owes grants h₀ r.blocks [] := by
  obtain ⟨h₁, hrun, ho₁⟩ := eqRelease_spec heq hrefs ho
  obtain ⟨r, hr, hrest⟩ := buildFail_spec (c := { c with refs := 1 }) outs rfl hstore ho₁
  exact ⟨r, by rw [buildFailEq, hrun]; exact hr, hrest⟩

/-- What a build is left with on its way: the category, and the equality if it is asked for. -/
structure Underway (grants : Nat → Bool) (h₀ h : Blocks) (t : Tables) (outs : Outs)
    (c : CategoryMem) (eq : Option CapabilityMem) : Prop where
  refs : c.refs = if eq.isSome then 2 else 1
  eqRefs : ∀ e, eq = some e → e.refs = 1
  storeRefs : c.mem.store.refs = 1
  store : c.mem.store = storeCopyRows t c.mem.objMem
  outEq : outs.eq = eq.map fun e => some e.block
  owes : Owes grants h₀ h ((eq.map CapabilityMem.block).toList ++ c.owned)

theorem buildEnum_spec {eq : Option CapabilityMem} (hu : Underway grants h₀ h t outs c eq) :
    ∃ r, buildEnum grants outs c eq h = some r ∧
      Answered grants h r.blocks (outRequests outs.enum) (r.status = .ok) ∧
      (r.status ≠ .ok → r.outs = outs ∧ r.built = none ∧ Owes grants h₀ r.blocks []) ∧
      (r.status = .ok → ∃ built, r.built = some built ∧ built.Made t outs r.outs ∧
        Owes grants h₀ r.blocks built.owned) := by
  have heqRefs : eq.map CapabilityMem.refs = outs.eq.map fun _ => 1 := by
    rw [hu.outEq]
    cases eq with
    | none => rfl
    | some e => exact congrArg some (hu.eqRefs e rfl)
  have hrefs : c.refs = 1 + outRequests outs.eq := by
    rw [hu.refs, hu.outEq, outRequests]
    cases eq <;> rfl
  rw [buildEnum, outRequests]
  cases henum : outs.enum with
  | none =>
    refine ⟨_, rfl, .none rfl rfl, fun hno => absurd rfl hno, fun _ => ?_⟩
    refine ⟨⟨c, eq, none⟩, rfl, ⟨hu.store, ?_, heqRefs, by rw [henum]; rfl,
      by simp [hu.outEq]⟩, hu.owes⟩
    rw [henum]
    exact hrefs
  | some v =>
    have hlt : c.refs < ulongMax := by
      rw [hu.refs, ulongMax]
      split <;> omega
    obtain ⟨res, c', h₁, hrun, hasked, hok, herr⟩ := capabilityNew_spec hlt hu.owes
    simp only [hrun, bind_some, isSome_some, if_true]
    cases res with
    | ok enum =>
      obtain ⟨henumRefs, rfl, ho₁⟩ := hok enum rfl
      refine ⟨_, rfl, hasked.congr (by simp), fun hno => absurd rfl hno, fun _ => ?_⟩
      refine ⟨⟨_, eq, some enum⟩, rfl, ⟨hu.store, ?_, heqRefs, ?_, by simp [hu.outEq]⟩, ho₁⟩
      · rw [henum, hrefs]
        exact Nat.add_assoc 1 _ 1
      · rw [henum]
        exact congrArg some henumRefs
    | error st =>
      obtain ⟨hst, rfl, ho₁⟩ := herr st rfl
      have hno : Answered grants h h₁ 1 False := hasked.congr (by simp)
      have hfail : ∀ {r : BuildEnd}, r.status = st →
          Answered grants h r.blocks 1 (r.status = .ok) :=
        fun {r} hr => (hno.later fun h => h.elim).congr (by simp [hr, hst])
      cases eq with
      | none =>
        obtain ⟨r, hr, hstatus, houts, hbuilt, ho₂⟩ := buildFail_spec outs
          (by simpa using hu.refs) hu.storeRefs ho₁
        refine ⟨r, hr, hfail hstatus, fun _ => ⟨houts, hbuilt, ho₂⟩, fun hyes => ?_⟩
        exact absurd (hstatus.symm.trans hyes) hst
      | some e =>
        obtain ⟨r, hr, hstatus, houts, hbuilt, ho₂⟩ := buildFailEq_spec outs
          (hu.eqRefs e rfl) (by simpa using hu.refs) hu.storeRefs ho₁
        refine ⟨r, hr, hfail hstatus, fun _ => ⟨houts, hbuilt, ho₂⟩, fun hyes => ?_⟩
        exact absurd (hstatus.symm.trans hyes) hst

/-- The equality and the enumeration are built, or all is given back. -/
theorem buildEq_spec (hclear : outs.Cleared) (hrefs : c.refs = 1)
    (hstoreRefs : c.mem.store.refs = 1)
    (hstore : c.mem.store = storeCopyRows t c.mem.objMem) (ho : Owes grants h₀ h c.owned) :
    ∃ r, buildEq grants outs c h = some r ∧
      Answered grants h r.blocks (outRequests outs.eq + outRequests outs.enum) (r.status = .ok) ∧
      (r.status ≠ .ok → r.built = none ∧ Owes grants h₀ r.blocks [] ∧
        (r.outs.Cleared ↔ ¬ (outs.eq.isSome ∧ grants h.asked = true))) ∧
      (r.status = .ok → ∃ built, r.built = some built ∧ built.Made t outs r.outs ∧
        Owes grants h₀ r.blocks built.owned) := by
  rw [buildEq]
  cases heq : outs.eq with
  | none =>
    have hu : Underway grants h₀ h t outs c none :=
      ⟨hrefs, fun e he => (by cases he), hstoreRefs, hstore, heq, ho⟩
    obtain ⟨r, hr, hasked, hfail, hok⟩ := buildEnum_spec hu
    refine ⟨r, hr, by simpa [outRequests] using hasked, fun hno => ?_, hok⟩
    obtain ⟨houts, hbuilt, ho₁⟩ := hfail hno
    exact ⟨hbuilt, ho₁, by simp [houts, hclear]⟩
  | some v =>
    have hlt : c.refs < ulongMax := by
      rw [hrefs]
      decide
    obtain ⟨res, c', h₁, hrun, hasked, hok, herr⟩ := capabilityNew_spec hlt ho
    simp only [hrun, bind_some]
    cases res with
    | ok eq =>
      obtain ⟨heqRefs, rfl, ho₁⟩ := hok eq rfl
      have hg : grants h.asked = true := by
        have := hasked.iff.1 ⟨eq, rfl⟩ 0 Nat.zero_lt_one
        rwa [Nat.add_zero] at this
      have hu : Underway grants h₀ h₁ t { outs with eq := some (some eq.block) }
          { c with refs := c.refs + 1 } (some eq) := by
        refine ⟨by simp [hrefs], fun e he => ?_, hstoreRefs, hstore, rfl, ho₁⟩
        cases he
        exact heqRefs
      obtain ⟨r, hr, hasked₁, hfail, hok₁⟩ := buildEnum_spec hu
      have hone : Answered grants h h₁ 1 True := hasked.congr (by simp)
      refine ⟨r, hr, ?_, fun hno => ?_, fun hyes => ?_⟩
      · exact hone.andThen (fun _ _ => hasked₁) fun hno => absurd trivial hno
      · obtain ⟨houts, hbuilt, ho₂⟩ := hfail hno
        refine ⟨hbuilt, ho₂, iff_of_false ?_ (by simp [hg])⟩
        rintro ⟨-, hjoin, -⟩
        rw [houts] at hjoin
        cases hjoin
      · obtain ⟨built, hbuilt, hmade, ho₂⟩ := hok₁ hyes
        refine ⟨built, hbuilt, ⟨hmade.store, ?_, ?_, hmade.enum, hmade.outs⟩, ho₂⟩
        · rw [hmade.refs, heq]
          rfl
        · rw [hmade.eq, heq]
          rfl
    | error st =>
      obtain ⟨hst, rfl, ho₁⟩ := herr st rfl
      obtain ⟨r, hr, hstatus, houts, hbuilt, ho₂⟩ :=
        buildFail_spec outs hrefs hstoreRefs ho₁
      have hno : Answered grants h h₁ 1 False := hasked.congr (by simp)
      have hg : ¬ grants h.asked = true := by
        intro hg
        refine hno.iff.2 fun i hi => ?_
        obtain rfl : i = 0 := by omega
        exact hg
      refine ⟨r, hr, ?_, fun _ => ⟨hbuilt, ho₂, ?_⟩, fun hyes => ?_⟩
      · have hfail : ¬ r.status = .ok := fun hyes => hst (hstatus.symm.trans hyes)
        exact hno.andThen (fun h => h.elim) fun _ => hfail
      · rw [houts]
        exact iff_of_true hclear fun h => hg h.2
      · exact absurd (hstatus.symm.trans hyes) hst

theorem buildCategory_spec (hclear : outs.Cleared) (hrefs : mem.store.refs = 1)
    (hstore : mem.store = storeCopyRows t mem.objMem) (ho : Owes grants h₀ h mem.owned) :
    ∃ r, buildCategory grants outs mem h = some r ∧
      Answered grants h r.blocks (1 + (outRequests outs.eq + outRequests outs.enum))
        (r.status = .ok) ∧
      (r.status ≠ .ok → r.built = none ∧ Owes grants h₀ r.blocks [] ∧
        (r.outs.Cleared ↔ ¬ (outs.eq.isSome ∧ ∀ i < 2, grants (h.asked + i) = true))) ∧
      (r.status = .ok → ∃ built, r.built = some built ∧ built.Made t outs r.outs ∧
        Owes grants h₀ r.blocks built.owned) := by
  rw [buildCategory, categoryNew]
  cases halloc : h.alloc grants with
  | mk p h₁ =>
    cases p with
    | none =>
      obtain ⟨ho₁, -, hg⟩ := ho.alloc_none halloc
      have howned : Owes grants h₀ h₁ (mem.owned ++ []) := by rwa [List.append_nil]
      obtain ⟨mem', h₂, hrun, ho₂⟩ := storeReleaseMem_spec hrefs howned
      have hno : Answered grants h h₁ 1 False := .no id hg
      refine ⟨⟨.nomem, outs, h₂, none⟩, by simp only [hrun, map_some], ?_, ?_, ?_⟩
      · exact hno.andThen (fun h => h.elim) fun _ => by simp
      · refine fun _ => ⟨rfl, ho₂, iff_of_true hclear fun h => ?_⟩
        have := h.2 0 (by omega)
        rw [Nat.add_zero, hg] at this
        cases this
      · intro hyes
        cases hyes
    | some block =>
      obtain ⟨ho₁, hasked, hg⟩ := ho.alloc_some halloc
      have hc : Owes grants h₀ h₁ (CategoryMem.owned ⟨1, block, mem⟩) := ho₁
      obtain ⟨r, hr, hasked₁, hfail, hok⟩ := buildEq_spec hclear rfl hrefs hstore hc
      have hone : Answered grants h h₁ 1 True := .yes trivial hasked hg
      refine ⟨r, hr, ?_, fun hno => ?_, hok⟩
      · exact hone.andThen (fun _ _ => hasked₁) fun hno => absurd trivial hno
      · obtain ⟨hbuilt, ho₂, hiff⟩ := hfail hno
        refine ⟨hbuilt, ho₂, hiff.trans (not_congr (and_congr_right fun _ => ?_))⟩
        rw [hasked]
        constructor
        · intro hg' i hi
          obtain rfl | rfl : i = 0 ∨ i = 1 := by omega
          · exact hg
          · exact hg'
        · intro hall
          exact hall 1 (by omega)

/-- The requests of a build before that for the equality. -/
def buildRequests (t : Tables) : Nat := storeRequests t + 1

theorem buildStore_spec (grants : Nat → Bool) (h : Blocks) (hfit : t.Fit)
    (hclear : outs.Cleared) :
    ∃ r, buildStore grants t outs h = some r ∧
      Answered grants h r.blocks
        (buildRequests t + (outRequests outs.eq + outRequests outs.enum)) (r.status = .ok) ∧
      (r.status ≠ .ok → r.built = none ∧ Owes grants h r.blocks [] ∧
        (r.outs.Cleared ↔ ¬ (outs.eq.isSome ∧
          ∀ i < buildRequests t + 1, grants (h.asked + i) = true))) ∧
      (r.status = .ok → ∃ built, r.built = some built ∧ built.Made t outs r.outs ∧
        Owes grants h r.blocks built.owned) := by
  obtain ⟨res, h₁, hrun, hasked, hok, herr⟩ := storeBuildMem_spec hfit (Owes.refl (h := h))
  rw [buildStore, hrun]
  cases res with
  | error st =>
    obtain ⟨hst, ho⟩ := herr st rfl
    have hno : Answered grants h h₁ (storeRequests t) False := hasked.congr (by simp)
    refine ⟨⟨st, outs, h₁, none⟩, rfl, ?_, fun _ => ⟨rfl, ho, iff_of_true hclear fun hall => ?_⟩,
      fun hyes => absurd hyes hst⟩
    · rw [buildRequests, Nat.add_assoc]
      exact hno.andThen (fun h => h.elim) fun _ => hst
    · exact hno.iff.2 fun i hi => hall.2 i (by rw [buildRequests]; omega)
  | ok mem =>
    obtain ⟨ho, hstore⟩ := hok mem rfl
    rw [List.append_nil] at ho
    have hyes : Answered grants h h₁ (storeRequests t) True := hasked.congr (by simp)
    have hrefs : mem.store.refs = 1 := by rw [hstore]; rfl
    obtain ⟨r, hr, hasked₁, hfail, hok₁⟩ := buildCategory_spec hclear hrefs hstore ho
    refine ⟨r, hr, ?_, fun hno => ?_, hok₁⟩
    · rw [buildRequests, Nat.add_assoc]
      exact hyes.andThen (fun _ _ => hasked₁) fun hno => absurd trivial hno
    · obtain ⟨hbuilt, ho₂, hiff⟩ := hfail hno
      refine ⟨hbuilt, ho₂, hiff.trans (not_congr (and_congr_right fun _ => ?_))⟩
      rcases hyes with ⟨-, hlen, hall⟩ | ⟨hno, -⟩
      · rw [hlen, buildRequests]
        constructor
        · intro hg i hi
          by_cases hlt : i < storeRequests t
          · exact hall i hlt
          · have := hg (i - storeRequests t) (by omega)
            rwa [Nat.add_assoc, Nat.add_sub_cancel' (not_lt.1 hlt)] at this
        · intro hg i hi
          have := hg (storeRequests t + i) (by omega)
          rwa [← Nat.add_assoc] at this
      · exact absurd trivial hno

/-! ## All or nothing -/

/-- Each block is granted up to that of the enumeration, and that one is not, with the equality
made already. -/
def EnumRefused (grants : Nat → Bool) (b : Builder) (outs : Outs) (h : Blocks) : Prop :=
  outs.category ≠ none ∧ outs.eq.isSome ∧ outs.enum.isSome ∧ finiteValidate b = some true ∧
    (∀ i < buildRequests b.tables + 1, grants (h.asked + i) = true) ∧
    grants (h.asked + (buildRequests b.tables + 1)) = false

/-- A call on the builder, or a build with an allocator of its own. -/
inductive Attempt where
  | call (room : Bool) (c : BuilderCall)
  | build (grants : Nat → Bool) (outs : Outs)

/-- One attempt after the other, and of the calls on the builder those that succeed. -/
def runAttempts : List Attempt → Builder → Blocks → Option (List BuilderCall × Builder × Blocks)
  | [], b, h => some ([], b, h)
  | .call room c :: rest, b, h =>
    (runAttempts rest (b.call room c).2 h).map fun r =>
      (if (b.call room c).1 = .ok then c :: r.1 else r.1, r.2)
  | .build grants outs :: rest, b, h =>
    (finiteBuildMem grants b outs h).bind fun r => runAttempts rest b r.blocks

/-- The calls alone, with all the memory that they ask for. -/
def runCalls (b : Builder) (calls : List BuilderCall) : Builder :=
  calls.foldl (fun b c => (b.call true c).2) b

/-- Two builds made the same, at addresses of their own. -/
structure Built.Same (built built' : Built) : Prop where
  refs : built.category.refs = built'.category.refs
  store : { built.category.mem.store with objMem := 0 } =
    { built'.category.mem.store with objMem := 0 }
  eq : built.eq.map CapabilityMem.refs = built'.eq.map CapabilityMem.refs
  enum : built.enum.map CapabilityMem.refs = built'.enum.map CapabilityMem.refs

/-- What a build does, after any attempts and before a retry with all the memory that it asks
for: no call that fails changes the builder, a build that fails leaves every variable `NULL` and
no block, and the retry makes what it would make without the attempts that failed. -/
def AllOrNothing (grants : Nat → Bool) (b : Builder) (outs : Outs) (h : Blocks) : Prop :=
  (∀ room c, (b.call room c).1 ≠ .ok → (b.call room c).2 = b) ∧
  (∃ r, finiteBuildMem grants b outs h = some r ∧
    (r.status ≠ .ok → r.outs.Cleared ∧ r.built = none ∧ Owes grants h r.blocks [])) ∧
  ∀ attempts, ∃ calls b' h',
    runAttempts (.build grants outs :: attempts) b h = some (calls, b', h') ∧
    b' = runCalls b calls ∧
    ∀ outs' h'', ∃ r r', finiteBuildMem (fun _ => true) b' outs' h' = some r ∧
      finiteBuildMem (fun _ => true) (runCalls b calls) outs' h'' = some r' ∧
      r.status = r'.status ∧
      (r.status = .ok ↔ outs'.category ≠ none ∧ finiteValidate b' = some true) ∧
      (r.status = .ok → ∃ built built', r.built = some built ∧ r'.built = some built' ∧
        built.Made b'.tables outs' r.outs ∧ built.Same built')

variable {b : Builder}

theorem join_cleared {p : Option (Option Nat)} : (p.map fun _ => (none : Option Nat)).join = none := by
  cases p with
  | none | some v => rfl

theorem Outs.clear_cleared (outs : Outs) : outs.clear.Cleared :=
  ⟨join_cleared, join_cleared, join_cleared⟩

theorem outRequests_map (out : Option (Option Nat)) :
    outRequests (out.map fun _ => none) = outRequests out := by
  rw [outRequests, outRequests, isSome_map]

variable {built : Built}

theorem Built.Made.of_clear {outs' : Outs} (hmade : built.Made t outs.clear outs') :
    built.Made t outs outs' where
  store := hmade.store
  refs := by
    rw [hmade.refs, Outs.clear, outRequests_map, outRequests_map]
  eq := hmade.eq.trans (by rw [Outs.clear, Option.map_map]; rfl)
  enum := hmade.enum.trans (by rw [Outs.clear, map_map]; rfl)
  outs := hmade.outs

theorem Built.Made.same {built' : Built} {outs₁ outs₂ : Outs}
    (hmade : built.Made t outs outs₁) (hmade' : built'.Made t outs outs₂) : built.Same built' where
  refs := hmade.refs.trans hmade'.refs.symm
  store := by rw [hmade.store, hmade'.store]; rfl
  eq := hmade.eq.trans hmade'.eq.symm
  enum := hmade.enum.trans hmade'.enum.symm

/-! ### One build -/

theorem finiteBuildMem_spec (grants : Nat → Bool) (outs : Outs) (h : Blocks)
    (hends : b.tables.Ends) :
    ∃ r, finiteBuildMem grants b outs h = some r ∧
      (r.status = .ok ↔ outs.category ≠ none ∧ finiteValidate b = some true ∧
        ∀ i < buildRequests b.tables + (outRequests outs.eq + outRequests outs.enum),
          grants (h.asked + i) = true) ∧
      (r.status ≠ .ok → r.built = none ∧ Owes grants h r.blocks [] ∧
        (r.outs.Cleared ↔ (outs.category ≠ none ∨ outs.Cleared) ∧ ¬ EnumRefused grants b outs h)) ∧
      (r.status = .ok → ∃ built, r.built = some built ∧ built.Made b.tables outs r.outs ∧
        Owes grants h r.blocks built.owned) := by
  rw [finiteBuildMem, buildCommonMem]
  by_cases hcat : outs.category = none
  · rw [if_pos hcat]
    refine ⟨_, rfl, ?_, fun _ => ⟨rfl, .refl, ?_⟩, fun hok => by cases hok⟩
    · exact iff_of_false (by simp) fun h => h.1 hcat
    · simp [EnumRefused, hcat]
  · rw [if_neg hcat, if_pos rfl]
    obtain ⟨v, hv, -⟩ := Builder.validate_decides hends
    have hv' : b.tables.builderValid = some v := hv
    rw [hv']
    cases v with
    | false =>
      refine ⟨_, rfl, ?_, fun _ => ⟨rfl, .refl, ?_⟩, fun hok => by cases hok⟩
      · exact iff_of_false (by simp) fun h => by rw [hv] at h; cases h.2.1
      · refine iff_of_true outs.clear_cleared ⟨.inl hcat, fun he => ?_⟩
        have := he.2.2.2.1
        rw [hv] at this
        cases this
    | true =>
      obtain ⟨r, hr, hasked, hfail, hok⟩ := buildStore_spec grants h b.fit outs.clear_cleared
      have hrequests : outRequests outs.clear.eq + outRequests outs.clear.enum =
          outRequests outs.eq + outRequests outs.enum := by
        rw [Outs.clear, outRequests_map, outRequests_map]
      rw [hrequests] at hasked
      refine ⟨r, hr, ?_, fun hno => ?_, fun hyes => ?_⟩
      · rw [hasked.iff]
        exact ⟨fun hall => ⟨hcat, hv, hall⟩, fun h => h.2.2⟩
      · obtain ⟨hbuilt, ho, hiff⟩ := hfail hno
        refine ⟨hbuilt, ho, hiff.trans ?_⟩
        have hleft : outs.category ≠ none ∨ outs.Cleared := .inl hcat
        rw [and_iff_right hleft]
        refine not_congr ?_
        have hsome : outs.clear.eq.isSome = outs.eq.isSome := isSome_map
        rw [hsome]
        constructor
        · rintro ⟨heq, hall⟩
          have hrefused : ¬ ∀ i < buildRequests b.tables +
              (outRequests outs.eq + outRequests outs.enum), grants (h.asked + i) = true :=
            fun hall => hno (hasked.iff.2 hall)
          rw [outRequests, outRequests, if_pos heq] at hrefused
          by_cases henum : outs.enum.isSome = true
          · refine ⟨hcat, heq, henum, hv, hall, ?_⟩
            rw [if_pos henum] at hrefused
            by_contra hg
            refine hrefused fun i hi => ?_
            by_cases hlt : i < buildRequests b.tables + 1
            · exact hall i hlt
            · obtain rfl : i = buildRequests b.tables + 1 := by omega
              simpa using hg
          · rw [if_neg henum] at hrefused
            exact absurd (fun i hi => hall i (by omega)) hrefused
        · rintro ⟨-, heq, -, -, hall, -⟩
          exact ⟨heq, hall⟩
      · obtain ⟨built, hbuilt, hmade, ho⟩ := hok hyes
        exact ⟨built, hbuilt, hmade.of_clear, ho⟩

theorem finiteBuildMem_invalid {r : BuildEnd} (hr : finiteBuildMem grants b outs h = some r)
    (hends : b.tables.Ends) (hno : ¬ (outs.category ≠ none ∧ finiteValidate b = some true)) :
    r.status = .invalid := by
  rw [finiteBuildMem, buildCommonMem] at hr
  split at hr
  next =>
    cases hr
    rfl
  next hcat =>
    obtain ⟨v, hv, -⟩ := Builder.validate_decides hends
    have hv' : b.tables.builderValid = some v := hv
    rw [if_pos rfl, hv'] at hr
    cases v with
    | true => exact absurd ⟨hcat, hv⟩ hno
    | false =>
      cases hr
      rfl

/-! ### Attempts -/

variable {room : Bool}

theorem Vec.push_ok {α : Type} {elem : Nat} {v : Vec α elem} {x : α}
    (h : (v.push room x).1 = .ok) : v.push true x = v.push room x := by
  cases room with
  | true => rfl
  | false =>
    rw [Vec.push] at h
    rw [Vec.push, Vec.push]
    split at h
    next hlen =>
      split at h
      next st hcap =>
        cases (vecGrowCap_error hcap).symm.trans h
      next => cases h
    next hlen => rw [dif_neg hlen, dif_neg hlen]

theorem Builder.call_ok {c : BuilderCall} (h : (b.call room c).1 = .ok) :
    b.call true c = b.call room c := by
  cases c with
  | addObject =>
    have hpush : (b.ident.push room finSentinel).1 = .ok := by
      simp only [call, Cat89.addObject] at h
      split at h
      next hp => rw [hp]
      next st v hne hp =>
        rw [hp]
        exact h
    rw [call, call, Cat89.addObject, Cat89.addObject, Vec.push_ok hpush]
  | addMorphism dom cod =>
    simp only [call, Cat89.addMorphism] at h ⊢
    split_ifs with hd hc
    · rfl
    · rfl
    · rw [if_neg hd, if_neg hc] at h
      have hpush : (b.mors.push room ⟨dom, cod⟩).1 = .ok := by
        split at h
        next hp => rw [hp]
        next st v hne hp =>
          rw [hp]
          exact h
      rw [Vec.push_ok hpush]
  | setIdentity obj mor => rfl
  | setComposition g f result =>
    simp only [call, Cat89.setComposition] at h ⊢
    split_ifs with hg hf hr
    · rfl
    · rfl
    · rfl
    · rw [if_neg hg, if_neg hf, if_neg hr] at h
      rw [Vec.push_ok h]

theorem Builder.runCalls_ends (calls : List BuilderCall) (hends : b.tables.Ends) :
    (runCalls b calls).tables.Ends := by
  induction calls generalizing b with
  | nil => exact hends
  | cons c calls ih => exact ih (Builder.call_ends hends)

/-- Attempts come to their end, and leave the builder that the calls that succeeded leave. -/
theorem runAttempts_spec (attempts : List Attempt) (h : Blocks) (hends : b.tables.Ends) :
    ∃ calls b' h', runAttempts attempts b h = some (calls, b', h') ∧ b' = runCalls b calls := by
  induction attempts generalizing b h with
  | nil => exact ⟨[], b, h, rfl, rfl⟩
  | cons attempt rest ih =>
    cases attempt with
    | call room c =>
      have hends' : (b.call room c).2.tables.Ends := Builder.call_ends hends
      obtain ⟨calls, b', h', hrun, hb'⟩ := ih h hends'
      rw [runAttempts, hrun, map_some]
      by_cases hok : (b.call room c).1 = .ok
      · refine ⟨c :: calls, b', h', by rw [if_pos hok], ?_⟩
        rw [runCalls, List.foldl_cons, Builder.call_ok hok]
        exact hb'
      · refine ⟨calls, b', h', by rw [if_neg hok], ?_⟩
        rwa [Builder.call_failed hok] at hb'
    | build grants outs =>
      obtain ⟨r, hr, -⟩ := finiteBuildMem_spec grants outs h hends
      obtain ⟨calls, b', h', hrun, hb'⟩ := ih r.blocks hends
      refine ⟨calls, b', h', ?_, hb'⟩
      rw [runAttempts, hr]
      exact hrun

/-- After a build and any further attempts, a retry with all the memory that it asks for makes
what it would make if the attempts that failed had not been. -/
theorem finiteBuildMem_retry {b' : Builder} {calls : List BuilderCall} (hb' : b' = runCalls b calls)
    (hends : b.tables.Ends) (outs : Outs) (h h' : Blocks) :
    ∃ r r', finiteBuildMem (fun _ => true) b' outs h = some r ∧
      finiteBuildMem (fun _ => true) (runCalls b calls) outs h' = some r' ∧
      r.status = r'.status ∧
      (r.status = .ok ↔ outs.category ≠ none ∧ finiteValidate b' = some true) ∧
      (r.status = .ok → ∃ built built', r.built = some built ∧ r'.built = some built' ∧
        built.Made b'.tables outs r.outs ∧ built.Same built') := by
  subst hb'
  have hends' := Builder.runCalls_ends calls hends
  obtain ⟨r, hr, hiff, -, hok⟩ := finiteBuildMem_spec (fun _ => true) outs h hends'
  obtain ⟨r', hr', hiff', -, hok'⟩ := finiteBuildMem_spec (fun _ => true) outs h' hends'
  have hvalid : r.status = .ok ↔
      outs.category ≠ none ∧ finiteValidate (runCalls b calls) = some true :=
    hiff.trans (and_congr_right fun _ => and_iff_left fun _ _ => rfl)
  have hvalid' : r'.status = .ok ↔
      outs.category ≠ none ∧ finiteValidate (runCalls b calls) = some true :=
    hiff'.trans (and_congr_right fun _ => and_iff_left fun _ _ => rfl)
  refine ⟨r, r', hr, hr', ?_, hvalid, fun hyes => ?_⟩
  · by_cases hyes : r.status = .ok
    · exact hyes.trans (hvalid'.2 (hvalid.1 hyes)).symm
    · have hno := mt hvalid.2 hyes
      rw [finiteBuildMem_invalid hr hends' hno, finiteBuildMem_invalid hr' hends' hno]
  · obtain ⟨built, hbuilt, hmade, -⟩ := hok hyes
    obtain ⟨built', hbuilt', hmade', -⟩ := hok' (hvalid'.2 (hvalid.1 hyes))
    exact ⟨built, built', hbuilt, hbuilt', hmade, hmade.same hmade'⟩

/-- A build is all or nothing, but where the others are not looked at for want of the category, and
where the enumeration is refused. -/
theorem all_or_nothing {w : World} {b : Builder} (hw : w.Reached) (hb : w.builder = some b)
    (grants : Nat → Bool) (outs : Outs) (h : Blocks) :
    AllOrNothing grants b outs h ↔
      (outs.category ≠ none ∨ outs.Cleared) ∧ ¬ EnumRefused grants b outs h := by
  have hends := hw.ends hb
  obtain ⟨r, hr, hok, hfail, -⟩ := finiteBuildMem_spec grants outs h hends
  constructor
  · rintro ⟨-, ⟨r₁, hr₁, hclear⟩, -⟩
    obtain rfl : r = r₁ := some.inj (hr.symm.trans hr₁)
    by_cases hst : r.status = .ok
    · obtain ⟨hcat, -, hall⟩ := hok.1 hst
      refine ⟨.inl hcat, ?_⟩
      rintro ⟨-, heq, henum, -, -, hg⟩
      have := hall (buildRequests b.tables + 1) (by simp [outRequests, heq, henum])
      rw [hg] at this
      cases this
    · exact (hfail hst).2.2.1 (hclear hst).1
  · intro hcond
    refine ⟨fun _ _ => Builder.call_failed, ⟨r, hr, fun hst => ?_⟩, fun attempts => ?_⟩
    · obtain ⟨hbuilt, ho, hiff⟩ := hfail hst
      exact ⟨hiff.2 hcond, hbuilt, ho⟩
    · obtain ⟨calls, b', h', hrun, hb'⟩ :=
        runAttempts_spec (.build grants outs :: attempts) h hends
      exact ⟨calls, b', h', hrun, hb', fun outs' h'' => finiteBuildMem_retry hb' hends outs' h' h''⟩

end

/-- The variables of a caller that asks for all three. -/
def allOuts : Outs := ⟨some none, some none, some none⟩

/-- Without the memory for the equality nothing is left. -/
theorem all_or_nothing_eq : AllOrNothing (fun i => i != 9) oneBuilder allOuts ⟨0, [], []⟩ := by
  refine (all_or_nothing oneBuilder_reached rfl _ _ _).2 ⟨.inl (by decide), ?_⟩
  rintro ⟨-, -, -, -, -, hg⟩
  exact absurd hg (by decide)

/-- Without the memory for the enumeration the variable of the equality holds a handle that was
freed. -/
theorem not_all_or_nothing :
    ¬ AllOrNothing (fun i => i != 10) oneBuilder allOuts ⟨0, [], []⟩ := by
  rintro ⟨-, ⟨r, hr, hclear⟩, -⟩
  have hend : (finiteBuildMem (fun i => i != 10) oneBuilder allOuts ⟨0, [], []⟩).map
      (fun r => (r.status, r.outs)) = some (.nomem, ⟨some none, some (some 9), some none⟩) := by
    decide
  rw [hr, map_some, some_inj, Prod.mk.injEq] at hend
  have hno : r.status ≠ .ok := by
    rw [hend.1]
    decide
  have := (hclear hno).1
  rw [hend.2] at this
  exact absurd this (by decide)

end Cat89
