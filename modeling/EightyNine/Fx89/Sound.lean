import EightyNine.Fx89.Effect
import EightyNine.Library.Rows

/-!
# Solving is sound in every row algebra

A *valuation* gives every variable a value of a row algebra, and so every row.
It models a store when bound variables have the values of their rows and all facts
hold of the values.  A goal is satisfied when what its propagation rules conclude
holds of the values.

When a valuation models the store and satisfies the goals on the worklist, the
solver succeeds, and a valuation that extends it models the store it leaves
(`solve_sound`): the fresh variable of an equality is given the common remainder
of the two tails.
-/

namespace Fx89

open Library List Function

variable {α X : Type} [LinearOrder α]

/-! ## Valuations -/

/-- A fact about a value. -/
def Holds (A : RowAlgebra α X) : Side → α → X → Prop
  | .required => A.has
  | .forbidden => A.lacks

/-- The value of a row. -/
def rowValue (A : RowAlgebra α X) (V : Nat → X) (r : Row α) : X :=
  match r.tail with
  | none => A.only r.head.toFinset
  | some v => A.adjoin r.head.toFinset (V v)

/-- The tail of a row lacks the atoms of the head. -/
def Apart (A : RowAlgebra α X) (V : Nat → X) (r : Row α) : Prop :=
  ∀ v, r.tail = some v → ∀ a ∈ r.head, A.lacks a (V v)

/-- A valuation agrees with a store. -/
structure Agrees (A : RowAlgebra α X) (V : Nat → X) (S : Store α) : Prop where
  binding : ∀ {v b}, S.binding v = some b → V v = rowValue A V b
  facts : ∀ {v s a}, a ∈ S.facts v s → Holds A s a (V v)

/-- It models the store when the rows of the bindings are apart, too. -/
structure Models (A : RowAlgebra α X) (V : Nat → X) (S : Store α) : Prop extends Agrees A V S where
  apart : ∀ {v b}, S.binding v = some b → Apart A V b

/-- The rules of `o = l ∪ r` at one atom. -/
structure JoinAt (A : RowAlgebra α X) (o l r : X) (a : α) : Prop where
  left : A.has a l → A.has a o
  right : A.has a r → A.has a o
  lacksLeft : A.lacks a o → A.lacks a l
  lacksRight : A.lacks a o → A.lacks a r
  lacksOut : A.lacks a l → A.lacks a r → A.lacks a o
  fromLeft : A.lacks a r → A.has a o → A.has a l
  fromRight : A.lacks a l → A.has a o → A.has a r

/-- A valuation satisfies a goal. -/
def Sat (A : RowAlgebra α X) (V : Nat → X) : Goal α → Prop
  | .equal a b => rowValue A V a = rowValue A V b
  | .subset a b => ∀ x, (A.has x (rowValue A V a) → A.has x (rowValue A V b)) ∧
      (A.lacks x (rowValue A V b) → A.lacks x (rowValue A V a))
  | .member x b => A.has x (rowValue A V b)
  | .lacks x b => A.lacks x (rowValue A V b)
  | .join o l r => (∀ a, JoinAt A (rowValue A V o) (rowValue A V l) (rowValue A V r) a) ∧
      ∀ F G, rowValue A V l = A.only F → rowValue A V r = A.only G →
        rowValue A V o = A.only (F ∪ G)

section Values

variable {A : RowAlgebra α X} {V V' : Nat → X} {S T : Store α} {r : Row α} {v : Nat} {s : Side} {a : α}

theorem rowValue_closed (h : r.tail = none) : rowValue A V r = A.only r.head.toFinset := by
  simp [rowValue, h]

theorem rowValue_open (h : r.tail = some v) :
    rowValue A V r = A.adjoin r.head.toFinset (V v) := by
  simp [rowValue, h]

theorem rowValue_congr (h : ∀ v, r.tail = some v → V' v = V v) :
    rowValue A V' r = rowValue A V r := by
  unfold rowValue
  cases ht : r.tail with
  | none => rfl
  | some v => simp only [h v ht]

theorem Apart.congr (h : Apart A V r) (hV : ∀ v, r.tail = some v → V' v = V v) : Apart A V' r := by
  intro v hv a ha
  rw [hV v hv]
  exact h v hv a ha

theorem has_of_mem (h : a ∈ r.head) : A.has a (rowValue A V r) := by
  unfold rowValue
  cases r.tail with
  | none => exact A.has_only.2 (mem_toFinset.2 h)
  | some v => exact A.has_adjoin.2 (.inl (mem_toFinset.2 h))

theorem not_mem_of_lacks (h : A.lacks a (rowValue A V r)) : a ∉ r.head :=
  fun ha => A.not_both (has_of_mem ha) h

/-- A fact about an open row is a fact about its tail, or its head has the atom. -/
theorem holds_tail (ht : r.tail = some v) (hr : a ∉ r.head) :
    Holds A s a (rowValue A V r) ↔ Holds A s a (V v) := by
  rw [rowValue_open ht]
  have ha : a ∉ r.head.toFinset := fun h => hr (mem_toFinset.1 h)
  cases s with
  | required => exact A.has_adjoin.trans (or_iff_right ha)
  | forbidden => exact A.lacks_adjoin.trans (and_iff_right ha)

theorem Agrees.mono (h : Agrees A V T) (hle : S.Le T) : Agrees A V S :=
  ⟨fun hb => h.binding (hle.binding hb), fun hf => h.facts (hle.facts hf)⟩

theorem Models.mono (h : Models A V T) (hle : S.Le T) : Models A V S :=
  ⟨h.toAgrees.mono hle, fun hb => h.apart (hle.binding hb)⟩

variable {hs : List α} {e : Option Nat}

theorem rowValue_append :
    rowValue A V ⟨r.head ++ hs, e⟩ = A.adjoin r.head.toFinset (rowValue A V ⟨hs, e⟩) := by
  have happ : (r.head ++ hs).toFinset = r.head.toFinset ∪ hs.toFinset := by
    ext a
    simp
  unfold rowValue
  cases e with
  | none => simp [A.adjoin_only, happ]
  | some u => simp [A.adjoin_adjoin, happ]

theorem rowValue_rowMake :
    rowValue A V (rowMake hs e) = rowValue A V ⟨hs, e⟩ := by
  unfold rowValue
  cases e <;> simp [rowMake]

theorem apart_rowMake :
    Apart A V (rowMake hs e) ↔ Apart A V ⟨hs, e⟩ := by
  simp [Apart]

/-- A variable has the value of the row its chain amounts to. -/
theorem Agrees.chain (h : Agrees A V S) (hc : S.Chain v hs e) :
    V v = rowValue A V ⟨hs, e⟩ := by
  induction hc with
  | stop => simp [rowValue, A.adjoin_empty]
  | closed hb ht => rw [h.binding hb, rowValue_closed ht, rowValue_closed rfl]
  | step hb ht _ ih => rw [h.binding hb, rowValue_open ht, ih, rowValue_append]

/-- An apart row whose tail has the value of an apart row is apart with it. -/
theorem Apart.append (h : Apart A V r) (ht : r.tail = some v)
    (hval : V v = rowValue A V ⟨hs, e⟩) (hap : Apart A V ⟨hs, e⟩) :
    Apart A V ⟨r.head ++ hs, e⟩ := by
  intro u hu a ha
  obtain rfl : e = some u := hu
  rcases mem_append.1 ha with ha | ha
  · have hl := h v ht a ha
    rw [hval, rowValue_open rfl] at hl
    exact (A.lacks_adjoin.1 hl).2
  · exact hap u rfl a ha

theorem Models.chain (h : Models A V S) (hc : S.Chain v hs e) :
    Apart A V ⟨hs, e⟩ := by
  induction hc with
  | stop => exact fun u _ a ha => absurd ha not_mem_nil
  | closed => exact fun u hu => absurd hu (by simp)
  | step hb ht rest ih => exact (h.apart hb).append ht (h.toAgrees.chain rest) ih

theorem Agrees.normalize {c : Ctx α} (h : Agrees A V c.store) (hS : c.store.Ordered) (r : Row α) :
    rowValue A V (c.normalize r) = rowValue A V r := by
  rcases Ctx.normalize_cases hS r with ⟨ht, hn⟩ | ⟨v, hs, e, ht, hc, hn⟩
  · rw [hn, rowValue_rowMake, rowValue_closed rfl, rowValue_closed ht]
  · rw [hn, rowValue_rowMake, rowValue_append, rowValue_open ht, h.chain hc]

theorem Models.normalize {c : Ctx α} (h : Models A V c.store) (hS : c.store.Ordered) {r : Row α}
    (hr : Apart A V r) : Apart A V (c.normalize r) := by
  rcases Ctx.normalize_cases hS r with ⟨ht, hn⟩ | ⟨v, hs, e, ht, hc, hn⟩
  · rw [hn]
    exact fun u hu => absurd hu (by simp)
  · rw [hn, apart_rowMake]
    exact hr.append ht (h.toAgrees.chain hc) (h.chain hc)

theorem Agrees.membership {c : Ctx α} (h : Agrees A V c.store) (hS : c.store.Ordered) (r : Row α)
    (a : α) : (c.rowMembership r a = .true → A.has a (rowValue A V r)) ∧
      (c.rowMembership r a = .false → A.lacks a (rowValue A V r)) := by
  rw [← h.normalize hS r]
  unfold Ctx.rowMembership
  dsimp only
  split_ifs with hmem
  · exact ⟨fun _ => has_of_mem hmem, fun hf => absurd hf (by simp)⟩
  · cases ht : (c.normalize r).tail with
    | none =>
      refine ⟨fun hf => absurd hf (by simp), fun _ => ?_⟩
      rw [rowValue_closed ht]
      exact A.lacks_only.2 fun hm => hmem (mem_toFinset.1 hm)
    | some u =>
      dsimp only
      split_ifs with hreq hforb
      · refine ⟨fun _ => ?_, fun hf => absurd hf (by simp)⟩
        have hfact : Holds A .required a (V u) := h.facts hreq
        exact (holds_tail (s := .required) ht hmem).2 hfact
      · refine ⟨fun hf => absurd hf (by simp), fun _ => ?_⟩
        have hfact : Holds A .forbidden a (V u) := h.facts hforb
        exact (holds_tail (s := .forbidden) ht hmem).2 hfact
      · exact ⟨fun hf => absurd hf (by simp), fun hf => absurd hf (by simp)⟩

theorem Models.push (h : Models A V S) (ha : Holds A s a (V v)) : Models A V (S.push s v a) := by
  refine ⟨⟨h.binding, ?_⟩, h.apart⟩
  intro w t x hx
  simp only [Store.push] at hx
  split_ifs at hx with hw
  · obtain ⟨rfl, rfl⟩ := hw
    rcases mem_append.1 hx with hx | hx
    · exact h.facts hx
    · exact mem_singleton.1 hx ▸ ha
  · exact h.facts hx

variable {b : Row α}

theorem Models.bind (h : Models A V S) (hv : V v = rowValue A V b)
    (hb : Apart A V b) : Models A V (S.bind v b) := by
  refine ⟨⟨?_, h.facts⟩, ?_⟩
  · intro w d hd
    simp only [Store.bind] at hd
    split_ifs at hd with hw
    · obtain rfl := Option.some.inj hd
      exact hw ▸ hv
    · exact h.binding hd
  · intro w d hd
    simp only [Store.bind] at hd
    split_ifs at hd with hw
    · obtain rfl := Option.some.inj hd
      exact hb
    · exact h.apart hd

/-- A valuation is free at a variable that is not there yet. -/
theorem Models.grow {z : X} (h : Models A V S) (hS : S.Ordered) :
    Models A (update V S.nvars z) S.grow := by
  have hne : ∀ {v b}, S.grow.binding v = some b → v ≠ S.nvars ∧ S.binding v = some b := by
    intro v b hb
    simp only [Store.grow] at hb
    split_ifs at hb with hv
    exact ⟨hv, hb⟩
  have hrow : ∀ {v b}, S.binding v = some b →
      ∀ t, b.tail = some t → update V S.nvars z t = V t := by
    intro v b hb t ht
    exact update_of_ne (hS.lt hb ht).2.ne _ _
  refine ⟨⟨?_, ?_⟩, ?_⟩
  · intro v b hb
    obtain ⟨hv, hb⟩ := hne hb
    rw [update_of_ne hv, h.binding hb, rowValue_congr (hrow hb)]
  · intro v t a ha
    simp only [Store.grow] at ha
    split_ifs at ha with hv
    · exact absurd ha not_mem_nil
    · rw [update_of_ne hv]
      exact h.facts ha
  · intro v b hb
    obtain ⟨hv, hb⟩ := hne hb
    exact (h.apart hb).congr (hrow hb)

end Values

/-! ## Processing -/

namespace Ctx

variable {A : RowAlgebra α X} {V : Nat → X} {c c' : Ctx α} {row : Row α} {root k v : Nat}
  {s : Side} {a : α}

/-- A call that succeeds and leaves a store the valuation models. -/
def Succeeds (A : RowAlgebra α X) (V : Nat → X) (o : Outcome α) : Prop :=
  o.1 = .ok ∧ Models A V o.2.store

theorem varFact_sound (h : Models A V c.store) (ha : Holds A s a (V v)) :
    Succeeds A V (varFact s v a c) := by
  rcases varFact_cases s v a c with ⟨_, heq⟩ | ⟨_, ho, heq⟩ | ⟨_, _, heq⟩
  · rw [heq]
    exact ⟨rfl, h⟩
  · have hother : Holds A s.other a (V v) := h.facts ho
    cases s with
    | required => exact absurd hother (A.not_both ha)
    | forbidden => exact absurd ha (A.not_both hother)
  · rw [heq]
    refine ⟨rfl, ?_⟩
    rw [store_pushFact]
    exact h.push ha

theorem factOnRow_sound (h : Models A V c.store) (ha : Holds A s a (rowValue A V row)) :
    Succeeds A V (factOnRow s row a c) := by
  by_cases hmem : a ∈ row.head
  · rw [factOnRow_head hmem]
    cases s with
    | required => exact ⟨rfl, h⟩
    | forbidden => exact absurd ha (A.not_both (has_of_mem hmem))
  · cases ht : row.tail with
    | none =>
      rw [factOnRow_closed hmem ht]
      cases s with
      | required =>
        rw [rowValue_closed ht] at ha
        exact absurd (mem_toFinset.1 (A.has_only.1 ha)) hmem
      | forbidden => exact ⟨rfl, h⟩
    | some v =>
      rw [factOnRow_open hmem ht]
      exact varFact_sound h ((holds_tail ht hmem).1 ha)

variable {o : Outcome α}

theorem andThen_sound {f : Ctx α → Outcome α} (h : Succeeds A V o)
    (hf : ∀ c, Models A V c.store → Succeeds A V (f c)) : Succeeds A V (o.andThen f) := by
  rw [andThen_ok h.1]
  exact hf _ h.2

theorem orFail_sound (h : Succeeds A V o) : Succeeds A V (orFail k o) := by
  unfold orFail
  rw [if_pos h.1]
  exact h

theorem satisfy_sound (h : Succeeds A V o) :
    Succeeds A V (o.andThen (satisfy k)) := by
  exact andThen_sound h fun _ hc => ⟨rfl, hc⟩

theorem bindRow_sound (h : Models A V c.store) (hb : c.Bindable root row)
    (hval : V root = rowValue A V row) (hap : Apart A V row) :
    Succeeds A V (bindRow root row k c) := by
  have hmove : ∀ s, ∀ c', Models A V c'.store → ∀ as : List α,
      (∀ a ∈ as, a ∈ c'.store.facts root s) →
      Succeeds A V (forAll as (applyFact s row k) c') := by
    intro s c' hc' as has
    refine forAll_ok (P := fun c => Models A V c.store) ?_ hc'
    intro a ha c'' hc''
    have hfact : Holds A s a (V root) := hc'.facts (has a ha)
    rw [applyFact_status, applyFact_store]
    exact factOnRow_sound hc'' (hval ▸ hfact)
  unfold bindRow
  rw [hb.not_occurs, if_neg (by simp)]
  refine andThen_sound (hmove .required c h _ fun a ha => ha) fun c1 h1 => ?_
  refine andThen_sound (hmove .forbidden c1 h1 _ fun a ha => ha) fun c2 h2 => ⟨rfl, ?_⟩
  rw [store_setBinding]
  exact h2.bind hval hap

theorem eqHeads_sound {larr rarr : List α} (h : Models A V c.store) (hl : larr = [])
    (hr : rarr = []) : Succeeds A V (eqHeads k larr rarr c) := by
  rw [eqHeads, if_neg (not_not_intro hl), if_neg (not_not_intro hr)]
  exact ⟨rfl, h⟩

variable {na nb : Row α}

theorem diffAtoms_eq_nil (h : na.head.toFinset ⊆ nb.head.toFinset) :
    diffAtoms na nb = [] := by
  rw [diffAtoms, filter_eq_nil_iff]
  intro a ha
  simpa using mem_toFinset.1 (h (mem_toFinset.2 ha))

theorem toFinset_diffAtoms (na nb : Row α) :
    (diffAtoms na nb).toFinset = na.head.toFinset \ nb.head.toFinset := by
  ext a
  simp [diffAtoms]

theorem rowValue_make {as : List α} :
    rowValue A V (rowMake as e) = match e with
      | none => A.only as.toFinset
      | some u => A.adjoin as.toFinset (V u) :=
  rowValue_rowMake

theorem eqOneClosed_sound {t : Nat} (h : Models A V c.store)
    (hb : c.Open True nb) (hta : na.tail = none) (htb : nb.tail = some t) (hap : Apart A V nb)
    (heq : rowValue A V nb = rowValue A V na) :
    Succeeds A V (eqOneClosed k t (diffAtoms na nb) (diffAtoms nb na) c) := by
  rw [rowValue_open htb, rowValue_closed hta] at heq
  have hval := A.split heq fun a ha => hap t htb a (mem_toFinset.1 ha)
  rw [eqOneClosed, if_neg (not_not_intro (diffAtoms_eq_nil (A.subset_of_adjoin_eq_only heq)))]
  refine satisfy_sound (bindRow_sound h ⟨(hb t htb).1, (hb t htb).2 trivial, ?_⟩ ?_ ?_)
  · exact fun u hu => absurd hu (by simp)
  · rw [rowValue_make, toFinset_diffAtoms]
    exact hval
  · exact fun u hu => absurd hu (by simp)

/-- A valuation extends another to the variables that are not there yet. -/
def Extends (c : Ctx α) (V V' : Nat → X) : Prop := ∀ v, v < c.nvars → V' v = V v

/-- Both bindings of an equality succeed: the fresh variable is given the common
remainder of the two tails. -/
theorem bindOpenShared_sound {t1 t2 : Nat} (h : Models A V c.store)
    (hS : c.store.Ordered) (ha : c.Open True na) (hb : c.Open True nb) (hne : t1 ≠ t2)
    (hta : na.tail = some t1) (htb : nb.tail = some t2) (hapa : Apart A V na)
    (hapb : Apart A V nb) (heq : rowValue A V na = rowValue A V nb) :
    ∃ V', c.Extends V V' ∧
      Succeeds A V' (bindOpenShared k t1 (diffAtoms nb na) t2 (diffAtoms na nb) c) := by
  rw [rowValue_open hta, rowValue_open htb] at heq
  obtain ⟨z, h1, h2, hz⟩ := A.cancel heq (fun a ha => hapa t1 hta a (mem_toFinset.1 ha))
    fun a ha => hapb t2 htb a (mem_toFinset.1 ha)
  have hz' : update V c.nvars z c.nvars = z := update_self ..
  have hext : c.Extends V (update V c.nvars z) :=
    fun v hv => update_of_ne hv.ne _ _
  have hU := c.store.within_true
  refine ⟨update V c.nvars z, hext, ?_⟩
  generalize hV' : update V c.nvars z = V' at hz' hext
  have hmod : Models A V' c.varNew.2.store := by
    rw [store_varNew, ← hV']
    exact h.grow hS
  have hap : ∀ na nb : Row α, (∀ a ∈ na.head, A.lacks a z) →
      Apart A V' (rowMake (diffAtoms na nb) (some c.nvars)) := by
    intro na nb hl u hu a ha
    obtain rfl : c.nvars = u := Option.some.inj hu
    rw [hz']
    exact hl a (mem_of_mem_filter (mem_rowMake.1 ha))
  have hval : ∀ na nb : Row α, rowValue A V' (rowMake (diffAtoms na nb) (some c.nvars)) =
      A.adjoin (na.head.toFinset \ nb.head.toFinset) z := by
    intro na nb
    simp only [rowValue_make, toFinset_diffAtoms, hz']
  obtain ⟨hlt1, hunb1⟩ := ha t1 hta
  obtain ⟨hlt2, hunb2⟩ := hb t2 htb
  have hs1 : Succeeds A V'
      (bindRow t1 (rowMake (diffAtoms nb na) (some c.nvars)) k c.varNew.2) := by
    refine bindRow_sound hmod (bindable_varNew hlt1 (hunb1 trivial) _) ?_ ?_
    · rw [hext t1 hlt1, hval]
      exact h1
    · exact hap nb na fun a ha => hz a (Finset.mem_union_right _ (mem_toFinset.2 ha))
  have hs2 : Succeeds A V' (bindRow t2 (rowMake (diffAtoms na nb) (some c.nvars)) k
      (bindRow t1 (rowMake (diffAtoms nb na) (some c.nvars)) k c.varNew.2).2) := by
    refine bindRow_sound hs1.2 (bindable_second hne hlt1 (hunb1 trivial) hlt2
      (hunb2 trivial) hU hs1.1) ?_ ?_
    · rw [hext t2 hlt2, hval]
      exact h2
    · exact hap na nb fun a ha => hz a (Finset.mem_union_left _ (mem_toFinset.2 ha))
  change Succeeds A V' (Outcome.andThen
    (bindRow t1 (rowMake (diffAtoms nb na) (some c.nvars)) k c.varNew.2)
    fun c' => Outcome.andThen
      (bindRow t2 (rowMake (diffAtoms na nb) (some c.nvars)) k c') (satisfy k))
  rw [andThen_ok hs1.1]
  exact satisfy_sound hs2

omit [LinearOrder α] in
theorem Extends.refl : c.Extends V V := fun _ _ => rfl

theorem equalRows_sound (h : Models A V c.store) (hS : c.store.Ordered)
    (ha : c.Open True na) (hb : c.Open True nb) (hapa : Apart A V na) (hapb : Apart A V nb)
    (heq : rowValue A V na = rowValue A V nb) :
    ∃ V', c.Extends V V' ∧ Succeeds A V' (equalRows k na nb c) := by
  unfold equalRows
  cases hta : na.tail with
  | none =>
    cases htb : nb.tail with
    | none =>
      rw [rowValue_closed hta, rowValue_closed htb] at heq
      have hF := A.only_inj heq
      exact ⟨V, .refl, eqHeads_sound h (diffAtoms_eq_nil hF.le) (diffAtoms_eq_nil hF.ge)⟩
    | some t2 => exact ⟨V, .refl, eqOneClosed_sound h hb hta htb hapb heq.symm⟩
  | some t1 =>
    cases htb : nb.tail with
    | none => exact ⟨V, .refl, eqOneClosed_sound h ha htb hta hapa heq⟩
    | some t2 =>
      dsimp only
      split_ifs with ht
      · subst ht
        rw [rowValue_open hta, rowValue_open htb] at heq
        refine ⟨V, .refl, eqHeads_sound h (diffAtoms_eq_nil ?_) (diffAtoms_eq_nil ?_)⟩
        · exact A.adjoin_inj heq fun a ha => hapa t1 hta a (mem_toFinset.1 ha)
        · exact A.adjoin_inj heq.symm fun a ha => hapb t1 htb a (mem_toFinset.1 ha)
      · exact bindOpenShared_sound h hS ha hb ht hta htb hapa hapb heq

theorem processMember_sound (h : Models A V c.store) (hS : c.store.Ordered)
    (hs : A.has a (rowValue A V b)) : Succeeds A V (processMember k a b c) := by
  rw [← h.toAgrees.normalize hS b] at hs
  unfold processMember
  dsimp only
  split_ifs with hmem
  · exact ⟨rfl, h⟩
  · cases ht : (c.normalize b).tail with
    | none =>
      rw [rowValue_closed ht] at hs
      exact absurd (mem_toFinset.1 (A.has_only.1 hs)) hmem
    | some v =>
      exact satisfy_sound (orFail_sound (varFact_sound (s := .required) h
        ((holds_tail (s := .required) ht hmem).1 hs)))

theorem processLacks_sound (h : Models A V c.store) (hS : c.store.Ordered)
    (hs : A.lacks a (rowValue A V b)) : Succeeds A V (processLacks k a b c) := by
  rw [← h.toAgrees.normalize hS b] at hs
  unfold processLacks
  dsimp only
  rw [if_neg (not_mem_of_lacks hs)]
  cases ht : (c.normalize b).tail with
  | none => exact ⟨rfl, h⟩
  | some v =>
    exact satisfy_sound (orFail_sound (varFact_sound (s := .forbidden) h
      ((holds_tail (s := .forbidden) ht (not_mem_of_lacks hs)).1 hs)))

theorem requireRhs_sound (h : Models A V c.store) (hs : A.has a (rowValue A V row)) :
    Succeeds A V (requireRhs k row a c) := by
  unfold requireRhs
  split_ifs
  · exact ⟨rfl, h⟩
  · exact orFail_sound (factOnRow_sound (s := .required) h hs)

theorem forbidIfAbsent_sound {rhs : Row α} (h : Models A V c.store)
    (hs : a ∉ rhs.head → A.lacks a (rowValue A V row)) :
    Succeeds A V (forbidIfAbsent k row rhs a c) := by
  unfold forbidIfAbsent
  split_ifs with hmem
  · exact ⟨rfl, h⟩
  · exact orFail_sound (factOnRow_sound (s := .forbidden) h (hs hmem))

/-- A fact on the tail of a row that its head does not decide is a fact of the row. -/
theorem holds_of_tailFacts (h : Models A V c.store) (ha : a ∈ c.tailFacts row s)
    (hhead : s = .forbidden → a ∉ row.head) : Holds A s a (rowValue A V row) := by
  obtain ⟨v, ht, hf⟩ := mem_tailFacts.1 ha
  by_cases hmem : a ∈ row.head
  · cases s with
    | required => exact has_of_mem hmem
    | forbidden => exact absurd hmem (hhead rfl)
  · exact (holds_tail ht hmem).2 (h.facts hf)

theorem processSubset_sound {a : Row α} (h : Models A V c.store) (hS : c.store.Ordered)
    (hs : Sat A V (.subset a b)) : Succeeds A V (processSubset k a b c) := by
  have hla := h.toAgrees.normalize hS a
  have hrb := h.toAgrees.normalize hS b
  unfold processSubset
  refine andThen_sound (forAll_ok (P := fun c => Models A V c.store) ?_ h) fun c1 h1 => ?_
  · intro x hx c' hc'
    refine requireRhs_sound hc' ?_
    rw [hrb]
    exact (hs x).1 (hla ▸ has_of_mem hx)
  refine andThen_sound (forAll_ok (P := fun c => Models A V c.store) ?_ h1) fun c2 h2 => ?_
  · intro x hx c' hc'
    refine requireRhs_sound hc' ?_
    have hx' : Holds A .required x (rowValue A V (c.normalize a)) :=
      holds_of_tailFacts h1 hx (by simp)
    rw [hrb]
    exact (hs x).1 (hla ▸ hx')
  refine andThen_sound (forAll_ok (P := fun c => Models A V c.store) ?_ h2) fun c3 h3 => ?_
  · intro x hx c' hc'
    refine forbidIfAbsent_sound hc' fun hmem => ?_
    have hx' : Holds A .forbidden x (rowValue A V (c.normalize b)) :=
      holds_of_tailFacts h2 hx fun _ => hmem
    rw [hla]
    exact (hs x).2 (hrb ▸ hx')
  split_ifs
  · exact ⟨rfl, h3⟩
  · exact ⟨rfl, h3⟩

/-- Every fact a rule of the join puts on a row holds of the row. -/
theorem joinRule_sound {o l r : Row α} (h : Models A V c.store) (hS : c.store.Ordered)
    (hj : JoinAt A (rowValue A V o) (rowValue A V l) (rowValue A V r) a) :
    Succeeds A V (joinRule k o l r a c) := by
  obtain ⟨ho, ho'⟩ := h.toAgrees.membership hS o a
  obtain ⟨hl, hl'⟩ := h.toAgrees.membership hS l a
  obtain ⟨hr, hr'⟩ := h.toAgrees.membership hS r a
  unfold joinRule
  refine forAll_ok (P := fun c => Models A V c.store) ?_ h
  intro p hp c' hc'
  refine orFail_sound (factOnRow_sound hc' ?_)
  rcases mem_joinRules.1 hp with ⟨⟨h1, _⟩, rfl⟩ | ⟨⟨h1, _⟩, rfl⟩ | ⟨⟨h1, _⟩, rfl⟩ | ⟨⟨h1, _⟩, rfl⟩ |
    ⟨⟨h1, h2, _⟩, rfl⟩ | ⟨⟨h1, _, h2⟩, rfl⟩ | ⟨⟨h1, _, h2⟩, rfl⟩
  · exact hj.left (hl h1)
  · exact hj.right (hr h1)
  · exact hj.lacksLeft (ho' h1)
  · exact hj.lacksRight (ho' h1)
  · exact hj.lacksOut (hl' h1) (hr' h2)
  · exact hj.fromRight (hl' h1) (ho h2)
  · exact hj.fromLeft (hr' h1) (ho h2)

variable {nl nr : Row α}

theorem joinResidual_sound {no : Row α} (h : Models A V c.store) (hS : c.store.Ordered)
    (ho : c.Open True no) (hl : c.Open True nl) (hr : c.Open True nr)
    (hj : ∀ a, JoinAt A (rowValue A V no) (rowValue A V nl) (rowValue A V nr) a) :
    Succeeds A V (joinResidual k no nl nr c) := by
  have hloop : ∀ as : List α, (forAll as (joinRule k no nl nr) c).1 = .ok ∧
      (Models A V (forAll as (joinRule k no nl nr) c).2.store ∧
        Tells (fun _ => True) True k c (forAll as (joinRule k no nl nr) c).2) := by
    intro as
    refine forAll_ok (P := fun c' => Models A V c'.store ∧ Tells (fun _ => True) True k c c')
      ?_ ⟨h, .refl⟩
    rintro a - c' ⟨hm, ht⟩
    have hs := joinRule_sound (k := k) hm (ht.1.ordered hS) (hj a)
    exact ⟨hs.1, hs.2, ht.trans (joinRule_tells trivial (ho.tells ht) (hl.tells ht) (hr.tells ht))⟩
  unfold joinResidual
  obtain ⟨hok, hm, _⟩ := hloop (c.joinCollect (c.joinCollect (c.joinCollect [] no) nl) nr)
  exact andThen_sound ⟨hok, hm⟩ fun _ hc => ⟨rfl, hc⟩

theorem rowValue_joinCollect (hl : nl.tail = none) (hr : nr.tail = none) :
    rowValue A V (rowMake (c.joinCollect (c.joinCollect [] nl) nr) none) =
      A.only (nl.head.toFinset ∪ nr.head.toFinset) := by
  have hF : (c.joinCollect (c.joinCollect [] nl) nr).toFinset =
      nl.head.toFinset ∪ nr.head.toFinset := by
    ext a
    have htl : ∀ s, a ∉ c.tailFacts nl s := fun s h => by simp [tailFacts, hl] at h
    have htr : ∀ s, a ∉ c.tailFacts nr s := fun s h => by simp [tailFacts, hr] at h
    simp [mem_joinCollect, htl, htr]
  rw [rowValue_make, hF]

/-- What makes a goal safe to process: its rows are there, tails lack what heads have,
and the valuation satisfies it. -/
structure Meets (A : RowAlgebra α X) (V : Nat → X) (n : Nat) (g : Goal α) : Prop where
  inScope : g.Scoped n
  apart : ∀ r ∈ g.operands, Apart A V r
  sat : Sat A V g

variable {g : Goal α}

theorem process_sound (h : Models A V c.store) (hS : c.store.Ordered)
    (hg : Meets A V c.nvars g) :
    ∃ V', c.Extends V V' ∧ Succeeds A V' (process k g c) := by
  obtain ⟨hsc, hap, hs⟩ := hg
  cases g with
  | equal a b =>
    have ha : a ∈ (Goal.equal a b).operands := by simp [Goal.operands]
    have hb : b ∈ (Goal.equal a b).operands := by simp [Goal.operands]
    have hva := h.toAgrees.normalize hS a
    have hvb := h.toAgrees.normalize hS b
    exact equalRows_sound h hS (open_normalize hS (hsc a ha)) (open_normalize hS (hsc b hb))
      (h.normalize hS (hap a ha)) (h.normalize hS (hap b hb)) (hva.trans (Eq.trans hs hvb.symm))
  | subset a b => exact ⟨V, .refl, processSubset_sound h hS hs⟩
  | member x b => exact ⟨V, .refl, processMember_sound h hS hs⟩
  | lacks x b => exact ⟨V, .refl, processLacks_sound h hS hs⟩
  | join o l r =>
    have ho : o ∈ (Goal.join o l r).operands := by simp [Goal.operands]
    have hl : l ∈ (Goal.join o l r).operands := by simp [Goal.operands]
    have hr : r ∈ (Goal.join o l r).operands := by simp [Goal.operands]
    have hvo := h.toAgrees.normalize hS o
    have hvl := h.toAgrees.normalize hS l
    have hvr := h.toAgrees.normalize hS r
    obtain ⟨hj, hclosed⟩ := hs
    change ∃ V', c.Extends V V' ∧ Succeeds A V' (processJoin k o l r c)
    unfold processJoin
    dsimp only
    split_ifs with ht
    · refine equalRows_sound h hS (open_normalize hS (hsc o ho)) (fun _ hu => by simp at hu)
        (h.normalize hS (hap o ho)) (fun _ hu => by simp at hu) ?_
      rw [rowValue_joinCollect ht.1 ht.2, hvo]
      exact hclosed _ _ (hvl ▸ rowValue_closed ht.1) (hvr ▸ rowValue_closed ht.2)
    · refine ⟨V, .refl, joinResidual_sound h hS (open_normalize hS (hsc o ho))
        (open_normalize hS (hsc l hl)) (open_normalize hS (hsc r hr)) ?_⟩
      rw [hvo, hvl, hvr]
      exact hj

/-! ## The loop -/

theorem Meets.extends {V' : Nat → X} {n : Nat} (h : Meets A V c.nvars g)
    (hV : c.Extends V V') (hn : c.nvars ≤ n) : Meets A V' n g := by
  have hval : ∀ r ∈ g.operands, rowValue A V' r = rowValue A V r := fun r hr =>
    rowValue_congr fun v hv => hV v (h.inScope r hr v hv)
  refine ⟨fun r hr v hv => (h.inScope r hr v hv).trans_le hn, fun r hr => ?_, ?_⟩
  · exact (h.apart r hr).congr fun v hv => hV v (h.inScope r hr v hv)
  · have hs := h.sat
    cases g with
    | equal a b | subset a b =>
      simp only [Goal.operands, mem_cons, not_mem_nil, or_false, forall_eq_or_imp,
        forall_eq] at hval
      simpa only [Sat, hval.1, hval.2] using hs
    | member x b | lacks x b =>
      simp only [Goal.operands, mem_cons, not_mem_nil, or_false, forall_eq] at hval
      simpa only [Sat, hval] using hs
    | join o l r =>
      simp only [Goal.operands, mem_cons, not_mem_nil, or_false, forall_eq_or_imp,
        forall_eq] at hval
      simpa only [Sat, hval.1, hval.2.1, hval.2.2] using hs

omit [LinearOrder α] in
theorem Extends.trans {V' V'' : Nat → X} (h : c.Extends V V') (h' : c'.Extends V' V'')
    (hn : c.nvars ≤ c'.nvars) : c.Extends V V'' :=
  fun v hv => (h' v (hv.trans_le hn)).trans (h v hv)

/-- The state of the loop, for a valuation that satisfies the pending constraints it
may come to. -/
structure LoopSound (A : RowAlgebra α X) (V : Nat → X) (c : Ctx α) : Prop where
  models : Models A V c.store
  ordered : c.store.Ordered
  goals : ∀ k, k ∈ c.queue ∨ (c.constraints k).live = true → (c.constraints k).state = .pending →
    Meets A V c.nvars (c.constraints k).goal

/-- One pass of the solver keeps every solution. -/
theorem pass_sound {queue : List Nat} (h : LoopSound A V c) (hq : c.queue = k :: queue) :
    (solveOne k { c with queue := queue }).1 = .ok ∧
      c.nvars ≤ (watchRegister k (solveOne k { c with queue := queue }).2).nvars ∧
      ∃ V', c.Extends V V' ∧
        LoopSound A V' (watchRegister k (solveOne k { c with queue := queue }).2) := by
  have hk : k ∈ c.queue := hq ▸ mem_cons_self
  have htrue : ∀ g : Goal α, g.Within fun _ => True :=
    fun g => ⟨fun _ _ _ _ => trivial, fun _ _ _ => trivial⟩
  generalize hd : ({ c with queue := queue } : Ctx α) = d
  have hstore : d.store = c.store := by rw [← hd]; rfl
  have hcons : d.constraints = c.constraints := by rw [← hd]
  have hsound : (solveOne k d).1 = .ok ∧ ∃ V', c.Extends V V' ∧
      Models A V' (solveOne k d).2.store := by
    by_cases hp : (d.constraints k).state = .pending
    · have hst : (d.trailAppend (.state k .pending)).store = c.store := by
        rw [store_trailAppend, hstore]
      have hn : (d.trailAppend (.state k .pending)).nvars = c.nvars := congrArg Store.nvars hst
      rw [solveOne, if_pos hp, hcons]
      obtain ⟨V', hV', hs⟩ := process_sound (k := k) (c := d.trailAppend (.state k .pending))
        (hst ▸ h.models) (hst ▸ h.ordered) (hn ▸ h.goals k (.inl hk) (hcons ▸ hp))
      exact ⟨hs.1, V', fun v hv => hV' v (hn ▸ hv), hs.2⟩
    · rw [solveOne, if_neg hp]
      exact ⟨rfl, V, .refl, hstore ▸ h.models⟩
  obtain ⟨hok, V', hext, hmod⟩ := hsound
  have hwork : Work (fun _ => True) k d (solveOne k d).2 :=
    solveOne_work (hstore ▸ h.ordered) d.store.within_true (htrue _)
      fun hp => by
        have hn : d.nvars = c.nvars := congrArg Store.nvars hstore
        rw [hn, hcons]
        exact (h.goals k (.inl hk) (hcons ▸ hp)).inScope
  obtain ⟨hle, hord, -, -⟩ := hwork.keeps (hstore ▸ h.ordered)
  obtain ⟨-, hgoal, hlive, -, -⟩ := hwork.frame
  have hstate : ∀ j, ((solveOne k d).2.constraints j).state = .pending →
      (c.constraints j).state = .pending := by
    intro j hj
    by_cases hjk : j = k
    · subst hjk
      by_contra hp
      have hp' : ¬ (d.constraints j).state = .pending := hcons ▸ hp
      rw [solveOne, if_neg hp'] at hj
      exact hp' hj
    · exact hcons ▸ (hwork.state_eq hjk).symm.trans hj
  obtain ⟨vars, hw⟩ := (solveOne k d).2.watchRegister_eq k
  have hn : c.nvars ≤ (solveOne k d).2.nvars :=
    (congrArg Store.nvars hstore).symm.le.trans hle.nvars
  refine ⟨hok, hw ▸ hn, V', hext, ?_, ?_, ?_⟩
  · rw [store_watchRegister]
    exact hmod
  · rw [store_watchRegister]
    exact hord
  · intro j hj hp
    rw [hw] at hj hp ⊢
    have hj' : j ∈ c.queue ∨ (c.constraints j).live = true := by
      rcases hj with hj | hj
      · rcases hwork.queue hj with hj | hj
        · rw [← hd] at hj
          exact .inl (hq ▸ mem_cons_of_mem _ hj)
        · exact .inr (hcons ▸ hj)
      · exact .inr (hcons ▸ hlive j ▸ hj)
    have hm := h.goals j hj' (hstate j hp)
    have hg : ((solveOne k d).2.constraints j).goal = (c.constraints j).goal :=
      (hgoal j).trans (congrArg (fun f => (f j).goal) hcons)
    change Meets A V' (solveOne k d).2.nvars ((solveOne k d).2.constraints j).goal
    rw [hg]
    exact hm.extends hext hn

variable {fuel : Nat}

/-- The loop ends well for every valuation that satisfies what it may come to. -/
theorem solveLoop_sound (h : LoopSound A V c)
    (ho : solveLoop fuel c = some o) :
    ∃ V', c.Extends V V' ∧ Succeeds A V' o := by
  induction fuel generalizing c V with
  | zero => exact absurd ho (by simp [solveLoop])
  | succ fuel ih =>
    unfold solveLoop at ho
    cases hq : c.queue with
    | nil =>
      simp only [hq, Option.some.injEq] at ho
      subst ho
      exact ⟨V, .refl, rfl, h.models⟩
    | cons k queue =>
      obtain ⟨hok, hn, V1, hV1, h1⟩ := pass_sound h hq
      simp only [hq, hok, if_true] at ho
      obtain ⟨V2, hV2, h2⟩ := ih h1 ho
      exact ⟨V2, hV1.trans hV2 hn, h2⟩

/-- `fx_solve` succeeds for every valuation that satisfies the pending constraints, and
leaves a store that an extension of it models. -/
theorem solve_sound (h : LoopSound A V c)
    (ho : solve fuel c = some o) : ∃ V', c.Extends V V' ∧ Succeeds A V' o := by
  obtain ⟨queue, heq, hmem⟩ := c.solveStart_eq
  rw [solve, heq] at ho
  refine solveLoop_sound (c := { c with solving := true, queue := queue }) ⟨h.models, h.ordered, ?_⟩ ho
  intro k hk hp
  refine h.goals k ?_ hp
  rcases hk with hk | hk
  · rcases (hmem k).1 hk with hk | ⟨hk, _⟩
    · exact .inl hk
    · exact .inr (mem_filter.1 hk).2
  · exact .inr hk

end Ctx

end Fx89
