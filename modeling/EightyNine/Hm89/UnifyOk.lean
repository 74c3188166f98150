import EightyNine.Hm89.Compress
import Mathlib.Data.Finset.Card

/-!
# Unification is most general

A unification cuts the solutions of the store down to those that agree on the
two types, or finds that there are none (`Cuts`).  Binding a variable is one
such cut, and the cuts of the arguments add up from left to right.  The
recursion ends because a cut that binds nothing keeps every term, so either a
variable is gone or the next pair of types is smaller.
-/

namespace Hm89

open Library List Function

variable {s s' s'' : Store} {r q a b : Ref}

/-! ## Cutting down the solutions -/

/-- A store in which some variables out of `X` have been bound. -/
structure Narrows (X : Ref → Prop) (s s' : Store) : Prop where
  acyclic : s'.Acyclic
  grows : Grows s s'
  solves : ∀ v, Solves s' v → Solves s v
  bound : ∀ x, s.Unbound x → s'.Unbound x ∨ X x
  vars : ∀ r, r < s.nodes.length → ∀ x, (s'.denote r).Has x → (s.denote r).Has x ∨ X x

variable {X : Ref → Prop}

theorem Narrows.trans (h : Narrows X s s') (h' : Narrows X s' s'') :
    Narrows X s s'' where
  acyclic := h'.acyclic
  grows := h.grows.trans h'.grows
  solves v hv := h.solves v (h'.solves v hv)
  bound x hx := by
    rcases h.bound x hx with hx' | hX
    · exact h'.bound x hx'
    · exact .inr hX
  vars r hr x hx := by
    rw [← h.grows.length] at hr
    rcases h'.vars r hr x hx with hx' | hX
    · rw [h.grows.length] at hr
      exact h.vars r hr x hx'
    · exact .inr hX

theorem Narrows.mono {Y : Ref → Prop} (h : Narrows X s s') (hXY : ∀ x, X x → Y x) :
    Narrows Y s s' where
  acyclic := h.acyclic
  grows := h.grows
  solves := h.solves
  bound x hx := (h.bound x hx).imp_right (hXY x)
  vars r hr x hx := (h.vars r hr x hx).imp_right (hXY x)

theorem Compress.narrows (h : Compress s s') (hs : s.Acyclic) (X : Ref → Prop) :
    Narrows X s s' where
  acyclic := h.acyclic hs
  grows := h.grows
  solves _ hv := (h.solves hs).1 hv
  bound _ hx := .inl (h.unbound.2 hx)
  vars r hr x hx := by
    rw [h.denote hs hr] at hx
    exact .inl hx

/-- What a pointer stands for is an instance of what it stood for. -/
theorem Narrows.denote (h : Narrows X s s') (hr : r < s.nodes.length) :
    s'.denote r = (s.denote r).subst s'.denote :=
  h.solves _ h.acyclic.solves_denote r hr

/-- The error object that goes with a status. -/
def Reports : Status → Option Error → Prop
  | .ok, error => error = none
  | .errorMismatch, error => ∃ a b, error = some ⟨.errMismatch, "type mismatch", a, b⟩
  | .errorOccurs, error => ∃ a b, error = some ⟨.errOccurs, "occurs check failed", a, b⟩
  | _, _ => False

/-- The solutions that meet `E` are kept, and there are none on a failure. -/
structure Cuts (X : Ref → Prop) (E : (Ref → Ty) → Prop) (s s' : Store) (st : Status)
    (error : Option Error) : Prop where
  narrows : Narrows X s s'
  reports : Reports st error
  ok : st = .ok → ∀ v, Solves s' v ↔ Solves s v ∧ E v
  fails : st ≠ .ok → ∀ v, Solves s v → ¬ E v

theorem Cuts.fail_status {E : (Ref → Ty) → Prop} {st : Status}
    {error : Option Error} (h : Cuts X E s s' st error) (hst : st ≠ .ok) :
    st = .errorOccurs ∨ st = .errorMismatch := by
  have hr := h.reports
  cases st with
  | ok => exact absurd rfl hst
  | errorMismatch => exact .inr rfl
  | errorOccurs => exact .inl rfl
  | errorNomem | errorUnbound | errorInvalid | errorInternal => exact hr.elim

/-! ## Binding a variable -/

section Bind

variable {x o : Ref} {id : Nat}

variable {t : Ty}

theorem Denotes.setNode_of_not_has (hx : s.node? x = some (.var id none))
    (h : Denotes s r t) (hn : ¬ t.Has x) : Denotes (s.setNode x (.var id (some o))) r t := by
  have hlt := Store.lt_of_node hx
  induction h with
  | @unbound r id' node =>
    have hrx : r ≠ x := fun h => hn (Term.has_var.2 h.symm)
    exact .unbound (by rw [node_setNode_ne hlt hrx, node])
  | @link r l id' t node _ ih =>
    have hrx : r ≠ x := by
      rintro rfl
      rw [hx] at node
      cases node
    exact .link (by rw [node_setNode_ne hlt hrx, node]) (ih hn)
  | @con r name args f node _ ih =>
    have hrx : r ≠ x := by
      rintro rfl
      rw [hx] at node
      cases node
    refine .con (by rw [node_setNode_ne hlt hrx, node]) fun a ha => ih a ha fun h => ?_
    exact hn (Term.has_con.2 ⟨_, mem_map_of_mem ha, h⟩)

/-- Binding `x` to `o` substitutes the term of `o` for `x`. -/
theorem Denotes.setNode {u : Ty} (hx : s.node? x = some (.var id none))
    (ho : Denotes s o u) (hu : ¬ u.Has x) (h : Denotes s r t) :
    Denotes (s.setNode x (.var id (some o))) r (t.subst (update Term.var x u)) := by
  have hlt := Store.lt_of_node hx
  induction h with
  | @unbound r id' node =>
    rw [Term.subst_var]
    by_cases hrx : r = x
    · subst hrx
      rw [update_self]
      exact .link (node_setNode_self hlt) (ho.setNode_of_not_has hx hu)
    · rw [update_of_ne hrx]
      exact .unbound (by rw [node_setNode_ne hlt hrx, node])
  | @link r l id' t node _ ih =>
    have hrx : r ≠ x := by
      rintro rfl
      rw [hx] at node
      cases node
    exact .link (by rw [node_setNode_ne hlt hrx, node]) ih
  | @con r name args f node _ ih =>
    have hrx : r ≠ x := by
      rintro rfl
      rw [hx] at node
      cases node
    rw [Term.subst_con, map_map]
    exact .con (by rw [node_setNode_ne hlt hrx, node]) ih

theorem Store.Acyclic.setNode (hs : s.Acyclic) (hx : s.node? x = some (.var id none))
    (ho : o < s.nodes.length) (hn : ¬ (s.denote o).Has x) :
    Cuts (fun y => y = x ∨ (s.denote o).Has y) (fun v => v x = v o) s
      (s.setNode x (.var id (some o))) .ok none := by
  have hg : Grows s (s.setNode x (.var id (some o))) := grows_setNode hx ⟨some o, rfl⟩
  have hd : ∀ r, r < s.nodes.length → Denotes (s.setNode x (.var id (some o))) r
      ((s.denote r).subst (update Term.var x (s.denote o))) := fun r hr =>
    Denotes.setNode hx (hs.denotes ho) hn (hs.denotes hr)
  have hac : (s.setNode x (.var id (some o))).Acyclic := by
    refine acyclic_of_denotes fun r hr => ⟨_, hd r ?_⟩
    rwa [hg.length] at hr
  have hxd : s.denote x = .var x := denote_unbound ⟨id, hx⟩
  have hxl := Store.lt_of_node hx
  -- a solution that sends `x` where it sends `o` does not see the substitution
  have hsub : ∀ v : Ref → Ty, v x = (s.denote o).subst v → ∀ r,
      ((s.denote r).subst (update Term.var x (s.denote o))).subst v = (s.denote r).subst v := by
    intro v hv r
    rw [Term.subst_subst]
    refine Term.subst_eq_iff.2 fun y _ => ?_
    by_cases hyx : y = x
    · subst hyx
      rw [update_self, hv]
    · rw [update_of_ne hyx, Term.subst_var]
  have hiff : ∀ v, Solves (s.setNode x (.var id (some o))) v ↔ Solves s v ∧ v x = v o := by
    intro v
    constructor
    · intro hv
      have hvx : v x = (s.denote o).subst v := by
        have h := hv x (by rw [hg.length]; exact hxl)
        rw [(hd x hxl).denote_eq, hxd, Term.subst_var, update_self] at h
        exact h
      have hsol : Solves s v := by
        intro r hr
        rw [hv r (by rw [hg.length]; exact hr), (hd r hr).denote_eq, hsub v hvx]
      exact ⟨hsol, by rw [hvx, hsol o ho]⟩
    · rintro ⟨hv, hvx⟩ r hr
      rw [hg.length] at hr
      rw [(hd r hr).denote_eq, hsub v (by rw [hvx, hv o ho]), hv r hr]
  refine ⟨⟨hac, hg, fun v hv => ((hiff v).1 hv).1, fun y hy => ?_, fun r hr y hy => ?_⟩, rfl,
    fun _ => hiff, fun h => absurd rfl h⟩
  · by_cases hyx : y = x
    · exact .inr (.inl hyx)
    · obtain ⟨id', hy⟩ := hy
      exact .inl ⟨id', by rw [node_setNode_ne hxl hyx, hy]⟩
  · rw [(hd r hr).denote_eq, Term.has_subst] at hy
    obtain ⟨z, hz, hzy⟩ := hy
    by_cases hzx : z = x
    · subst hzx
      rw [update_self] at hzy
      exact .inr (.inr hzy)
    · rw [update_of_ne hzx, Term.has_var] at hzy
      subst hzy
      exact .inl hz

end Bind

/-! ## The measure -/

open Classical in
/-- The unbound variables of a store. -/
noncomputable def Store.free (s : Store) : Finset Ref :=
  (Finset.range s.nodes.length).filter s.Unbound

theorem Store.mem_free : r ∈ s.free ↔ s.Unbound r := by
  simp only [Store.free, Finset.mem_filter, Finset.mem_range]
  constructor
  · exact fun h => h.2
  · rintro ⟨id, hn⟩
    exact ⟨Store.lt_of_node hn, id, hn⟩

theorem Grows.free_subset (h : Grows s s') : s'.free ⊆ s.free := fun _ hx =>
  Store.mem_free.2 (h.unbound (Store.mem_free.1 hx))

theorem Narrows.denote_eq (h : Narrows X s s') (hs : s.Acyclic)
    (hcard : s.free.card ≤ s'.free.card) (hr : r < s.nodes.length) :
    s'.denote r = s.denote r := by
  have heq : s'.free = s.free := Finset.eq_of_subset_of_card_le h.grows.free_subset hcard
  rw [h.denote hr]
  calc (s.denote r).subst s'.denote
    _ = (s.denote r).subst Term.var := by
        refine Term.subst_eq_iff.2 fun x hx => denote_unbound ?_
        rw [← Store.mem_free, heq, Store.mem_free]
        exact (hs.denotes hr).unbound_of_has hx
    _ = s.denote r := Term.subst_id _

/-- The pair of types is below the measure: fewer unbound variables, or as many
and a smaller type. -/
def Below (n k : Nat) (s : Store) (a : Ref) : Prop :=
  s.free.card < n ∨ s.free.card = n ∧ (s.denote a).size < k

variable {n k : Nat}

theorem Below.narrows (hb : Below n k s a) (h : Narrows X s s')
    (hs : s.Acyclic) (ha : a < s.nodes.length) : Below n k s' a := by
  have hle := Finset.card_le_card h.grows.free_subset
  rcases hb with hlt | ⟨heq, hsize⟩
  · exact .inl (by omega)
  · by_cases hcard : s.free.card ≤ s'.free.card
    · refine .inr ⟨by omega, ?_⟩
      rw [h.denote_eq hs hcard ha]
      exact hsize
    · exact .inl (by omega)

/-! ## Unification -/

/-- A unification returns and cuts the solutions down to those that agree on the
two types. -/
def Unified (f : Nat → Store → Ref → Ref → Option (Store × Status × Option Error)) (s : Store)
    (a b : Ref) : Prop :=
  ∃ s' st error, Returns (fun fuel => f fuel s a b) (s', st, error) ∧
    Cuts (fun x => (s.denote a).Has x ∨ (s.denote b).Has x) (fun v => v a = v b) s s' st error

/-- The arguments are unified one after the other. -/
theorem unifyArgs_spec {f : Nat → Store → Ref → Ref → Option (Store × Status × Option Error)}
    (ih : ∀ s a b, s.Acyclic → a < s.nodes.length → b < s.nodes.length → Below n k s a →
      Unified f s a b)
    {as bs : List Ref} (hlen : as.length = bs.length) (hs : s.Acyclic)
    (has : ∀ a ∈ as, a < s.nodes.length) (hbs : ∀ b ∈ bs, b < s.nodes.length)
    (hbelow : ∀ a ∈ as, Below n k s a) :
    ∃ s' st error, Returns (fun fuel => unifyArgs (f fuel) s as bs) (s', st, error) ∧
      Cuts (fun x => (∃ a ∈ as, (s.denote a).Has x) ∨ ∃ b ∈ bs, (s.denote b).Has x)
        (fun v => as.map v = bs.map v) s s' st error := by
  induction as generalizing bs s with
  | nil =>
    obtain rfl : bs = [] := length_eq_zero_iff.1 hlen.symm
    exact ⟨s, .ok, none, .pure _, (Compress.refl s).narrows hs _, rfl,
      fun _ v => (and_iff_left rfl).symm, fun h => absurd rfl h⟩
  | cons a as ihas =>
    obtain _ | ⟨b, bs⟩ := bs
    · cases hlen
    have ha := has a mem_cons_self
    have hb := hbs b mem_cons_self
    obtain ⟨s₁, st, error, hret, hcut⟩ := ih s a b hs ha hb (hbelow a mem_cons_self)
    have hhead : Narrows (fun x => (∃ c ∈ a :: as, (s.denote c).Has x) ∨
        ∃ c ∈ b :: bs, (s.denote c).Has x) s s₁ := hcut.narrows.mono fun x hx =>
      hx.imp (fun h => ⟨a, mem_cons_self, h⟩) fun h => ⟨b, mem_cons_self, h⟩
    by_cases hst : st = .ok
    · have hrange : ∀ c, c < s.nodes.length → c < s₁.nodes.length := fun c hc => by
        rwa [hcut.narrows.grows.length]
      obtain ⟨s₂, st₂, error₂, hret₂, hcut₂⟩ := ihas (Nat.succ.inj hlen) hcut.narrows.acyclic
        (fun c hc => hrange c (has c (mem_cons_of_mem a hc)))
        (fun c hc => hrange c (hbs c (mem_cons_of_mem b hc)))
        fun c hc => (hbelow c (mem_cons_of_mem a hc)).narrows hcut.narrows hs
          (has c (mem_cons_of_mem a hc))
      have hold : ∀ (cs : List Ref), (∀ c ∈ cs, c < s.nodes.length) → ∀ x,
          (∃ c ∈ cs, (s₁.denote c).Has x) → (∃ c ∈ cs, (s.denote c).Has x) ∨
            ((s.denote a).Has x ∨ (s.denote b).Has x) := by
        rintro cs hcs x ⟨c, hc, hx⟩
        exact (hcut.narrows.vars c (hcs c hc) x hx).imp_left fun h => ⟨c, hc, h⟩
      refine ⟨s₂, st₂, error₂, hret.bind ?_, ?_, hcut₂.reports, fun h v => ?_, fun h v hv hE => ?_⟩
      · simp only [if_pos hst]
        exact hret₂
      · refine hhead.trans (hcut₂.narrows.mono fun x hx => ?_)
        have hhd : (s.denote a).Has x ∨ (s.denote b).Has x →
            (∃ c ∈ a :: as, (s.denote c).Has x) ∨ ∃ c ∈ b :: bs, (s.denote c).Has x :=
          fun h => h.imp (fun h => ⟨a, mem_cons_self, h⟩) fun h => ⟨b, mem_cons_self, h⟩
        rcases hx with hx | hx
        · rcases hold as (fun c hc => has c (mem_cons_of_mem a hc)) x hx with
            ⟨c, hc, h⟩ | h
          · exact .inl ⟨c, mem_cons_of_mem a hc, h⟩
          · exact hhd h
        · rcases hold bs (fun c hc => hbs c (mem_cons_of_mem b hc)) x hx with
            ⟨c, hc, h⟩ | h
          · exact .inr ⟨c, mem_cons_of_mem b hc, h⟩
          · exact hhd h
      · rw [hcut₂.ok h v, hcut.ok hst v, map_cons, map_cons, cons.injEq, and_assoc]
      · rw [map_cons, map_cons, cons.injEq] at hE
        exact hcut₂.fails h v ((hcut.ok hst v).2 ⟨hv, hE.1⟩) hE.2
    · refine ⟨s₁, st, error, hret.bind ?_, hhead, hcut.reports, fun h => absurd h hst,
        fun _ v hv hE => ?_⟩
      · simp only [if_neg hst]
        exact .pure _
      · rw [map_cons, map_cons, cons.injEq] at hE
        exact hcut.fails hst v hv hE.1

/-- `hm_i_bind_var` at an unbound variable and another end of links. -/
theorem bindVar_spec {x o : Ref} {id : Nat} (hs : s.Acyclic) (hx : s.node? x = some (.var id none))
    (ho : o < s.nodes.length) (hend : s.Ended o) (hne : o ≠ x) :
    ∃ s' st error, Returns (fun fuel => bindVar fuel s x id o) (s', st, error) ∧
      Cuts (fun y => y = x ∨ (s.denote o).Has y) (fun v => v x = v o) s s' st error := by
  obtain ⟨s₁, found, hret, hc, hfound⟩ := hs.occurs ⟨id, hx⟩ ho
  have hs₁ := hc.acyclic hs
  cases found with
  | true =>
    refine ⟨s₁, .errorOccurs, _, hret.bind (.pure _), hc.narrows hs _, ⟨x, o, rfl⟩, fun h => (by cases h),
      fun _ v hv hE => ?_⟩
    -- the variable is inside a constructor, so no solution sends both to one term
    obtain ⟨id', hn⟩ | ⟨name, args, hn⟩ := hend.cases ho
    · have hhas := hfound.1 rfl
      rw [denote_unbound ⟨id', hn⟩, Term.has_var] at hhas
      exact hne hhas.symm
    · have hhas := hfound.1 rfl
      rw [hv o ho] at hE
      rw [hs.denote_con hn] at hE hhas
      have hlt := Term.size_lt_of_has (σ := v) hhas
      rw [← hE] at hlt
      exact Nat.lt_irrefl _ hlt
  | false =>
    obtain ⟨id', hx₁⟩ := hc.unbound.2 ⟨id, hx⟩
    obtain rfl : id' = id := by
      obtain ⟨n, hn, link, rfl⟩ := hc.grows.node x _ hx
      rw [hx₁] at hn
      cases hn
      rfl
    have ho₁ : o < s₁.nodes.length := by rwa [hc.grows.length]
    have hnot : ¬ (s₁.denote o).Has x := by
      rw [hc.denote hs ho]
      exact fun h => Bool.false_ne_true (hfound.2 h)
    have hcut := hs₁.setNode hx₁ ho₁ hnot
    rw [hc.denote hs ho] at hcut
    refine ⟨_, .ok, none, hret.bind (.pure _),
      (hc.narrows hs _).trans hcut.narrows, rfl, fun h v => ?_, fun h => absurd rfl h⟩
    rw [hcut.ok rfl v, hc.solves hs]

/-- One call of `hm_unify`, when it returns on the pairs below the measure. -/
theorem unify_step (hs : s.Acyclic) (ha : a < s.nodes.length) (hb : b < s.nodes.length)
    (ih : ∀ s' a' b', s'.Acyclic → a' < s'.nodes.length → b' < s'.nodes.length →
      Below s.free.card (s.denote a).size s' a' → Unified unify s' a' b') :
    Unified unify s a b := by
  obtain ⟨s₁, p, hretp, hc₁, hp₁, hend₁, hdenp⟩ := hs.typePrune ha
  have hs₁ := hc₁.acyclic hs
  have hb₁ : b < s₁.nodes.length := by rwa [hc₁.grows.length]
  obtain ⟨s₂, q, hretq, hc₂, hq, hendq, hdenq⟩ := hs₁.typePrune hb₁
  have hs₂ := hc₂.acyclic hs₁
  have hc := hc₁.trans hc₂
  have hp : p < s₂.nodes.length := by rwa [hc₂.grows.length]
  have hendp : s₂.Ended p := by
    intro id l hn
    obtain ⟨id', hn'⟩ | ⟨name, args, hn'⟩ := hend₁.cases hp₁
    · obtain ⟨id'', hn''⟩ := hc₂.unbound.2 ⟨id', hn'⟩
      rw [hn] at hn''
      cases hn''
    · have hn'' := hc₂.grows.con hn'
      rw [hn] at hn''
      cases hn''
  have hdp : s₂.denote p = s.denote a := by rw [hc₂.denote hs₁ hp₁, hdenp]
  have hdq : s₂.denote q = s.denote b := by rw [hdenq, hc₁.denote hs hb]
  have hsolves : ∀ v, Solves s₂ v ↔ Solves s v := fun v => hc.solves hs
  -- a solution cannot tell a pointer from the end of its links
  have hends : ∀ v, Solves s v → v a = v p ∧ v b = v q := by
    intro v hv
    have hv₂ := (hsolves v).2 hv
    constructor
    · rw [hv a ha, hv₂ p hp, hdp]
    · rw [hv b hb, hv₂ q hq, hdq]
  have hfree : s₂.free = s.free :=
    Finset.ext fun x => by rw [Store.mem_free, Store.mem_free, hc.unbound]
  have hX : ∀ x, (s₂.denote p).Has x ∨ (s₂.denote q).Has x →
      (s.denote a).Has x ∨ (s.denote b).Has x := by
    intro x hx
    rwa [hdp, hdq] at hx
  have hfinish : ∀ {X : Ref → Prop} {E : (Ref → Ty) → Prop} {s' st error},
      Cuts X E s₂ s' st error → (∀ x, X x → (s₂.denote p).Has x ∨ (s₂.denote q).Has x) →
      (∀ v, Solves s v → (E v ↔ v p = v q)) →
      Cuts (fun x => (s.denote a).Has x ∨ (s.denote b).Has x) (fun v => v a = v b) s s' st
        error := by
    intro X E s' st error hcut hXpq hE
    refine ⟨(hc.narrows hs _).trans (hcut.narrows.mono fun x hx => hX x (hXpq x hx)),
      hcut.reports, fun hst v => ?_, fun hst v hv h => ?_⟩
    · rw [hcut.ok hst v, hsolves v]
      refine and_congr_right fun hv => ?_
      rw [(hends v hv).1, (hends v hv).2]
      exact hE v hv
    · rw [(hends v hv).1, (hends v hv).2] at h
      exact hcut.fails hst v ((hsolves v).2 hv) ((hE v hv).2 h)
  by_cases hpq : p = q
  · refine ⟨s₂, .ok, none, Returns.succ (hretp.bind (hretq.bind ?_)), hfinish (X := fun _ => False)
      (E := fun v => v p = v q) ?_ (fun _ h => h.elim) fun v _ => Iff.rfl⟩
    · simp only [if_pos hpq]
      exact .pure _
    · exact ⟨(Compress.refl s₂).narrows hs₂ _, rfl, fun _ v => by simp [hpq],
        fun h => absurd rfl h⟩
  obtain ⟨id, hnp⟩ | ⟨pName, pArgs, hnp⟩ := hendp.cases hp
  · -- the left type ends in an unbound variable
    obtain ⟨s₃, st, error, hret, hcut⟩ := bindVar_spec hs₂ hnp hq hendq (Ne.symm hpq)
    obtain ⟨nq, hnq⟩ := Store.node_of_lt hq
    refine ⟨s₃, st, error, Returns.succ (hretp.bind (hretq.bind ?_)), hfinish hcut ?_
      fun v _ => Iff.rfl⟩
    · simp only [if_neg hpq, hnp, hnq]
      exact hret
    · rintro x (rfl | hx)
      · rw [denote_unbound ⟨id, hnp⟩]
        exact .inl .var
      · exact .inr hx
  obtain ⟨id, hnq⟩ | ⟨qName, qArgs, hnq⟩ := hendq.cases hq
  · -- the right type ends in an unbound variable
    obtain ⟨s₃, st, error, hret, hcut⟩ := bindVar_spec hs₂ hnq hp hendp hpq
    refine ⟨s₃, st, error, Returns.succ (hretp.bind (hretq.bind ?_)), hfinish hcut ?_
      fun v _ => eq_comm⟩
    · simp only [if_neg hpq, hnp, hnq]
      exact hret
    · rintro x (rfl | hx)
      · rw [denote_unbound ⟨id, hnq⟩]
        exact .inr .var
      · exact .inl hx
  -- both types end in a constructor
  have hvp : ∀ v, Solves s v → v p = .con pName (pArgs.map v) := by
    intro v hv
    have hv₂ := (hsolves v).2 hv
    rw [hv₂ p hp, hs₂.denote_con hnp, Term.subst_con, map_map]
    exact congrArg (Term.con pName) (map_congr_left fun c hc =>
      (hv₂ c (hs₂.args_lt hnp c hc)).symm)
  have hvq : ∀ v, Solves s v → v q = .con qName (qArgs.map v) := by
    intro v hv
    have hv₂ := (hsolves v).2 hv
    rw [hv₂ q hq, hs₂.denote_con hnq, Term.subst_con, map_map]
    exact congrArg (Term.con qName) (map_congr_left fun c hc =>
      (hv₂ c (hs₂.args_lt hnq c hc)).symm)
  have hclash : ¬ (pName = qName ∧ pArgs.length = qArgs.length) →
      Cuts (fun _ => False) (fun v => v p = v q) s₂ s₂ .errorMismatch
        (some ⟨.errMismatch, "type mismatch", p, q⟩) := by
    intro hne
    refine ⟨(Compress.refl s₂).narrows hs₂ _, ⟨p, q, rfl⟩, fun h => (by cases h),
      fun _ v hv h => ?_⟩
    rw [hvp v ((hsolves v).1 hv), hvq v ((hsolves v).1 hv), Term.con.injEq] at h
    exact hne ⟨h.1, by simpa using congrArg length h.2⟩
  by_cases hname : pName = qName
  · by_cases hlen : pArgs.length = qArgs.length
    · obtain ⟨s₃, st, error, hret, hcut⟩ := unifyArgs_spec ih hlen hs₂ (hs₂.args_lt hnp)
        (hs₂.args_lt hnq) fun c hc => by
          refine .inr ⟨congrArg Finset.card hfree, ?_⟩
          rw [← hdp, hs₂.denote_con hnp]
          exact Term.size_lt_con (mem_map_of_mem hc)
      refine ⟨s₃, st, error, Returns.succ (hretp.bind (hretq.bind ?_)), hfinish hcut ?_
        fun v hv => ?_⟩
      · simp only [if_neg hpq, hnp, hnq, hname, ne_eq, not_true, if_false, hlen]
        exact hret
      · rintro x (⟨c, hc, hx⟩ | ⟨c, hc, hx⟩)
        · rw [hs₂.denote_con hnp]
          exact .inl (Term.has_con.2 ⟨_, mem_map_of_mem hc, hx⟩)
        · rw [hs₂.denote_con hnq]
          exact .inr (Term.has_con.2 ⟨_, mem_map_of_mem hc, hx⟩)
      · rw [hvp v hv, hvq v hv, Term.con.injEq, and_iff_right hname]
    · refine ⟨s₂, _, _, Returns.succ (hretp.bind (hretq.bind ?_)),
        hfinish (hclash fun h => hlen h.2) (fun _ h => h.elim) fun v _ => Iff.rfl⟩
      simp only [if_neg hpq, hnp, hnq, hname, ne_eq, not_true, if_false, hlen, not_false_iff, if_true]
      exact .pure _
  · refine ⟨s₂, _, _, Returns.succ (hretp.bind (hretq.bind ?_)),
      hfinish (hclash fun h => hname h.1) (fun _ h => h.elim) fun v _ => Iff.rfl⟩
    simp only [if_neg hpq, hnp, hnq, hname, ne_eq, not_false_iff, if_true]
    exact .pure _

/-- `hm_unify` on any two types of an acyclic store. -/
theorem Store.Acyclic.unified (hs : s.Acyclic) (ha : a < s.nodes.length)
    (hb : b < s.nodes.length) : Unified unify s a b := by
  induction hn : s.free.card using Nat.strong_induction_on generalizing s a b with
  | _ n ihn =>
    induction hk : (s.denote a).size using Nat.strong_induction_on generalizing s a b with
    | _ k ihk =>
      refine unify_step hs ha hb fun s' a' b' hs' ha' hb' hbelow => ?_
      rcases hbelow with hlt | ⟨heq, hlt⟩
      · exact ihn _ (hn ▸ hlt) hs' ha' hb' rfl
      · exact ihk _ (hk ▸ hlt) hs' ha' hb' (heq.trans hn) rfl

/-- `hm_unify` returns on every two types of an acyclic store.  It answers
`HM_OK` exactly when they have a unifier; then the links made are one, and every
unifier factors through them.  Otherwise it reports the occurs check or a
mismatch.  The store stays acyclic, and only unbound variables gain links. -/
theorem unify_mostGeneral (s : Store) (hs : s.Acyclic) (a b : Ref) (ha : a < s.nodes.length)
    (hb : b < s.nodes.length) :
    ∃ s' st error, Returns (fun fuel => unify fuel s a b) (s', st, error) ∧
      s'.Acyclic ∧ Grows s s' ∧
      (st = .ok ↔ ∃ σ, (s.denote a).subst σ = (s.denote b).subst σ) ∧
      (st = .ok → s'.denote a = s'.denote b ∧
        (∀ r, r < s.nodes.length → s'.denote r = (s.denote r).subst s'.denote) ∧
        ∀ σ, (s.denote a).subst σ = (s.denote b).subst σ →
          ∀ r, r < s.nodes.length → (s.denote r).subst σ = (s'.denote r).subst σ) ∧
      ((¬ ∃ σ, (s.denote a).subst σ = (s.denote b).subst σ) →
        st = .errorOccurs ∨ st = .errorMismatch) := by
  obtain ⟨s', st, error, hret, hcut⟩ := hs.unified ha hb
  have hn := hcut.narrows
  have hok : st = .ok → s'.denote a = s'.denote b := fun hst =>
    ((hcut.ok hst _).1 hn.acyclic.solves_denote).2
  have hunifies : st = .ok → ∃ σ, (s.denote a).subst σ = (s.denote b).subst σ := by
    intro hst
    refine ⟨s'.denote, ?_⟩
    rw [← hn.denote ha, ← hn.denote hb, hok hst]
  have hfails : st ≠ .ok → ¬ ∃ σ, (s.denote a).subst σ = (s.denote b).subst σ := by
    rintro hst ⟨σ, hσ⟩
    exact hcut.fails hst _ (hs.solves_subst σ) hσ
  refine ⟨s', st, error, hret, hn.acyclic, hn.grows, ⟨hunifies, fun h => ?_⟩, fun hst => ?_,
    fun h => hcut.fail_status fun hst => h (hunifies hst)⟩
  · by_contra hst
    exact hfails hst h
  · refine ⟨hok hst, fun r hr => hn.denote hr, fun σ hσ r hr => ?_⟩
    -- the instances under a unifier solve the old store and agree on the two types
    have hv := (hcut.ok hst _).2 ⟨hs.solves_subst σ, hσ⟩
    have hr' : r < s'.nodes.length := by rwa [hn.grows.length]
    refine (hv r hr').trans (Term.subst_eq_iff.2 fun x hx => ?_)
    have hx' := (hn.acyclic.denotes hr').unbound_of_has hx
    rw [denote_unbound (hn.grows.unbound hx'), Term.subst_var]

/-- `a -> Int` and `Bool -> b`. -/
def funStore : Store :=
  ⟨[.var 0 none, .con [73, 110, 116] [], .con [45, 62] [0, 1],
    .con [66, 111, 111, 108] [], .var 1 none, .con [45, 62] [3, 4]], 2⟩

theorem acyclic_of_edge_lt (h : ∀ r q, s.Edge r q → q < r) : s.Acyclic := by
  constructor
  · exact fun r q e => (h r q e).trans (Store.edge_lt e)
  · intro r hr
    have hlt : ∀ q, Relation.TransGen s.Edge r q → q < r := by
      intro q hq
      induction hq with
      | single e => exact h _ _ e
      | tail _ e ih => exact (h _ _ e).trans ih
    exact Nat.lt_irrefl r (hlt r hr)

example : (unify 4 funStore 2 5).map (fun out => out.2.1) = some .ok := by decide

theorem funStore_acyclic : funStore.Acyclic := by
  refine acyclic_of_edge_lt fun r q e => ?_
  rcases r with _ | _ | _ | _ | _ | _ | r
  all_goals simp [Store.Edge, Store.node?, funStore] at e
  all_goals rcases e with rfl | rfl <;> decide

theorem unify_mostGeneral_fun :
    ∃ s' st error, Returns (fun fuel => unify fuel funStore 2 5) (s', st, error) ∧
      s'.Acyclic ∧ Grows funStore s' ∧
      (st = .ok ↔ ∃ σ, (funStore.denote 2).subst σ = (funStore.denote 5).subst σ) ∧
      (st = .ok → s'.denote 2 = s'.denote 5 ∧
        (∀ r, r < funStore.nodes.length → s'.denote r = (funStore.denote r).subst s'.denote) ∧
        ∀ σ, (funStore.denote 2).subst σ = (funStore.denote 5).subst σ →
          ∀ r, r < funStore.nodes.length →
            (funStore.denote r).subst σ = (s'.denote r).subst σ) ∧
      ((¬ ∃ σ, (funStore.denote 2).subst σ = (funStore.denote 5).subst σ) →
        st = .errorOccurs ∨ st = .errorMismatch) :=
  unify_mostGeneral funStore funStore_acyclic 2 5 (by decide) (by decide)

end Hm89
