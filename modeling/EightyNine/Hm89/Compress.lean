import EightyNine.Hm89.Denote

/-!
# Path compression

A store grows when unbound variables gain links (`Grows`).  Following the links
of a pointer only moves links that exist to their ends, so that every pointer
keeps its term (`Compress`).  `hm_type_prune` compresses and returns the end,
and the occurs check compresses and decides whether the variable is in the term.
-/

namespace Hm89

open Library List

variable {s s' s'' : Store} {r q : Ref}

/-! ## Growing -/

/-- What a node may become: an unbound variable may gain a link, and a link may
move. -/
def TypeNode.Grows : TypeNode → TypeNode → Prop
  | .con name args, n => n = .con name args
  | .var id none, n => ∃ link, n = .var id link
  | .var id (some _), n => ∃ l, n = .var id (some l)

theorem TypeNode.Grows.refl (n : TypeNode) : n.Grows n := by
  rcases n with ⟨id, _ | l⟩ | ⟨name, args⟩
  · exact ⟨none, rfl⟩
  · exact ⟨l, rfl⟩
  · rfl

theorem TypeNode.Grows.trans {m n k : TypeNode} (h : m.Grows n) (h' : n.Grows k) :
    m.Grows k := by
  rcases m with ⟨id, _ | l⟩ | ⟨name, args⟩
  · obtain ⟨_ | l, rfl⟩ := h
    · exact h'
    · obtain ⟨l', rfl⟩ := h'
      exact ⟨some l', rfl⟩
  · obtain ⟨l', rfl⟩ := h
    exact h'
  · rw [show n = _ from h] at h'
    exact h'

/-- Only unbound variables gain links. -/
structure Grows (s s' : Store) : Prop where
  length : s'.nodes.length = s.nodes.length
  nextVarId : s'.nextVarId = s.nextVarId
  node : ∀ r n, s.node? r = some n → ∃ n', s'.node? r = some n' ∧ n.Grows n'

theorem Grows.refl (s : Store) : Grows s s :=
  ⟨rfl, rfl, fun _ n hn => ⟨n, hn, .refl n⟩⟩

theorem Grows.trans (h : Grows s s') (h' : Grows s' s'') : Grows s s'' := by
  refine ⟨h'.length.trans h.length, h'.nextVarId.trans h.nextVarId, fun r n hn => ?_⟩
  obtain ⟨n', hn', hg⟩ := h.node r n hn
  obtain ⟨n'', hn'', hg'⟩ := h'.node r n' hn'
  exact ⟨n'', hn'', hg.trans hg'⟩

theorem Grows.con (h : Grows s s') {name : List UInt8} {args : List Ref}
    (hn : s.node? r = some (.con name args)) : s'.node? r = some (.con name args) := by
  obtain ⟨n', hn', hg⟩ := h.node r _ hn
  rw [hn', show n' = _ from hg]

theorem Grows.unbound (h : Grows s s') (hu : s'.Unbound r) : s.Unbound r := by
  obtain ⟨id, hn'⟩ := hu
  have hlt := Store.lt_of_node hn'
  rw [h.length] at hlt
  obtain ⟨n, hn⟩ := Store.node_of_lt hlt
  obtain ⟨n', hn'', hg⟩ := h.node r n hn
  rw [hn'] at hn''
  cases hn''
  rcases n with ⟨id', _ | l⟩ | ⟨name, args⟩
  · exact ⟨id', hn⟩
  · obtain ⟨l', h⟩ := hg
    cases h
  · cases hg

theorem node_setNode {n : TypeNode} (hr : r < s.nodes.length) :
    (s.setNode r n).node? q = if q = r then some n else s.node? q := by
  show (s.nodes.set r n)[q]? = _
  rw [List.getElem?_set]
  by_cases h : q = r
  · subst h
    rw [if_pos rfl, if_pos rfl, if_pos hr]
  · rw [if_neg (Ne.symm h), if_neg h]
    rfl

theorem node_setNode_self {n : TypeNode} (hr : r < s.nodes.length) :
    (s.setNode r n).node? r = some n := by
  rw [node_setNode hr, if_pos rfl]

theorem node_setNode_ne {n : TypeNode} (hr : r < s.nodes.length) (h : q ≠ r) :
    (s.setNode r n).node? q = s.node? q := by
  rw [node_setNode hr, if_neg h]

theorem grows_setNode {m n : TypeNode} (hm : s.node? r = some m) (hg : m.Grows n) :
    Grows s (s.setNode r n) := by
  have hr := Store.lt_of_node hm
  refine ⟨length_set, rfl, fun q k hk => ?_⟩
  by_cases h : q = r
  · subst h
    rw [hm] at hk
    cases hk
    exact ⟨n, node_setNode_self hr, hg⟩
  · exact ⟨k, by rw [node_setNode_ne hr h, hk], .refl k⟩

/-! ## The end of a chain of links -/

/-- The node is no linked variable. -/
def Store.Ended (s : Store) (r : Ref) : Prop :=
  ∀ id l, s.node? r ≠ some (.var id (some l))

/-- The links of `r` end at `q`. -/
inductive Root (s : Store) : Ref → Ref → Prop
  | here {r : Ref} (ended : s.Ended r) : Root s r r
  | link {r l q : Ref} {id : Nat} (node : s.node? r = some (.var id (some l)))
      (rest : Root s l q) : Root s r q

theorem Root.ended (h : Root s r q) : s.Ended q := by
  induction h with
  | here ended => exact ended
  | link _ _ ih => exact ih

theorem Root.eq_of_ended (h : Root s r q) (hr : s.Ended r) : q = r := by
  cases h with
  | here _ => rfl
  | link node _ => exact absurd node (hr _ _)

theorem Root.unique (h : Root s r q) {q' : Ref} (h' : Root s r q') : q' = q := by
  induction h with
  | here ended => exact h'.eq_of_ended ended
  | link node _ ih =>
    cases h' with
    | here ended => exact absurd node (ended _ _)
    | link node' rest =>
      rw [node] at node'
      cases node'
      exact ih rest

theorem Root.denotes {t : Ty} (h : Root s r q) (ht : Denotes s r t) : Denotes s q t := by
  induction h with
  | here _ => exact ht
  | link node _ ih =>
    cases ht with
    | unbound node' | con node' _ => rw [node] at node'; cases node'
    | link node' target =>
      rw [node] at node'
      cases node'
      exact ih target

/-! ## Compression -/

/-- Links move to their ends: nothing is bound, and every pointer keeps its term
and its end. -/
structure Compress (s s' : Store) : Prop where
  grows : Grows s s'
  root : ∀ r q, Root s r q → Root s' r q
  denotes : ∀ r t, Denotes s r t → Denotes s' r t

theorem Compress.refl (s : Store) : Compress s s :=
  ⟨.refl s, fun _ _ h => h, fun _ _ h => h⟩

theorem Compress.trans (h : Compress s s') (h' : Compress s' s'') : Compress s s'' :=
  ⟨h.grows.trans h'.grows, fun r q hr => h'.root r q (h.root r q hr),
    fun r t ht => h'.denotes r t (h.denotes r t ht)⟩

theorem Compress.acyclic (h : Compress s s') (hs : s.Acyclic) : s'.Acyclic := by
  refine acyclic_of_denotes fun r hr => ?_
  rw [h.grows.length] at hr
  exact ⟨_, h.denotes r _ (hs.denotes hr)⟩

theorem Compress.denote (h : Compress s s') (hs : s.Acyclic) (hr : r < s.nodes.length) :
    s'.denote r = s.denote r :=
  (h.denotes r _ (hs.denotes hr)).denote_eq

theorem Compress.unbound (h : Compress s s') : s'.Unbound r ↔ s.Unbound r := by
  constructor
  · exact h.grows.unbound
  · rintro ⟨id, hn⟩
    exact (h.denotes r _ (.unbound hn)).unbound_of_has .var

theorem Compress.solves (h : Compress s s') (hs : s.Acyclic) {v : Ref → Ty} :
    Solves s' v ↔ Solves s v := by
  constructor
  · intro hv r hr
    rw [hv r (by rw [h.grows.length]; exact hr), h.denote hs hr]
  · intro hv r hr
    rw [h.grows.length] at hr
    rw [hv r hr, h.denote hs hr]

/-- A link is set to the root it leads to. -/
theorem compress_setNode {id : Nat} {l : Ref} (hn : s.node? r = some (.var id (some l)))
    (hq : Root s r q) : Compress s (s.setNode r (.var id (some q))) := by
  have hr := Store.lt_of_node hn
  have hself : (s.setNode r (.var id (some q))).node? r = some (.var id (some q)) :=
    node_setNode_self hr
  have hne : ∀ {k}, k ≠ r → (s.setNode r (.var id (some q))).node? k = s.node? k :=
    fun h => node_setNode_ne hr h
  have hended : ∀ k, s.Ended k → (s.setNode r (.var id (some q))).Ended k := by
    intro k hk
    have hkr : k ≠ r := by
      rintro rfl
      exact hk _ _ hn
    intro id' l'
    rw [hne hkr]
    exact hk id' l'
  refine ⟨grows_setNode hn ⟨q, rfl⟩, fun k e hk => ?_, fun k t hk => ?_⟩
  · induction hk with
    | here ended => exact .here (hended _ ended)
    | @link k l' e id' node rest ih =>
      by_cases hkr : k = r
      · subst hkr
        obtain rfl : e = q := hq.unique (.link node rest)
        exact .link hself (.here (hended _ hq.ended))
      · exact .link (by rw [hne hkr, node]) ih
  · -- the end of a chain is compressed together with every pointer on the way to it
    suffices h : Denotes (s.setNode r (.var id (some q))) k t ∧
        ∀ e, Root s k e → Denotes (s.setNode r (.var id (some q))) e t from h.1
    induction hk with
    | @unbound k id' node =>
      have hkr : k ≠ r := by
        rintro rfl
        rw [hn] at node
        cases node
      have hd : Denotes (s.setNode r (.var id (some q))) k (.var k) :=
        .unbound (by rw [hne hkr, node])
      refine ⟨hd, fun e he => ?_⟩
      rw [he.eq_of_ended fun id' l' h => by rw [node] at h; cases h]
      exact hd
    | @link k l' id' t node target ih =>
      have hend : ∀ e, Root s k e → Denotes (s.setNode r (.var id (some q))) e t := by
        intro e he
        cases he with
        | here ended => exact absurd node (ended _ _)
        | link node' rest =>
          rw [node] at node'
          cases node'
          exact ih.2 e rest
      refine ⟨?_, hend⟩
      by_cases hkr : k = r
      · subst hkr
        exact .link hself (hend q hq)
      · exact .link (by rw [hne hkr, node]) ih.1
    | @con k name args f node _ ih =>
      have hkr : k ≠ r := by
        rintro rfl
        rw [hn] at node
        cases node
      have hd : Denotes (s.setNode r (.var id (some q))) k (.con name (args.map f)) :=
        .con (by rw [hne hkr, node]) fun a ha => (ih a ha).1
      refine ⟨hd, fun e he => ?_⟩
      rw [he.eq_of_ended fun id' l' h => by rw [node] at h; cases h]
      exact hd

/-! ## Following the links -/

theorem denotes_typePrune {t : Ty} (h : Denotes s r t) :
    ∃ s' q, Returns (fun fuel => typePrune fuel s r) (s', q) ∧ Compress s s' ∧ Root s r q := by
  induction h with
  | @unbound r id node | @con r name args f node _ _ =>
    refine ⟨s, r, Returns.succ ?_, .refl s, .here fun id l h => by rw [node] at h; cases h⟩
    simp only [typePrune, node]
    exact .pure _
  | @link r l id t node _ ih =>
    obtain ⟨s', q, hret, hc, hroot⟩ := ih
    obtain ⟨n', hn', l', rfl⟩ := hc.grows.node r _ node
    have hroot' : Root s r q := .link node hroot
    refine ⟨_, q, Returns.succ ?_, hc.trans (compress_setNode hn' (hc.root r q hroot')), hroot'⟩
    simp only [typePrune, node]
    exact hret.bind (.pure _)

/-- `hm_type_prune` returns the end of the links and compresses the path. -/
theorem Store.Acyclic.typePrune (hs : s.Acyclic) (hr : r < s.nodes.length) :
    ∃ s' q, Returns (fun fuel => typePrune fuel s r) (s', q) ∧ Compress s s' ∧
      q < s'.nodes.length ∧ s'.Ended q ∧ s'.denote q = s.denote r := by
  obtain ⟨s', q, hret, hc, hroot⟩ := denotes_typePrune (hs.denotes hr)
  have hq := hc.denotes q _ (hroot.denotes (hs.denotes hr))
  exact ⟨s', q, hret, hc, hq.lt, (hc.root r q hroot).ended, hq.denote_eq⟩

/-- The end of a chain of links is an unbound variable or a constructor. -/
theorem Store.Ended.cases (h : s.Ended r) (hr : r < s.nodes.length) :
    (∃ id, s.node? r = some (.var id none)) ∨
      ∃ name args, s.node? r = some (.con name args) := by
  obtain ⟨n, hn⟩ := Store.node_of_lt hr
  rcases n with ⟨id, _ | l⟩ | ⟨name, args⟩
  · exact .inl ⟨id, hn⟩
  · exact absurd hn (h id l)
  · exact .inr ⟨name, args, hn⟩

/-- The end of the links of a type that is a variable. -/
theorem Store.Acyclic.typePrune_var (hs : s.Acyclic) (hr : r < s.nodes.length) {x : Ref}
    (ht : s.denote r = .var x) :
    ∃ s' id, Returns (fun fuel => Hm89.typePrune fuel s r) (s', x) ∧ Compress s s' ∧
      s'.node? x = some (.var id none) := by
  obtain ⟨s', p, hret, hc, hp, hend, hden⟩ := hs.typePrune hr
  obtain ⟨id, hn⟩ | ⟨name, args, hn⟩ := hend.cases hp
  · rw [denote_unbound ⟨id, hn⟩, ht] at hden
    obtain rfl : p = x := Term.var.inj hden
    exact ⟨s', id, hret, hc, hn⟩
  · rw [(hc.acyclic hs).denote_con hn, ht] at hden
    cases hden

/-- The end of the links of a type that is a constructor applied to types. -/
theorem Store.Acyclic.typePrune_con (hs : s.Acyclic) (hr : r < s.nodes.length)
    {name : List UInt8} {ts : List Ty} (ht : s.denote r = .con name ts) :
    ∃ s' p args, Returns (fun fuel => Hm89.typePrune fuel s r) (s', p) ∧ Compress s s' ∧
      s'.node? p = some (.con name args) ∧ ts = args.map s'.denote := by
  obtain ⟨s', p, hret, hc, hp, hend, hden⟩ := hs.typePrune hr
  obtain ⟨id, hn⟩ | ⟨name', args, hn⟩ := hend.cases hp
  · rw [denote_unbound ⟨id, hn⟩, ht] at hden
    cases hden
  · rw [(hc.acyclic hs).denote_con hn, ht] at hden
    cases hden
    exact ⟨s', p, args, hret, hc, hn, rfl⟩

/-! ## The occurs check -/

/-- The loop over the arguments decides whether one of them passes. -/
theorem occursArgs_spec {var : Ref} {f : Nat → Store → Ref → Option (Store × Bool)}
    {args : List Ref}
    (hf : ∀ a ∈ args, ∀ s', Compress s s' →
      ∃ s'' found, Returns (fun fuel => f fuel s' a) (s'', found) ∧ Compress s' s'' ∧
        (found = true ↔ (s.denote a).Has var)) :
    ∃ s' found, Returns (fun fuel => occursArgs (f fuel) s args) (s', found) ∧ Compress s s' ∧
      (found = true ↔ ∃ a ∈ args, (s.denote a).Has var) := by
  suffices h : ∀ s₁, Compress s s₁ →
      ∃ s' found, Returns (fun fuel => occursArgs (f fuel) s₁ args) (s', found) ∧
        Compress s s' ∧ (found = true ↔ ∃ a ∈ args, (s.denote a).Has var) from h s (.refl s)
  intro s₁ hc
  induction args generalizing s₁ with
  | nil => exact ⟨s₁, false, .pure _, hc, by simp⟩
  | cons a args ih =>
    obtain ⟨s₂, found, hret, hc', hfound⟩ := hf a mem_cons_self s₁ hc
    cases found with
    | true =>
      refine ⟨s₂, true, hret.bind (.pure _), hc.trans hc', ?_⟩
      exact iff_of_true rfl ⟨a, mem_cons_self, hfound.1 rfl⟩
    | false =>
      obtain ⟨s₃, found, hret', hc'', hfound'⟩ :=
        ih (fun b hb => hf b (mem_cons_of_mem a hb)) s₂ (hc.trans hc')
      refine ⟨s₃, found, hret.bind hret', hc'', hfound'.trans ?_⟩
      have hna : ¬ (s.denote a).Has var := fun h => Bool.false_ne_true (hfound.2 h)
      simp [hna]

/-- `hm_i_occurs` decides whether an unbound variable is in the term. -/
theorem Store.Acyclic.occurs (hs : s.Acyclic) {var type : Ref} (hvar : s.Unbound var)
    (htype : type < s.nodes.length) :
    ∃ s' found, Returns (fun fuel => occurs fuel s var type) (s', found) ∧ Compress s s' ∧
      (found = true ↔ (s.denote type).Has var) := by
  generalize ht : s.denote type = t
  induction t using Term.induct generalizing s type with
  | var x =>
    obtain ⟨s', id, hret, hc, hn⟩ := hs.typePrune_var htype ht
    by_cases hpv : x = var
    · refine ⟨s', true, Returns.succ (hret.bind ?_), hc, ?_⟩
      · simp only [if_pos hpv]
        exact .pure _
      · exact iff_of_true rfl (Term.has_var.2 hpv.symm)
    · refine ⟨s', false, Returns.succ (hret.bind ?_), hc, ?_⟩
      · simp only [if_neg hpv, hn]
        exact .pure _
      · exact iff_of_false Bool.false_ne_true fun h => hpv (Term.has_var.1 h).symm
  | con name ts ih =>
    obtain ⟨s', p, args, hret, hc, hn, rfl⟩ := hs.typePrune_con htype ht
    have hs' := hc.acyclic hs
    have hpv : p ≠ var := by
      rintro rfl
      obtain ⟨id, hn'⟩ := hc.unbound.2 hvar
      rw [hn] at hn'
      cases hn'
    obtain ⟨s'', found, hret', hc', hfound⟩ :=
      occursArgs_spec (f := fun fuel s arg => Hm89.occurs fuel s var arg)
        fun a ha s₁ hc₁ =>
          ih _ (mem_map_of_mem ha) (hc₁.acyclic hs')
            (hc₁.unbound.2 (hc.unbound.2 hvar))
            (by rw [hc₁.grows.length]; exact hs'.args_lt hn a ha)
            (hc₁.denote hs' (hs'.args_lt hn a ha))
    refine ⟨s'', found, Returns.succ (hret.bind ?_), hc.trans hc', hfound.trans ?_⟩
    · simp only [hpv, if_false, hn]
      exact hret'
    · rw [Term.has_con]
      simp

end Hm89
