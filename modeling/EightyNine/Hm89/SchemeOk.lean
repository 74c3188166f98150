import EightyNine.Hm89.UnifyOk
import EightyNine.Hm89.Scheme

/-!
# Let-polymorphism

Generalization collects free variables, which compresses paths and nothing else.
Instantiation only allocates.  Unifications that stay away from a set of unbound
variables leave them unbound and out of every other type (`Session.keeps`), so a
scheme keeps its generality, and an instance changes only through the free
variables of its scheme.
-/

namespace Hm89

open Library List Nat

variable {s s' s'' : Store} {r q a b : Ref}

/-! ## Collecting free variables -/

/-- The collected set gains the variables that satisfy `P`, each once. -/
structure Adds (P : Ref → Prop) (out out' : List Ref) : Prop where
  mem : ∀ x, x ∈ out' ↔ x ∈ out ∨ P x
  nodup : out.Nodup → out'.Nodup

variable {P : Ref → Prop} {out : List Ref}

theorem Adds.trans {Q R : Ref → Prop} {out' out'' : List Ref} (h : Adds P out out')
    (h' : Adds Q out' out'') (hR : ∀ x, R x ↔ P x ∨ Q x) : Adds R out out'' := by
  refine ⟨fun x => ?_, fun hn => h'.nodup (h.nodup hn)⟩
  rw [h'.mem, h.mem, hR, or_assoc]

theorem Adds.refl (hP : ∀ x, ¬ P x) : Adds P out out :=
  ⟨fun x => (or_iff_left (hP x)).symm, fun h => h⟩

theorem adds_setAdd (out : List Ref) (v : Ref) : Adds (fun x => x = v) out (setAdd out v) := by
  by_cases hv : v ∈ out
  · rw [setAdd, if_pos hv]
    refine ⟨fun x => ⟨.inl, ?_⟩, fun h => h⟩
    rintro (hx | rfl)
    · exact hx
    · exact hv
  · rw [setAdd, if_neg hv]
    refine ⟨fun x => by rw [mem_append, mem_singleton], fun h => ?_⟩
    exact nodup_append.2 ⟨h, nodup_singleton v, by
      rintro x hx y hy rfl
      exact hv (mem_singleton.1 hy ▸ hx)⟩

theorem collect_spec {α : Type} {f : Nat → Store → α → List Ref → Option (Store × List Ref)}
    {P : α → Ref → Prop} {items : List α}
    (hf : ∀ a ∈ items, ∀ s', Compress s s' → ∀ out, ∃ s'' out',
      Returns (fun fuel => f fuel s' a out) (s'', out') ∧ Compress s' s'' ∧ Adds (P a) out out')
    (out : List Ref) :
    ∃ s' out', Returns (fun fuel => collect (f fuel) s items out) (s', out') ∧ Compress s s' ∧
      Adds (fun x => ∃ a ∈ items, P a x) out out' := by
  suffices h : ∀ s₁, Compress s s₁ → ∀ out, ∃ s' out',
      Returns (fun fuel => collect (f fuel) s₁ items out) (s', out') ∧ Compress s s' ∧
        Adds (fun x => ∃ a ∈ items, P a x) out out' from h s (.refl s) out
  induction items with
  | nil => exact fun s₁ hc out => ⟨s₁, out, .pure _, hc, .refl fun x => by simp⟩
  | cons a items ih =>
    intro s₁ hc out
    obtain ⟨s₂, out₂, hret, hc₂, hadds⟩ := hf a mem_cons_self s₁ hc out
    obtain ⟨s₃, out₃, hret', hc₃, hadds'⟩ :=
      ih (fun b hb => hf b (mem_cons_of_mem a hb)) s₂ (hc.trans hc₂) out₂
    exact ⟨s₃, out₃, hret.bind hret', hc₃, hadds.trans hadds' fun x => by simp⟩

variable {type : Ref}

/-- `hm_i_type_ftv` collects the variables of the term. -/
theorem Store.Acyclic.typeFtv (hs : s.Acyclic) (htype : type < s.nodes.length)
    (out : List Ref) :
    ∃ s' out', Returns (fun fuel => typeFtv fuel s type out) (s', out') ∧ Compress s s' ∧
      Adds (fun x => (s.denote type).Has x) out out' := by
  generalize ht : s.denote type = t
  induction t using Term.induct generalizing s type out with
  | var x =>
    obtain ⟨s', id, hret, hc, hn⟩ := hs.typePrune_var htype ht
    refine ⟨s', setAdd out x, Returns.succ (hret.bind ?_), hc, ?_⟩
    · simp only [hn]
      exact .pure _
    · simp only [Term.has_var]
      exact adds_setAdd out x
  | con name ts ih =>
    obtain ⟨s', p, args, hret, hc, hn, rfl⟩ := hs.typePrune_con htype ht
    have hs' := hc.acyclic hs
    obtain ⟨s'', out', hret', hc', hadds⟩ :=
      collect_spec (f := Hm89.typeFtv) (P := fun a x => (s'.denote a).Has x)
        (fun a ha s₁ hc₁ out =>
          ih _ (mem_map_of_mem ha) (hc₁.acyclic hs')
            (by rw [hc₁.grows.length]; exact hs'.args_lt hn a ha) out
            (hc₁.denote hs' (hs'.args_lt hn a ha))) out
    refine ⟨s'', out', Returns.succ (hret.bind ?_), hc.trans hc', ?_⟩
    · simp only [hn]
      exact hret'
    · have hhas : ∀ x, (Term.con name (args.map s'.denote)).Has x ↔
          ∃ a ∈ args, (s'.denote a).Has x := fun x => by rw [Term.has_con]; simp
      simp only [hhas]
      exact hadds

/-- A variable free in the scheme. -/
def Scheme.Free (s : Store) (scheme : Scheme) (x : Ref) : Prop :=
  (s.denote scheme.body).Has x ∧ x ∉ scheme.vars

/-- A variable free in some scheme of the chain of scopes. -/
def Env.Free (s : Store) (env : Env) (x : Ref) : Prop :=
  ∃ scope ∈ env, ∃ scheme ∈ scope, scheme.Free s x

/-- Every scheme of the chain is over the store. -/
def Env.In (s : Store) (env : Env) : Prop :=
  ∀ scope ∈ env, ∀ scheme ∈ scope, scheme.body < s.nodes.length

theorem adds_addFree (scheme : Scheme) (body out : List Ref) :
    Adds (fun x => x ∈ body ∧ x ∉ scheme.vars) out (addFree scheme body out) := by
  induction body generalizing out with
  | nil => exact .refl fun x => by simp
  | cons item body ih =>
    rw [addFree]
    by_cases hitem : item ∈ scheme.vars
    · rw [if_pos hitem]
      refine (Adds.refl (P := fun _ => False) fun _ h => h).trans (ih out) fun x => ?_
      rw [false_or, mem_cons, or_and_right]
      refine or_iff_right ?_
      rintro ⟨rfl, hx⟩
      exact hx hitem
    · rw [if_neg hitem]
      refine (adds_setAdd out item).trans (ih _) fun x => ?_
      rw [mem_cons, or_and_right]
      refine or_congr_left (and_iff_left_of_imp ?_)
      rintro rfl
      exact hitem

theorem adds_collectFree (freeEnv freeType quant : List Ref) :
    Adds (fun x => x ∈ freeType ∧ x ∉ freeEnv) quant (collectFree freeEnv freeType quant) := by
  have heq : ∀ out, collectFree freeEnv freeType out = addFree ⟨freeEnv, 0⟩ freeType out := by
    induction freeType with
    | nil => exact fun _ => rfl
    | cons item freeType ih =>
      intro out
      rw [collectFree, addFree, ih]
  rw [heq]
  exact adds_addFree ⟨freeEnv, 0⟩ freeType quant

variable {scheme : Scheme}

/-- `hm_i_scheme_ftv` collects the free variables of the scheme. -/
theorem Store.Acyclic.schemeFtv (hs : s.Acyclic)
    (hbody : scheme.body < s.nodes.length) (out : List Ref) :
    ∃ s' out', Returns (fun fuel => schemeFtv fuel s scheme out) (s', out') ∧ Compress s s' ∧
      Adds (scheme.Free s) out out' := by
  obtain ⟨s', body, hret, hc, hadds⟩ := hs.typeFtv hbody []
  refine ⟨s', _, hret.bind (.pure _), hc, ?_⟩
  have hfree := adds_addFree scheme body out
  have hmem : ∀ x, x ∈ body ↔ (s.denote scheme.body).Has x := fun x => by
    rw [hadds.mem]
    simp
  simp only [hmem] at hfree
  exact hfree

theorem Compress.free (h : Compress s s') (hs : s.Acyclic)
    (hbody : scheme.body < s.nodes.length) : scheme.Free s' = scheme.Free s := by
  funext x
  rw [Scheme.Free, Scheme.Free, h.denote hs hbody]

variable {env : Env}

/-- `hm_i_env_ftv` collects the free variables of the chain. -/
theorem Store.Acyclic.envFtv (hs : s.Acyclic) (henv : env.In s) (out : List Ref) :
    ∃ s' out', Returns (fun fuel => envFtv fuel s env out) (s', out') ∧ Compress s s' ∧
      Adds (env.Free s) out out' := by
  refine collect_spec (f := fun fuel => scopeFtv fuel)
    (P := fun scope x => ∃ scheme ∈ scope, scheme.Free s x) (fun scope hscope s₁ hc₁ out₁ => ?_) out
  refine collect_spec (f := fun fuel => Hm89.schemeFtv fuel)
    (P := fun scheme x => scheme.Free s x) (fun scheme hscheme s₂ hc₂ out₂ => ?_) out₁
  have hbody := henv scope hscope scheme hscheme
  have hc := hc₁.trans hc₂
  have h := (hc.acyclic hs).schemeFtv (by rw [hc.grows.length]; exact hbody) out₂
  rw [hc.free hs hbody] at h
  exact h

/-- `hm_generalize` quantifies what is free in the type and not in the
environment. -/
theorem Store.Acyclic.generalize (hs : s.Acyclic) (henv : env.In s)
    (htype : type < s.nodes.length) :
    ∃ s' scheme, Returns (fun fuel => generalize fuel s env type) (s', scheme) ∧ Compress s s' ∧
      scheme.body = type ∧ scheme.vars.Nodup ∧
      ∀ x, x ∈ scheme.vars ↔ s.Unbound x ∧ (s.denote type).Has x ∧ ¬ env.Free s x := by
  obtain ⟨s₁, freeType, hret₁, hc₁, htypes⟩ := hs.typeFtv htype []
  have henv₁ : env.In s₁ := fun scope hscope scheme hscheme => by
    rw [hc₁.grows.length]
    exact henv scope hscope scheme hscheme
  obtain ⟨s₂, freeEnv, hret₂, hc₂, henvs⟩ := (hc₁.acyclic hs).envFtv henv₁ []
  have hquant := adds_collectFree freeEnv freeType []
  refine ⟨s₂, _, hret₁.bind (hret₂.bind (.pure _)), hc₁.trans hc₂, rfl,
    hquant.nodup nodup_nil, fun x => ?_⟩
  have hfree : env.Free s₁ x ↔ env.Free s x := by
    refine exists_congr fun scope => and_congr_right fun hscope => exists_congr fun scheme =>
      and_congr_right fun hscheme => ?_
    rw [hc₁.free hs (henv scope hscope scheme hscheme)]
  rw [hquant.mem, htypes.mem, henvs.mem, hfree]
  simp only [not_mem_nil, false_or]
  exact ⟨fun h => ⟨(hs.denotes htype).unbound_of_has h.1, h⟩, fun h => h.2⟩

/-! ## Allocation -/

/-- New nodes at the end of the arena: every pointer keeps its term. -/
structure Extends (s s' : Store) : Prop where
  length : s.nodes.length ≤ s'.nodes.length
  denotes : ∀ r t, Denotes s r t → Denotes s' r t
  acyclic : s'.Acyclic

theorem Extends.refl (hs : s.Acyclic) : Extends s s :=
  ⟨Nat.le_refl _, fun _ _ h => h, hs⟩

theorem Extends.trans (h : Extends s s') (h' : Extends s' s'') : Extends s s'' :=
  ⟨Nat.le_trans h.length h'.length, fun r t ht => h'.denotes r t (h.denotes r t ht), h'.acyclic⟩

theorem Compress.extend (h : Compress s s') (hs : s.Acyclic) : Extends s s' :=
  ⟨Nat.le_of_eq h.grows.length.symm, h.denotes, h.acyclic hs⟩

theorem Extends.denote (h : Extends s s') (hs : s.Acyclic) (hr : r < s.nodes.length) :
    s'.denote r = s.denote r :=
  (h.denotes r _ (hs.denotes hr)).denote_eq

theorem Extends.unbound (h : Extends s s') (hu : s.Unbound r) : s'.Unbound r := by
  obtain ⟨id, hn⟩ := hu
  exact (h.denotes r _ (.unbound hn)).unbound_of_has .var

theorem Extends.lt (h : Extends s s') (hr : r < s.nodes.length) : r < s'.nodes.length :=
  Nat.lt_of_lt_of_le hr h.length

section Alloc

variable {n : TypeNode} {next : Nat}

theorem node_alloc_lt (hr : r < s.nodes.length) :
    Store.node? ⟨s.nodes ++ [n], next⟩ r = s.node? r :=
  getElem?_append_left hr

theorem node_alloc_self : Store.node? ⟨s.nodes ++ [n], next⟩ s.nodes.length = some n := by
  show (s.nodes ++ [n])[s.nodes.length]? = some n
  rw [getElem?_append_right (Nat.le_refl _), Nat.sub_self]
  rfl

variable {t : Ty}

theorem Denotes.alloc (h : Denotes s r t) :
    Denotes ⟨s.nodes ++ [n], next⟩ r t := by
  induction h with
  | unbound node => exact .unbound (by rw [node_alloc_lt (Store.lt_of_node node), node])
  | link node _ ih => exact .link (by rw [node_alloc_lt (Store.lt_of_node node), node]) ih
  | con node _ ih => exact .con (by rw [node_alloc_lt (Store.lt_of_node node), node]) ih

theorem Store.Acyclic.alloc (hs : s.Acyclic)
    (hn : Denotes ⟨s.nodes ++ [n], next⟩ s.nodes.length t) :
    Extends s ⟨s.nodes ++ [n], next⟩ := by
  refine ⟨by simp, fun r t h => h.alloc, acyclic_of_denotes fun r hr => ?_⟩
  by_cases h : r = s.nodes.length
  · exact ⟨t, h ▸ hn⟩
  · have hlt : r < s.nodes.length := by
      rw [length_append, length_singleton] at hr
      exact Nat.lt_of_le_of_ne (le_of_lt_succ hr) h
    exact ⟨_, (hs.denotes hlt).alloc⟩

end Alloc

variable {args : List Ref}

theorem Store.Acyclic.typeCon (hs : s.Acyclic) {name : List UInt8}
    (hargs : ∀ a ∈ args, a < s.nodes.length) :
    Extends s (typeCon s name args).1 ∧
      (typeCon s name args).2 < (typeCon s name args).1.nodes.length ∧
      (typeCon s name args).1.denote (typeCon s name args).2 = .con name (args.map s.denote) := by
  have hd : Denotes ⟨s.nodes ++ [.con name args], s.nextVarId⟩ s.nodes.length
      (.con name (args.map s.denote)) :=
    .con node_alloc_self fun a ha => (hs.denotes (hargs a ha)).alloc
  exact ⟨hs.alloc hd, hd.lt, hd.denote_eq⟩

theorem Store.Acyclic.typeVar (hs : s.Acyclic) :
    Extends s (typeVar s).1 ∧ (typeVar s).2 = s.nodes.length ∧ (typeVar s).1.Unbound (typeVar s).2 := by
  have hu : Store.Unbound ⟨s.nodes ++ [.var s.nextVarId none], (s.nextVarId + 1) % 2 ^ 64⟩
      s.nodes.length := ⟨_, node_alloc_self⟩
  obtain ⟨id, hn⟩ := hu
  exact ⟨hs.alloc (.unbound hn), rfl, id, hn⟩

theorem Store.Acyclic.freshVars (hs : s.Acyclic) (n : Nat) :
    Extends s (freshVars n s).1 ∧ (freshVars n s).2.length = n ∧ (freshVars n s).2.Nodup ∧
      ∀ v ∈ (freshVars n s).2, s.nodes.length ≤ v ∧ (freshVars n s).1.Unbound v := by
  induction n generalizing s with
  | zero => exact ⟨.refl hs, rfl, nodup_nil, fun v hv => by cases hv⟩
  | succ n ih =>
    obtain ⟨hext, hv, hu⟩ := hs.typeVar
    obtain ⟨hext', hlen, hnodup, hfresh⟩ := ih hext.acyclic
    have hlt : (Hm89.typeVar s).2 < (Hm89.typeVar s).1.nodes.length := by
      obtain ⟨id, hn⟩ := hu
      exact Store.lt_of_node hn
    refine ⟨hext.trans hext', congrArg succ hlen, nodup_cons.2 ⟨fun h => ?_, hnodup⟩, ?_⟩
    · exact Nat.not_le_of_lt hlt (hfresh _ h).1
    · intro v hmem
      rcases mem_cons.1 hmem with rfl | hmem
      · exact ⟨Nat.le_of_eq hv.symm, hext'.unbound hu⟩
      · exact ⟨Nat.le_trans hext.length (hfresh v hmem).1, (hfresh v hmem).2⟩

/-! ## Cloning -/

/-- The variable that replaces `x`: its fresh copy when it is quantified. -/
def replace (vars fresh : List Ref) (x : Ref) : Ref :=
  ((vars.idxOf? x).bind fun idx => fresh[idx]?).getD x

variable {vars fresh : List Ref} {x : Ref}

theorem replace_of_not_mem (h : x ∉ vars) :
    replace vars fresh x = x := by
  rw [replace, idxOf?_eq_none_iff.2 h]
  rfl

theorem replace_mem (hlen : fresh.length = vars.length)
    (h : x ∈ vars) : replace vars fresh x ∈ fresh := by
  obtain ⟨idx, hidx⟩ := Option.isSome_iff_exists.1 (isSome_idxOf?.2 h)
  have hlt : idx < fresh.length := by
    rw [hlen]
    exact (idxOf?_eq_some_iff.1 hidx).1
  rw [replace, hidx, Option.bind_some, getElem?_eq_getElem hlt]
  exact getElem_mem hlt

/-- A clone adds nodes, and stands for the instance. -/
def Cloned (σ : Ref → Ty) (s : Store) (node : Ref) (s' : Store) (r : Ref) : Prop :=
  Extends s s' ∧ r < s'.nodes.length ∧ s'.denote r = (s.denote node).subst σ

theorem cloneArgs_spec {σ : Ref → Ty} {f : Nat → Store → Ref → Option (Store × Ref)}
    (hs : s.Acyclic) (hargs : ∀ a ∈ args, a < s.nodes.length)
    (hf : ∀ a ∈ args, ∀ s₁, Extends s s₁ →
      ∃ s' r, Returns (fun fuel => f fuel s₁ a) (s', r) ∧ Cloned σ s₁ a s' r) :
    ∃ s' rs, Returns (fun fuel => cloneArgs (f fuel) s args) (s', rs) ∧ Extends s s' ∧
      (∀ r ∈ rs, r < s'.nodes.length) ∧
      rs.map s'.denote = args.map fun a => (s.denote a).subst σ := by
  suffices h : ∀ s₁, Extends s s₁ → ∃ s' rs,
      Returns (fun fuel => cloneArgs (f fuel) s₁ args) (s', rs) ∧ Extends s₁ s' ∧
      (∀ r ∈ rs, r < s'.nodes.length) ∧
      rs.map s'.denote = args.map fun a => (s.denote a).subst σ from h s (.refl hs)
  induction args with
  | nil => exact fun s₁ h => ⟨s₁, [], .pure _, .refl h.acyclic, fun r hr => (by cases hr), rfl⟩
  | cons a args ih =>
    intro s₁ h₁
    have ha := hargs a mem_cons_self
    obtain ⟨s₂, r, hret, h₂, hr, hden⟩ := hf a mem_cons_self s₁ h₁
    obtain ⟨s₃, rs, hret', h₃, hrs, hdens⟩ :=
      ih (fun b hb => hargs b (mem_cons_of_mem a hb))
        (fun b hb => hf b (mem_cons_of_mem a hb)) s₂ (h₁.trans h₂)
    refine ⟨s₃, r :: rs, hret.bind (hret'.bind (.pure _)), h₂.trans h₃, ?_, ?_⟩
    · intro q hq
      rcases mem_cons.1 hq with rfl | hq
      · exact h₃.lt hr
      · exact hrs q hq
    · rw [map_cons, map_cons, hdens, h₃.denote h₂.acyclic hr, hden, h₁.denote hs ha]

/-- `hm_i_clone_type` replaces the quantified variables and shares the others. -/
theorem Store.Acyclic.cloneType (hs : s.Acyclic)
    (hlen : fresh.length = scheme.vars.length) (hfresh : ∀ v ∈ fresh, s.Unbound v)
    {node : Ref} (hnode : node < s.nodes.length) :
    ∃ s' r, Returns (fun fuel => cloneType fuel scheme fresh s node) (s', r) ∧
      Cloned (fun x => .var (replace scheme.vars fresh x)) s node s' r := by
  generalize ht : s.denote node = t
  induction t using Term.induct generalizing s node with
  | var x =>
    obtain ⟨s', p, hret, hc, hp, hend, hden⟩ := hs.typePrune hnode
    have hs' := hc.acyclic hs
    obtain ⟨id, hn⟩ | ⟨name, args, hn⟩ := hend.cases hp
    · have hpx := hden
      rw [denote_unbound ⟨id, hn⟩, ht] at hpx
      obtain rfl : p = x := Term.var.inj hpx
      by_cases hmem : p ∈ scheme.vars
      · obtain ⟨idx, hidx⟩ := Option.isSome_iff_exists.1 (isSome_idxOf?.2 hmem)
        have hlt : idx < fresh.length := by
          rw [hlen]
          exact (idxOf?_eq_some_iff.1 hidx).1
        have hfv := hc.unbound.2 (hfresh _ (getElem_mem hlt))
        refine ⟨s', fresh[idx], Returns.succ (hret.bind ?_), hc.extend hs, ?_, ?_⟩
        · simp only [hn, hidx, getElem?_eq_getElem hlt]
          exact .pure _
        · obtain ⟨id', hn'⟩ := hfv
          exact Store.lt_of_node hn'
        · rw [denote_unbound hfv, ht, Term.subst_var, replace, hidx, Option.bind_some,
            getElem?_eq_getElem hlt]
          rfl
      · refine ⟨s', p, Returns.succ (hret.bind ?_), hc.extend hs, hp, ?_⟩
        · simp only [hn, idxOf?_eq_none_iff.2 hmem]
          exact .pure _
        · rw [hden, ht, Term.subst_var, replace_of_not_mem hmem]
    · rw [hs'.denote_con hn, ht] at hden
      cases hden
  | con name ts ih =>
    obtain ⟨s', p, hret, hc, hp, hend, hden⟩ := hs.typePrune hnode
    have hs' := hc.acyclic hs
    obtain ⟨id, hn⟩ | ⟨name', args, hn⟩ := hend.cases hp
    · rw [denote_unbound ⟨id, hn⟩, ht] at hden
      cases hden
    · have hcon := hden
      rw [hs'.denote_con hn, ht] at hcon
      cases hcon
      obtain ⟨s₂, rs, hret', h₂, hrs, hdens⟩ := cloneArgs_spec
        (f := fun fuel => Hm89.cloneType fuel scheme fresh)
        (σ := fun x => .var (replace scheme.vars fresh x)) hs' (hs'.args_lt hn)
        fun a ha s₁ h₁ => ih _ (mem_map_of_mem ha) h₁.acyclic
          (fun v hv => h₁.unbound (hc.unbound.2 (hfresh v hv)))
          (h₁.lt (hs'.args_lt hn a ha)) (h₁.denote hs' (hs'.args_lt hn a ha))
      obtain ⟨h₃, hr₃, hden₃⟩ := h₂.acyclic.typeCon hrs
      refine ⟨(Hm89.typeCon s₂ name rs).1, (Hm89.typeCon s₂ name rs).2,
        Returns.succ (hret.bind ?_), ((hc.extend hs).trans h₂).trans h₃, hr₃, ?_⟩
      · simp only [hn]
        exact hret'.bind (.pure _)
      · refine hden₃.trans ?_
        rw [hdens, ht, Term.subst_con, map_map]
        rfl

/-- `hm_instantiate` replaces the quantified variables by fresh ones. -/
theorem Store.Acyclic.instantiate (hs : s.Acyclic)
    (hbody : scheme.body < s.nodes.length) :
    ∃ s' r fresh, Returns (fun fuel => instantiate fuel s scheme) (s', r) ∧
      fresh.length = scheme.vars.length ∧ fresh.Nodup ∧
      (∀ v ∈ fresh, s.nodes.length ≤ v ∧ s'.Unbound v) ∧
      Cloned (fun x => .var (replace scheme.vars fresh x)) s scheme.body s' r := by
  by_cases hlen : scheme.vars.length = 0
  · refine ⟨s, scheme.body, [], ⟨0, fun fuel _ => ?_⟩, hlen.symm, nodup_nil,
      fun v hv => (by cases hv), .refl hs, hbody, ?_⟩
    · simp only [Hm89.instantiate, if_pos hlen]
    · have hid : ∀ x, replace scheme.vars [] x = x := fun x =>
        replace_of_not_mem (by rw [length_eq_zero_iff.1 hlen]; exact not_mem_nil)
      simp only [hid, Term.subst_id]
  · obtain ⟨hext, hflen, hnodup, hfresh⟩ := hs.freshVars scheme.vars.length
    obtain ⟨s', r, hret, h', hr, hden⟩ :=
      hext.acyclic.cloneType hflen (fun v hv => (hfresh v hv).2) (hext.lt hbody)
    refine ⟨s', r, _, ?_, hflen, hnodup, fun v hv => ⟨(hfresh v hv).1, h'.unbound (hfresh v hv).2⟩,
      hext.trans h', hr, ?_⟩
    · simp only [Hm89.instantiate, if_neg hlen]
      exact hret
    · rw [hden, hext.denote hs hbody]

/-! ## Sessions -/

/-- One operation of a session: a unification of two types without variables
from `Q`, or an instantiation. -/
inductive Session (Q : List Ref) : Store → Store → Prop
  | unify {s s' : Store} {a b : Ref} {st : Status} {error : Option Error}
      (ha : a < s.nodes.length) (hb : b < s.nodes.length)
      (avoids : ∀ x ∈ Q, ¬ (s.denote a).Has x ∧ ¬ (s.denote b).Has x)
      (returns : Returns (fun fuel => unify fuel s a b) (s', st, error)) : Session Q s s'
  | instantiate {s s' : Store} {scheme : Scheme} {r : Ref}
      (hbody : scheme.body < s.nodes.length)
      (returns : Returns (fun fuel => instantiate fuel s scheme) (s', r)) : Session Q s s'

/-- What a session keeps of a store, for the unbound variables `Q`. -/
structure Keeps (Q : List Ref) (s s' : Store) : Prop where
  acyclic : s'.Acyclic
  length : s.nodes.length ≤ s'.nodes.length
  denote : ∀ r, r < s.nodes.length → s'.denote r = (s.denote r).subst s'.denote
  unbound : ∀ x ∈ Q, s.Unbound x → s'.Unbound x
  avoids : ∀ r, r < s.nodes.length → ∀ x ∈ Q, ¬ (s.denote r).Has x → ¬ (s'.denote r).Has x

variable {Q : List Ref}

theorem Keeps.refl (hs : s.Acyclic) : Keeps Q s s :=
  ⟨hs, Nat.le_refl _, hs.solves_denote, fun _ _ h => h, fun _ _ _ _ h => h⟩

theorem Keeps.trans (hs : s.Acyclic) (h : Keeps Q s s') (h' : Keeps Q s' s'') :
    Keeps Q s s'' where
  acyclic := h'.acyclic
  length := Nat.le_trans h.length h'.length
  denote r hr := by
    rw [h'.denote r (Nat.lt_of_lt_of_le hr h.length), h.denote r hr, Term.subst_subst]
    refine Term.subst_eq_iff.2 fun x hx => ?_
    obtain ⟨id, hn⟩ := (hs.denotes hr).unbound_of_has hx
    exact (h'.denote x (Nat.lt_of_lt_of_le (Store.lt_of_node hn) h.length)).symm
  unbound x hx hu := h'.unbound x hx (h.unbound x hx hu)
  avoids r hr x hx hnot :=
    h'.avoids r (Nat.lt_of_lt_of_le hr h.length) x hx (h.avoids r hr x hx hnot)

theorem Extends.keeps (h : Extends s s') (hs : s.Acyclic) : Keeps Q s s' where
  acyclic := h.acyclic
  length := h.length
  denote r hr := by
    rw [h.denote hs hr, ← Term.subst_id (s.denote r), Term.subst_subst]
    refine Term.subst_eq_iff.2 fun x hx => ?_
    rw [Term.subst_var, denote_unbound (h.unbound ((hs.denotes hr).unbound_of_has hx))]
  unbound _ _ hu := h.unbound hu
  avoids r hr x _ hnot := by
    rw [h.denote hs hr]
    exact hnot

/-- One operation away from `Q` leaves `Q` unbound and out of other types. -/
theorem Session.step (hs : s.Acyclic) (h : Session Q s s') : Keeps Q s s' := by
  cases h with
  | unify ha hb avoids returns =>
    obtain ⟨s₁, st, error, hret, hcut⟩ := hs.unified ha hb
    cases returns.unique hret
    have hn := hcut.narrows
    refine ⟨hn.acyclic, Nat.le_of_eq hn.grows.length.symm, fun r hr => hn.denote hr,
      fun x hx hu => ?_, fun r hr x hx hnot hhas => ?_⟩
    · exact (hn.bound x hu).resolve_right fun h => h.elim (avoids x hx).1 (avoids x hx).2
    · rcases hn.vars r hr x hhas with h | h
      · exact hnot h
      · exact h.elim (avoids x hx).1 (avoids x hx).2
  | instantiate hbody returns =>
    obtain ⟨s₁, r, fresh, hret, -, -, -, hext, -, -⟩ := hs.instantiate hbody
    cases returns.unique hret
    exact hext.keeps hs

theorem Session.keeps (hs : s.Acyclic)
    (h : Relation.ReflTransGen (Session Q) s s') : Keeps Q s s' := by
  induction h with
  | refl => exact .refl hs
  | tail _ last ih => exact ih.trans hs (last.step ih.acyclic)

/-- The scheme body with the quantified variables replaced by fresh ones, and
the links of a later store on the others. -/
noncomputable def instanceOf (vars fresh : List Ref) (s : Store) (x : Ref) : Ty :=
  open Classical in if x ∈ vars then .var (replace vars fresh x) else s.denote x

theorem instanceOf_mem (h : x ∈ vars) :
    instanceOf vars fresh s x = .var (replace vars fresh x) :=
  if_pos h

theorem instanceOf_not_mem (h : x ∉ vars) :
    instanceOf vars fresh s x = s.denote x :=
  if_neg h

/-- An instance changes only through the free variables of its scheme. -/
theorem instance_later
    (hlen : fresh.length = scheme.vars.length) (hfresh : ∀ v ∈ fresh, s'.Unbound v)
    (hc : Cloned (fun x => .var (replace scheme.vars fresh x)) s scheme.body s' r)
    (h : Relation.ReflTransGen (Session fresh) s' s'') :
    s''.denote r = (s.denote scheme.body).subst (instanceOf scheme.vars fresh s'') := by
  obtain ⟨hext, hr, hden⟩ := hc
  have hk := Session.keeps hext.acyclic h
  rw [hk.denote r hr, hden, Term.subst_subst]
  refine Term.subst_eq_iff.2 fun x _ => ?_
  rw [Term.subst_var]
  by_cases hx : x ∈ scheme.vars
  · have hmem := replace_mem hlen hx
    rw [instanceOf_mem hx, denote_unbound (hk.unbound _ hmem (hfresh _ hmem))]
  · rw [instanceOf_not_mem hx, replace_of_not_mem hx]

theorem scheme_later (hs : s.Acyclic)
    (hbody : scheme.body < s.nodes.length)
    (h : Relation.ReflTransGen (Session scheme.vars) s s')
    (hc : Cloned (fun x => .var (replace scheme.vars fresh x)) s' scheme.body s'' r) :
    s''.denote r = (s.denote scheme.body).subst (instanceOf scheme.vars fresh s') := by
  have hk := Session.keeps hs h
  rw [hc.2.2, hk.denote _ hbody, Term.subst_subst]
  refine Term.subst_eq_iff.2 fun x hx => ?_
  have hu := (hs.denotes hbody).unbound_of_has hx
  by_cases hmem : x ∈ scheme.vars
  · rw [instanceOf_mem hmem, denote_unbound (hk.unbound x hmem hu), Term.subst_var]
  · rw [instanceOf_not_mem hmem]
    calc (s'.denote x).subst (fun y => .var (replace scheme.vars fresh y))
      _ = (s'.denote x).subst Term.var := by
          refine Term.subst_eq_iff.2 fun y hy => ?_
          rw [replace_of_not_mem]
          intro hmem'
          obtain ⟨id, hn⟩ := id hu
          refine hk.avoids x (Store.lt_of_node hn) y hmem' (fun h => ?_) hy
          rw [denote_unbound hu, Term.has_var] at h
          exact hmem (h ▸ hmem')
      _ = s'.denote x := Term.subst_id _

/-- In an acyclic store, `hm_generalize` quantifies exactly the unbound variables
that are free in the type and not in the environment.  `hm_instantiate` replaces
the quantified variables by distinct fresh ones and shares the others; later
unifications of types without the fresh variables, and other instantiations,
reach the instance only through the links on the free variables of the scheme.
After unifications of types without the quantified variables the scheme
instantiates to the same body, up to the links on its free variables. -/
theorem let_polymorphism (s : Store) (hs : s.Acyclic) :
    (∀ env : Env, env.In s → ∀ type, type < s.nodes.length →
      ∃ s' scheme, Returns (fun fuel => generalize fuel s env type) (s', scheme) ∧
        s'.Acyclic ∧ (∀ q, q < s.nodes.length → s'.denote q = s.denote q) ∧
        scheme.body = type ∧ scheme.vars.Nodup ∧
        ∀ x, x ∈ scheme.vars ↔ s.Unbound x ∧ (s.denote type).Has x ∧ ¬ env.Free s x) ∧
    (∀ scheme : Scheme, scheme.body < s.nodes.length →
      ∃ s' r fresh, Returns (fun fuel => instantiate fuel s scheme) (s', r) ∧
        s'.Acyclic ∧ (∀ q, q < s.nodes.length → s'.denote q = s.denote q) ∧
        fresh.length = scheme.vars.length ∧ fresh.Nodup ∧
        (∀ v ∈ fresh, s.nodes.length ≤ v ∧ s'.Unbound v) ∧
        s'.denote r =
          (s.denote scheme.body).subst (fun x => .var (replace scheme.vars fresh x)) ∧
        ∀ s₁, Relation.ReflTransGen (Session fresh) s' s₁ →
          s₁.denote r = (s.denote scheme.body).subst (instanceOf scheme.vars fresh s₁)) ∧
    (∀ scheme : Scheme, scheme.body < s.nodes.length →
      ∀ s₁, Relation.ReflTransGen (Session scheme.vars) s s₁ →
        ∃ s' r fresh, Returns (fun fuel => instantiate fuel s₁ scheme) (s', r) ∧
          fresh.length = scheme.vars.length ∧ fresh.Nodup ∧
          (∀ v ∈ fresh, s₁.nodes.length ≤ v ∧ s'.Unbound v) ∧
          s'.denote r = (s.denote scheme.body).subst (instanceOf scheme.vars fresh s₁)) := by
  refine ⟨fun env henv type htype => ?_, fun scheme hbody => ?_, fun scheme hbody s₁ hrun => ?_⟩
  · obtain ⟨s', scheme, hret, hc, hscheme, hnodup, hmem⟩ := hs.generalize henv htype
    exact ⟨s', scheme, hret, hc.acyclic hs, fun q hq => hc.denote hs hq, hscheme, hnodup, hmem⟩
  · obtain ⟨s', r, fresh, hret, hlen, hnodup, hfresh, hc⟩ := hs.instantiate hbody
    exact ⟨s', r, fresh, hret, hc.1.acyclic, fun q hq => hc.1.denote hs hq, hlen, hnodup, hfresh,
      hc.2.2, fun s₁ hrun => instance_later hlen (fun v hv => (hfresh v hv).2) hc hrun⟩
  · have hk := Session.keeps hs hrun
    obtain ⟨s', r, fresh, hret, hlen, hnodup, hfresh, hc⟩ :=
      hk.acyclic.instantiate (Nat.lt_of_lt_of_le hbody hk.length)
    exact ⟨s', r, fresh, hret, hlen, hnodup, hfresh, scheme_later hs hbody hrun hc⟩

/-- `a -> Int` is generalized under an environment with `b`, and instantiated. -/
theorem let_polymorphism_fun :
    (∃ s' scheme, Returns (fun fuel => generalize fuel funStore [[⟨[], 4⟩]] 2) (s', scheme) ∧
      s'.Acyclic ∧ (∀ q, q < funStore.nodes.length → s'.denote q = funStore.denote q) ∧
      scheme.body = 2 ∧ scheme.vars.Nodup ∧
      ∀ x, x ∈ scheme.vars ↔
        funStore.Unbound x ∧ (funStore.denote 2).Has x ∧ ¬ Env.Free funStore [[⟨[], 4⟩]] x) ∧
    ∃ s' r v, Returns (fun fuel => instantiate fuel funStore ⟨[0], 2⟩) (s', r) ∧ s'.Unbound v ∧
      s'.denote r = (funStore.denote 2).subst fun x => .var (replace [0] [v] x) := by
  obtain ⟨hgen, hinst, -⟩ := let_polymorphism funStore funStore_acyclic
  obtain ⟨s', r, fresh, hret, -, -, hlen, -, hfresh, hdenote, -⟩ := hinst ⟨[0], 2⟩ (by decide)
  obtain ⟨v, rfl⟩ := length_eq_one_iff.mp hlen
  refine ⟨hgen [[⟨[], 4⟩]] ?_ 2 (by decide), s', r, v, hret, (hfresh v mem_cons_self).2, hdenote⟩
  intro scope hscope scheme hscheme
  rw [mem_singleton.1 hscope] at hscheme
  rw [mem_singleton.1 hscheme]
  decide

end Hm89
