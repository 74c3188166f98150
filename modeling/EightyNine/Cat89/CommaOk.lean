import EightyNine.Cat89.Comma
import Mathlib.Data.List.Pairwise

/-!
# libcat89: the comma category is the comma category

`commaCategory` is the comma category of two functors: its morphisms carry their
square.  Only `cat89_comma_mor_new` checks a square.  In every state that calls lead to,
each handle denotes such a morphism all the same (`CommaCtx.Sound`), since composites of
squares are squares and since nodes are told apart by what they hold.
-/

namespace Cat89

open Library (Links)
open Relation Option List

/-! ## Categories -/

namespace Category

variable {Obj Mor : Type} (K : Category Obj Mor)

theorem comp_congr {g g' f f' : Mor} (hg : g = g') (hf : f = f') (h : K.dom g = K.cod f) :
    K.comp g f h = K.comp g' f' (hg ▸ hf ▸ h) := by
  subst hg hf
  rfl

theorem ident_comp_of {a : Obj} {f : Mor} (h : K.dom (K.ident a) = K.cod f) :
    K.comp (K.ident a) f h = f := by
  obtain rfl : a = K.cod f := (K.dom_ident a).symm.trans h
  exact K.ident_comp f

theorem comp_ident_of {a : Obj} {f : Mor} (h : K.dom f = K.cod (K.ident a)) :
    K.comp f (K.ident a) h = f := by
  obtain rfl : a = K.dom f := (K.cod_ident a).symm.trans h.symm
  exact K.comp_ident f

end Category

theorem baseCompose_ok {Obj Mor : Type} [DecidableEq Obj] {K : Category Obj Mor} {g f r : Mor}
    (h : baseCompose K g f = .ok r) : ∃ hgf, r = K.comp g f hgf := by
  rw [baseCompose] at h
  split at h
  next hgf => exact ⟨hgf, (Except.ok.inj h).symm⟩
  next => cases h

theorem baseCompose_of_eq {Obj Mor : Type} [DecidableEq Obj] {K : Category Obj Mor} {g f : Mor}
    (h : K.dom g = K.cod f) : baseCompose K g f = .ok (K.comp g f h) :=
  dif_pos h

variable {ObjC ObjD ObjE MorC MorD MorE : Type} {C : Category ObjC MorC}
  {D : Category ObjD MorD} {E : Category ObjE MorE} {F : CatFunctor C E} {G : CatFunctor D E}

/-! ## The comma category -/

/-- An object: `f` goes from the image of `c` to the image of `d`. -/
structure CommaObj (F : CatFunctor C E) (G : CatFunctor D E) where
  node : CommaNode ObjC ObjD MorE
  dom_f : E.dom node.f = F.obj node.c
  cod_f : E.cod node.f = G.obj node.d

/-- A morphism: `u` and `v` have the ends of the two objects, and the square commutes. -/
structure CommaArrow (F : CatFunctor C E) (G : CatFunctor D E) where
  dom : CommaObj F G
  cod : CommaObj F G
  u : MorC
  v : MorD
  dom_u : C.dom u = dom.node.c
  cod_u : C.cod u = cod.node.c
  dom_v : D.dom v = dom.node.d
  cod_v : D.cod v = cod.node.d
  square : E.comp (G.mor v) dom.node.f (by rw [G.dom_mor, dom_v, dom.cod_f]) =
    E.comp cod.node.f (F.mor u) (by rw [F.cod_mor, cod_u, cod.dom_f])

theorem CommaObj.ext_node {x y : CommaObj F G} (h : x.node = y.node) : x = y := by
  obtain ⟨n, _, _⟩ := x
  obtain ⟨n', _, _⟩ := y
  obtain rfl := h
  rfl

theorem CommaArrow.ext_parts {α β : CommaArrow F G} (hdom : α.dom = β.dom) (hcod : α.cod = β.cod)
    (hu : α.u = β.u) (hv : α.v = β.v) : α = β := by
  obtain ⟨x, y, u, v, _, _, _, _, _⟩ := α
  obtain ⟨x', y', u', v', _, _, _, _, _⟩ := β
  obtain rfl := hdom
  obtain rfl := hcod
  obtain rfl := hu
  obtain rfl := hv
  rfl

/-- The square of two identities. -/
def CommaArrow.identity (x : CommaObj F G) : CommaArrow F G where
  dom := x
  cod := x
  u := C.ident x.node.c
  v := D.ident x.node.d
  dom_u := C.dom_ident _
  cod_u := C.cod_ident _
  dom_v := D.dom_ident _
  cod_v := D.cod_ident _
  square := by
    rw [E.comp_congr (G.mor_ident _) rfl, E.comp_congr rfl (F.mor_ident _), E.ident_comp_of,
      E.comp_ident_of]

/-- Two squares side by side. -/
def CommaArrow.compose (β α : CommaArrow F G) (h : β.dom = α.cod) : CommaArrow F G :=
  have hu : C.dom β.u = C.cod α.u := by rw [β.dom_u, α.cod_u, h]
  have hv : D.dom β.v = D.cod α.v := by rw [β.dom_v, α.cod_v, h]
  { dom := α.dom
    cod := β.cod
    u := C.comp β.u α.u hu
    v := D.comp β.v α.v hv
    dom_u := (C.dom_comp _ _ _).trans α.dom_u
    cod_u := (C.cod_comp _ _ _).trans β.cod_u
    dom_v := (D.dom_comp _ _ _).trans α.dom_v
    cod_v := (D.cod_comp _ _ _).trans β.cod_v
    square := by
      have hGv : E.dom (G.mor β.v) = E.cod (G.mor α.v) := by rw [G.dom_mor, G.cod_mor, hv]
      have hFu : E.dom (F.mor β.u) = E.cod (F.mor α.u) := by rw [F.dom_mor, F.cod_mor, hu]
      have hGf : E.dom (G.mor α.v) = E.cod α.dom.node.f := by rw [G.dom_mor, α.dom_v, α.dom.cod_f]
      have hfF : E.dom α.cod.node.f = E.cod (F.mor α.u) := by rw [F.cod_mor, α.cod_u, α.cod.dom_f]
      have hGm : E.dom (G.mor β.v) = E.cod α.cod.node.f := by
        rw [G.dom_mor, β.dom_v, h, α.cod.cod_f]
      have hfm : E.dom β.cod.node.f = E.cod (F.mor β.u) := by rw [F.cod_mor, β.cod_u, β.cod.dom_f]
      have hmid : E.comp (G.mor β.v) α.cod.node.f hGm = E.comp β.cod.node.f (F.mor β.u) hfm := by
        have hsq := β.square
        have hnode : β.dom.node.f = α.cod.node.f := by rw [h]
        rw [E.comp_congr rfl hnode] at hsq
        exact hsq
      calc E.comp (G.mor (D.comp β.v α.v hv)) α.dom.node.f _
          = E.comp (E.comp (G.mor β.v) (G.mor α.v) hGv) α.dom.node.f
              ((E.dom_comp _ _ _).trans hGf) := E.comp_congr (G.mor_comp _ _ hv) rfl _
        _ = E.comp (G.mor β.v) (E.comp (G.mor α.v) α.dom.node.f hGf)
              (hGv.trans (E.cod_comp _ _ _).symm) := (E.assoc _ _ _ hGf hGv).symm
        _ = E.comp (G.mor β.v) (E.comp α.cod.node.f (F.mor α.u) hfF)
              (hGm.trans (E.cod_comp _ _ _).symm) := E.comp_congr rfl α.square _
        _ = E.comp (E.comp (G.mor β.v) α.cod.node.f hGm) (F.mor α.u)
              ((E.dom_comp _ _ _).trans hfF) := E.assoc _ _ _ hfF hGm
        _ = E.comp (E.comp β.cod.node.f (F.mor β.u) hfm) (F.mor α.u)
              ((E.dom_comp _ _ _).trans hFu) := E.comp_congr hmid rfl _
        _ = E.comp β.cod.node.f (E.comp (F.mor β.u) (F.mor α.u) hFu)
              (hfm.trans (E.cod_comp _ _ _).symm) := (E.assoc _ _ _ hFu hfm).symm
        _ = E.comp β.cod.node.f (F.mor (C.comp β.u α.u hu)) _ :=
              E.comp_congr rfl (F.mor_comp _ _ hu).symm _ }

/-- The comma category. -/
def commaCategory (F : CatFunctor C E) (G : CatFunctor D E) :
    Category (CommaObj F G) (CommaArrow F G) where
  dom α := α.dom
  cod α := α.cod
  ident := .identity
  comp := .compose
  dom_ident _ := rfl
  cod_ident _ := rfl
  dom_comp _ _ _ := rfl
  cod_comp _ _ _ := rfl
  ident_comp _ := CommaArrow.ext_parts rfl rfl (C.ident_comp_of _) (D.ident_comp_of _)
  comp_ident _ := CommaArrow.ext_parts rfl rfl (C.comp_ident_of _) (D.comp_ident_of _)
  assoc _ _ _ _ _ := CommaArrow.ext_parts rfl rfl (C.assoc _ _ _ _ _) (D.assoc _ _ _ _ _)

namespace CommaCtx

variable {s s' : CommaCtx ObjC ObjD MorC MorD MorE} {mem : CommaMem} {a b m o p g f : Nat}
  {u : MorC} {v : MorD} {x : CommaObj F G} {α β : CommaArrow F G}

/-- The object `o` is the node of `x`. -/
def ObjDenotes (s : CommaCtx ObjC ObjD MorC MorD MorE) (o : Nat) (x : CommaObj F G) : Prop :=
  s.nodes.find o = some x.node

/-- The handle `m` is live and denotes `α`. -/
def Denotes (s : CommaCtx ObjC ObjD MorC MorD MorE) (m : Nat) (α : CommaArrow F G) : Prop :=
  ∃ mor, s.live.find m = some mor ∧ s.ObjDenotes mor.dom α.dom ∧ s.ObjDenotes mor.cod α.cod ∧
    mor.u = α.u ∧ mor.v = α.v

/-- What every call keeps. -/
structure Sound (F : CatFunctor C E) (G : CatFunctor D E)
    (s : CommaCtx ObjC ObjD MorC MorD MorE) : Prop where
  addresses : s.nodes.addresses.Nodup
  apart : s.nodes.Pairwise fun p q => p.2 ≠ q.2
  objects : ∀ o n, s.nodes.find o = some n → ∃ x : CommaObj F G, x.node = n
  handles : s.live.addresses.Nodup
  squares : ∀ m mor, s.live.find m = some mor → ∃ α : CommaArrow F G, s.Denotes m α

theorem Sound.node_unique (hs : s.Sound F G) {n : CommaNode ObjC ObjD MorE}
    (ha : s.nodes.find a = some n) (hb : s.nodes.find b = some n) : a = b := by
  have hsymm : Std.Symm fun p q : Nat × CommaNode ObjC ObjD MorE => p.2 ≠ q.2 :=
    ⟨fun _ _ h => h.symm⟩
  by_contra hne
  have hpair : (a, n) ≠ (b, n) := by
    intro heq
    exact hne (congrArg Prod.fst heq)
  exact hs.apart.forall (Links.mem_of_find ha) (Links.mem_of_find hb) hpair rfl

/-- What a call leaves as it was: the nodes, and the ends and parts of every morphism that
stays live. -/
def Keeps (s s' : CommaCtx ObjC ObjD MorC MorD MorE) : Prop :=
  (∀ o n, s.nodes.find o = some n → s'.nodes.find o = some n) ∧
    ∀ m mor, s.live.find m = some mor →
      (∃ refs, s'.live.find m = some { mor with refs := refs }) ∨ s'.live.find m = none

/-- The state with a new morphism. -/
def withMor (s : CommaCtx ObjC ObjD MorC MorD MorE) (m dom cod : Nat) (u : MorC) (v : MorD) :
    CommaCtx ObjC ObjD MorC MorD MorE :=
  { s with live := (m, ⟨1, dom, cod, u, v⟩) :: s.live }

theorem cmorAssemble_ok (h : s.cmorAssemble mem a b u v = .ok (m, s')) :
    mem.mor = some m ∧ s' = s.withMor m a b u v := by
  rw [cmorAssemble] at h
  split at h
  · cases h
  · split at h
    next => cases h
    next hmor =>
      cases h
      exact ⟨hmor, rfl⟩

theorem denotes_withMor (ha : s.ObjDenotes a α.dom) (hb : s.ObjDenotes b α.cod) (hu : u = α.u)
    (hv : v = α.v) : (s.withMor m a b u v).Denotes m α :=
  ⟨_, Links.find_cons_self, ha, hb, hu, hv⟩

theorem Denotes.withMor (hα : s.Denotes p α) (hm : m ∉ s.live.addresses) :
    (s.withMor m a b u v).Denotes p α := by
  obtain ⟨mor, hmor, hdom, hcod, hu, hv⟩ := hα
  have hpm : p ≠ m := by
    rintro rfl
    exact hm (Links.mem_addresses_of_find hmor)
  exact ⟨mor, (Links.find_cons_ne hpm).trans hmor, hdom, hcod, hu, hv⟩

theorem Denotes.owned (h : s.Denotes m α) : s.live.owns m = true := by
  obtain ⟨mor, hm, -⟩ := h
  rw [Links.owns_eq, hm]
  rfl

theorem Sound.withMor (hs : s.Sound F G) (hm : m ∉ s.live.addresses)
    (ha : s.ObjDenotes a α.dom) (hb : s.ObjDenotes b α.cod) (hu : u = α.u) (hv : v = α.v) :
    (s.withMor m a b u v).Sound F G ∧ s.Keeps (s.withMor m a b u v) := by
  refine ⟨⟨hs.addresses, hs.apart, hs.objects, nodup_cons.2 ⟨hm, hs.handles⟩, ?_⟩,
    fun _ _ h => h, ?_⟩
  · intro p mor hmor
    by_cases hpm : p = m
    · subst hpm
      exact ⟨α, denotes_withMor ha hb hu hv⟩
    · obtain ⟨β, hβ⟩ := hs.squares p mor ((Links.find_cons_ne hpm).symm.trans hmor)
      exact ⟨β, hβ.withMor hm⟩
  · intro p mor hp
    have hpm : p ≠ m := by
      rintro rfl
      exact hm (Links.mem_addresses_of_find hp)
    exact .inl ⟨mor.refs, (Links.find_cons_ne hpm).trans hp⟩

/-! ## Calls -/

theorem commaEndpointsOk_iff [DecidableEq ObjC] [DecidableEq ObjD]
    {dom cod : CommaNode ObjC ObjD MorE} :
    commaEndpointsOk C D dom cod u v = true ↔
      C.dom u = dom.c ∧ C.cod u = cod.c ∧ D.dom v = dom.d ∧ D.cod v = cod.d := by
  rw [commaEndpointsOk]
  split_ifs with h1 h2 h3 h4
  · simp [h1]
  · simp [h2]
  · simp [h3]
  · simp [h4]
  · simp [not_not.1 h1, not_not.1 h2, not_not.1 h3, not_not.1 h4]

section

variable [DecidableEq ObjC] [DecidableEq ObjD]

theorem identity_made (h : Cat89.identity (commaOps C D mem) s o = some (.ok (m, s'))) :
    ∃ n, s.nodes.find o = some n ∧ mem.mor = some m ∧
      s' = s.withMor m o o (C.ident n.c) (D.ident n.d) := by
  rw [Cat89.identity] at h
  split at h
  · cases h
  · obtain ⟨n, hn, h⟩ := map_eq_some_iff.1 h
    split at h
    · cases h
    · obtain ⟨hmor, rfl⟩ := cmorAssemble_ok h
      exact ⟨n, hn, hmor, rfl⟩

theorem compose_made (h : Cat89.compose (commaOps C D mem) s g f = some (.ok (m, s'))) :
    ∃ gm fm hu hv, s.live.find g = some gm ∧ s.live.find f = some fm ∧ fm.cod = gm.dom ∧
      mem.mor = some m ∧
      s' = s.withMor m fm.dom gm.cod (C.comp gm.u fm.u hu) (D.comp gm.v fm.v hv) := by
  rw [Cat89.compose] at h
  split at h
  · cases h
  · split at h
    · cases h
    · obtain ⟨codF, domG, hcod, hdom, hsame, h⟩ := composeOwned_ok h
      obtain ⟨gm, hgm, h⟩ := bind_eq_some_iff.1 h
      obtain ⟨fm, hfm, h⟩ := map_eq_some_iff.1 h
      obtain ⟨fm', hfm', hcod⟩ := map_eq_some_iff.1 hcod
      obtain ⟨gm', hgm', hdom⟩ := map_eq_some_iff.1 hdom
      cases hfm.symm.trans hfm'
      cases hgm.symm.trans hgm'
      cases hcod
      cases hdom
      have hmid : fm.cod = gm.dom := by
        have hbeq : (fm.cod == gm.dom) = true := some.inj hsame
        simpa using hbeq
      split at h
      · cases h
      · split at h
        next => cases h
        next nu hnu =>
          split at h
          next => cases h
          next nv hnv =>
            obtain ⟨hu, rfl⟩ := baseCompose_ok hnu
            obtain ⟨hv, rfl⟩ := baseCompose_ok hnv
            obtain ⟨hmor, rfl⟩ := cmorAssemble_ok h
            exact ⟨gm, fm, hu, hv, hgm, hfm, hmid, hmor, rfl⟩

omit [DecidableEq ObjC] [DecidableEq ObjD] in
/-- Two morphisms that meet at a node compose to a square. -/
theorem compose_denotes {gm fm : CommaMor MorC MorD} (hgm : s.live.find g = some gm)
    (hfm : s.live.find f = some fm) (hβ : s.Denotes g β) (hα : s.Denotes f α)
    (hmid : fm.cod = gm.dom) {hu : C.dom gm.u = C.cod fm.u} {hv : D.dom gm.v = D.cod fm.v} :
    ∃ h : β.dom = α.cod, s.ObjDenotes fm.dom (β.compose α h).dom ∧
      s.ObjDenotes gm.cod (β.compose α h).cod ∧ C.comp gm.u fm.u hu = (β.compose α h).u ∧
      D.comp gm.v fm.v hv = (β.compose α h).v := by
  obtain ⟨gm', hgm', hgdom, hgcod, hgu, hgv⟩ := hβ
  obtain ⟨fm', hfm', hfdom, hfcod, hfu, hfv⟩ := hα
  cases hgm.symm.trans hgm'
  cases hfm.symm.trans hfm'
  have hmid' : β.dom = α.cod := by
    rw [ObjDenotes, hmid] at hfcod
    exact CommaObj.ext_node (some.inj (hgdom.symm.trans hfcod))
  exact ⟨hmid', hfdom, hgcod, C.comp_congr hgu hfu hu, D.comp_congr hgv hfv hv⟩

/-- The state with the count of a morphism changed. -/
def recount (s : CommaCtx ObjC ObjD MorC MorD MorE) (m : Nat) (count : Nat → Nat) :
    CommaCtx ObjC ObjD MorC MorD MorE :=
  { s with live := s.live.update m fun mor => { mor with refs := count mor.refs } }

omit [DecidableEq ObjC] [DecidableEq ObjD] in
theorem recount_live {count : Nat → Nat} : (s.recount m count).live =
    s.live.update m fun mor => { mor with refs := count mor.refs } := rfl

omit [DecidableEq ObjC] [DecidableEq ObjD] in
/-- Counting the references to a morphism changes nothing else. -/
theorem Sound.recount (hs : s.Sound F G) (m : Nat) (count : Nat → Nat) :
    (s.recount m count).Sound F G ∧ s.Keeps (s.recount m count) := by
  refine ⟨⟨hs.addresses, hs.apart, hs.objects, ?_, ?_⟩, fun _ _ h => h, ?_⟩
  · rw [recount_live, Links.addresses_update]
    exact hs.handles
  · intro p mor' hp
    have hp' := hp
    rw [recount_live] at hp'
    obtain ⟨mor, hmor, heq⟩ := Links.find_of_find_update hp'
    obtain ⟨α, mor₀, hmor₀, hdom, hcod, hu, hv⟩ := hs.squares p mor hmor
    cases hmor.symm.trans hmor₀
    refine ⟨α, mor', hp, ?_⟩
    rcases heq with rfl | rfl <;> exact ⟨hdom, hcod, hu, hv⟩
  · intro p mor hmor
    rw [recount_live]
    left
    rcases Links.find_update_of_find hmor with hp | hp
    · exact ⟨mor.refs, hp⟩
    · exact ⟨count mor.refs, hp⟩

omit [DecidableEq ObjC] [DecidableEq ObjD] in
theorem Sound.unlink (hs : s.Sound F G) (m : Nat) :
    let s' : CommaCtx ObjC ObjD MorC MorD MorE := { s with live := s.live.unlink m }
    s'.Sound F G ∧ s.Keeps s' := by
  intro s'
  refine ⟨⟨hs.addresses, hs.apart, hs.objects,
    hs.handles.sublist (Links.unlink_sublist.map _), ?_⟩, fun _ _ h => h, ?_⟩
  · intro p mor hp
    have hmor := Links.find_of_find_unlink hs.handles hp
    obtain ⟨α, mor₀, hmor₀, hparts⟩ := hs.squares p mor hmor
    cases hmor.symm.trans hmor₀
    exact ⟨α, mor, hp, hparts⟩
  · intro p mor hp
    rcases Links.find_unlink_of_find hs.handles hp with hp | hp
    · exact .inl ⟨mor.refs, hp⟩
    · exact .inr hp

variable [DecidableEq ObjE] [DecidableEq MorE]

/-- The object constructor hands out the node of its triple. -/
theorem Sound.obj (hs : s.Sound F G) (hmem : s.Allows mem) {c : ObjC} {e : MorE} {d : ObjD}
    (h : s.commaObjNew F G mem c e d = .ok (o, s')) :
    s'.Sound F G ∧ s.Keeps s' ∧ s'.nodes.find o = some ⟨c, d, e⟩ := by
  rw [commaObjNew] at h
  split_ifs at h with hbase hdom hcod
  rw [cnodeIntern.eq_def] at h
  split at h
  next node hnode =>
    cases h
    have hmem' := List.mem_of_find?_eq_some hnode
    have heq := List.find?_some hnode
    have hn : node.2 = ⟨c, d, e⟩ := by
      split_ifs at heq with hc hd
      obtain ⟨o, c', d', f'⟩ := node
      obtain rfl := not_not.1 hc
      obtain rfl := not_not.1 hd
      obtain rfl : f' = e := by simpa using heq
      rfl
    refine ⟨hs, ⟨fun _ _ h => h, fun p mor hp => .inl ⟨mor.refs, hp⟩⟩, ?_⟩
    rw [← hn]
    exact Links.find_of_mem hs.addresses hmem'
  next hnone =>
    split at h
    · cases h
    · split at h
      next => cases h
      next o' ho =>
        cases h
        obtain ⟨hfree, -⟩ := hmem.1 o ho
        have hkeep : ∀ p n, s.nodes.find p = some n →
            Links.find ((o, ⟨c, d, e⟩) :: s.nodes) p = some n := by
          intro p n hp
          have hpo : p ≠ o := by
            rintro rfl
            exact hfree (Links.mem_addresses_of_find hp)
          exact (Links.find_cons_ne hpo).trans hp
        refine ⟨⟨nodup_cons.2 ⟨hfree, hs.addresses⟩, ?_, ?_, hs.handles, ?_⟩,
          ⟨hkeep, fun p mor hp => .inl ⟨mor.refs, hp⟩⟩, Links.find_cons_self⟩
        · refine pairwise_cons.2 ⟨fun q hq heq => ?_, hs.apart⟩
          have := List.find?_eq_none.1 hnone q hq
          simp [← heq] at this
        · intro p n hp
          by_cases hpo : p = o
          · subst hpo
            cases hp.symm.trans Links.find_cons_self
            exact ⟨⟨⟨c, d, e⟩, not_not.1 hdom, not_not.1 hcod⟩, rfl⟩
          · exact hs.objects p n ((Links.find_cons_ne hpo).symm.trans hp)
        · intro p mor hp
          obtain ⟨α, mor₀, hmor₀, hα, hβ, hparts⟩ := hs.squares p mor hp
          exact ⟨α, mor₀, hmor₀, hkeep _ _ hα, hkeep _ _ hβ, hparts⟩

/-- The morphism constructor makes what it is given, and only where the square commutes. -/
theorem Sound.mor (hs : s.Sound F G) (hmem : s.Allows mem)
    (h : s.commaMorNew F G mem a b u v = .ok (m, s')) :
    s'.Sound F G ∧ s.Keeps s' ∧ ∃ α : CommaArrow F G, s'.Denotes m α ∧ α.u = u ∧ α.v = v := by
  rw [commaMorNew.eq_def] at h
  split at h
  next => cases h
  next => cases h
  next dom cod hdom hcod =>
    split at h
    · cases h
    · split at h
      next => cases h
      next hends =>
        split at h
        · cases h
        · split at h
          next => cases h
          next => cases h
          next hsquare =>
            rw [Bool.not_eq_false] at hends
            obtain ⟨hdu, hcu, hdv, hcv⟩ := commaEndpointsOk_iff.1 hends
            obtain ⟨hmor, rfl⟩ := cmorAssemble_ok h
            obtain ⟨x, rfl⟩ := hs.objects a dom hdom
            obtain ⟨y, rfl⟩ := hs.objects b cod hcod
            have hl : E.dom (G.mor v) = E.cod x.node.f := by rw [G.dom_mor, hdv, x.cod_f]
            have hr : E.dom y.node.f = E.cod (F.mor u) := by rw [F.cod_mor, hcu, y.dom_f]
            have hsq : E.comp (G.mor v) x.node.f hl = E.comp y.node.f (F.mor u) hr := by
              rw [commaSquareOk, baseCompose_of_eq hl, baseCompose_of_eq hr] at hsquare
              simpa using Except.ok.inj hsquare
            let α : CommaArrow F G := ⟨x, y, u, v, hdu, hcu, hdv, hcv, hsq⟩
            have hm := (hmem.2 m hmor).2
            obtain ⟨hs', hkeep⟩ := hs.withMor (α := α) hm hdom hcod rfl rfl
            exact ⟨hs', hkeep, α, denotes_withMor hdom hcod rfl rfl, rfl, rfl⟩

theorem Sound.step (hs : s.Sound F G) (h : Step F G s s') : s'.Sound F G ∧ s.Keeps s' := by
  cases h with
  | obj hmem h =>
    obtain ⟨hs', hkeep, -⟩ := hs.obj hmem h
    exact ⟨hs', hkeep⟩
  | mor hmem h =>
    obtain ⟨hs', hkeep, -⟩ := hs.mor hmem h
    exact ⟨hs', hkeep⟩
  | identity hmem h =>
    obtain ⟨n, hn, hmor, rfl⟩ := identity_made h
    obtain ⟨x, rfl⟩ := hs.objects _ n hn
    exact hs.withMor (α := .identity x) (hmem.2 _ hmor).2 hn hn rfl rfl
  | compose hmem h =>
    obtain ⟨gm, fm, hu, hv, hgm, hfm, hmid, hmor, rfl⟩ := compose_made h
    obtain ⟨β, hβ⟩ := hs.squares _ gm hgm
    obtain ⟨α, hα⟩ := hs.squares _ fm hfm
    obtain ⟨hends, hdom, hcod, hu', hv'⟩ := compose_denotes hgm hfm hβ hα hmid
    exact hs.withMor (hmem.2 _ hmor).2 hdom hcod hu' hv'
  | @retain m h =>
    rw [commaRetain.eq_def] at h
    split at h
    · cases h
    · obtain ⟨mor, hmor, h⟩ := map_eq_some_iff.1 h
      split at h
      next => cases h
      next refs _ =>
        cases h
        exact hs.recount m fun _ => refs
  | @release m h =>
    rw [commaRelease.eq_def] at h
    split at h
    · cases h
      exact ⟨hs, fun _ _ h => h, fun p mor hp => .inl ⟨mor.refs, hp⟩⟩
    · obtain ⟨mor, hmor, h⟩ := map_eq_some_iff.1 h
      split at h
      · subst h
        exact hs.unlink m
      · subst h
        exact hs.recount m fun refs => (refDec refs).1

theorem Reached.sound (h : s.Reached F G) : s.Sound F G := by
  induction h with
  | refl =>
    refine ⟨.nil, .nil, ?_, .nil, ?_⟩
    · intro o n ho
      cases ho
    · intro m mor hm
      cases hm
  | tail _ hstep ih => exact (ih.step hstep).1

theorem Sound.node_later (hs : s.Sound F G) (h : ReflTransGen (Step F G) s s') {n}
    (ho : s.nodes.find o = some n) : s'.nodes.find o = some n := by
  have hlater : s'.Sound F G ∧ s'.nodes.find o = some n := by
    induction h with
    | refl => exact ⟨hs, ho⟩
    | tail _ hstep ih =>
      obtain ⟨hs', hkeep, -⟩ := ih.1.step hstep
      exact ⟨hs', hkeep _ _ ih.2⟩
  exact hlater.2

/-! ## Refinement -/

/-- The operations are those of the comma category. -/
theorem refines (F : CatFunctor C E) (G : CatFunctor D E) :
    Refines (commaOps C D) Allows (Reached F G) (commaCategory F G) ObjDenotes Denotes where
  owned {s mem m} hs := by
    constructor
    · intro hown
      have hown' : s.live.owns m = true := hown
      rw [Links.owns_eq, isSome_iff_exists] at hown'
      obtain ⟨mor, hm⟩ := hown'
      exact hs.sound.squares m mor hm
    · rintro ⟨α, hα⟩
      exact hα.owned
  dom {s mem m α} hs hα := by
    have hown : (commaOps C D mem).ownsMor s m = true := hα.owned
    obtain ⟨mor, hm, hdom, -⟩ := hα
    refine ⟨mor.dom, ?_, hdom⟩
    rw [Cat89.dom, hown, if_neg (by simp)]
    change s.commaDom m = _
    rw [commaDom, hm]
    rfl
  cod {s mem m α} hs hα := by
    have hown : (commaOps C D mem).ownsMor s m = true := hα.owned
    obtain ⟨mor, hm, -, hcod, -⟩ := hα
    refine ⟨mor.cod, ?_, hcod⟩
    rw [Cat89.cod, hown, if_neg (by simp)]
    change s.commaCod m = _
    rw [commaCod, hm]
    rfl
  identity {s mem o x m s'} hs hmem ho h := by
    have hs' : s'.Reached F G := hs.tail (.identity hmem h)
    obtain ⟨n, hn, hmor, rfl⟩ := identity_made h
    cases hn.symm.trans ho
    have hm := (hmem.2 m hmor).2
    exact ⟨hs', denotes_withMor ho ho rfl rfl, fun p β hβ => hβ.withMor hm⟩
  compose {s mem g f β α m s'} hs hmem hβ hα h := by
    have hs' : s'.Reached F G := hs.tail (.compose hmem h)
    obtain ⟨gm, fm, hu, hv, hgm, hfm, hmid, hmor, rfl⟩ := compose_made h
    obtain ⟨hends, hdom, hcod, hu', hv'⟩ := compose_denotes hgm hfm hβ hα hmid
    have hm := (hmem.2 m hmor).2
    exact ⟨hs', ⟨hends, denotes_withMor hdom hcod hu' hv'⟩, fun p γ hγ => hγ.withMor hm⟩
  answers {s mem g f β α} hs hβ hα := by
    have hog : (commaOps C D mem).ownsMor s g = true := hβ.owned
    have hof : (commaOps C D mem).ownsMor s f = true := hα.owned
    obtain ⟨gm, hgm, hgdom, -⟩ := hβ
    obtain ⟨fm, hfm, -, hfcod, -⟩ := hα
    have hcod : (commaOps C D mem).cod s f = some (.ok fm.cod) := by
      change s.commaCod f = _
      rw [commaCod, hfm]
      rfl
    have hdom : (commaOps C D mem).dom s g = some (.ok gm.dom) := by
      change s.commaDom g = _
      rw [commaDom, hgm]
      rfl
    have hobj : (commaOps C D mem).objSame s fm.cod gm.dom = some (fm.cod == gm.dom) := rfl
    rw [Cat89.compose, hog, hof, if_neg (by simp), if_neg (by simp), composeOwned, hcod, hdom]
    simp only [hobj]
    cases hsame : fm.cod == gm.dom with
    | false => exact ⟨by simp, fun _ => rfl⟩
    | true =>
      have hmid : fm.cod = gm.dom := by simpa using hsame
      refine ⟨?_, fun hne => absurd ?_ hne⟩
      · change s.commaCompose C D mem g f ≠ none
        rw [commaCompose, hgm, bind_some, hfm]
        simp
      · rw [ObjDenotes, hmid] at hfcod
        exact CommaObj.ext_node (some.inj (hgdom.symm.trans hfcod))

end

end CommaCtx

end Cat89
