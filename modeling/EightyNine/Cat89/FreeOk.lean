import EightyNine.Cat89.Free
import Mathlib.Data.List.Pairwise

/-!
# libcat89: the free category is the category of paths

`freeCategory` is the category of the paths of a graph.  In every state that calls lead
to, the nodes hold vertices of which no two are the same, each morphism is a path
between the vertices of its ends (`FreeCtx.Sound`), and the operations are those of the
category (`free_refines`).
-/

namespace Cat89

open Library (Links)
open Relation Option List

variable {V E : Type} {g : Graph V E}

/-! ## Paths -/

namespace Graph

variable {x y z : V} {es fs : List E}

theorem Path.congr_left (h : g.vertexSame x y = true) (hp : g.Path y fs z) : g.Path x fs z := by
  cases fs with
  | nil => exact g.same_equivalence.trans h hp
  | cons e fs => exact ⟨g.same_equivalence.trans h hp.1, hp.2⟩

theorem Path.append (hp : g.Path x es y) (hq : g.Path y fs z) : g.Path x (es ++ fs) z := by
  induction es generalizing x with
  | nil => exact hq.congr_left hp
  | cons e es ih => exact ⟨hp.1, ih hp.2⟩

end Graph

/-- A path of the graph. -/
structure FreeArrow (g : Graph V E) where
  dom : V
  cod : V
  edges : List E
  path : g.Path dom edges cod

/-- The paths of a graph under concatenation. -/
def freeCategory (g : Graph V E) : Category V (FreeArrow g) where
  dom a := a.dom
  cod a := a.cod
  ident x := ⟨x, x, [], g.same_equivalence.refl x⟩
  comp b a h := ⟨a.dom, b.cod, a.edges ++ b.edges,
    a.path.append ((show b.dom = a.cod from h) ▸ b.path)⟩
  dom_ident _ := rfl
  cod_ident _ := rfl
  dom_comp _ _ _ := rfl
  cod_comp _ _ _ := rfl
  ident_comp a := by
    obtain ⟨x, y, es, hp⟩ := a
    simp
  comp_ident a := by
    obtain ⟨x, y, es, hp⟩ := a
    simp
  assoc c b a _ _ := by simp

/-! ## Copies of edges -/

variable {room : Bool} {len : Nat}

theorem copyEdges_ok (h : copyEdges room len = some (.ok ())) :
    len * sizeofEdge < 2 ^ 63 := by
  rw [copyEdges] at h
  split at h
  next hlen =>
    rw [hlen]
    omega
  next =>
    split at h
    next => cases h
    next halloc =>
      split at h
      next => cases h
      next hle =>
        rw [Bool.not_eq_false, allocates, Bool.and_eq_true, decide_eq_true_eq] at halloc
        exact (not_lt.1 hle).trans_lt halloc.2

theorem copyEdges_ne_none (h : len * sizeofEdge < 2 ^ 64) :
    copyEdges room len ≠ none := by
  have hbytes : edgeBytes len = len * sizeofEdge := Nat.mod_eq_of_lt h
  rw [copyEdges]
  split_ifs with h1 h2 h3
  · simp
  · simp
  · omega
  · simp

namespace FreeCtx

variable {s s' : FreeCtx V E} {mem : FreeMem} {a b m o p gh fh : Nat} {x y : V} {es : List E}

/-- The state with a new morphism. -/
def withMor (s : FreeCtx V E) (m dom cod : Nat) (edges : List E) : FreeCtx V E :=
  { s with live := (m, ⟨1, dom, cod, edges⟩) :: s.live }

theorem freeMorMake_ok (h : s.freeMorMake mem a b es = some (.ok (m, s'))) :
    mem.mor = some m ∧ es.length * sizeofEdge < 2 ^ 63 ∧ s' = s.withMor m a b es := by
  rw [freeMorMake] at h
  split at h
  next => cases h
  next => cases h
  next hcopy =>
    split at h
    next => cases h
    next hmor =>
      cases h
      exact ⟨hmor, copyEdges_ok hcopy, rfl⟩

theorem freeMorMake_ne_none (h : es.length * sizeofEdge < 2 ^ 64) :
    s.freeMorMake mem a b es ≠ none := by
  have hcopy : copyEdges mem.copy es.length ≠ none := copyEdges_ne_none h
  rw [freeMorMake]
  split
  next hnone => exact absurd hnone hcopy
  next => simp
  next =>
    split <;> simp

/-! ## States -/

/-- What every call keeps. -/
structure Sound (g : Graph V E) (s : FreeCtx V E) : Prop where
  nodes : s.vertices.addresses.Nodup
  apart : s.vertices.Pairwise fun p q => g.vertexSame p.2 q.2 = false
  handles : s.live.addresses.Nodup
  paths : ∀ m mor, s.live.find m = some mor → ∃ x y, s.vertices.find mor.dom = some x ∧
    s.vertices.find mor.cod = some y ∧ g.Path x mor.edges y
  short : ∀ m mor, s.live.find m = some mor → mor.edges.length * sizeofEdge < 2 ^ 63

theorem Sound.node_unique (hs : s.Sound g) (ha : s.vertices.find a = some x)
    (hb : s.vertices.find b = some y) (h : g.vertexSame x y = true) : a = b ∧ x = y := by
  have hsymm : Std.Symm fun p q : Nat × V => g.vertexSame p.2 q.2 = false := by
    refine ⟨fun p q hpq => ?_⟩
    rw [Bool.eq_false_iff] at hpq ⊢
    exact fun hqp => hpq (g.same_equivalence.symm hqp)
  by_contra hne
  have hpair : (a, x) ≠ (b, y) := by
    intro heq
    exact hne (by simpa using heq)
  have := hs.apart.forall (Links.mem_of_find ha) (Links.mem_of_find hb) hpair
  rw [h] at this
  cases this

/-- What a call leaves as it was: the nodes, and the ends and edges of every morphism that
stays live. -/
def Keeps (s s' : FreeCtx V E) : Prop :=
  (∀ a x, s.vertices.find a = some x → s'.vertices.find a = some x) ∧
    ∀ m mor, s.live.find m = some mor →
      (∃ refs, s'.live.find m = some { mor with refs := refs }) ∨ s'.live.find m = none

theorem find_ne {l : Links V} {p : Nat} (hp : p ∉ l.addresses) (ha : l.find a = some x) :
    a ≠ p := by
  rintro rfl
  exact hp (Links.mem_addresses_of_find ha)

variable {out : Except Status Nat}

theorem internVertex_spec (hs : s.Sound g) {mem : Option Nat} (vertex : V)
    (hmem : ∀ p, mem = some p → p ∉ s.vertices.addresses)
    (h : s.internVertex g mem vertex = (out, s')) :
    s'.Sound g ∧ s'.live = s.live ∧
      (∀ a x, s.vertices.find a = some x → s'.vertices.find a = some x) ∧
      (∀ p, p ∈ s'.vertices.addresses → p ∈ s.vertices.addresses ∨ mem = some p) ∧
      ∀ o, out = .ok o → ∃ x, s'.vertices.find o = some x ∧ g.vertexSame x vertex = true := by
  rw [internVertex.eq_def] at h
  split at h
  next node hnode =>
    cases h
    refine ⟨hs, rfl, fun _ _ ha => ha, fun p hp => .inl hp, ?_⟩
    intro o ho
    cases ho
    have hmem' : node ∈ s.vertices := mem_of_find?_eq_some hnode
    have hsame : g.vertexSame node.2 vertex = true := by
      simpa using find?_some hnode
    exact ⟨node.2, Links.find_of_mem hs.nodes hmem', hsame⟩
  next hnone =>
    split at h
    next =>
      cases h
      exact ⟨hs, rfl, fun _ _ ha => ha, fun p hp => .inl hp, fun _ ho => by cases ho⟩
    next o =>
      cases h
      have ho := hmem o rfl
      have hkeep : ∀ a x, s.vertices.find a = some x →
          Links.find ((o, vertex) :: s.vertices) a = some x := by
        intro a x ha
        rw [Links.find_cons_ne (find_ne ho ha)]
        exact ha
      refine ⟨⟨nodup_cons.2 ⟨ho, hs.nodes⟩, ?_, hs.handles, ?_, hs.short⟩, rfl, hkeep, ?_, ?_⟩
      · refine pairwise_cons.2 ⟨fun node hnode => ?_, hs.apart⟩
        have := find?_eq_none.1 hnone node hnode
        rw [Bool.eq_false_iff]
        exact fun hsame => this (g.same_equivalence.symm hsame)
      · intro m mor hm
        obtain ⟨x, y, hx, hy, hp⟩ := hs.paths m mor hm
        exact ⟨x, y, hkeep _ _ hx, hkeep _ _ hy, hp⟩
      · intro p hp
        rcases mem_cons.1 hp with rfl | hp
        · exact .inr rfl
        · exact .inl hp
      · intro o' ho'
        cases ho'
        exact ⟨vertex, Links.find_cons_self, g.same_equivalence.refl vertex⟩

theorem Sound.withMor (hs : s.Sound g) (hm : m ∉ s.live.addresses)
    (ha : s.vertices.find a = some x) (hb : s.vertices.find b = some y) (hp : g.Path x es y)
    (hlen : es.length * sizeofEdge < 2 ^ 63) : (s.withMor m a b es).Sound g := by
  refine ⟨hs.nodes, hs.apart, nodup_cons.2 ⟨hm, hs.handles⟩, ?_, ?_⟩
  · intro p mor hmor
    by_cases hpm : p = m
    · subst hpm
      cases hmor.symm.trans Links.find_cons_self
      exact ⟨x, y, ha, hb, hp⟩
    · exact hs.paths p mor ((Links.find_cons_ne hpm).symm.trans hmor)
  · intro p mor hmor
    by_cases hpm : p = m
    · subst hpm
      cases hmor.symm.trans Links.find_cons_self
      exact hlen
    · exact hs.short p mor ((Links.find_cons_ne hpm).symm.trans hmor)

theorem keeps_withMor (hm : m ∉ s.live.addresses) : s.Keeps (s.withMor m a b es) := by
  refine ⟨fun _ _ h => h, fun p mor hp => .inl ⟨mor.refs, ?_⟩⟩
  have hpm : p ≠ m := by
    rintro rfl
    exact hm (Links.mem_addresses_of_find hp)
  exact (Links.find_cons_ne hpm).trans hp

/-! ## Calls -/

theorem identity_made (h : Cat89.identity (freeOps g mem) s o = some (.ok (m, s'))) :
    mem.mor = some m ∧ s' = s.withMor m o o [] ∧ ∃ x, s.vertices.find o = some x := by
  rw [Cat89.identity] at h
  split at h
  next => cases h
  next hown =>
    have hmake : s.freeMorMake mem o o [] = some (.ok (m, s')) := h
    obtain ⟨hmor, -, rfl⟩ := freeMorMake_ok hmake
    have hown' : s.vertices.owns o = true := by
      rw [Bool.not_eq_false] at hown
      exact hown
    rw [Links.owns_eq, isSome_iff_exists] at hown'
    exact ⟨hmor, rfl, hown'⟩

variable {gm fm : FreeMor E}

theorem freeComposeMors_ok (h : s.freeComposeMors mem gm fm = some (.ok (m, s'))) :
    mem.mor = some m ∧ (fm.edges ++ gm.edges).length * sizeofEdge < 2 ^ 63 ∧
      s' = s.withMor m fm.dom gm.cod (fm.edges ++ gm.edges) := by
  rw [freeComposeMors] at h
  split at h
  next hf =>
    rw [length_eq_zero_iff.1 hf, nil_append]
    exact freeMorMake_ok h
  next =>
    split at h
    next hg =>
      rw [length_eq_zero_iff.1 hg, append_nil]
      exact freeMorMake_ok h
    next =>
      simp only at h
      split at h
      · cases h
      · split at h
        · cases h
        · exact freeMorMake_ok h

theorem freeComposeMors_ne_none (hg : gm.edges.length * sizeofEdge < 2 ^ 63)
    (hf : fm.edges.length * sizeofEdge < 2 ^ 63) : s.freeComposeMors mem gm fm ≠ none := by
  have htotal : (fm.edges.length + gm.edges.length) * sizeofEdge < 2 ^ 64 := by
    rw [Nat.add_mul]
    omega
  have hbytes : edgeBytes (fm.edges.length + gm.edges.length) =
      (fm.edges.length + gm.edges.length) * sizeofEdge := Nat.mod_eq_of_lt htotal
  rw [freeComposeMors]
  split
  · exact freeMorMake_ne_none (hg.trans (by omega))
  · split
    · exact freeMorMake_ne_none (hf.trans (by omega))
    · simp only
      split
      · simp
      · rw [if_neg (by omega)]
        exact freeMorMake_ne_none (by rwa [length_append])

theorem compose_made (h : Cat89.compose (freeOps g mem) s gh fh = some (.ok (m, s'))) :
    ∃ gm fm x y, s.live.find gh = some gm ∧ s.live.find fh = some fm ∧
      s.vertices.find fm.cod = some x ∧ s.vertices.find gm.dom = some y ∧
      g.vertexSame x y = true ∧ mem.mor = some m ∧
      (fm.edges ++ gm.edges).length * sizeofEdge < 2 ^ 63 ∧
      s' = s.withMor m fm.dom gm.cod (fm.edges ++ gm.edges) := by
  rw [Cat89.compose] at h
  split at h
  · cases h
  · split at h
    · cases h
    · obtain ⟨codF, domG, hcod, hdom, hsame, h⟩ := composeOwned_ok h
      obtain ⟨gm, hgm, h⟩ := bind_eq_some_iff.1 h
      obtain ⟨fm, hfm, h⟩ := bind_eq_some_iff.1 h
      obtain ⟨fm', hfm', hcod⟩ := map_eq_some_iff.1 hcod
      obtain ⟨gm', hgm', hdom⟩ := map_eq_some_iff.1 hdom
      cases hfm.symm.trans hfm'
      cases hgm.symm.trans hgm'
      cases hcod
      cases hdom
      obtain ⟨x, hx, hsame⟩ := bind_eq_some_iff.1 hsame
      obtain ⟨y, hy, hsame⟩ := map_eq_some_iff.1 hsame
      obtain ⟨hmor, hlen, hs'⟩ := freeComposeMors_ok h
      exact ⟨gm, fm, x, y, hgm, hfm, hx, hy, hsame, hmor, hlen, hs'⟩

theorem Sound.composite (hs : s.Sound g) {x' y' : V}
    (hgm : s.live.find gh = some gm) (hfm : s.live.find fh = some fm)
    (hx : s.vertices.find fm.cod = some x') (hy : s.vertices.find gm.dom = some y')
    (hsame : g.vertexSame x' y' = true) :
    ∃ x y, s.vertices.find fm.dom = some x ∧ s.vertices.find gm.cod = some y ∧
      g.Path x (fm.edges ++ gm.edges) y := by
  obtain ⟨x, mid, hdom, hmid, hp⟩ := hs.paths fh fm hfm
  obtain ⟨mid', y, hmid', hcod, hq⟩ := hs.paths gh gm hgm
  cases hmid.symm.trans hx
  cases hmid'.symm.trans hy
  exact ⟨x, y, hdom, hcod, hp.append (hq.congr_left hsame)⟩

theorem Sound.edge (hs : s.Sound g) (hmem : s.Allows mem) {edge : E}
    (h : s.freeEdge g mem edge = some (out, s')) :
    s'.Sound g ∧ s.Keeps s' ∧ ∀ m, out = .ok m → ∃ mor, s'.live.find m = some mor ∧
      mor.edges = [edge] := by
  obtain ⟨hfresh, hne⟩ := hmem
  rw [freeEdge.eq_def] at h
  split at h
  next st s₁ hsrc =>
    cases h
    obtain ⟨hs₁, hlive, hkeep, -, -⟩ :=
      internVertex_spec hs _ (fun p hp => (hfresh p (.inl hp)).1) hsrc
    exact ⟨hs₁, ⟨hkeep, fun m mor hm => .inl ⟨mor.refs, hlive ▸ hm⟩⟩, fun m hm => by cases hm⟩
  next src s₁ hsrc =>
    obtain ⟨hs₁, hlive₁, hkeep₁, haddr₁, hout₁⟩ :=
      internVertex_spec hs _ (fun p hp => (hfresh p (.inl hp)).1) hsrc
    obtain ⟨x, hx, hxe⟩ := hout₁ src rfl
    have hdstFresh : ∀ p, mem.dst = some p → p ∉ s₁.vertices.addresses := by
      intro p hp hmem'
      rcases haddr₁ p hmem' with hin | hsrc'
      · exact (hfresh p (.inr (.inl hp))).1 hin
      · rcases hne with hnone | hne
        · rw [hnone] at hsrc'
          cases hsrc'
        · exact hne (hsrc'.trans hp.symm)
    split at h
    next st s₂ hdst =>
      cases h
      obtain ⟨hs₂, hlive₂, hkeep₂, -, -⟩ := internVertex_spec hs₁ _ hdstFresh hdst
      refine ⟨hs₂, ⟨fun a x ha => hkeep₂ a x (hkeep₁ a x ha), fun m mor hm =>
        .inl ⟨mor.refs, ?_⟩⟩, fun m hm => by cases hm⟩
      rw [hlive₂, hlive₁]
      exact hm
    next dst s₂ hdst =>
      obtain ⟨hs₂, hlive₂, hkeep₂, -, hout₂⟩ := internVertex_spec hs₁ _ hdstFresh hdst
      obtain ⟨y, hy, hye⟩ := hout₂ dst rfl
      have hlive : s₂.live = s.live := hlive₂.trans hlive₁
      have hkeep : ∀ a x, s.vertices.find a = some x → s₂.vertices.find a = some x :=
        fun a x ha => hkeep₂ a x (hkeep₁ a x ha)
      split at h
      next => cases h
      next =>
        cases h
        exact ⟨hs₂, ⟨hkeep, fun m mor hm => .inl ⟨mor.refs, hlive ▸ hm⟩⟩, fun m hm => by cases hm⟩
      next m s₃ hmake =>
        cases h
        obtain ⟨hmor, hlen, rfl⟩ := freeMorMake_ok hmake
        have hm : m ∉ s₂.live.addresses := hlive ▸ (hfresh m (.inr (.inr hmor))).2
        refine ⟨hs₂.withMor hm (hkeep₂ _ _ hx) hy ⟨hxe, g.same_equivalence.symm hye⟩ hlen, ?_, ?_⟩
        · obtain ⟨hk, hl⟩ : s₂.Keeps (s₂.withMor m src dst [edge]) := keeps_withMor hm
          exact ⟨fun a x ha => hk a x (hkeep a x ha), fun p mor hp => hl p mor (hlive ▸ hp)⟩
        · intro m' hm'
          cases hm'
          exact ⟨_, Links.find_cons_self, rfl⟩

/-- The state with the count of a morphism changed. -/
def recount (s : FreeCtx V E) (m : Nat) (count : Nat → Nat) : FreeCtx V E :=
  { s with live := s.live.update m fun mor => { mor with refs := count mor.refs } }

theorem recount_live {m : Nat} {count : Nat → Nat} : (s.recount m count).live =
    s.live.update m fun mor => { mor with refs := count mor.refs } := rfl

/-- Counting the references to a morphism changes nothing else. -/
theorem Sound.recount (hs : s.Sound g) (m : Nat) (count : Nat → Nat) :
    (s.recount m count).Sound g ∧ s.Keeps (s.recount m count) := by
  refine ⟨⟨hs.nodes, hs.apart, ?_, ?_, ?_⟩, fun _ _ h => h, ?_⟩
  · rw [recount_live, Links.addresses_update]
    exact hs.handles
  · intro p mor' hp
    rw [recount_live] at hp
    obtain ⟨mor, hmor, rfl | rfl⟩ := Links.find_of_find_update hp
    · exact hs.paths p _ hmor
    · exact hs.paths p mor hmor
  · intro p mor' hp
    rw [recount_live] at hp
    obtain ⟨mor, hmor, rfl | rfl⟩ := Links.find_of_find_update hp
    · exact hs.short p _ hmor
    · exact hs.short p mor hmor
  · intro p mor hmor
    rw [recount_live]
    left
    rcases Links.find_update_of_find hmor with hp | hp
    · exact ⟨mor.refs, hp⟩
    · exact ⟨count mor.refs, hp⟩

theorem Sound.unlink (hs : s.Sound g) (m : Nat) :
    let s' : FreeCtx V E := { s with live := s.live.unlink m }
    s'.Sound g ∧ s.Keeps s' := by
  intro s'
  refine ⟨⟨hs.nodes, hs.apart, hs.handles.sublist (Links.unlink_sublist.map _),
    fun p mor hp => hs.paths p mor (Links.find_of_find_unlink hs.handles hp),
    fun p mor hp => hs.short p mor (Links.find_of_find_unlink hs.handles hp)⟩, fun _ _ h => h, ?_⟩
  intro p mor hp
  rcases Links.find_unlink_of_find hs.handles hp with hp | hp
  · exact .inl ⟨mor.refs, hp⟩
  · exact .inr hp

theorem Sound.step (hs : s.Sound g) (h : Step g s s') : s'.Sound g ∧ s.Keeps s' := by
  cases h with
  | @obj mem hmem vertex =>
    have heq : s.freeObj g mem.src vertex = ((s.freeObj g mem.src vertex).1, _) := rfl
    obtain ⟨hs₁, hlive, hkeep, -, -⟩ :=
      internVertex_spec hs vertex (fun p hp => (hmem.1 p (.inl hp)).1) heq
    exact ⟨hs₁, hkeep, fun m mor hm => .inl ⟨mor.refs, hlive ▸ hm⟩⟩
  | edge hmem h =>
    obtain ⟨hs', hkeep, -⟩ := hs.edge hmem h
    exact ⟨hs', hkeep⟩
  | @identity _ mem o m hmem h =>
    obtain ⟨hmor, rfl, x, hx⟩ := identity_made h
    have hm := (hmem.1 m (.inr (.inr hmor))).2
    exact ⟨hs.withMor hm hx hx (g.same_equivalence.refl x) (by simp [sizeofEdge]),
      keeps_withMor hm⟩
  | @compose _ mem gh fh m hmem h =>
    obtain ⟨gm, fm, x', y', hgm, hfm, hx', hy', hsame, hmor, hlen, rfl⟩ := compose_made h
    obtain ⟨x, y, hx, hy, hp⟩ := hs.composite hgm hfm hx' hy' hsame
    have hm := (hmem.1 m (.inr (.inr hmor))).2
    exact ⟨hs.withMor hm hx hy hp hlen, keeps_withMor hm⟩
  | @retain _ m h =>
    rw [freeRetain] at h
    split at h
    · cases h
    · obtain ⟨mor, hmor, h⟩ := map_eq_some_iff.1 h
      split at h
      next => cases h
      next refs _ =>
        cases h
        exact hs.recount m fun _ => refs
  | @release _ m h =>
    rw [freeRelease] at h
    split at h
    · cases h
      exact ⟨hs, fun _ _ h => h, fun p mor hp => .inl ⟨mor.refs, hp⟩⟩
    · obtain ⟨mor, hmor, h⟩ := map_eq_some_iff.1 h
      split at h
      · subst h
        exact hs.unlink m
      · subst h
        exact hs.recount m fun refs => (refDec refs).1

theorem Reached.sound (h : s.Reached g) : s.Sound g := by
  induction h with
  | refl =>
    refine ⟨.nil, .nil, .nil, ?_, ?_⟩
    · intro m mor hm
      cases hm
    · intro m mor hm
      cases hm
  | tail _ hstep ih => exact (ih.step hstep).1

/-! ## Refinement -/

/-- The object `o` is the node of `x`. -/
def ObjDenotes (s : FreeCtx V E) (o : Nat) (x : V) : Prop := s.vertices.find o = some x

/-- The handle `m` is live and denotes the path `a`. -/
def Denotes (s : FreeCtx V E) (m : Nat) (a : FreeArrow g) : Prop :=
  ∃ mor, s.live.find m = some mor ∧ s.ObjDenotes mor.dom a.dom ∧ s.ObjDenotes mor.cod a.cod ∧
    mor.edges = a.edges

variable {α : FreeArrow g}

theorem denotes_withMor (ha : s.ObjDenotes a α.dom)
    (hb : s.ObjDenotes b α.cod) (hes : es = α.edges) : (s.withMor m a b es).Denotes m α :=
  ⟨_, Links.find_cons_self, ha, hb, hes⟩

theorem Denotes.withMor (hα : s.Denotes p α) (hm : m ∉ s.live.addresses) :
    (s.withMor m a b es).Denotes p α := by
  obtain ⟨mor, hmor, hdom, hcod, hedges⟩ := hα
  have hpm : p ≠ m := by
    rintro rfl
    exact hm (Links.mem_addresses_of_find hmor)
  exact ⟨mor, (Links.find_cons_ne hpm).trans hmor, hdom, hcod, hedges⟩

theorem Sound.denotes (hs : s.Sound g) {mor : FreeMor E} (hm : s.live.find m = some mor) :
    ∃ α : FreeArrow g, s.Denotes m α := by
  obtain ⟨x, y, hx, hy, hp⟩ := hs.paths m mor hm
  exact ⟨⟨x, y, mor.edges, hp⟩, mor, hm, hx, hy, rfl⟩

theorem Denotes.owned (h : s.Denotes m α) : s.live.owns m = true := by
  obtain ⟨mor, hm, -⟩ := h
  rw [Links.owns_eq, hm]
  rfl

/-- The operations are those of the category of paths. -/
theorem refines (g : Graph V E) : Refines (freeOps g) Allows (Reached g) (freeCategory g)
    ObjDenotes Denotes where
  owned {s mem m} hs := by
    constructor
    · intro hown
      have hown' : s.live.owns m = true := hown
      rw [Links.owns_eq, isSome_iff_exists] at hown'
      obtain ⟨mor, hm⟩ := hown'
      exact hs.sound.denotes hm
    · rintro ⟨α, hα⟩
      exact hα.owned
  dom {s mem m α} hs hα := by
    have hown : (freeOps g mem).ownsMor s m = true := hα.owned
    obtain ⟨mor, hm, hdom, -⟩ := hα
    refine ⟨mor.dom, ?_, hdom⟩
    rw [Cat89.dom, hown, if_neg (by simp)]
    change s.freeDom m = _
    rw [freeDom, hm]
    rfl
  cod {s mem m α} hs hα := by
    have hown : (freeOps g mem).ownsMor s m = true := hα.owned
    obtain ⟨mor, hm, -, hcod, -⟩ := hα
    refine ⟨mor.cod, ?_, hcod⟩
    rw [Cat89.cod, hown, if_neg (by simp)]
    change s.freeCod m = _
    rw [freeCod, hm]
    rfl
  identity {s mem o x m s'} hs hmem ho h := by
    have hs' : s'.Reached g := hs.tail (.identity hmem h)
    obtain ⟨hmor, rfl, -⟩ := identity_made h
    have hm := (hmem.1 m (.inr (.inr hmor))).2
    exact ⟨hs', denotes_withMor ho ho rfl, fun p β hβ => hβ.withMor hm⟩
  compose {s mem gh fh β α m s'} hs hmem hβ hα h := by
    have hs' : s'.Reached g := hs.tail (.compose hmem h)
    obtain ⟨gm, fm, x, y, hgm, hfm, hx, hy, hsame, hmor, -, rfl⟩ := compose_made h
    obtain ⟨gm', hgm', hgdom, hgcod, hgedges⟩ := hβ
    obtain ⟨fm', hfm', hfdom, hfcod, hfedges⟩ := hα
    cases hgm.symm.trans hgm'
    cases hfm.symm.trans hfm'
    cases hx.symm.trans hfcod
    cases hy.symm.trans hgdom
    have hmid : β.dom = α.cod := ((hs.sound.node_unique hfcod hgdom hsame).2).symm
    have hm := (hmem.1 m (.inr (.inr hmor))).2
    have hedges : fm.edges ++ gm.edges = ((freeCategory g).comp β α hmid).edges := by
      rw [hfedges, hgedges]
      rfl
    exact ⟨hs', ⟨hmid, denotes_withMor hfdom hgcod hedges⟩, fun p γ hγ => hγ.withMor hm⟩
  answers {s mem gh fh β α} hs hβ hα := by
    have hog : (freeOps g mem).ownsMor s gh = true := hβ.owned
    have hof : (freeOps g mem).ownsMor s fh = true := hα.owned
    obtain ⟨gm, hgm, hgdom, hgcod, hgedges⟩ := hβ
    obtain ⟨fm, hfm, hfdom, hfcod, hfedges⟩ := hα
    have hcod : (freeOps g mem).cod s fh = some (.ok fm.cod) := by
      change s.freeCod fh = _
      rw [freeCod, hfm]
      rfl
    have hdom : (freeOps g mem).dom s gh = some (.ok gm.dom) := by
      change s.freeDom gh = _
      rw [freeDom, hgm]
      rfl
    have hobj : (freeOps g mem).objSame s fm.cod gm.dom = some (g.vertexSame α.cod β.dom) := by
      change s.freeObjSame g fm.cod gm.dom = _
      rw [freeObjSame, show s.vertices.find fm.cod = some α.cod from hfcod, bind_some,
        show s.vertices.find gm.dom = some β.dom from hgdom]
      rfl
    rw [Cat89.compose, hog, hof, if_neg (by simp), if_neg (by simp), composeOwned, hcod, hdom]
    simp only [hobj]
    cases hsame : g.vertexSame α.cod β.dom with
    | false => exact ⟨by simp, fun _ => rfl⟩
    | true =>
      have hmid : β.dom = α.cod := ((hs.sound.node_unique hfcod hgdom hsame).2).symm
      refine ⟨?_, fun hne => absurd hmid hne⟩
      change s.freeCompose mem gh fh ≠ none
      rw [freeCompose, hgm, bind_some, hfm, bind_some]
      exact freeComposeMors_ne_none (hs.sound.short gh gm hgm) (hs.sound.short fh fm hfm)

end FreeCtx

end Cat89
