import EightyNine.Cat89.CommaOk
import EightyNine.Cat89.FreeOk

/-!
# libcat89: the constructed categories are lawful

What a caller may rely on in a comma category and in a free category, whatever calls it
has made so far.
-/

namespace Cat89

open Library (Links)
open Relation

/-! ## The comma category -/

namespace CommaCtx

variable {ObjC ObjD ObjE MorC MorD MorE : Type} {C : Category ObjC MorC}
  {D : Category ObjD MorD} {E : Category ObjE MorE} {F : CatFunctor C E} {G : CatFunctor D E}
  {s s' : CommaCtx ObjC ObjD MorC MorD MorE} {mem mem' : CommaMem} {l r : Nat}

/-- The handles have the same ends and the same components. -/
def SameParts (s : CommaCtx ObjC ObjD MorC MorD MorE) (l r : Nat) : Prop :=
  ∃ x y, s.live.find l = some x ∧ s.live.find r = some y ∧ x.dom = y.dom ∧ x.cod = y.cod ∧
    x.u = y.u ∧ x.v = y.v

theorem Sound.sameParts (hs : s.Sound F G) {α : CommaArrow F G} (hl : s.Denotes l α)
    (hr : s.Denotes r α) : s.SameParts l r := by
  obtain ⟨x, hx, hxdom, hxcod, hxu, hxv⟩ := hl
  obtain ⟨y, hy, hydom, hycod, hyu, hyv⟩ := hr
  exact ⟨x, y, hx, hy, hs.node_unique hxdom hydom, hs.node_unique hxcod hycod,
    hxu.trans hyu.symm, hxv.trans hyv.symm⟩

variable [DecidableEq ObjC] [DecidableEq ObjD] [DecidableEq ObjE] [DecidableEq MorE]

theorem Reached.obj_unique (hs : s.Reached F G) {c : ObjC} {f : MorE} {d : ObjD}
    {o o' : Nat} {s₁ s₂ : CommaCtx ObjC ObjD MorC MorD MorE} (hmem : s.Allows mem)
    (h : s.commaObjNew F G mem c f d = .ok (o, s')) (hrun : ReflTransGen (Step F G) s' s₁)
    (hmem' : s₁.Allows mem') (h' : s₁.commaObjNew F G mem' c f d = .ok (o', s₂)) : o' = o := by
  obtain ⟨hs', -, ho⟩ := hs.sound.obj hmem h
  have hs₁ : s₁.Reached F G := (hs.tail (.obj hmem h)).trans hrun
  obtain ⟨hs₂, ⟨hkeep, -⟩, ho'⟩ := hs₁.sound.obj hmem' h'
  exact hs₂.node_unique ho' (hkeep _ _ (hs'.node_later hrun ho))

end CommaCtx

/-- What holds of a comma category. -/
structure CommaLawful {ObjC ObjD ObjE MorC MorD MorE : Type} {C : Category ObjC MorC}
    {D : Category ObjD MorD} {E : Category ObjE MorE} [DecidableEq ObjC] [DecidableEq ObjD]
    [DecidableEq ObjE] [DecidableEq MorE] (F : CatFunctor C E) (G : CatFunctor D E) : Prop where
  /-- Each object is a triple `(c, f, d)` with `f` from the image of `c` to that of `d`. -/
  objects : ∀ s : CommaCtx ObjC ObjD MorC MorD MorE, s.Reached F G → ∀ o n,
    s.nodes.find o = some n → E.dom n.f = F.obj n.c ∧ E.cod n.f = G.obj n.d
  /-- Each morphism has the ends of its objects, and its square commutes. -/
  squares : ∀ s : CommaCtx ObjC ObjD MorC MorD MorE, s.Reached F G → ∀ m mor,
    s.live.find m = some mor → ∃ x y, s.nodes.find mor.dom = some x ∧
      s.nodes.find mor.cod = some y ∧ C.dom mor.u = x.c ∧ C.cod mor.u = y.c ∧
      D.dom mor.v = x.d ∧ D.cod mor.v = y.d ∧
      ∃ hl hr, E.comp (G.mor mor.v) x.f hl = E.comp y.f (F.mor mor.u) hr
  /-- The object constructor hands out one object for each triple, now and later. -/
  interned : ∀ (s s' s₁ s₂ : CommaCtx ObjC ObjD MorC MorD MorE) mem mem' c f d o o',
    s.Reached F G → s.Allows mem → s.commaObjNew F G mem c f d = .ok (o, s') →
    ReflTransGen (CommaCtx.Step F G) s' s₁ → s₁.Allows mem' →
    s₁.commaObjNew F G mem' c f d = .ok (o', s₂) → o' = o
  /-- The operations are those of the comma category. -/
  refines : Refines (commaOps C D) CommaCtx.Allows (CommaCtx.Reached F G)
    (commaCategory F G) CommaCtx.ObjDenotes CommaCtx.Denotes
  laws : Laws (commaOps C D) CommaCtx.Allows (CommaCtx.Reached F G)
    CommaCtx.SameParts

/-! ## The free category -/

variable {V Eg : Type} {g : Graph V Eg}

namespace FreeCtx

variable {s : FreeCtx V Eg} {l r : Nat}

/-- The handles have the same ends and the same edges. -/
def SameParts (s : FreeCtx V Eg) (l r : Nat) : Prop :=
  ∃ x y, s.live.find l = some x ∧ s.live.find r = some y ∧ x.dom = y.dom ∧ x.cod = y.cod ∧
    x.edges = y.edges

theorem Sound.sameParts (hs : s.Sound g) {α : FreeArrow g} (hl : s.Denotes l α)
    (hr : s.Denotes r α) : s.SameParts l r := by
  obtain ⟨x, hx, hxdom, hxcod, hxes⟩ := hl
  obtain ⟨y, hy, hydom, hycod, hyes⟩ := hr
  exact ⟨x, y, hx, hy, (hs.node_unique hxdom hydom (g.same_equivalence.refl _)).1,
    (hs.node_unique hxcod hycod (g.same_equivalence.refl _)).1, hxes.trans hyes.symm⟩

end FreeCtx

/-- What holds of a free category. -/
structure FreeLawful (g : Graph V Eg) : Prop where
  /-- Each morphism is a path from its domain to its codomain. -/
  paths : ∀ s : FreeCtx V Eg, s.Reached g → ∀ m mor, s.live.find m = some mor →
    ∃ x y, s.vertices.find mor.dom = some x ∧ s.vertices.find mor.cod = some y ∧
      g.Path x mor.edges y
  /-- An edge is the path of itself. -/
  edge : ∀ (s s' : FreeCtx V Eg) mem e m, s.Reached g → s.Allows mem →
    s.freeEdge g mem e = some (.ok m, s') →
    ∃ mor, s'.live.find m = some mor ∧ mor.edges = [e]
  /-- A composite is the one path after the other. -/
  concat : ∀ (s s' : FreeCtx V Eg) mem gh fh m, s.Reached g → s.Allows mem →
    Cat89.compose (freeOps g mem) s gh fh = some (.ok (m, s')) →
    ∃ gm fm mor, s.live.find gh = some gm ∧ s.live.find fh = some fm ∧
      s'.live.find m = some mor ∧ mor.dom = fm.dom ∧ mor.cod = gm.cod ∧
      mor.edges = fm.edges ++ gm.edges
  /-- The operations are those of the category of paths. -/
  refines : Refines (freeOps g) FreeCtx.Allows (FreeCtx.Reached g) (freeCategory g)
    FreeCtx.ObjDenotes FreeCtx.Denotes
  laws : Laws (freeOps g) FreeCtx.Allows (FreeCtx.Reached g) FreeCtx.SameParts

/-! ## Both -/

/-- Comma categories and free categories are lawful, over every category and every graph. -/
theorem constructed_lawful {ObjC ObjD ObjE MorC MorD MorE : Type} [DecidableEq ObjC]
    [DecidableEq ObjD] [DecidableEq ObjE] [DecidableEq MorE] {C : Category ObjC MorC}
    {D : Category ObjD MorD} {E : Category ObjE MorE} (F : CatFunctor C E)
    (G : CatFunctor D E) (g : Graph V Eg) : CommaLawful F G ∧ FreeLawful g := by
  refine ⟨⟨?_, ?_, ?_, CommaCtx.refines F G, ?_⟩, ⟨?_, ?_, ?_, FreeCtx.refines g, ?_⟩⟩
  · intro s hs o n ho
    obtain ⟨x, rfl⟩ := hs.sound.objects o n ho
    exact ⟨x.dom_f, x.cod_f⟩
  · intro s hs m mor hm
    obtain ⟨α, mor', hm', hdom, hcod, hu, hv⟩ := hs.sound.squares m mor hm
    cases hm.symm.trans hm'
    refine ⟨α.dom.node, α.cod.node, hdom, hcod, ?_⟩
    rw [hu, hv]
    exact ⟨α.dom_u, α.cod_u, α.dom_v, α.cod_v, _, _, α.square⟩
  · intro s s' s₁ s₂ mem mem' c f d o o' hs hmem h hrun hmem' h'
    exact hs.obj_unique hmem h hrun hmem' h'
  · exact (CommaCtx.refines F G).laws fun hs hl hr => hs.sound.sameParts hl hr
  · intro s hs m mor hm
    exact hs.sound.paths m mor hm
  · intro s s' mem e m hs hmem h
    exact (hs.sound.edge hmem h).2.2 m rfl
  · intro s s' mem gh fh m hs hmem h
    obtain ⟨gm, fm, x, y, hgm, hfm, -, -, -, -, -, rfl⟩ := FreeCtx.compose_made h
    exact ⟨gm, fm, _, hgm, hfm, Links.find_cons_self, rfl, rfl, rfl⟩
  · exact (FreeCtx.refines g).laws fun hs hl hr => hs.sound.sameParts hl hr

/-- The numbers under addition. -/
def numbers : Category Unit Nat where
  dom _ := ()
  cod _ := ()
  ident _ := 0
  comp g f _ := g + f
  dom_ident _ := rfl
  cod_ident _ := rfl
  dom_comp _ _ _ := rfl
  cod_comp _ _ _ := rfl
  ident_comp := Nat.zero_add
  comp_ident _ := rfl
  assoc h g f _ _ := (Nat.add_assoc h g f).symm

def numbersId : CatFunctor numbers numbers :=
  ⟨id, id, fun _ => rfl, fun _ => rfl, fun _ => rfl, fun _ _ _ => rfl⟩

/-- Every number is a loop. -/
def loops : Graph Unit Nat :=
  ⟨fun _ _ => true, fun _ => (), fun _ => (), ⟨fun _ => rfl, fun _ => rfl, fun _ _ => rfl⟩⟩

/-- A square composed with itself, and a loop. -/
theorem constructed_lawful_twice : (CommaLawful numbersId numbersId ∧ FreeLawful loops) ∧
    (∃ s, CommaCtx.Reached numbersId numbersId s ∧ s.live.find 3 = some ⟨1, 1, 1, 4, 4⟩) ∧
    ∃ s, FreeCtx.Reached loops s ∧ s.live.find 3 = some ⟨1, 1, 1, [5, 5]⟩ := by
  let sq : CommaCtx Unit Unit Nat Nat Nat := ⟨[(1, ⟨(), (), 0⟩)], [(2, ⟨1, 1, 1, 2, 2⟩)]⟩
  have hobj : CommaCtx.commaObjNew numbersId numbersId ⟨[], []⟩
      ⟨.ok, .ok, .ok, some 1, none⟩ () 0 () = .ok (1, ⟨sq.nodes, []⟩) := rfl
  have hmor : CommaCtx.commaMorNew numbersId numbersId ⟨sq.nodes, []⟩
      ⟨.ok, .ok, .ok, none, some 2⟩ 1 1 2 2 = .ok (2, sq) := rfl
  have hsquare : compose (commaOps numbers numbers ⟨.ok, .ok, .ok, none, some 3⟩) sq 2 2
      = some (.ok (3, ⟨sq.nodes, (3, ⟨1, 1, 1, 4, 4⟩) :: sq.live⟩)) := rfl
  let loop : FreeCtx Unit Nat := ⟨[(1, ())], [(2, ⟨1, 1, 1, [5]⟩)]⟩
  have hedge : FreeCtx.freeEdge loops ⟨[], []⟩ ⟨some 1, none, some 2, true, true⟩ 5
      = some (.ok 2, loop) := rfl
  have hpath : compose (freeOps loops ⟨none, none, some 3, true, true⟩) loop 2 2
      = some (.ok (3, ⟨loop.vertices, (3, ⟨1, 1, 1, [5, 5]⟩) :: loop.live⟩)) := rfl
  refine ⟨constructed_lawful _ _ _,
    ⟨_, ((ReflTransGen.refl.tail (.obj ?_ hobj)).tail (.mor ?_ hmor)).tail (.compose ?_ hsquare), rfl⟩,
    _, (ReflTransGen.refl.tail (.edge ?_ hedge)).tail (.compose ?_ hpath), rfl⟩
  all_goals simp [sq, loop, CommaCtx.Allows, FreeCtx.Allows, FreeCtx.Fresh, Links.addresses]

end Cat89
