import Mathlib.Algebra.BigOperators.Group.List.Basic
import Mathlib.Algebra.Ring.Nat
import Mathlib.Data.List.Nodup
import Mathlib.Data.List.Perm.Subperm
import Mathlib.Logic.Function.Basic
import Mathlib.Logic.Relation

/-!
# Three-colour depth-first search

A search keeps a colour for each vertex and a stack of frames, the last first: a
vertex with the successors it has not looked at.  White vertices are new, grey
ones are on the stack, black ones are finished.  `Search` says what holds of the
two between any two steps, and there is one rule for each step.  A search that
ends has found what its root reaches, and that there is no cycle in it.  A grey
successor closes a cycle.
-/

namespace Library

open Relation List Function

/-- The colours of a search. -/
inductive Color where
  | white
  | gray
  | black
deriving DecidableEq

variable {V : Type} {succ : V → List V}

/-- There is an edge to each successor. -/
def Edge (succ : V → List V) (u v : V) : Prop := v ∈ succ u

/-- The successors a frame has looked at are finished, but for the vertex of the
frame above it. -/
def Frames (succ : V → List V) (color : V → Color) : Option V → List (V × List V) → Prop
  | _, [] => True
  | above, (v, todo) :: below =>
    (∃ done, succ v = done ++ todo ∧ (∀ w ∈ done, color w = .black ∨ above = some w) ∧
      ∀ w, above = some w → w ∈ done) ∧
    Frames succ color (some v) below

/-- What holds between two steps of a search from `root`. -/
structure Search (succ : V → List V) (root : V) (color : V → Color) (stack : List (V × List V)) :
    Prop where
  gray : ∀ v, color v = .gray ↔ v ∈ stack.map Prod.fst
  nodup : (stack.map Prod.fst).Nodup
  frames : Frames succ color none stack
  bottom : ∀ v ∈ (stack.map Prod.fst).getLast?, v = root
  reach : ∀ v, color v = .black → ReflTransGen (Edge succ) root v
  closed : ∀ v w, color v = .black → Edge succ v w → color w = .black
  finite : ∀ v, color v = .black → Acc (fun w v => Edge succ v w) v
  started : color root ≠ .white

theorem not_rel_self {r : V → V → Prop} {a : V} (h : Acc r a) : ¬r a a := by
  induction h with
  | intro a _ ih => exact fun ha => ih a ha ha

/-! ## The stack -/

section Stack

variable {color color' : V → Color} {above : Option V} {stack : List (V × List V)}

theorem Frames.path (h : Frames succ color above stack) :
    ∀ u ∈ stack.map Prod.fst, ∀ w, above = some w → TransGen (Edge succ) u w := by
  induction stack generalizing above with
  | nil => simp
  | cons frame below ih =>
    obtain ⟨v, todo⟩ := frame
    obtain ⟨⟨done, hsucc, -, habove⟩, hbelow⟩ := h
    intro u hu w hw
    have hedge : Edge succ v w := by
      rw [Edge, hsucc]
      exact mem_append_left _ (habove w hw)
    rw [map_cons, mem_cons] at hu
    rcases hu with rfl | hu
    · exact .single hedge
    · exact (ih hbelow u hu v rfl).tail hedge

theorem Frames.reach {root : V} (h : Frames succ color above stack)
    (hbottom : ∀ v ∈ (stack.map Prod.fst).getLast?, v = root) :
    ∀ v ∈ stack.map Prod.fst, ReflTransGen (Edge succ) root v := by
  induction stack generalizing above with
  | nil => simp
  | cons frame below ih =>
    obtain ⟨v, todo⟩ := frame
    cases below with
    | nil =>
      intro u hu
      obtain rfl : u = v := by simpa using hu
      rw [hbottom u (by simp)]
    | cons frame' below =>
      have hbelow := h.2
      have hbottom' : ∀ u ∈ ((frame' :: below).map Prod.fst).getLast?, u = root := by
        intro u hu
        exact hbottom u (by simpa using hu)
      have hroot : root ∈ (frame' :: below).map Prod.fst := by
        have hne : (frame' :: below).map Prod.fst ≠ [] := by simp
        rw [← hbottom' _ (getLast?_eq_some_getLast hne)]
        exact getLast_mem hne
      intro u hu
      rw [map_cons, mem_cons] at hu
      rcases hu with rfl | hu
      · exact (hbelow.path root hroot u rfl).to_reflTransGen
      · exact ih hbelow hbottom' u hu

theorem Frames.mono (h : Frames succ color above stack)
    (hc : ∀ v, color v = .black → color' v = .black) : Frames succ color' above stack := by
  induction stack generalizing above with
  | nil => trivial
  | cons frame below ih =>
    obtain ⟨⟨done, hsucc, hdone, habove⟩, hbelow⟩ := h
    exact ⟨⟨done, hsucc, fun w hw => (hdone w hw).imp_left (hc w), habove⟩, ih hbelow⟩

/-- When the vertex above is finished, so is every successor looked at. -/
theorem Frames.finish {w : V} (h : Frames succ color (some w) stack)
    (hc : ∀ v, color v = .black → color' v = .black) (hw : color' w = .black) :
    Frames succ color' none stack := by
  cases stack with
  | nil => trivial
  | cons frame below =>
    obtain ⟨⟨done, hsucc, hdone, -⟩, hbelow⟩ := h
    refine ⟨⟨done, hsucc, fun x hx => .inl ?_, fun x hx => ?_⟩, hbelow.mono hc⟩
    · rcases hdone x hx with hblack | heq
      · exact hc x hblack
      · rwa [← Option.some.inj heq]
    · cases hx

end Stack

/-! ## The steps -/

namespace Search

variable [DecidableEq V] {root v w : V} {color : V → Color} {todo : List V}
  {below stack : List (V × List V)}

theorem start (root : V) :
    Search succ root (update (fun _ => .white) root .gray) [(root, succ root)] where
  gray v := by
    by_cases h : v = root <;> simp [h]
  nodup := nodup_singleton root
  frames := ⟨⟨[], rfl, by simp, by simp⟩, trivial⟩
  bottom v hv := by simpa [eq_comm] using hv
  reach v hv := by
    by_cases h : v = root <;> simp [h] at hv
  closed v w hv := by
    by_cases h : v = root <;> simp [h] at hv
  finite v hv := by
    by_cases h : v = root <;> simp [h] at hv
  started := by simp

omit [DecidableEq V] in
/-- A grey vertex is not above itself: its frame is the top one. -/
theorem top_gray (h : Search succ root color ((v, todo) :: below)) : color v = .gray :=
  (h.gray v).2 mem_cons_self

omit [DecidableEq V] in
theorem reach_gray (h : Search succ root color stack) (hv : color v = .gray) :
    ReflTransGen (Edge succ) root v :=
  h.frames.reach h.bottom v ((h.gray v).1 hv)

omit [DecidableEq V] in
theorem skip (h : Search succ root color ((v, w :: todo) :: below)) (hw : color w = .black) :
    Search succ root color ((v, todo) :: below) := by
  obtain ⟨⟨done, hsucc, hdone, habove⟩, hbelow⟩ := h.frames
  refine { h with frames := ⟨⟨done ++ [w], by simp [hsucc], fun x hx => ?_, ?_⟩, hbelow⟩ }
  · rcases mem_append.1 hx with hx | hx
    · exact hdone x hx
    · exact .inl (mem_singleton.1 hx ▸ hw)
  · intro x hx
    cases hx

theorem push (h : Search succ root color ((v, w :: todo) :: below)) (hw : color w = .white) :
    Search succ root (update color w .gray) ((w, succ w) :: (v, todo) :: below) := by
  have hblack : ∀ x, update color w .gray x = .black ↔ color x = .black := by
    intro x
    by_cases hx : x = w
    · simp [hx, hw]
    · simp [hx]
  have hnew : w ∉ ((v, todo) :: below).map Prod.fst := by
    intro hmem
    have hgray : color w = .gray := (h.gray w).2 hmem
    rw [hw] at hgray
    cases hgray
  obtain ⟨⟨done, hsucc, hdone, habove⟩, hbelow⟩ := h.frames
  have hkeep : ∀ x, color x = .black → update color w .gray x = .black :=
    fun x hx => (hblack x).2 hx
  exact {
    gray := fun x => by
      by_cases hx : x = w
      · simp [hx]
      · rw [update_of_ne hx, h.gray x]
        simp [hx]
    nodup := nodup_cons.2 ⟨hnew, h.nodup⟩
    frames := by
      refine ⟨⟨[], rfl, by simp, by simp⟩, ⟨done ++ [w], by simp [hsucc], fun x hx => ?_, ?_⟩,
        hbelow.mono hkeep⟩
      · rcases mem_append.1 hx with hx | hx
        · rcases hdone x hx with hb | habs
          · exact .inl (hkeep x hb)
          · cases habs
        · exact .inr (by rw [mem_singleton.1 hx])
      · intro x hx
        rw [Option.some.inj hx]
        simp
    bottom := fun x hx => h.bottom x (by simpa using hx)
    reach := fun x hx => h.reach x ((hblack x).1 hx)
    closed := fun x y hx hxy => hkeep y (h.closed x y ((hblack x).1 hx) hxy)
    finite := fun x hx => h.finite x ((hblack x).1 hx)
    started := by
      by_cases hx : root = w
      · simp [hx]
      · rw [update_of_ne hx]
        exact h.started }

/-- A frame that has looked at every successor is finished. -/
theorem pop (h : Search succ root color ((v, []) :: below)) :
    Search succ root (update color v .black) below := by
  have hkeep : ∀ x, color x = .black → update color v .black x = .black := by
    intro x hx
    by_cases hxv : x = v
    · simp [hxv]
    · rwa [update_of_ne hxv]
  obtain ⟨⟨done, hsucc, hdone, -⟩, hbelow⟩ := h.frames
  rw [append_nil] at hsucc
  have hall : ∀ x, Edge succ v x → color x = .black := by
    intro x hx
    rw [Edge, hsucc] at hx
    rcases hdone x hx with hb | habs
    · exact hb
    · cases habs
  have hnodup := nodup_cons.1 h.nodup
  exact {
    gray := fun x => by
      by_cases hx : x = v
      · simp [hx, hnodup.1]
      · rw [update_of_ne hx, h.gray x]
        simp [hx]
    nodup := hnodup.2
    frames := hbelow.finish hkeep (by simp)
    bottom := fun x hx => h.bottom x (by
      cases below with
      | nil => simp at hx
      | cons frame below => simpa using hx)
    reach := fun x hx => by
      by_cases hxv : x = v
      · exact hxv ▸ h.reach_gray h.top_gray
      · rw [update_of_ne hxv] at hx
        exact h.reach x hx
    closed := fun x y hx hxy => by
      by_cases hxv : x = v
      · exact hkeep y (hall y (hxv ▸ hxy))
      · rw [update_of_ne hxv] at hx
        exact hkeep y (h.closed x y hx hxy)
    finite := fun x hx => by
      by_cases hxv : x = v
      · exact ⟨x, fun y hy => h.finite y (hall y (hxv ▸ hy))⟩
      · rw [update_of_ne hxv] at hx
        exact h.finite x hx
    started := by
      by_cases hx : root = v
      · simp [hx]
      · rw [update_of_ne hx]
        exact h.started }

/-! ### Results -/

omit [DecidableEq V] in
theorem cycle (h : Search succ root color ((v, w :: todo) :: below)) (hw : color w = .gray) :
    Edge succ v w ∧ ReflTransGen (Edge succ) w v := by
  obtain ⟨⟨done, hsucc, -, -⟩, hbelow⟩ := h.frames
  refine ⟨by simp [Edge, hsucc], ?_⟩
  have hmem := (h.gray w).1 hw
  rw [map_cons, mem_cons] at hmem
  rcases hmem with rfl | hmem
  · exact .refl
  · exact (hbelow.path w hmem v rfl).to_reflTransGen

omit [DecidableEq V] in
theorem black_iff (h : Search succ root color []) :
    color v = .black ↔ ReflTransGen (Edge succ) root v := by
  refine ⟨h.reach v, fun hv => ?_⟩
  induction hv with
  | refl =>
    have hgray : color root ≠ .gray := fun hg => by simpa using (h.gray root).1 hg
    have hwhite := h.started
    cases hc : color root with
    | white => exact absurd hc hwhite
    | gray => exact absurd hc hgray
    | black => rfl
  | tail _ hedge ih => exact h.closed _ _ ih hedge

omit [DecidableEq V] in
theorem acyclic (h : Search succ root color []) (hv : ReflTransGen (Edge succ) root v) :
    ¬TransGen (Edge succ) v v := by
  have hacc : Acc (fun w v => Edge succ v w) v := h.finite v (h.black_iff.2 hv)
  intro hcycle
  have hswap : TransGen (fun w v => Edge succ v w) v v := by
    simpa [Function.swap] using transGen_swap.2 hcycle
  exact not_rel_self hacc.transGen hswap

/-! ### The bounds -/

omit [DecidableEq V] in
theorem length_le (h : Search succ root color stack) {verts : List V}
    (hverts : ∀ v, ReflTransGen (Edge succ) root v → v ∈ verts) :
    stack.length ≤ verts.length := by
  have hsub : stack.map Prod.fst ⊆ verts := fun v hv =>
    hverts v (h.frames.reach h.bottom v hv)
  simpa using (h.nodup.subperm hsub).length_le

end Search

/-! ### The work that is left -/

section Work

variable [DecidableEq V] {verts : List V} {v w : V} {color : V → Color} {todo : List V}
  {below : List (V × List V)}

/-- The frames and successors still to come: those of the stack and those of new
vertices. -/
def work (succ : V → List V) (verts : List V) (color : V → Color) (stack : List (V × List V)) :
    Nat :=
  ((verts.filter fun v => color v = .white).map fun v => (succ v).length + 1).sum +
    (stack.map fun frame => frame.2.length + 1).sum

omit [DecidableEq V] in
theorem work_skip : work succ verts color ((v, todo) :: below) <
    work succ verts color ((v, w :: todo) :: below) := by
  simp [work]

theorem work_pop (hv : color v ≠ .white) : work succ verts (update color v .black) below <
    work succ verts color ((v, []) :: below) := by
  have hsame : ∀ x, update color v .black x = .white ↔ color x = .white := by
    intro x
    by_cases hx : x = v
    · simp [hx, hv]
    · simp [hx]
  simp [work, hsame]

theorem sum_filter_update (f : V → Nat) (hw : color w = .white) : ∀ {verts : List V}, w ∈ verts →
    ((verts.filter fun v => update color w .gray v = .white).map f).sum + f w ≤
      ((verts.filter fun v => color v = .white).map f).sum := by
  have hle : ∀ verts : List V,
      ((verts.filter fun v => update color w .gray v = .white).map f).sum ≤
        ((verts.filter fun v => color v = .white).map f).sum := by
    intro verts
    induction verts with
    | nil => simp
    | cons x verts ih =>
      by_cases hx : x = w
      · subst hx
        simp only [filter_cons, update_self, hw]
        simp
        omega
      · by_cases hc : color x = .white <;> simp [hx, hc, ih]
  intro verts
  induction verts with
  | nil => simp
  | cons x verts ih =>
    intro hmem
    by_cases hx : x = w
    · subst hx
      have htail := hle verts
      simp only [filter_cons, update_self, hw]
      simp
      omega
    · have htail := ih (by simpa [Ne.symm hx] using hmem)
      by_cases hc : color x = .white
      · simp [hx, hc]
        omega
      · simpa [filter_cons, hx, hc] using htail

theorem work_push (hw : color w = .white) (hmem : w ∈ verts) :
    work succ verts (update color w .gray) ((w, succ w) :: (v, todo) :: below) <
      work succ verts color ((v, w :: todo) :: below) := by
  have hsum := sum_filter_update (fun v => (succ v).length + 1) hw hmem
  simp only [work, map_cons, sum_cons, length_cons]
  omega

end Work

end Library
