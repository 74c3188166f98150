import EightyNine.Syntax89.Walk

/-!
# libsyntax89: what walks visit

The loop of a walk takes the steps of the library's walk over the children of the nodes,
so it lists the unfolding below its start or meets a node of its stack.  A callback that
does not continue cuts this off where it answers (`heed`).
-/

namespace Syntax89

open List Option

open Library (Color Returns Unfolds Walk WalkStep WalkSteps Walking Meets)
open Relation (ReflTransGen TransGen)

/-- A graph that was built, and perhaps frozen. -/
def Graph.Made (g : Graph) : Prop := ∃ g0, Built g0 ∧ (g = g0 ∨ g = { g0 with state := .frozen })

section

variable {g : Graph} {fn : VisitFn} {once pre : Bool} {root v x : Nat} {todo : List Nat}
  {rest : List (Nat × List Nat)} {w : Walker} {S S' : Walk Nat}

theorem Graph.Made.children (h : g.Made) : ∀ u, ∀ v ∈ g.children u, v ∈ g.ids := by
  obtain ⟨g0, h0, rfl | rfl⟩ := h <;> exact h0.sound.children

theorem Graph.Made.room (h : g.Made) :
    g.nodeCount * sizeofFrame % 2 ^ 64 / sizeofFrame = g.nodeCount := by
  obtain ⟨g0, h0, rfl | rfl⟩ := h
  · exact room_eq h0.sound
  · show g0.nodeCount * sizeofFrame % 2 ^ 64 / sizeofFrame = g0.nodeCount
    exact room_eq h0.sound

theorem Graph.Made.state (h : g.Made) : g.state ≠ .uninit := by
  obtain ⟨g0, h0, rfl | rfl⟩ := h
  · rw [h0.sound.building]
    exact nofun
  · exact nofun

theorem Graph.Made.reached (h : g.Made) (hroot : root ∈ g.ids)
    (hv : ReflTransGen g.Linked root v) : v ∈ g.ids := by
  induction hv with
  | refl => exact hroot
  | tail _ hedge _ => exact h.children _ _ hedge

/-! ## The steps of the loop -/

/-- The walker stands where the walk of the library does. -/
structure Stands (g : Graph) (w : Walker) (S : Walk Nat) : Prop where
  color : w.scratch.colorOf = S.color
  stack : w.scratch.frames g = S.stack
  visited : w.visited = S.visited
  colors : w.scratch.color.length = g.nodeCount
  room : w.scratch.room = g.nodeCount

theorem top_frame (hids : v ∈ g.ids) (hframes : w.scratch.frames g = (v, todo) :: rest) :
    ∃ index below n, w.scratch.stack = ⟨v, index⟩ :: below ∧ g.nodeAt v = some n ∧
      (g.children v).drop index = todo ∧
      (below.map fun frame => (frame.id, (g.children frame.id).drop frame.index)) = rest := by
  obtain ⟨n, hn⟩ := isSome_iff_exists.1 (nodeAt_isSome.2 hids)
  unfold Scratch.frames at hframes
  rcases hstack : w.scratch.stack with _ | ⟨⟨id, index⟩, below⟩
  · rw [hstack] at hframes
    cases hframes
  · rw [hstack, map_cons] at hframes
    obtain ⟨hframe, hrest⟩ := cons.inj hframes
    obtain ⟨rfl, hdrop⟩ := Prod.mk.inj hframe
    exact ⟨index, below, n, rfl, hn, hdrop, hrest⟩

theorem walkAdvance_child (fn : VisitFn) (once pre : Bool) (hids : v ∈ g.ids)
    (hframes : w.scratch.frames g = (v, x :: todo) :: rest) :
    ∃ index below, (g.children v).drop index = todo ∧
      (below.map fun frame => (frame.id, (g.children frame.id).drop frame.index)) = rest ∧
      w.scratch.stack.length = below.length + 1 ∧
      walkAdvance g fn once pre w = walkPush fn once pre
        { w with scratch := { w.scratch with stack := ⟨v, index⟩ :: below } } x := by
  obtain ⟨index, below, n, hstack, hn, hdrop, hrest⟩ := top_frame hids hframes
  cases hedge : n.edges[index]? with
  | none =>
    rw [drop_children_end hn hedge] at hdrop
    cases hdrop
  | some edge =>
    rw [drop_children hn hedge] at hdrop
    obtain ⟨rfl, htodo⟩ := cons.inj hdrop
    refine ⟨index + 1, below, htodo, hrest, by rw [hstack, length_cons], ?_⟩
    rw [walkAdvance, hstack]
    simp only [hn, hedge]

theorem walkPush_eq (fn : VisitFn) (once pre : Bool) {color : Color}
    (h : w.scratch.colorAt x = some color) :
    walkPush fn once pre w x =
      if color = .gray then some (Status.ecycle.value, w)
      else if color = .black ∧ once = true then some (Status.ok.value, w)
      else
        ((w.scratch.paint x .gray).pushFrame ⟨x, 0⟩).map fun scratch =>
          if pre then walkEmit fn { w with scratch } x
          else (Status.ok.value, { w with scratch }) := by
  rw [walkPush, h]

theorem walkEmit_always (w : Walker) (id : Nat) :
    walkEmit always w id = (Status.ok.value, { w with visited := w.visited ++ [id] }) := rfl

/-- One call advances the walk by one step of the search. -/
theorem walkAdvance_step (hg : g.Made) (hroot : root ∈ g.ids) (hst : Stands g w S)
    (hwalk : Walking g.children root once pre S) (hstep : WalkStep g.children once pre S S') :
    ∃ w', w'.visited = S'.visited ∧ (S'.stack ≠ [] → Stands g w' S') ∧
      walkAdvance g always once pre w =
        some (if S'.stack = [] then Status.end_.value else Status.ok.value, w') := by
  have hwalk' := hwalk.step hstep
  cases hstep with
  | @skip color v x todo rest visited honce hx =>
    have hv := hg.reached hroot (hwalk.reach v mem_cons_self)
    obtain ⟨index, below, htodo, hrest, -, hround⟩ :=
      walkAdvance_child always once pre hv hst.stack
    have hxids : x ∈ g.ids := hg.children v x (hwalk.path.1.subset mem_cons_self)
    have hcolor := colorAt_eq hst.colors hxids
    have hat : w.scratch.colorOf x = .black := by rw [hst.color]; exact hx
    refine ⟨{ w with scratch := { w.scratch with stack := ⟨v, index⟩ :: below } }, hst.visited,
      fun _ => ⟨hst.color, ?_, hst.visited, hst.colors, hst.room⟩, ?_⟩
    · show (v, (g.children v).drop index) :: _ = _
      rw [htodo, hrest]
    · refine (hround.trans (walkPush_eq always once pre (hcolor.trans (congrArg some hat)))).trans ?_
      simp [honce]
  | @push color v x todo rest visited hgray hnew =>
    have hv := hg.reached hroot (hwalk.reach v mem_cons_self)
    obtain ⟨index, below, htodo, hrest, -, hround⟩ :=
      walkAdvance_child always once pre hv hst.stack
    have hx : x ∈ g.ids := hg.children v x (hwalk.path.1.subset mem_cons_self)
    have hat : w.scratch.colorAt x = some (color x) := by
      rw [colorAt_eq hst.colors hx, hst.color]
    have hfits : below.length + 1 < w.scratch.room := by
      have hle := hwalk'.length_le fun u hu => hg.reached hroot hu
      rw [hst.room]
      simpa [← hrest, Graph.ids, Nat.succ_le_iff] using hle
    have hlater : ¬(color x = .black ∧ once = true) := fun h => hnew h.2 h.1
    refine ⟨⟨{ w.scratch with
        color := w.scratch.color.set (x - 1) .gray
        stack := ⟨x, 0⟩ :: ⟨v, index⟩ :: below },
      if pre then w.visited ++ [x] else w.visited⟩, ?_, fun _ => ⟨?_, ?_, ?_, ?_, hst.room⟩, ?_⟩
    · rw [hst.visited]
    · exact (colorOf_paint (s := w.scratch) hst.colors hx).trans (by rw [hst.color])
    · show (x, (g.children x).drop 0) :: (v, (g.children v).drop index) :: _ = _
      rw [htodo, hrest]
      rfl
    · rw [hst.visited]
    · rw [length_set]
      exact hst.colors
    · refine (hround.trans (walkPush_eq always once pre hat)).trans ?_
      rw [if_neg hgray, if_neg hlater]
      cases pre <;> simp [Scratch.pushFrame, Scratch.paint, hfits, walkEmit_always]
  | @pop color v rest visited =>
    have hv := hg.reached hroot (hwalk.reach v mem_cons_self)
    obtain ⟨index, below, n, hstack, hn, hdrop, hrest⟩ := top_frame hv hst.stack
    have hedge : n.edges[index]? = none := by
      cases hedge : n.edges[index]? with
      | none => rfl
      | some edge =>
        rw [drop_children hn hedge] at hdrop
        cases hdrop
    have hpaint := colorOf_paint (c := .black) hst.colors hv
    have hempty : below = [] ↔ rest = [] := by rw [← hrest, map_eq_nil_iff]
    refine ⟨⟨if rest = [] then w.scratch.paint v .black
        else { w.scratch.paint v .black with stack := below },
      if pre then w.visited else w.visited ++ [v]⟩, by rw [hst.visited], fun hne => ?_, ?_⟩
    · rw [if_neg hne]
      exact ⟨hpaint.trans (by rw [hst.color]), hrest, by rw [hst.visited],
        (length_set ..).trans hst.colors, hst.room⟩
    · rw [walkAdvance, hstack]
      simp only [hn, hedge, colorAt_eq hst.colors hv]
      cases pre with
      | false =>
        by_cases hb : below = []
        · simp [walkEmit_always, hb, hempty.mp hb]
        · simp [walkEmit_always, hb, hempty.not.mp hb]
      | true =>
        by_cases hb : below = []
        · simp [hb, hempty.mp hb]
        · simp [hb, hempty.not.mp hb]

theorem walkAdvance_meets (hg : g.Made) (hroot : root ∈ g.ids) (hst : Stands g w S)
    (hwalk : Walking g.children root once pre S) (hstack : S.stack = (v, x :: todo) :: rest)
    (hgray : S.color x = .gray) : ∃ w', w'.visited = w.visited ∧
      walkAdvance g always once pre w = some (Status.ecycle.value, w') := by
  rcases S with ⟨color, stack, visited⟩
  dsimp only at hstack hgray
  subst hstack
  have hv := hg.reached hroot (hwalk.reach v mem_cons_self)
  obtain ⟨index, below, -, -, -, hround⟩ :=
    walkAdvance_child always once pre hv hst.stack
  have hx : x ∈ g.ids := hg.children v x (hwalk.path.1.subset mem_cons_self)
  have hat : w.scratch.colorAt x = some .gray := by
    rw [colorAt_eq hst.colors hx, hst.color]
    exact congrArg some hgray
  refine ⟨{ w with scratch := { w.scratch with stack := ⟨v, index⟩ :: below } }, rfl,
    (hround.trans (walkPush_eq always once pre hat)).trans ?_⟩
  exact if_pos rfl

/-- The loop takes the steps of the walk, and goes on where they end. -/
theorem walkLoop_steps (hg : g.Made) (hroot : root ∈ g.ids) (hst : Stands g w S)
    (hwalk : Walking g.children root once pre S) (hsteps : WalkSteps g.children once pre S S')
    {r : Int × List Nat}
    (hend : (S'.stack = [] ∧ r = (Status.ok.value, S'.visited)) ∨
      (S'.stack ≠ [] ∧ ∀ w', Stands g w' S' →
        Returns (fun fuel => walkLoop g always once pre fuel w') r)) (hne : S.stack ≠ []) :
    Returns (fun fuel => walkLoop g always once pre fuel w) r := by
  induction hsteps using ReflTransGen.head_induction_on generalizing w with
  | refl =>
    obtain ⟨hnil, -⟩ | ⟨-, hrest⟩ := hend
    · exact absurd hnil hne
    · exact hrest w hst
  | @head S S1 hstep hsteps ih =>
    obtain ⟨w1, hvisited, hstands, hround⟩ := walkAdvance_step hg hroot hst hwalk hstep
    refine .succ ?_
    by_cases hnil : S1.stack = []
    · have hsame : S' = S1 := by
        obtain rfl | ⟨S2, hlast, -⟩ := hsteps.cases_head
        · rfl
        · cases hlast <;> cases hnil
      obtain ⟨-, rfl⟩ | ⟨hne', -⟩ := hend
      · simp only [walkLoop, hround, if_pos hnil, if_true, hvisited, hsame]
        exact .pure _
      · exact absurd (hsame ▸ hnil) hne'
    · simp only [walkLoop, hround, if_neg hnil]
      exact ih (hstands hnil) (hwalk.step hstep) hnil

/-! ## Callbacks -/

/-- What a walk returns for an answer that does not continue. -/
def decided (st : Int) : Int :=
  if st = Status.end_.value then Status.ok.value
  else if st < Status.ok.value then st else Status.einval.value

/-- A walk cut off where the callback does not continue: its status, and the nodes visited. -/
def heed (fn : VisitFn) (code : Int) : List Nat → List Nat → Int × List Nat
  | visited, [] => (code, visited)
  | visited, v :: rest =>
    if fn visited v = Status.ok.value then heed fn code (visited ++ [v]) rest
    else (decided (fn visited v), visited ++ [v])

theorem heed_always {fn : VisitFn} (hfn : ∀ visited v, fn visited v = Status.ok.value) (code : Int)
    (visited rest : List Nat) : heed fn code visited rest = (code, visited ++ rest) := by
  induction rest generalizing visited with
  | nil => rw [heed, append_nil]
  | cons v rest ih =>
    rw [heed, if_pos (hfn visited v), ih, append_assoc]
    rfl

theorem heed_cuts (fn : VisitFn) (code : Int) (visited rest : List Nat) :
    visited <+: (heed fn code visited rest).2 ∧ (heed fn code visited rest).2 <+: visited ++ rest := by
  induction rest generalizing visited with
  | nil =>
    rw [heed, append_nil]
    exact ⟨prefix_refl _, prefix_refl _⟩
  | cons v rest ih =>
    have hsplit : visited ++ v :: rest = visited ++ [v] ++ rest := by simp
    rw [heed]
    split
    · obtain ⟨h1, h2⟩ := ih (visited ++ [v])
      exact ⟨(prefix_append visited [v]).trans h1, hsplit ▸ h2⟩
    · exact ⟨prefix_append visited [v], hsplit ▸ prefix_append _ _⟩

theorem walkEmit_heeds (fn : VisitFn) (w : Walker) (id : Nat) :
    (walkEmit fn w id).2 = { w with visited := w.visited ++ [id] } ∧
      (fn w.visited id = Status.ok.value → (walkEmit fn w id).1 = Status.ok.value) ∧
      (fn w.visited id ≠ Status.ok.value → (walkEmit fn w id).1 ≠ Status.ok.value ∧
        walkStop (walkEmit fn w id).1 = decided (fn w.visited id)) := by
  unfold walkEmit decided walkStop
  by_cases hok : fn w.visited id = Status.ok.value
  · simp [hok]
  by_cases hend : fn w.visited id = Status.end_.value
  · simp [hend, Status.value]
  rw [if_neg hok, if_neg hend]
  by_cases hneg : fn w.visited id < Status.ok.value
  · rw [if_pos hneg, if_pos hneg, if_neg hend]
    exact ⟨rfl, fun h => absurd h hok, fun h => ⟨h, rfl⟩⟩
  · rw [if_neg hneg, if_neg hneg]
    exact ⟨rfl, fun h => absurd h hok, fun _ => ⟨(by decide : (-1 : Int) ≠ 0), by rw [if_neg hend]; rfl⟩⟩

/-- The second result is the first, or stops at the node that the first visits. -/
def Heeds (fn : VisitFn) (visited : List Nat) (r r' : Option (Int × Walker)) : Prop :=
  ∀ st w', r = some (st, w') → (w'.visited = visited ∧ r' = r) ∨
    ∃ id, w'.visited = visited ++ [id] ∧ (fn visited id = Status.ok.value → r' = r) ∧
      (fn visited id ≠ Status.ok.value → ∃ st' w'', r' = some (st', w'') ∧
        w''.visited = w'.visited ∧ st' ≠ Status.ok.value ∧ walkStop st' = decided (fn visited id))

theorem Heeds.silent {visited : List Nat} {r : Option (Int × Walker)}
    (h : ∀ st w', r = some (st, w') → w'.visited = visited) : Heeds fn visited r r :=
  fun st w' hr => .inl ⟨h st w' hr, rfl⟩

theorem Heeds.emit (fn : VisitFn) {k : Walker → Int × Walker} (hk : ∀ w, (k w).2.visited = w.visited) (w : Walker)
    (id : Nat) : Heeds fn w.visited (some (k { w with visited := w.visited ++ [id] }))
      (some (if (walkEmit fn w id).1 ≠ Status.ok.value then walkEmit fn w id
        else k (walkEmit fn w id).2)) := by
  intro st w' h
  obtain ⟨hw, hgoes, hstops⟩ := walkEmit_heeds fn w id
  obtain rfl : w' = (k { w with visited := w.visited ++ [id] }).2 :=
    (congrArg Prod.snd (some.inj h)).symm
  refine .inr ⟨id, hk _, fun hfn => ?_, fun hfn => ?_⟩
  · rw [if_neg (not_not.mpr (hgoes hfn)), hw]
  · obtain ⟨hne, hstop⟩ := hstops hfn
    rw [if_pos hne]
    exact ⟨(walkEmit fn w id).1, (walkEmit fn w id).2, rfl, by rw [hw, hk], hne, hstop⟩

theorem walkPush_heeds (w : Walker) (x : Nat) :
    Heeds fn w.visited (walkPush always once pre w x) (walkPush fn once pre w x) := by
  unfold walkPush
  cases w.scratch.colorAt x with
  | none => exact .silent fun st w' h => nomatch h
  | some color =>
    dsimp only
    by_cases hgray : color = .gray
    · rw [if_pos hgray, if_pos hgray]
      exact .silent fun st w' h => by rw [← (Prod.mk.inj (some.inj h)).2]
    by_cases hskip : color = .black ∧ once = true
    · rw [if_neg hgray, if_neg hgray, if_pos hskip, if_pos hskip]
      exact .silent fun st w' h => by rw [← (Prod.mk.inj (some.inj h)).2]
    rw [if_neg hgray, if_neg hgray, if_neg hskip, if_neg hskip]
    cases (w.scratch.paint x .gray).pushFrame ⟨x, 0⟩ with
    | none => exact .silent fun st w' h => nomatch h
    | some scratch =>
      cases pre with
      | false => exact .silent fun st w' h => by rw [← (Prod.mk.inj (some.inj h)).2]
      | true =>
        have hemit := Heeds.emit fn (fun w => rfl : ∀ w : Walker, (Status.ok.value, w).2.visited = w.visited)
          ⟨scratch, w.visited⟩ x
        have hsame : (if (walkEmit fn ⟨scratch, w.visited⟩ x).1 ≠ Status.ok.value then
            walkEmit fn ⟨scratch, w.visited⟩ x
            else (Status.ok.value, (walkEmit fn ⟨scratch, w.visited⟩ x).2)) =
            walkEmit fn ⟨scratch, w.visited⟩ x := by
          split
          · rfl
          · rename_i h
            rw [not_not] at h
            rw [← h]
        rw [hsame] at hemit
        exact hemit

/-- A round with a callback is the round that always continues, or stops where that visits. -/
theorem walkAdvance_heeds (fn : VisitFn) (w : Walker) :
    Heeds fn w.visited (walkAdvance g always once pre w) (walkAdvance g fn once pre w) := by
  unfold walkAdvance
  rcases w.scratch.stack with _ | ⟨frame, below⟩
  · exact .silent fun st w' h => nomatch h
  dsimp only
  cases g.nodeAt frame.id with
  | none => exact .silent fun st w' h => nomatch h
  | some n =>
    dsimp only
    cases n.edges[frame.index]? with
    | some edge => exact walkPush_heeds _ _
    | none =>
      dsimp only
      cases w.scratch.colorAt frame.id with
      | none => exact .silent fun st w' h => nomatch h
      | some color =>
        dsimp only
        have hend : ∀ w : Walker, (if below = [] then (Status.end_.value, w)
            else (Status.ok.value, { w with scratch := { w.scratch with stack := below } })).2.visited =
              w.visited := fun w => by split <;> rfl
        cases pre with
        | true =>
          simp only [if_true, ne_eq, not_true, if_false]
          refine .silent fun st w' h => ?_
          split at h <;> rw [← (Prod.mk.inj (some.inj h)).2]
        | false =>
          have hemit := Heeds.emit fn hend
            { w with scratch := w.scratch.paint frame.id .black } frame.id
          simp only [Bool.false_eq_true, if_false, walkEmit_always, ne_eq, not_true] at hemit ⊢
          simpa only [apply_ite some] using hemit

/-- The loop with a callback is the one that always continues, cut off. -/
theorem walkLoop_heeds (fn : VisitFn) {fuel : Nat} {code : Int} {visited : List Nat}
    (h : walkLoop g always once pre fuel w = some (code, visited)) :
    ∃ rest, visited = w.visited ++ rest ∧
      walkLoop g fn once pre fuel w = some (heed fn code w.visited rest) := by
  induction fuel generalizing w with
  | zero => cases h
  | succ fuel ih =>
    rw [walkLoop] at h ⊢
    rcases hround : walkAdvance g always once pre w with _ | ⟨st, w'⟩
    · rw [hround] at h
      cases h
    · rw [hround] at h
      dsimp only at h
      obtain ⟨hvisited, hsame⟩ | ⟨id, hvisited, hgoes, hstops⟩ :=
        walkAdvance_heeds fn w st w' hround
      · rw [hsame, hround]
        dsimp only
        split_ifs at h ⊢ with hend hok
        · obtain ⟨rfl, rfl⟩ := Prod.mk.inj (some.inj h)
          exact ⟨[], by rw [hvisited, append_nil], by rw [heed, hvisited]⟩
        · obtain ⟨rfl, rfl⟩ := Prod.mk.inj (some.inj h)
          exact ⟨[], by rw [hvisited, append_nil], by rw [heed, hvisited]⟩
        · rw [← hvisited]
          exact ih h
      · by_cases hfn : fn w.visited id = Status.ok.value
        · rw [hgoes hfn, hround]
          dsimp only
          split_ifs at h ⊢ with hend hok
          · obtain ⟨rfl, rfl⟩ := Prod.mk.inj (some.inj h)
            exact ⟨[id], hvisited, by rw [heed, if_pos hfn, heed, hvisited]⟩
          · obtain ⟨rfl, rfl⟩ := Prod.mk.inj (some.inj h)
            exact ⟨[id], hvisited, by rw [heed, if_pos hfn, heed, hvisited]⟩
          · obtain ⟨rest, hrest, hloop⟩ := ih h
            refine ⟨id :: rest, by rw [hrest, hvisited, append_assoc]; rfl, ?_⟩
            rw [hloop, hvisited, heed, if_pos hfn]
        · obtain ⟨st', w'', hstop, hsame, hne, hdecided⟩ := hstops hfn
          have hgrows : ∃ rest, visited = w'.visited ++ rest := by
            split_ifs at h
            · exact ⟨[], by rw [← (Prod.mk.inj (some.inj h)).2, append_nil]⟩
            · exact ⟨[], by rw [← (Prod.mk.inj (some.inj h)).2, append_nil]⟩
            · exact (ih h).imp fun rest hrest => hrest.1
          obtain ⟨rest, hrest⟩ := hgrows
          refine ⟨id :: rest, hrest.trans (by rw [hvisited, append_assoc]; rfl), ?_⟩
          rw [hstop, heed, if_neg hfn, ← hdecided]
          dsimp only
          rw [hsame, hvisited]
          by_cases hend : st' = Status.end_.value
          · rw [if_pos hend, walkStop, if_pos hend]
          · rw [if_neg hend, if_pos hne]

/-! ## Whole walks -/

/-- What a walk visits, and what it returns. -/
structure Visits (g : Graph) (root : Nat) (once pre : Bool) (code : Int) (seq : List Nat) : Prop where
  /-- The tree unfolding below the start, in order; a node-once walk takes first occurrences. -/
  order : code = Status.ok.value → ∃ t, Unfolds g.children root t ∧
    seq = if once then (t.order pre).eraseDups else t.order pre
  ends : code = Status.ok.value ∨ code = Status.ecycle.value
  cycle : code = Status.ecycle.value ↔ ∃ v, ReflTransGen g.Linked root v ∧ g.OnCycle v
  reached : ∀ v ∈ seq, ReflTransGen g.Linked root v
  all : code = Status.ok.value → ∀ v, ReflTransGen g.Linked root v → v ∈ seq
  distinct : once = true → seq.Nodup
  /-- After a node-once walk in postorder every node is behind its descendants. -/
  after : code = Status.ok.value → once = true → pre = false →
    ∀ u, ReflTransGen g.Linked root u → ∃ a b, seq = a ++ u :: b ∧ ∀ v, TransGen g.Linked u v → v ∈ a

theorem walkBegin_stands (pre : Bool) (hg : g.Made) (hroot : root ∈ g.ids) :
    ∃ s s', scratchNew bothAnswer g.nodeCount = some s ∧ walkBegin g s root = some s' ∧
      Stands g ⟨s', if pre then [root] else []⟩ (Library.walkStart g.children pre root) := by
  have hpos : 0 < g.nodeCount := Nat.lt_of_lt_of_le (mem_ids.1 hroot).1 (mem_ids.1 hroot).2
  have hlen : (replicate g.nodeCount Color.white).length = g.nodeCount :=
    length_replicate
  have hwhite : Scratch.colorOf ⟨replicate g.nodeCount .white, [⟨root, 0⟩], g.nodeCount⟩ =
      fun _ => .white := by
    funext v
    simp only [Scratch.colorOf, Scratch.colorAt, getElem?_replicate]
    split_ifs <;> rfl
  have hat := colorAt_eq (s := ⟨replicate g.nodeCount .white, [], g.nodeCount⟩) hlen hroot
  have hpaint := colorOf_paint (c := .gray)
    (s := ⟨replicate g.nodeCount .white, [⟨root, 0⟩], g.nodeCount⟩) hlen hroot
  rw [hwhite] at hpaint
  refine ⟨⟨replicate g.nodeCount .white, [], g.nodeCount⟩,
    ⟨(replicate g.nodeCount .white).set (root - 1) .gray, [⟨root, 0⟩], g.nodeCount⟩,
    ?_, ?_, hpaint, ?_, rfl, ?_, rfl⟩
  · have hroom := hg.room
    simp only [scratchNew, hroom]
    rfl
  · simp only [walkBegin, hat]
    simp [Scratch.pushFrame, Scratch.paint, hpos]
  · simp [Scratch.frames, Library.walkStart]
  · simp

/-- The loop of calls is the whole walk. -/
theorem walkLoop_visits (once : Bool) (hg : g.Made) (hroot : root ∈ g.ids)
    (hst : Stands g w (Library.walkStart g.children pre root)) :
    ∃ code seq, Returns (fun fuel => walkLoop g always once pre fuel w) (code, seq) ∧
      Visits g root once pre code seq := by
  have hstart := Walking.start g.children once pre root
  have hne : (Library.walkStart g.children pre root).stack ≠ [] := cons_ne_nil _ _
  obtain ⟨t, S', hsteps, hstack, ht, hvisited⟩ | hmeets :=
    Library.walk_outcome once pre fun v hv => hg.reached hroot hv
  · have hwalk := hstart.steps hsteps
    refine ⟨Status.ok.value, S'.visited,
      walkLoop_steps hg hroot hst hstart hsteps (.inl ⟨hstack, rfl⟩) hne, ?_⟩
    exact {
      order := fun _ => ⟨t, ht, hvisited⟩
      ends := .inl rfl
      cycle := iff_of_false (by decide) fun ⟨v, hv, hcycle⟩ => ht.acyclic hv hcycle
      reached := hwalk.visited
      all := fun _ v hv => by
        have hmem : v ∈ t.order pre := ht.mem_iff.mpr hv
        rw [hvisited]
        split
        · exact mem_eraseDups.mpr hmem
        · exact hmem
      distinct := fun honce => (hwalk.once honce).1
      after := fun _ honce hpre u hu => by
        subst hpre
        rw [hvisited, if_pos honce]
        exact ht.succsFirst.eraseDups (ht.mem_iff.mpr hu) }
  · have hcycle := hmeets.cycle
    obtain ⟨S', u, x, todo, below, hsteps, hstack, hgray⟩ := hmeets
    have hwalk := hstart.steps hsteps
    refine ⟨Status.ecycle.value, S'.visited, ?_, ?_⟩
    · refine walkLoop_steps hg hroot hst hstart hsteps (.inr ⟨by rw [hstack]; simp, ?_⟩) hne
      intro w' hst'
      obtain ⟨w'', hsame, hround⟩ := walkAdvance_meets hg hroot hst' hwalk hstack hgray
      refine .succ ?_
      have hloop : ∀ fuel, walkLoop g always once pre (fuel + 1) w' =
          some (Status.ecycle.value, S'.visited) := by
        intro fuel
        rw [walkLoop, hround]
        dsimp only
        rw [hsame, hst'.visited]
        rfl
      simp only [hloop]
      exact .pure _
    · exact {
        order := fun h => absurd h (by decide)
        ends := .inr rfl
        cycle := iff_of_true rfl hcycle
        reached := hwalk.visited
        all := fun h => absurd h (by decide)
        distinct := fun honce => (hwalk.once honce).1
        after := fun h => absurd h (by decide) }

theorem walks_exact {g : Graph} (hg : g.Made) {root : Nat} (hroot : root ∈ g.ids) (once pre : Bool) :
    ∃ code seq, Visits g root once pre code seq ∧
      ∀ fn, Returns (fun fuel => walkRun g fn once pre bothAnswer fuel root) (heed fn code [] seq) ∧
        (heed fn code [] seq).2 <+: seq ∧
        ((∀ visited v, fn visited v = Status.ok.value) → heed fn code [] seq = (code, seq)) := by
  obtain ⟨s, s', hnew, hbegin, hst⟩ := walkBegin_stands pre hg hroot
  obtain ⟨code, seq, ⟨n, hreturns⟩, hvisits⟩ := walkLoop_visits once hg hroot hst
  refine ⟨code, seq, hvisits, fun fn => ⟨⟨n, fun m hm => ?_⟩, (heed_cuts fn code [] seq).2,
    fun hfn => heed_always hfn code [] seq⟩⟩
  obtain ⟨rest, hseq, hloop⟩ := walkLoop_heeds fn (hreturns m hm)
  have hnode : ¬g.nodeAt root = none := isSome_iff_ne_none.1 (nodeAt_isSome.2 hroot)
  show walkRun g fn once pre bothAnswer m root = _
  unfold walkRun
  rw [if_neg hg.state, if_neg hnode, hnew]
  dsimp only
  rw [hbegin]
  dsimp only
  cases pre with
  | false =>
    simp only [Bool.false_eq_true, if_false] at hseq hloop ⊢
    rw [if_neg (by decide), hloop, hseq]
    rfl
  | true =>
    simp only [if_true] at hseq hloop ⊢
    obtain ⟨hw, hgoes, hstops⟩ := walkEmit_heeds fn ⟨s', []⟩ root
    rw [hw, hseq]
    dsimp only at hgoes hstops ⊢
    rw [singleton_append, heed]
    by_cases hfn : fn [] root = Status.ok.value
    · rw [if_neg (not_not.mpr (hgoes hfn)), if_pos hfn]
      exact hloop
    · obtain ⟨hne, hstop⟩ := hstops hfn
      rw [if_pos hne, if_neg hfn, hstop]

/-- Two nodes, the second below the first twice. -/
def twice : Graph :=
  (addChild true 1 1 2 (addChild true 1 0 2
    (addNode true 1 ⟨0, 0, 0⟩ (addNode true 0 ⟨0, 0, 0⟩ init).2).2).2).2

theorem walks_exact_twice : ∃ code seq, Visits twice 1 true false code seq ∧
    ∀ fn, Returns (fun fuel => walkRun twice fn true false bothAnswer fuel 1) (heed fn code [] seq) ∧
      (heed fn code [] seq).2 <+: seq ∧
      ((∀ visited v, fn visited v = Status.ok.value) → heed fn code [] seq = (code, seq)) :=
  walks_exact ⟨twice, ((((Built.init.addNode _ _ _).addNode _ _ _).addChild _ _ _ _).addChild _ _ _ _),
    .inl rfl⟩ (by decide) true false

example : walkNodesPost twice always bothAnswer 6 1 = some (0, [2, 1]) ∧
    walkEdgesPre twice always bothAnswer 6 1 = some (0, [1, 2, 2]) := by decide

end

end Syntax89
