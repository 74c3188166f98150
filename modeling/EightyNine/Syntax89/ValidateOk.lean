import EightyNine.Library.Fuel
import EightyNine.Syntax89.Validate

/-!
# libsyntax89: what validation finds

The search of `syntax89_validate` is the three-colour search of the library from
the root, so it finds the cycles below the root and the nodes that are not below
it.  It does not enter the rest of the graph: a cycle there is reported as an
unreachable node.
-/

namespace Syntax89

open List Option Nat

open Library (Color Search Returns work)
open Relation (ReflTransGen TransGen)

/-! ## Valid graphs -/

/-- There is a structural edge from one node to the other. -/
abbrev Graph.Linked (g : Graph) : Nat → Nat → Prop := Library.Edge g.children

/-- The node lies on a cycle of structural edges. -/
def Graph.OnCycle (g : Graph) (v : Nat) : Prop := TransGen g.Linked v v

/-- The node can be reached from the root. -/
def Graph.Reached (g : Graph) (v : Nat) : Prop := ReflTransGen g.Linked g.root v

/-- What `syntax89_validate` proves of a graph according to its contract. -/
structure Graph.Valid (g : Graph) : Prop where
  root : g.root ∈ g.ids
  incoming : ∀ u, ¬g.Linked u g.root
  acyclic : ∀ v, ¬g.OnCycle v
  reached : ∀ v ∈ g.ids, g.Reached v

/-! ## The search -/

/-- The colour of a node. -/
def Scratch.colorOf (s : Scratch) (v : Nat) : Color := (s.colorAt v).getD .white

/-- The frames with the children they have not looked at. -/
def Scratch.frames (g : Graph) (s : Scratch) : List (Nat × List Nat) :=
  s.stack.map fun frame => (frame.id, (g.children frame.id).drop frame.index)

/-- The scratch of a search that has not ended. -/
structure Scratch.Searching (g : Graph) (s : Scratch) : Prop where
  colors : s.color.length = g.nodeCount
  room : s.room = g.nodeCount
  search : Search g.children g.root s.colorOf (s.frames g)

section Scratch

variable {g : Graph} {s : Scratch} {v w : Nat} {c : Color}

theorem colorAt_eq (hlen : s.color.length = g.nodeCount) (hv : v ∈ g.ids) :
    s.colorAt v = some (s.colorOf v) := by
  obtain ⟨hpos, hle⟩ := mem_ids.1 hv
  have hlt : v - 1 < s.color.length := by omega
  simp [Scratch.colorOf, Scratch.colorAt, Nat.ne_of_gt hpos, hlt]

theorem colorOf_paint (hlen : s.color.length = g.nodeCount) (hv : v ∈ g.ids) :
    (s.paint v c).colorOf = Function.update s.colorOf v c := by
  obtain ⟨hpos, hle⟩ := mem_ids.1 hv
  funext x
  unfold Scratch.colorOf Scratch.colorAt Scratch.paint
  by_cases hx : x = v
  · subst hx
    have hlt : x - 1 < s.color.length := by omega
    simp [Nat.ne_of_gt hpos, hlt]
  · rw [Function.update_of_ne hx]
    rcases Nat.eq_zero_or_pos x with rfl | hxpos
    · simp
    · have hne : v - 1 ≠ x - 1 := by omega
      simp [Nat.ne_of_gt hxpos, getElem?_set_ne hne]

theorem Scratch.Searching.reached_ids (hg : g.Sound) (hroot : g.root ∈ g.ids)
    (hv : g.Reached v) : v ∈ g.ids := by
  induction hv with
  | refl => exact hroot
  | tail _ hedge _ => exact hg.children _ _ hedge

variable {n : Node} {id index : Nat}

/-- The frame of a node that still has an edge to look at. -/
theorem drop_children {edge : Edge} (hn : g.nodeAt id = some n)
    (hedge : n.edges[index]? = some edge) :
    (g.children id).drop index = edge.child :: (g.children id).drop (index + 1) := by
  have hget : (g.children id)[index]? = some edge.child := by
    rw [children_eq hn, getElem?_map, hedge]
    rfl
  obtain ⟨hlt, hval⟩ := List.getElem?_eq_some_iff.1 hget
  rw [drop_eq_getElem_cons hlt, hval]

theorem drop_children_end (hn : g.nodeAt id = some n)
    (hedge : n.edges[index]? = none) : (g.children id).drop index = [] := by
  rw [children_eq hn]
  exact drop_eq_nil_of_le (by simpa using getElem?_eq_none_iff.1 hedge)

/-- What is left to do in a search. -/
def Scratch.left (g : Graph) (s : Scratch) : Nat := work g.children g.ids s.colorOf (s.frames g)

/-- What one round does: it looks at an edge, finishes a node or finds a cycle. -/
inductive Advanced (g : Graph) (s : Scratch) : Advance → Prop
  | ok {s' : Scratch} (h : s'.Searching g) (hne : s'.stack ≠ []) (hleft : s'.left g < s.left g) :
      Advanced g s (.ok s')
  | done {s' : Scratch} (hcolors : s'.color.length = g.nodeCount)
      (h : Search g.children g.root s'.colorOf []) : Advanced g s (.done s')
  | cycle {node related : Nat} (hedge : g.Linked related node)
      (hback : ReflTransGen g.Linked node related) (hreached : g.Reached node) :
      Advanced g s (.cycle node related)

variable {below : List Frame}

theorem validateVisit_advanced (hg : g.Sound) (hroot : g.root ∈ g.ids)
    (h : s.Searching g) {rest : List Nat}
    (hstack : s.stack = ⟨id, index⟩ :: below)
    (hrest : (g.children id).drop index = w :: rest)
    (hnext : (g.children id).drop (index + 1) = rest) :
    ∃ r, validateVisit { s with stack := ⟨id, index + 1⟩ :: below } id w = some r ∧
      Advanced g s r := by
  have hframes : s.frames g = (id, w :: rest) :: Scratch.frames g { s with stack := below } := by
    simp [Scratch.frames, hstack, hrest]
  have hsearch := hframes ▸ h.search
  have hlink : g.Linked id w := by
    have hmem : w ∈ (g.children id).drop index := by simp [hrest]
    exact mem_of_mem_drop hmem
  have hw : w ∈ g.ids := hg.children id w hlink
  have hcolor := colorAt_eq h.colors hw
  have hat : Scratch.colorAt { s with stack := ⟨id, index + 1⟩ :: below } w =
      some (s.colorOf w) := hcolor
  rw [validateVisit, hat]
  cases hc : s.colorOf w with
  | gray => exact ⟨_, rfl, .cycle hlink (hsearch.cycle hc).2 (hsearch.reach_gray hc)⟩
  | white =>
    have hpush := hsearch.push hc
    have hroom := hpush.length_le fun v hv => Scratch.Searching.reached_ids hg hroot hv
    have hfits : below.length + 1 < s.room := by
      rw [h.room]
      exact lt_of_succ_le (by simpa [Scratch.frames, Graph.ids] using hroom)
    have hcolorOf := colorOf_paint (c := .gray) h.colors hw
    have hframes' : Scratch.frames g { s with
        color := s.color.set (w - 1) .gray
        stack := ⟨w, 0⟩ :: ⟨id, index + 1⟩ :: below } =
        (w, g.children w) :: (id, rest) :: Scratch.frames g { s with stack := below } := by
      simp [Scratch.frames, hnext]
    refine ⟨.ok { s with
        color := s.color.set (w - 1) .gray
        stack := ⟨w, 0⟩ :: ⟨id, index + 1⟩ :: below }, ?_, .ok ⟨?_, h.room, ?_⟩
      (cons_ne_nil _ _) ?_⟩
    · simp [validatePush, Scratch.pushFrame, Scratch.paint, hfits]
    · simpa using h.colors
    · rw [hframes']
      exact hcolorOf ▸ hpush
    · rw [Scratch.left, Scratch.left, hframes, hframes']
      exact hcolorOf ▸ Library.work_push hc hw
  | black =>
    have hframes' : Scratch.frames g { s with stack := ⟨id, index + 1⟩ :: below } =
        (id, rest) :: Scratch.frames g { s with stack := below } := by
      simp [Scratch.frames, hnext]
    refine ⟨_, rfl, .ok ⟨h.colors, h.room, ?_⟩ (cons_ne_nil _ _) ?_⟩
    · rw [hframes']
      exact hsearch.skip hc
    · rw [Scratch.left, Scratch.left, hframes, hframes']
      exact Library.work_skip

theorem finish_advanced (h : s.Searching g) (hv : v ∈ g.ids)
    (hstack : s.stack = ⟨v, index⟩ :: below) (hrest : (g.children v).drop index = []) :
    Advanced g s (if below = [] then .done (s.paint v .black)
      else .ok { s.paint v .black with stack := below }) := by
  have hframes : s.frames g = (v, []) :: Scratch.frames g { s with stack := below } := by
    simp [Scratch.frames, hstack, hrest]
  have hsearch := hframes ▸ h.search
  have hpop := hsearch.pop
  have hcolorOf := colorOf_paint (c := .black) h.colors hv
  have hcolors : (s.paint v .black).color.length = g.nodeCount := by
    simpa [Scratch.paint] using h.colors
  split_ifs with hbelow
  · subst hbelow
    exact .done hcolors (hcolorOf ▸ hpop)
  · refine .ok ⟨hcolors, h.room, ?_⟩ hbelow ?_
    · exact hcolorOf ▸ hpop
    · rw [Scratch.left, Scratch.left, hframes]
      have hgray : s.colorOf v ≠ .white := by
        rw [hsearch.top_gray]
        decide
      exact hcolorOf ▸ Library.work_pop hgray

theorem validateAdvance_advanced (hg : g.Sound) (hroot : g.root ∈ g.ids) (h : s.Searching g)
    (hne : s.stack ≠ []) : ∃ r, validateAdvance g s = some r ∧ Advanced g s r := by
  obtain ⟨⟨id, index⟩, below, hstack⟩ := exists_cons_of_ne_nil hne
  have hid : id ∈ g.ids := by
    refine Scratch.Searching.reached_ids hg hroot (h.search.frames.reach h.search.bottom id ?_)
    simp [Scratch.frames, hstack]
  obtain ⟨n, hn⟩ := isSome_iff_exists.1 (nodeAt_isSome.2 hid)
  rw [validateAdvance, hstack]
  simp only [hn]
  cases hedge : n.edges[index]? with
  | some edge => exact validateVisit_advanced hg hroot h hstack (drop_children hn hedge) rfl
  | none =>
    simp only [colorAt_eq h.colors hid]
    refine ⟨_, ?_, finish_advanced h hid hstack (drop_children_end hn hedge)⟩
    split_ifs <;> rfl

/-- What a finished search says of a graph. -/
inductive Judged (g : Graph) : Verdict → Prop
  | cycle {node related : Nat} (hedge : g.Linked related node)
      (hback : ReflTransGen g.Linked node related) (hreached : g.Reached node) :
      Judged g (verdictCycle node related)
  | unreachable {node : Nat} (hclean : ∀ v, g.Reached v → ¬g.OnCycle v) (hnode : node ∈ g.ids)
      (hout : ¬g.Reached node) : Judged g (verdictUnreachable node)
  | ok (hclean : ∀ v, g.Reached v → ¬g.OnCycle v) (hall : ∀ v ∈ g.ids, g.Reached v) :
      Judged g verdictOk

variable {i : Nat} {colors : List Color}

theorem validateReachable_none
    (h : validateReachable i colors = none) : ∀ c ∈ colors, c = .black := by
  induction colors generalizing i with
  | nil => simp
  | cons c colors ih =>
    rw [validateReachable] at h
    split_ifs at h with hc
    simp only [ne_eq, Decidable.not_not] at hc
    simpa [hc] using ih h

theorem validateReachable_some (h : validateReachable i colors = some v) :
    ∃ k, v = i + k + 1 ∧ ∃ c, colors[k]? = some c ∧ c ≠ .black := by
  induction colors generalizing i with
  | nil => cases h
  | cons c colors ih =>
    rw [validateReachable] at h
    split_ifs at h with hc
    · exact ⟨0, (some.inj h).symm, c, rfl, hc⟩
    · obtain ⟨k, hk, c', hc', hne⟩ := ih h
      exact ⟨k + 1, by omega, c', hc', hne⟩

/-- The nodes of a search that has ended are all black, or one is not reached. -/
theorem judged_done (hcolors : s.color.length = g.nodeCount)
    (h : Search g.children g.root s.colorOf []) :
    Judged g (match validateReachable 0 s.color with
      | some v => verdictUnreachable v
      | none => verdictOk) := by
  have hclean : ∀ v, g.Reached v → ¬g.OnCycle v := fun v hv => h.acyclic hv
  cases hr : validateReachable 0 s.color with
  | none =>
    refine .ok hclean fun v hv => h.black_iff.1 ?_
    have hat := colorAt_eq hcolors hv
    rw [Scratch.colorAt, if_neg (Nat.ne_of_gt (mem_ids.1 hv).1)] at hat
    exact validateReachable_none hr _ (mem_of_getElem? hat)
  | some v =>
    obtain ⟨k, rfl, c, hc, hne⟩ := validateReachable_some hr
    have hlt := (List.getElem?_eq_some_iff.1 hc).1
    have hids : 0 + k + 1 ∈ g.ids := mem_ids.2 ⟨succ_pos _, by omega⟩
    have hat := colorAt_eq hcolors hids
    rw [Scratch.colorAt, if_neg (succ_ne_zero _), Nat.zero_add, Nat.add_sub_cancel, hc] at hat
    refine .unreachable hclean hids fun hreached => hne ?_
    rw [some.inj hat, ← Nat.zero_add k]
    exact h.black_iff.2 hreached

theorem validateDfs_returns (hg : g.Sound) (hroot : g.root ∈ g.ids) (h : s.Searching g)
    (hne : s.stack ≠ []) : ∃ verdict, Returns (fun fuel => validateDfs g fuel s) verdict ∧
      Judged g verdict := by
  induction hn : s.left g using Nat.strongRecOn generalizing s with
  | ind n ih =>
    obtain ⟨r, hr, hadv⟩ := validateAdvance_advanced hg hroot h hne
    cases hadv with
    | @ok s' h' hne' hleft =>
      obtain ⟨verdict, hret, hjudged⟩ := ih _ (hn ▸ hleft) h' hne' rfl
      refine ⟨verdict, .succ ?_, hjudged⟩
      simpa only [validateDfs, hr] using hret
    | @done s' hcolors hsearch =>
      refine ⟨_, .succ ?_, judged_done hcolors hsearch⟩
      simp only [validateDfs, hr]
      cases validateReachable 0 s'.color with
      | none | some v => exact .pure _
    | cycle hedge hback hreached =>
      refine ⟨_, .succ ?_, .cycle hedge hback hreached⟩
      simp only [validateDfs, hr]
      exact .pure _

/-- The stack has room for a frame for each node, as the node store was allocated. -/
theorem room_eq (hg : g.Sound) : g.nodeCount * sizeofFrame % 2 ^ 64 / sizeofFrame = g.nodeCount := by
  have hcount := Nat.mul_le_mul_right sizeofNode hg.count
  have hstored := hg.stored
  simp only [sizeofNode, sizeofFrame, ulongMax] at hcount hstored ⊢
  omega

theorem validateBegin_searching (hg : g.Sound) (hroot : g.root ∈ g.ids) :
    ∃ s s', scratchNew ⟨true, true⟩ g.nodeCount = some s ∧ validateBegin g s = some s' ∧
      s'.Searching g ∧ s'.stack ≠ [] := by
  have hpos : 0 < g.nodeCount := Nat.lt_of_lt_of_le (mem_ids.1 hroot).1 (mem_ids.1 hroot).2
  have hlen : (replicate g.nodeCount Color.white).length = g.nodeCount :=
    length_replicate
  have hwhite : Scratch.colorOf ⟨replicate g.nodeCount .white, [⟨g.root, 0⟩], g.nodeCount⟩ =
      fun _ => .white := by
    funext v
    simp only [Scratch.colorOf, Scratch.colorAt, getElem?_replicate]
    split_ifs <;> rfl
  have hat := colorAt_eq (s := ⟨replicate g.nodeCount .white, [], g.nodeCount⟩) hlen hroot
  refine ⟨⟨replicate g.nodeCount .white, [], g.nodeCount⟩,
    ⟨(replicate g.nodeCount .white).set (g.root - 1) .gray, [⟨g.root, 0⟩], g.nodeCount⟩,
    ?_, ?_, ?_⟩
  · have hroom := room_eq hg
    simp only [scratchNew, hroom]
    rfl
  · simp only [validateBegin, hat]
    simp [Scratch.pushFrame, Scratch.paint, hpos]
  · refine ⟨⟨by simp, rfl, ?_⟩, cons_ne_nil _ _⟩
    have hpaint := colorOf_paint (c := .gray)
      (s := ⟨replicate g.nodeCount .white, [⟨g.root, 0⟩], g.nodeCount⟩) hlen hroot
    rw [hwhite] at hpaint
    have hframes : Scratch.frames g ⟨(replicate g.nodeCount .white).set (g.root - 1) .gray,
        [⟨g.root, 0⟩], g.nodeCount⟩ = [(g.root, g.children g.root)] := by
      simp [Scratch.frames]
    rw [hframes]
    exact hpaint ▸ Search.start g.root

end Scratch

/-! ## Validation and freezing of built graphs -/

/-- Both allocations of the validator succeed. -/
def bothAnswer : Answers := ⟨true, true⟩

/-- What the contract says of a verdict: the checks in their order, with the edge or
the node that each one names. -/
structure Exact (g : Graph) (verdict : Verdict) : Prop where
  ok_iff : verdict.1 = .ok ↔ g.Valid
  noRoot : g.root ∉ g.ids → verdict.1 = .egraph
  cycle : g.root ∈ g.ids → (∃ v, g.OnCycle v) →
    ∃ node related, verdict = verdictCycle node related ∧ g.Linked related node ∧
      ReflTransGen g.Linked node related
  unreached : g.root ∈ g.ids → (∀ v, ¬g.OnCycle v) → (∃ u ∈ g.ids, ¬g.Reached u) →
    ∃ node ∈ g.ids, ¬g.Reached node ∧ verdict = verdictUnreachable node

/-- The operations on a graph that is not destroyed. -/
inductive Next (g : Graph) : Graph → Prop
  | addNode (answers : Bool) (kind : Nat) (span : Span) : Next g (addNode answers kind span g).2
  | addChild (answers : Bool) (parent role child : Nat) :
      Next g (addChild answers parent role child g).2
  | setRoot (root : Nat) : Next g (setRoot root g).2
  | freeze {answers : Answers} {st : Status} {g' : Graph}
      (h : Returns (fun fuel => freeze answers fuel g) (st, g')) : Next g g'
  | setLimitNodes (limit : Nat) : Next g (setLimitNodes limit g)
  | setLimitEdges (limit : Nat) : Next g (setLimitEdges limit g)

/-- What the contract says of freezing: it succeeds for valid graphs, changes nothing
when it fails, and after a success no operation changes nodes, edges or root. -/
structure Freezes (g : Graph) (r : Status × Graph) : Prop where
  ok_iff : r.1 = .ok ↔ g.Valid
  fails : r.1 ≠ .ok → r.2 = g
  same : r.2.nodes = g.nodes ∧ r.2.edgeCount = g.edgeCount ∧ r.2.root = g.root
  later : r.1 = .ok → ∀ g', ReflTransGen Next r.2 g' →
    g'.nodes = g.nodes ∧ g'.edgeCount = g.edgeCount ∧ g'.root = g.root

/-- What a search from the root says: a cycle that can be reached, or else a node that
cannot. -/
structure Searched (g : Graph) (verdict : Verdict) : Prop where
  ok_iff : verdict.1 = .ok ↔ g.Valid
  noRoot : g.root ∉ g.ids → verdict.1 = .egraph
  cycle : g.root ∈ g.ids → (∃ v, g.Reached v ∧ g.OnCycle v) →
    ∃ node related, verdict = verdictCycle node related ∧ g.Linked related node ∧
      ReflTransGen g.Linked node related
  unreached : g.root ∈ g.ids → (∀ v, g.Reached v → ¬g.OnCycle v) → (∃ u ∈ g.ids, ¬g.Reached u) →
    ∃ node ∈ g.ids, ¬g.Reached node ∧ verdict = verdictUnreachable node

/-- Validation and freezing do what a search from the root says. -/
def ValidatesSearched (g : Graph) : Prop :=
  (∃ verdict, Returns (fun fuel => validate bothAnswer fuel g) verdict ∧ Searched g verdict) ∧
    ∃ r, Returns (fun fuel => freeze bothAnswer fuel g) r ∧ Freezes g r

/-- Validation and freezing do what the contract says. -/
def ValidatesExactly (g : Graph) : Prop :=
  (∃ verdict, Returns (fun fuel => validate bothAnswer fuel g) verdict ∧ Exact g verdict) ∧
    ∃ r, Returns (fun fuel => freeze bothAnswer fuel g) r ∧ Freezes g r

section Built

variable {g g' : Graph} {verdict : Verdict}

theorem validate_returns (hg : g.Sound) (hroot : g.root ∈ g.ids) :
    ∃ verdict, Returns (fun fuel => validate bothAnswer fuel g) verdict ∧ Judged g verdict := by
  obtain ⟨s, s', hnew, hbegin, hsearching, hne⟩ := validateBegin_searching hg hroot
  obtain ⟨verdict, hret, hjudged⟩ := validateDfs_returns hg hroot hsearching hne
  refine ⟨verdict, ?_, hjudged⟩
  have hstate : g.state ≠ .uninit := by
    rw [hg.building]
    decide
  have hat : g.nodeAt g.root ≠ none := isSome_iff_ne_none.1 (nodeAt_isSome.2 hroot)
  simpa only [validate, if_neg hstate, if_neg hat, bothAnswer, hnew, hbegin, bind_some]
    using hret

theorem validate_noRoot (hg : g.Sound) (hroot : g.root ∉ g.ids) :
    Returns (fun fuel => validate bothAnswer fuel g) (verdictUnreachable g.root) := by
  have hstate : g.state ≠ .uninit := by
    rw [hg.building]
    decide
  have hat : g.nodeAt g.root = none := by
    rw [← not_isSome_iff_eq_none, nodeAt_isSome]
    exact hroot
  simpa only [validate, if_neg hstate, if_pos hat] using Returns.pure (verdictUnreachable g.root)

variable {u : Nat}

theorem ids_of_linked {v : Nat} (h : g.Linked u v) : u ∈ g.ids := by
  by_contra hu
  have hnone : g.nodeAt u = none := by
    rw [← not_isSome_iff_eq_none, nodeAt_isSome]
    exact hu
  rw [Graph.Linked, Library.Edge, Graph.children, hnone] at h
  cases h

theorem ids_of_onCycle {v : Nat} (h : g.OnCycle v) : v ∈ g.ids := by
  obtain ⟨w, hedge, -⟩ := Relation.TransGen.head'_iff.1 h
  exact ids_of_linked hedge

/-- A graph with all nodes below the root and no cycle there is valid: an edge to the
root would close one. -/
theorem valid_of_clean (hroot : g.root ∈ g.ids) (hclean : ∀ v, g.Reached v → ¬g.OnCycle v)
    (hall : ∀ v ∈ g.ids, g.Reached v) : g.Valid where
  root := hroot
  incoming u hu := hclean g.root .refl (TransGen.tail' (hall u (ids_of_linked hu)) hu)
  acyclic v hv := hclean v (hall v (ids_of_onCycle hv)) hv
  reached := hall

theorem onCycle_of_edge {node related : Nat} (hedge : g.Linked related node)
    (hback : ReflTransGen g.Linked node related) : g.OnCycle node :=
  TransGen.tail' hback hedge

theorem Judged.ok_iff (h : Judged g verdict) (hroot : g.root ∈ g.ids) :
    verdict.1 = .ok ↔ g.Valid := by
  cases h with
  | @cycle node related hedge hback =>
    exact ⟨fun h => (by cases h), fun h => absurd (onCycle_of_edge hedge hback) (h.acyclic node)⟩
  | unreachable hclean hnode hout =>
    exact ⟨fun h => (by cases h), fun h => absurd (h.reached _ hnode) hout⟩
  | ok hclean hall => exact ⟨fun _ => valid_of_clean hroot hclean hall, fun _ => rfl⟩

/-- A verdict is the documented one unless the only cycles are above or beside the root. -/
theorem Judged.exact_iff (h : Judged g verdict) (hroot : g.root ∈ g.ids) :
    Exact g verdict ↔ (∃ v, g.Reached v ∧ g.OnCycle v) ∨ ∀ v, ¬g.OnCycle v := by
  have hok := h.ok_iff hroot
  cases h with
  | @cycle node related hedge hback hreached =>
    have hcycle := onCycle_of_edge hedge hback
    refine ⟨fun _ => .inl ⟨node, hreached, hcycle⟩, fun _ => ⟨hok, fun h => absurd hroot h,
      fun _ _ => ⟨node, related, rfl, hedge, hback⟩, fun _ hno => absurd hcycle (hno node)⟩⟩
  | @unreachable node hclean hnode hout =>
    constructor
    · intro hexact
      refine .inr fun v hv => ?_
      obtain ⟨_, _, heq, -, -⟩ := hexact.cycle hroot ⟨v, hv⟩
      cases heq
    · rintro (⟨v, hreached, hv⟩ | hno)
      · exact absurd hv (hclean v hreached)
      · exact ⟨hok, fun h => absurd hroot h, fun _ hcycle => absurd hcycle.choose_spec (hno _),
          fun _ _ _ => ⟨node, hnode, hout, rfl⟩⟩
  | ok hclean hall =>
    have hvalid := valid_of_clean hroot hclean hall
    exact ⟨fun _ => .inr hvalid.acyclic, fun _ => ⟨hok, fun h => absurd hroot h,
      fun _ hcycle => absurd hcycle.choose_spec (hvalid.acyclic _),
      fun _ _ hout => absurd (hall _ hout.choose_spec.1) hout.choose_spec.2⟩⟩

theorem Judged.searched (h : Judged g verdict) (hroot : g.root ∈ g.ids) : Searched g verdict where
  ok_iff := h.ok_iff hroot
  noRoot hno := absurd hroot hno
  cycle _ := by
    rintro ⟨v, hreached, hv⟩
    cases h with
    | @cycle node related hedge hback => exact ⟨node, related, rfl, hedge, hback⟩
    | unreachable hclean | ok hclean => exact absurd hv (hclean v hreached)
  unreached _ hno := by
    rintro ⟨u, hu, hout⟩
    cases h with
    | @cycle node related hedge hback hreached =>
      exact absurd (onCycle_of_edge hedge hback) (hno node hreached)
    | @unreachable node hclean hnode hout => exact ⟨node, hnode, hout, rfl⟩
    | ok hclean hall => exact absurd (hall u hu) hout

theorem searched_noRoot (hroot : g.root ∉ g.ids) : Searched g (verdictUnreachable g.root) where
  ok_iff := ⟨fun h => (by cases h), fun h => absurd h.root hroot⟩
  noRoot _ := rfl
  cycle h := absurd h hroot
  unreached h := absurd h hroot

theorem exact_noRoot (hroot : g.root ∉ g.ids) : Exact g (verdictUnreachable g.root) where
  ok_iff := ⟨fun h => (by cases h), fun h => absurd h.root hroot⟩
  noRoot _ := rfl
  cycle h := absurd h hroot
  unreached h := absurd h hroot

/-! ### Freezing -/

/-- No operation changes a frozen graph but for the limits of the tests. -/
theorem Next.frozen (h : Next g g') (hg : g.state = .frozen) :
    g'.state = .frozen ∧ g'.nodes = g.nodes ∧ g'.edgeCount = g.edgeCount ∧ g'.root = g.root := by
  have hbuilding : g.state ≠ .building := by
    rw [hg]
    decide
  cases h with
  | addNode => simp [Syntax89.addNode, hg]
  | addChild => simp [Syntax89.addChild, hg]
  | setRoot => simp [Syntax89.setRoot, hg]
  | @freeze answers st _ hret =>
    obtain ⟨n, hn⟩ := hret
    have heq : Syntax89.freeze answers n g = some (st, g') := hn n (Nat.le_refl n)
    rw [Syntax89.freeze, if_pos hg] at heq
    obtain rfl := (Prod.mk.inj (some.inj heq)).2
    exact ⟨hg, rfl, rfl, rfl⟩
  | setLimitNodes | setLimitEdges => exact ⟨hg, rfl, rfl, rfl⟩

theorem later_frozen (hg : g.state = .frozen) (h : ReflTransGen Next g g') :
    g'.state = .frozen ∧ g'.nodes = g.nodes ∧ g'.edgeCount = g.edgeCount ∧ g'.root = g.root := by
  induction h with
  | refl => exact ⟨hg, rfl, rfl, rfl⟩
  | tail _ hnext ih =>
    obtain ⟨hstate, hnodes, hedges, hroot⟩ := ih
    obtain ⟨hstate', hnodes', hedges', hroot'⟩ := hnext.frozen hstate
    exact ⟨hstate', hnodes'.trans hnodes, hedges'.trans hedges, hroot'.trans hroot⟩

theorem freeze_returns (hg : g.Sound)
    (hret : Returns (fun fuel => validate bothAnswer fuel g) verdict)
    (hok : verdict.1 = .ok ↔ g.Valid) :
    ∃ r, Returns (fun fuel => freeze bothAnswer fuel g) r ∧ Freezes g r := by
  obtain ⟨n, hn⟩ := hret
  have hfreeze : ∀ fuel, n ≤ fuel → freeze bothAnswer fuel g =
      some (if verdict.1 ≠ .ok then (verdict.1, g) else (.ok, { g with state := .frozen })) := by
    intro fuel hfuel
    simp [freeze, hg.building, hn fuel hfuel]
  refine ⟨_, ⟨n, hfreeze⟩, ?_⟩
  by_cases hverdict : verdict.1 = .ok
  · rw [if_neg (not_not.2 hverdict)]
    exact {
      ok_iff := ⟨fun _ => hok.1 hverdict, fun _ => rfl⟩
      fails := fun h => absurd rfl h
      same := ⟨rfl, rfl, rfl⟩
      later := fun _ g' h => (later_frozen rfl h).2 }
  · rw [if_pos hverdict]
    exact {
      ok_iff := hok
      fails := fun _ => rfl
      same := ⟨rfl, rfl, rfl⟩
      later := fun h => absurd h hverdict }

/-- Every built graph is judged by the search from its root.  A cycle above or beside the
root is not an error of its own: its nodes are unreachable. -/
theorem validates_searched (h : Built g) : ValidatesSearched g := by
  have hg := h.sound
  by_cases hroot : g.root ∈ g.ids
  · obtain ⟨verdict, hret, hjudged⟩ := validate_returns hg hroot
    exact ⟨⟨verdict, hret, hjudged.searched hroot⟩,
      freeze_returns hg hret (hjudged.ok_iff hroot)⟩
  · have hret := validate_noRoot hg hroot
    have hsearched := searched_noRoot hroot
    exact ⟨⟨_, hret, hsearched⟩, freeze_returns hg hret hsearched.ok_iff⟩

/-- Validation and freezing of a built graph do what the contract says, unless the graph
has a root and cycles, but no cycle below the root. -/
theorem validates_exactly_iff (h : Built g) :
    ValidatesExactly g ↔
      g.root ∉ g.ids ∨ (∃ v, g.Reached v ∧ g.OnCycle v) ∨ ∀ v, ¬g.OnCycle v := by
  have hg := h.sound
  by_cases hroot : g.root ∈ g.ids
  · obtain ⟨verdict, hret, hjudged⟩ := validate_returns hg hroot
    have hfreeze := freeze_returns hg hret (hjudged.ok_iff hroot)
    constructor
    · rintro ⟨⟨verdict', hret', hexact⟩, -⟩
      obtain rfl := hret.unique hret'
      exact .inr ((hjudged.exact_iff hroot).1 hexact)
    · rintro (habs | hcond)
      · exact absurd hroot habs
      · exact ⟨⟨verdict, hret, (hjudged.exact_iff hroot).2 hcond⟩, hfreeze⟩
  · have hexact := exact_noRoot hroot
    have hret := validate_noRoot hg hroot
    exact ⟨fun _ => .inl hroot, fun _ => ⟨⟨_, hret, hexact⟩, freeze_returns hg hret hexact.ok_iff⟩⟩

end Built

/-! ### Two small graphs -/

/-- The span of nodes without a source. -/
def noSpan : Span := ⟨0, 0, 0⟩

/-- Two nodes without a root. -/
def pair : Graph := (addNode true 0 noSpan (addNode true 0 noSpan init).2).2

theorem built_pair : Built pair := (Built.init.addNode true 0 noSpan).addNode true 0 noSpan

/-- The first node is the root, and the second has an edge to itself. -/
def stray : Graph := (setRoot 1 (addChild true 2 0 2 pair).2).2

theorem built_stray : Built stray := (built_pair.addChild true 2 0 2).setRoot 1

/-- Nothing but the second node is reported of the graph with a stray cycle. -/
theorem validates_searched_stray : ValidatesSearched stray := validates_searched built_stray

/-- The cycle is structural, and validation reports an unreachable node. -/
theorem stray_unreached : Built stray ∧ stray.OnCycle 2 ∧
    Returns (fun fuel => validate bothAnswer fuel stray) (verdictUnreachable 2) ∧
    ¬ValidatesExactly stray := by
  have hcycle : stray.OnCycle 2 := .single (mem_singleton.2 rfl : 2 ∈ [2])
  have hret : Returns (fun fuel => validate bothAnswer fuel stray) (verdictUnreachable 2) := by
    refine ⟨1, fun m hm => ?_⟩
    obtain ⟨k, rfl⟩ : ∃ k, m = k + 1 := ⟨m - 1, by omega⟩
    rfl
  refine ⟨built_stray, hcycle, hret, ?_⟩
  rintro ⟨⟨verdict, hret', hexact⟩, -⟩
  obtain rfl := hret.unique hret'
  obtain ⟨_, _, heq, -, -⟩ := hexact.cycle (mem_ids.2 (by decide)) ⟨2, hcycle⟩
  cases heq

end Syntax89
