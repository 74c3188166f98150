import EightyNine.Library.Dfs
import EightyNine.Library.Loop

/-!
# libsyntax89: graphs and their construction

`src/syntax89_build.c`, `src/syntax89_graph.c` and the growth half of
`src/syntax89_mem.c`.  Ids count nodes from one.  The stores of a graph are lists
next to the capacities they were grown to, and a call is told whether `realloc`
answers.  `unsigned long` and `size_t` are the 64-bit types of an LP64 host.
-/

namespace Syntax89

open Nat List

open Library (whileLoop)

/-- `ULONG_MAX`. -/
def ulongMax : Nat := 2 ^ 64 - 1

/-- `sizeof(struct syntax89_node)`: seven words. -/
def sizeofNode : Nat := 56

/-- `sizeof(struct syntax89_edge)`. -/
def sizeofEdge : Nat := 16

/-- `sizeof(struct syntax89_frame)`. -/
def sizeofFrame : Nat := 16

/-- `SYNTAX89_ID_NONE`. -/
def idNone : Nat := 0

@[simp] theorem idNone_eq : idNone = 0 := rfl

/-- `syntax89_status`. -/
inductive Status where
  | ok
  | end_
  | einval
  | enomem
  | enode
  | estate
  | ecycle
  | egraph
  | eoverflow
deriving DecidableEq

/-- `syntax89_span`. -/
structure Span where
  source : Nat
  start : Nat
  stop : Nat

/-- `struct syntax89_edge`. -/
structure Edge where
  role : Nat
  child : Nat

/-- `struct syntax89_node`; `edge_count` is the length of `edges`. -/
structure Node where
  kind : Nat
  span : Span
  edges : List Edge
  edgeCapacity : Nat

/-- `SYNTAX89_STATE_UNINIT` and the other lifecycle states. -/
inductive State where
  | uninit
  | building
  | frozen
deriving DecidableEq

/-- `syntax89_graph`; `node_count` is the length of `nodes`. -/
structure Graph where
  nodes : List Node
  nodeCapacity : Nat
  edgeCount : Nat
  root : Nat
  state : State
  testLimitNodes : Nat
  testLimitEdges : Nat

/-- `node_count`. -/
def Graph.nodeCount (g : Graph) : Nat := g.nodes.length

/-- `syntax89_init`. -/
def init : Graph where
  nodes := []
  nodeCapacity := 0
  edgeCount := 0
  root := idNone
  state := .building
  testLimitNodes := 0
  testLimitEdges := 0

/-! ## Access and growth -/

/-- `syntax89__span_ok`. -/
def spanOk (span : Span) : Bool := if span.start > span.stop then false else true

/-- `syntax89__node_at` and `syntax89__node_mut`. -/
def Graph.nodeAt (g : Graph) (id : Nat) : Option Node :=
  if id = idNone then none
  else if id > g.nodeCount then none
  else g.nodes[id - 1]?

/-- `syntax89__size_mul`. -/
def sizeMul (a b : Nat) : Option Nat :=
  if a ≠ 0 && b > ulongMax / a then none else some (a * b)

/-- The capacity to grow to, starting at `least` when there is none.  Doubling a
capacity overflows before the loop has made 64 passes. -/
def growTo (least cap need : Nat) : Option Nat :=
  whileLoop (fun cap => decide (cap < need)) (fun cap => sizeMul cap 2) 65
    (if cap = 0 then least else cap)

/-- `syntax89__grow_nodes`. -/
def growNodes (answers : Bool) (g : Graph) (need : Nat) : Status × Graph :=
  if need ≤ g.nodeCapacity then (.ok, g)
  else
    match growTo 8 g.nodeCapacity need with
    | none => (.eoverflow, g)
    | some cap =>
      match sizeMul cap sizeofNode with
      | none => (.eoverflow, g)
      | some _ => if answers then (.ok, { g with nodeCapacity := cap }) else (.enomem, g)

/-- `syntax89__grow_edges` on a node of the graph. -/
def growEdges (answers : Bool) (parent : Node) (need : Nat) : Status × Node :=
  if need ≤ parent.edgeCapacity then (.ok, parent)
  else
    match growTo 4 parent.edgeCapacity need with
    | none => (.eoverflow, parent)
    | some cap =>
      match sizeMul cap sizeofEdge with
      | none => (.eoverflow, parent)
      | some _ => if answers then (.ok, { parent with edgeCapacity := cap }) else (.enomem, parent)

/-! ## Construction -/

/-- `syntax89_add_node`; the id it stores through `out` is the new `node_count`. -/
def addNode (answers : Bool) (kind : Nat) (span : Span) (g : Graph) : Status × Graph :=
  if g.state ≠ .building then (.estate, g)
  else if spanOk span = false then (.einval, g)
  else if g.nodeCount = ulongMax then (.eoverflow, g)
  else if g.testLimitNodes ≠ 0 && g.nodeCount ≥ g.testLimitNodes then (.eoverflow, g)
  else
    match growNodes answers g (g.nodeCount + 1) with
    | (.ok, g) => (.ok, { g with nodes := g.nodes ++ [⟨kind, span, [], 0⟩] })
    | (st, g) => (st, g)

/-- `syntax89_add_child`. -/
def addChild (answers : Bool) (parent role child : Nat) (g : Graph) : Status × Graph :=
  if g.state ≠ .building then (.estate, g)
  else
    match g.nodeAt parent, g.nodeAt child with
    | none, _ => (.enode, g)
    | _, none => (.enode, g)
    | some p, some _ =>
      if g.edgeCount = ulongMax then (.eoverflow, g)
      else if g.testLimitEdges ≠ 0 && g.edgeCount ≥ g.testLimitEdges then (.eoverflow, g)
      else
        match growEdges answers p (p.edges.length + 1) with
        | (.ok, p) =>
          (.ok, { g with
            nodes := g.nodes.set (parent - 1) { p with edges := p.edges ++ [⟨role, child⟩] }
            edgeCount := g.edgeCount + 1 })
        | (st, _) => (st, g)

/-- `syntax89_set_root`. -/
def setRoot (root : Nat) (g : Graph) : Status × Graph :=
  if g.state ≠ .building then (.estate, g)
  else if root ≠ idNone && g.nodeAt root = none then (.enode, g)
  else (.ok, { g with root := root })

/-- `syntax89__set_limit_nodes`. -/
def setLimitNodes (limit : Nat) (g : Graph) : Graph := { g with testLimitNodes := limit }

/-- `syntax89__set_limit_edges`. -/
def setLimitEdges (limit : Nat) (g : Graph) : Graph := { g with testLimitEdges := limit }

/-! ## Built graphs -/

/-- The graphs built from `syntax89_init` by calls that may each succeed or fail. -/
inductive Built : Graph → Prop
  | init : Built init
  | addNode {g : Graph} (h : Built g) (answers : Bool) (kind : Nat) (span : Span) :
      Built (addNode answers kind span g).2
  | addChild {g : Graph} (h : Built g) (answers : Bool) (parent role child : Nat) :
      Built (addChild answers parent role child g).2
  | setRoot {g : Graph} (h : Built g) (root : Nat) : Built (setRoot root g).2

/-- The children of a node in insertion order, with one entry for each edge. -/
def Graph.children (g : Graph) (id : Nat) : List Nat :=
  match g.nodeAt id with
  | none => []
  | some n => n.edges.map Edge.child

/-- The ids of the nodes of a graph. -/
def Graph.ids (g : Graph) : List Nat := range' 1 g.nodeCount

/-- What holds of every built graph. -/
structure Graph.Sound (g : Graph) : Prop where
  building : g.state = .building
  children : ∀ u, ∀ v ∈ g.children u, v ∈ g.ids
  root : g.root = idNone ∨ g.root ∈ g.ids
  count : g.nodeCount ≤ g.nodeCapacity
  /-- The node store has been allocated. -/
  stored : g.nodeCapacity * sizeofNode ≤ ulongMax

section Lemmas

variable {g : Graph} {u v id : Nat} {n : Node}

theorem mem_ids : id ∈ g.ids ↔ 0 < id ∧ id ≤ g.nodeCount := by
  rw [Graph.ids, mem_range'_1]
  omega

theorem nodeAt_eq (h : id ∈ g.ids) : g.nodeAt id = g.nodes[id - 1]? := by
  obtain ⟨hpos, hle⟩ := mem_ids.1 h
  rw [Graph.nodeAt, idNone_eq, if_neg (ne_of_gt hpos), if_neg (not_lt.2 hle)]

theorem nodeAt_isSome : (g.nodeAt id).isSome ↔ id ∈ g.ids := by
  rw [mem_ids, Graph.nodeAt, idNone_eq]
  split_ifs with hzero hover
  · simp [hzero]
  · simp [Nat.lt_of_not_le (not_le.2 hover)]
  · simp only [Graph.nodeCount] at hover ⊢
    simp
    omega

theorem mem_ids_of_nodeAt (h : g.nodeAt id = some n) : id ∈ g.ids :=
  nodeAt_isSome.1 (by rw [h]; rfl)

theorem children_eq (h : g.nodeAt id = some n) : g.children id = n.edges.map Edge.child := by
  rw [Graph.children, h]

end Lemmas

/-! ### Every built graph is sound -/

theorem sizeMul_le {a b c : Nat} (h : sizeMul a b = some c) : c = a * b ∧ a * b ≤ ulongMax := by
  unfold sizeMul at h
  split_ifs at h with hover
  obtain rfl := Option.some.inj h
  refine ⟨rfl, ?_⟩
  simp only [ne_eq, decide_not, Bool.and_eq_true, Bool.not_eq_true', decide_eq_false_iff_not,
    decide_eq_true_eq, not_and, not_lt] at hover
  rcases Nat.eq_zero_or_pos a with rfl | hpos
  · simp
  · rw [mul_comm]
    exact (le_div_iff_mul_le hpos).1 (hover (ne_of_gt hpos))

theorem growTo_le {least cap need cap' : Nat} (h : growTo least cap need = some cap') :
    need ≤ cap' := by
  simpa using Library.whileLoop_done h

/-- Growing the node store keeps the graph but for the capacity. -/
theorem growNodes_ok {answers : Bool} {g g' : Graph} {need : Nat}
    (h : growNodes answers g need = (.ok, g')) (hs : g.nodeCapacity * sizeofNode ≤ ulongMax) :
    need ≤ g'.nodeCapacity ∧ g'.nodeCapacity * sizeofNode ≤ ulongMax ∧
      g' = { g with nodeCapacity := g'.nodeCapacity } := by
  unfold growNodes at h
  split at h
  next hle =>
    obtain rfl := (Prod.mk.inj h).2
    exact ⟨hle, hs, rfl⟩
  next =>
    split at h
    · cases h
    next cap hcap =>
      split at h
      · cases h
      next bytes hbytes =>
        split_ifs at h
        · obtain rfl := (Prod.mk.inj h).2
          exact ⟨growTo_le hcap, (sizeMul_le hbytes).2, rfl⟩
        · cases h

theorem growNodes_fails {answers : Bool} {g g' : Graph} {need : Nat} {st : Status}
    (h : growNodes answers g need = (st, g')) (hne : st ≠ .ok) : g' = g := by
  unfold growNodes at h
  split at h
  · exact absurd (Prod.mk.inj h).1.symm hne
  · split at h
    · exact (Prod.mk.inj h).2.symm
    · split at h
      · exact (Prod.mk.inj h).2.symm
      · split_ifs at h
        · exact absurd (Prod.mk.inj h).1.symm hne
        · exact (Prod.mk.inj h).2.symm

theorem growEdges_edges {answers : Bool} {n n' : Node} {need : Nat} {st : Status}
    (h : growEdges answers n need = (st, n')) : n'.edges = n.edges := by
  unfold growEdges at h
  split at h
  · rw [(Prod.mk.inj h).2]
  · split at h
    · rw [(Prod.mk.inj h).2]
    · split at h
      · rw [(Prod.mk.inj h).2]
      · split_ifs at h <;> rw [← (Prod.mk.inj h).2]

theorem children_append {g g' : Graph} {n : Node} (hn : n.edges = [])
    (h : g'.nodes = g.nodes ++ [n]) (u : Nat) : g'.children u = g.children u := by
  unfold Graph.children Graph.nodeAt Graph.nodeCount
  rw [h, idNone_eq]
  rcases Nat.eq_zero_or_pos u with rfl | hpos
  · simp
  rw [if_neg (ne_of_gt hpos), if_neg (ne_of_gt hpos), length_append, length_singleton]
  rcases lt_trichotomy u (g.nodes.length + 1) with hlt | rfl | hgt
  · rw [if_neg (by omega), if_neg (by omega), getElem?_append_left (by omega)]
  · simp [hn]
  · rw [if_pos (by omega), if_pos (by omega)]

theorem children_set {g g' : Graph} {p p' : Node} {parent : Nat} (child : Nat)
    (hp : g.nodeAt parent = some p) (hp' : p'.edges.map Edge.child = p.edges.map Edge.child ++ [child])
    (h : g'.nodes = g.nodes.set (parent - 1) p') (u : Nat) :
    g'.children u = g.children u ++ if u = parent then [child] else [] := by
  have hparent := mem_ids.1 (mem_ids_of_nodeAt hp)
  have hat : g.nodes[parent - 1]? = some p := (nodeAt_eq (mem_ids_of_nodeAt hp)).symm.trans hp
  unfold Graph.children Graph.nodeAt Graph.nodeCount
  rw [h, idNone_eq, length_set]
  rcases Nat.eq_zero_or_pos u with rfl | hpos
  · rw [if_pos rfl, if_pos rfl, if_neg (by omega), append_nil]
  rw [if_neg (ne_of_gt hpos), if_neg (ne_of_gt hpos)]
  by_cases hu : u = parent
  · subst hu
    have hlt : u - 1 < g.nodes.length := (List.getElem?_eq_some_iff.1 hat).1
    rw [if_neg (by omega), if_pos rfl, if_neg (by omega), getElem?_set_self hlt, hat]
    exact hp'
  · rw [if_neg hu, append_nil, getElem?_set_ne (by omega)]

theorem Graph.Sound.addNode {g : Graph} (h : g.Sound) (answers : Bool) (kind : Nat) (span : Span) :
    (addNode answers kind span g).2.Sound := by
  unfold Syntax89.addNode
  split_ifs
  any_goals exact h
  split
  next g' hgrow =>
    obtain ⟨hneed, hstored, hg'⟩ := growNodes_ok hgrow h.stored
    have hnodes : g'.nodes = g.nodes := by rw [hg']
    have hchildren : ∀ u, Graph.children { g' with
        nodes := g'.nodes ++ [⟨kind, span, [], 0⟩] } u = g.children u :=
      children_append rfl (by rw [hnodes])
    have hids : ∀ v ∈ g.ids, v ∈ Graph.ids { g' with
        nodes := g'.nodes ++ [⟨kind, span, [], 0⟩] } := by
      intro v hv
      have hle := (mem_ids.1 hv).2
      refine mem_ids.2 ⟨(mem_ids.1 hv).1, ?_⟩
      simp only [Graph.nodeCount, hnodes, length_append, length_singleton] at hle ⊢
      omega
    exact {
      building := by
        rw [hg']
        exact h.building
      children := fun u v hv => hids v (h.children u v (hchildren u ▸ hv))
      root := by
        have hroot : g'.root = g.root := by rw [hg']
        exact hroot ▸ h.root.imp_right (hids g.root)
      count := by simpa [Graph.nodeCount, hnodes] using hneed
      stored := hstored }
  next st g' hne hgrow =>
    rw [growNodes_fails hgrow hne]
    exact h

theorem Graph.Sound.addChild {g : Graph} (h : g.Sound) (answers : Bool) (parent role child : Nat) :
    (addChild answers parent role child g).2.Sound := by
  unfold Syntax89.addChild
  split
  · exact h
  split
  · exact h
  · exact h
  next p c hp hc =>
    split
    · exact h
    split
    · exact h
    split
    next p' hgrow =>
      have hedges := growEdges_edges hgrow
      have hids : Graph.ids { g with
          nodes := g.nodes.set (parent - 1) { p' with edges := p'.edges ++ [⟨role, child⟩] }
          edgeCount := g.edgeCount + 1 } = g.ids := by
        simp [Graph.ids, Graph.nodeCount]
      refine { h with children := fun u v hv => ?_, root := ?_, count := ?_ }
      · rw [hids]
        rw [children_set child hp (by simp [hedges]) rfl u, mem_append] at hv
        rcases hv with hv | hv
        · exact h.children u v hv
        · split_ifs at hv
          · rw [mem_singleton.1 hv]
            exact mem_ids_of_nodeAt hc
          · cases hv
      · rw [hids]
        exact h.root
      · simpa [Graph.nodeCount] using h.count
    · exact h

theorem Graph.Sound.setRoot {g : Graph} (h : g.Sound) (root : Nat) :
    (setRoot root g).2.Sound := by
  unfold Syntax89.setRoot
  split_ifs with hstate hroot
  · exact h
  · exact h
  · refine { h with root := ?_ }
    rcases Nat.eq_zero_or_pos root with hz | hpos
    · exact .inl hz
    · have hne : root ≠ 0 := ne_of_gt hpos
      have hsome : g.nodeAt root ≠ none := by simpa [hne] using hroot
      exact .inr (nodeAt_isSome.1 (Option.isSome_iff_ne_none.2 hsome))

theorem Built.sound {g : Graph} (h : Built g) : g.Sound := by
  induction h with
  | init =>
    exact {
      building := rfl
      children := fun u v hv => by
        simp [Graph.children, Graph.nodeAt, Syntax89.init, Graph.nodeCount] at hv
      root := .inl rfl
      count := le_refl 0
      stored := zero_le _ }
  | addNode _ answers kind span ih => exact ih.addNode answers kind span
  | addChild _ answers parent role child ih => exact ih.addChild answers parent role child
  | setRoot _ root ih => exact ih.setRoot root

end Syntax89

/-!
# libsyntax89: validation and freezing

`src/syntax89_validate.c` and the scratch half of `src/syntax89_mem.c`.  The stack
of the search is the list of its frames in use, the last first, next to the number
of frames it has room for.  A read or write outside the scratch is `none`, and so
is a search that is given too little fuel.
-/

namespace Syntax89

open Library (Color)

/-- `syntax89_validation`. -/
structure Validation where
  error : Status
  node : Nat
  related : Nat

/-- `struct syntax89_frame`. -/
structure Frame where
  id : Nat
  index : Nat

/-- `struct syntax89_scratch`; `room` is the number of frames that were allocated. -/
structure Scratch where
  color : List Color
  stack : List Frame
  room : Nat

/-- Whether the allocator answers: for the colours and for the stack. -/
structure Answers where
  color : Bool
  stack : Bool

/-- `syntax89__scratch_new`.  What is allocated is not yet written; `validate_begin`
writes the colours and the first frame. -/
def scratchNew (answers : Answers) (n : Nat) : Option Scratch :=
  let frameBytes := n * sizeofFrame % 2 ^ 64
  if answers.color && answers.stack then
    some ⟨List.replicate n .white, [], frameBytes / sizeofFrame⟩
  else none

/-- `color[v - 1]`. -/
def Scratch.colorAt (s : Scratch) (v : Nat) : Option Color :=
  if v = 0 then none else s.color[v - 1]?

/-- `color[v - 1] = c`. -/
def Scratch.paint (s : Scratch) (v : Nat) (c : Color) : Scratch :=
  { s with color := s.color.set (v - 1) c }

/-- `stack[sp + 1] = frame`. -/
def Scratch.pushFrame (s : Scratch) (frame : Frame) : Option Scratch :=
  if s.stack.length < s.room then some { s with stack := frame :: s.stack } else none

/-- `validate_begin`. -/
def validateBegin (g : Graph) (s : Scratch) : Option Scratch :=
  let s := { s with color := List.replicate g.nodeCount .white, stack := [] }
  match s.colorAt g.root with
  | none => none
  | some _ => (s.pushFrame ⟨g.root, 0⟩).map fun s => s.paint g.root .gray

/-- `validate_push`. -/
def validatePush (s : Scratch) (v : Nat) : Option Scratch :=
  (s.paint v .gray).pushFrame ⟨v, 0⟩

/-- What one round of the search comes to: the next one, the end, or a cycle
through the edge from `related` to `node`. -/
inductive Advance where
  | ok (s : Scratch)
  | done (s : Scratch)
  | cycle (node related : Nat)

/-- `validate_visit`, where `top` is the id of the top frame. -/
def validateVisit (s : Scratch) (top v : Nat) : Option Advance :=
  match s.colorAt v with
  | none => none
  | some .gray => some (.cycle v top)
  | some .white => (validatePush s v).map .ok
  | some .black => some (.ok s)

/-- `validate_advance`, with `validate_child`. -/
def validateAdvance (g : Graph) (s : Scratch) : Option Advance :=
  match s.stack with
  | [] => none
  | frame :: below =>
    match g.nodeAt frame.id with
    | none => none
    | some n =>
      match n.edges[frame.index]? with
      | some edge =>
        validateVisit { s with stack := ⟨frame.id, frame.index + 1⟩ :: below } frame.id
          edge.child
      | none =>
        match s.colorAt frame.id with
        | none => none
        | some _ =>
          let s := s.paint frame.id .black
          if below = [] then some (.done s) else some (.ok { s with stack := below })

/-- `validate_reachable`: the first id from `i + 1` on that is not black. -/
def validateReachable : Nat → List Color → Option Nat
  | _, [] => none
  | i, c :: cs => if c ≠ .black then some (i + 1) else validateReachable (i + 1) cs

/-- The status that `syntax89_validate` returns and the detail it stores, if any. -/
abbrev Verdict := Status × Option Validation

/-- `validate_cycle`. -/
def verdictCycle (node related : Nat) : Verdict := (.ecycle, some ⟨.ecycle, node, related⟩)

/-- `validate_unreachable`, and `validate_root` on a root that names no node. -/
def verdictUnreachable (node : Nat) : Verdict := (.egraph, some ⟨.egraph, node, idNone⟩)

/-- The detail that `syntax89_validate` stores first. -/
def detailOk : Validation := ⟨.ok, idNone, idNone⟩

/-- Nothing was found wrong. -/
def verdictOk : Verdict := (.ok, some detailOk)

/-- `validate_dfs` after `validate_begin`. -/
def validateDfs (g : Graph) : Nat → Scratch → Option Verdict
  | 0, _ => none
  | fuel + 1, s =>
    match validateAdvance g s with
    | none => none
    | some (.ok s) => validateDfs g fuel s
    | some (.cycle node related) => some (verdictCycle node related)
    | some (.done s) =>
      match validateReachable 0 s.color with
      | some v => some (verdictUnreachable v)
      | none => some verdictOk

/-- `syntax89_validate`, with `validate_root`. -/
def validate (answers : Answers) (fuel : Nat) (g : Graph) : Option Verdict :=
  if g.state = .uninit then some (.estate, none)
  else if g.nodeAt g.root = none then some (verdictUnreachable g.root)
  else
    match scratchNew answers g.nodeCount with
    | none => some (.enomem, some detailOk)
    | some s => (validateBegin g s).bind (validateDfs g fuel)

/-- `syntax89_freeze`. -/
def freeze (answers : Answers) (fuel : Nat) (g : Graph) : Option (Status × Graph) :=
  if g.state = .frozen then some (.ok, g)
  else if g.state ≠ .building then some (.estate, g)
  else
    (validate answers fuel g).map fun verdict =>
      if verdict.1 ≠ .ok then (verdict.1, g) else (.ok, { g with state := .frozen })

end Syntax89
