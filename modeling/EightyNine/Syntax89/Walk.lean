import EightyNine.Library.Unfolding
import EightyNine.Syntax89.ValidateOk

/-!
# libsyntax89: walks

`src/syntax89_walk.c`.  One loop serves the four walks: `once` takes each node once, and
`pre` visits a node before its children.  As in validation, a read or write outside the
scratch is `none`, and so is a walk that is given too little fuel.
-/

namespace Syntax89

open Library (Color)

/-! ## The loop -/

/-- The value of a status. -/
def Status.value : Status → Int
  | .ok => 0
  | .end_ => 1
  | .einval => -1
  | .enomem => -2
  | .enode => -3
  | .estate => -4
  | .ecycle => -5
  | .egraph => -6
  | .eoverflow => -7

/-- `syntax89_visit_fn` with its context: what it answers for a node after the nodes that were
visited before. -/
abbrev VisitFn := List Nat → Nat → Int

/-- The callback that always continues. -/
def always : VisitFn := fun _ _ => 0

/-- The scratch of a walk, and the nodes it has visited. -/
structure Walker where
  scratch : Scratch
  visited : List Nat

section

variable (g : Graph) (fn : VisitFn) (once pre : Bool)

/-- `walk_emit`. -/
def walkEmit (w : Walker) (id : Nat) : Int × Walker :=
  let st := fn w.visited id
  let w := { w with visited := w.visited ++ [id] }
  if st = Status.ok.value then (Status.ok.value, w)
  else if st = Status.end_.value then (Status.end_.value, w)
  else if st < Status.ok.value then (st, w)
  else (Status.einval.value, w)

/-- `walk_push`. -/
def walkPush (w : Walker) (v : Nat) : Option (Int × Walker) :=
  match w.scratch.colorAt v with
  | none => none
  | some color =>
    if color = .gray then some (Status.ecycle.value, w)
    else if color = .black ∧ once = true then some (Status.ok.value, w)
    else
      ((w.scratch.paint v .gray).pushFrame ⟨v, 0⟩).map fun scratch =>
        if pre then walkEmit fn { w with scratch } v else (Status.ok.value, { w with scratch })

/-- `walk_advance`, with `walk_child`. -/
def walkAdvance (w : Walker) : Option (Int × Walker) :=
  match w.scratch.stack with
  | [] => none
  | frame :: below =>
    match g.nodeAt frame.id with
    | none => none
    | some n =>
      match n.edges[frame.index]? with
      | some edge =>
        walkPush fn once pre
          { w with scratch := { w.scratch with stack := ⟨frame.id, frame.index + 1⟩ :: below } }
          edge.child
      | none =>
        match w.scratch.colorAt frame.id with
        | none => none
        | some _ =>
          let w := { w with scratch := w.scratch.paint frame.id .black }
          let emitted := if pre then (Status.ok.value, w) else walkEmit fn w frame.id
          if emitted.1 ≠ Status.ok.value then some emitted
          else if below = [] then some (Status.end_.value, emitted.2)
          else
            some (Status.ok.value,
              { emitted.2 with scratch := { emitted.2.scratch with stack := below } })

/-- `walk_begin`. -/
def walkBegin (s : Scratch) (root : Nat) : Option Scratch :=
  let s := { s with color := List.replicate g.nodeCount .white, stack := [] }
  match s.colorAt root with
  | none => none
  | some _ => (s.pushFrame ⟨root, 0⟩).map fun s => s.paint root .gray

/-- What `walk_stop` returns. -/
def walkStop (st : Int) : Int := if st = Status.end_.value then Status.ok.value else st

/-- The loop of `walk_run`: its status, and the nodes that were visited. -/
def walkLoop : Nat → Walker → Option (Int × List Nat)
  | 0, _ => none
  | fuel + 1, w =>
    match walkAdvance g fn once pre w with
    | none => none
    | some (st, w) =>
      if st = Status.end_.value then some (Status.ok.value, w.visited)
      else if st ≠ Status.ok.value then some (walkStop st, w.visited)
      else walkLoop fuel w

/-- `walk_run`. -/
def walkRun (answers : Answers) (fuel : Nat) (root : Nat) : Option (Int × List Nat) :=
  if g.state = .uninit then some (Status.estate.value, [])
  else if g.nodeAt root = none then some (Status.enode.value, [])
  else
    match scratchNew answers g.nodeCount with
    | none => some (Status.enomem.value, [])
    | some s =>
      match walkBegin g s root with
      | none => none
      | some s =>
        let begun := if pre then walkEmit fn ⟨s, []⟩ root else (Status.ok.value, ⟨s, []⟩)
        if begun.1 ≠ Status.ok.value then some (walkStop begun.1, begun.2.visited)
        else walkLoop g fn once pre fuel begun.2

end

/-- `syntax89_walk_nodes_pre`. -/
def walkNodesPre (g : Graph) (fn : VisitFn) := walkRun g fn true true

/-- `syntax89_walk_nodes_post`. -/
def walkNodesPost (g : Graph) (fn : VisitFn) := walkRun g fn true false

/-- `syntax89_walk_edges_pre`. -/
def walkEdgesPre (g : Graph) (fn : VisitFn) := walkRun g fn false true

/-- `syntax89_walk_edges_post`. -/
def walkEdgesPost (g : Graph) (fn : VisitFn) := walkRun g fn false false

end Syntax89
