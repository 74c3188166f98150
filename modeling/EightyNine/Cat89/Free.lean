import EightyNine.Cat89.Kernel
import EightyNine.Library.Links
import Mathlib.Logic.Relation

/-!
# libcat89: the free category

`src/free.c`.  The graph belongs to the caller.  Vertices are interned: an object is the
address of the node of a vertex.  A morphism is the address of a path, whose ends are
nodes.  Sizes in bytes wrap as in C, and a copy that runs past its block is undefined.
-/

namespace Cat89

open Library (Links)

/-- `cat89_free_graph_ops`.  `vertex_same` tells when two vertices are one, so it is an
equivalence. -/
structure Graph (V E : Type) where
  vertexSame : V → V → Bool
  edgeSource : E → V
  edgeTarget : E → V
  same_equivalence : Equivalence fun x y => vertexSame x y = true

/-- `struct fmor`. -/
structure FreeMor (E : Type) where
  refs : Nat
  dom : Nat
  cod : Nat
  edges : List E

/-- `struct free_ctx`. -/
structure FreeCtx (V E : Type) where
  vertices : Links V
  live : Links (FreeMor E)

/-- What the allocator answers to the requests of one call: addresses for the nodes of
the source and the target of an edge and for the morphism, and whether there is memory
for the edges and for their copy. -/
structure FreeMem where
  src : Option Nat
  dst : Option Nat
  mor : Option Nat
  edges : Bool
  copy : Bool

/-- `sizeof(const void *)`. -/
def sizeofEdge : Nat := 8

/-- `len * sizeof(const void *)`. -/
def edgeBytes (len : Nat) : Nat := len * sizeofEdge % 2 ^ 64

/-- Whether the allocator hands out `bytes` bytes.  No block is half the address space. -/
def allocates (room : Bool) (bytes : Nat) : Bool := room && bytes < 2 ^ 63

/-- `copy_edges`, as far as it can fail. -/
def copyEdges (room : Bool) (len : Nat) : Reply Unit :=
  if len = 0 then some (.ok ())
  else if allocates room (edgeBytes len) = false then some (.error .nomem)
  else if edgeBytes len < len * sizeofEdge then none
  else some (.ok ())

variable {V E : Type} (g : Graph V E)

namespace FreeCtx

variable (s : FreeCtx V E)

/-- `find_vertex`. -/
def findVertex (vertex : V) : Option (Nat × V) :=
  s.vertices.find? fun node => g.vertexSame node.2 vertex

/-- `intern_vertex`. -/
def internVertex (mem : Option Nat) (vertex : V) : Except Status Nat × FreeCtx V E :=
  match s.findVertex g vertex with
  | some node => (.ok node.1, s)
  | none =>
    match mem with
    | none => (.error .nomem, s)
    | some o => (.ok o, { s with vertices := (o, vertex) :: s.vertices })

/-- `mor_make`. -/
def freeMorMake (mem : FreeMem) (dom cod : Nat) (edges : List E) : Reply (Nat × FreeCtx V E) :=
  match copyEdges mem.copy edges.length with
  | none => none
  | some (.error st) => some (.error st)
  | some (.ok ()) =>
    match mem.mor with
    | none => some (.error .nomem)
    | some m => some (.ok (m, { s with live := (m, ⟨1, dom, cod, edges⟩) :: s.live }))

/-- `free_obj_same_cb`. -/
def freeObjSame (a b : Nat) : Option Bool :=
  (s.vertices.find a).bind fun x => (s.vertices.find b).map fun y => g.vertexSame x y

/-- `free_dom_cb`. -/
def freeDom (m : Nat) : Reply Nat := (s.live.find m).map fun mor => .ok mor.dom

/-- `free_cod_cb`. -/
def freeCod (m : Nat) : Reply Nat := (s.live.find m).map fun mor => .ok mor.cod

/-- `free_identity_cb`. -/
def freeIdentity (mem : FreeMem) (o : Nat) : Reply (Nat × FreeCtx V E) :=
  s.freeMorMake mem o o []

/-- `free_compose_cb`, on the morphisms that its handles point at. -/
def freeComposeMors (mem : FreeMem) (gm fm : FreeMor E) : Reply (Nat × FreeCtx V E) :=
  if fm.edges.length = 0 then s.freeMorMake mem fm.dom gm.cod gm.edges
  else if gm.edges.length = 0 then s.freeMorMake mem fm.dom gm.cod fm.edges
  else
    let total := fm.edges.length + gm.edges.length
    if allocates mem.edges (edgeBytes total) = false then some (.error .nomem)
    else if edgeBytes total < total * sizeofEdge then none
    else s.freeMorMake mem fm.dom gm.cod (fm.edges ++ gm.edges)

/-- `free_compose_cb`. -/
def freeCompose (mem : FreeMem) (gh fh : Nat) : Reply (Nat × FreeCtx V E) :=
  (s.live.find gh).bind fun gm => (s.live.find fh).bind fun fm => s.freeComposeMors mem gm fm

/-- `free_retain_cb` through `cat89_mor_retain`. -/
def freeRetain (m : Nat) : Reply (FreeCtx V E) :=
  if s.live.owns m = false then some (.error .invalid)
  else
    (s.live.find m).map fun mor =>
      match refInc mor.refs with
      | .error st => .error st
      | .ok refs => .ok { s with live := s.live.update m fun mor => { mor with refs := refs } }

/-- `free_release_cb` through `cat89_mor_release`. -/
def freeRelease (m : Nat) : Option (FreeCtx V E) :=
  if s.live.owns m = false then some s
  else
    (s.live.find m).map fun mor =>
      if (refDec mor.refs).2 then { s with live := s.live.unlink m }
      else { s with live := s.live.update m fun mor => { mor with refs := (refDec mor.refs).1 } }

/-- `cat89_free_obj`. -/
def freeObj (mem : Option Nat) (vertex : V) : Except Status Nat × FreeCtx V E :=
  s.internVertex g mem vertex

/-- `cat89_free_edge`.  The nodes it interned stay when it fails later. -/
def freeEdge (mem : FreeMem) (edge : E) : Option (Except Status Nat × FreeCtx V E) :=
  match s.internVertex g mem.src (g.edgeSource edge) with
  | (.error st, s₁) => some (.error st, s₁)
  | (.ok src, s₁) =>
    match s₁.internVertex g mem.dst (g.edgeTarget edge) with
    | (.error st, s₂) => some (.error st, s₂)
    | (.ok dst, s₂) =>
      match s₂.freeMorMake mem src dst [edge] with
      | none => none
      | some (.error st) => some (.error st, s₂)
      | some (.ok (m, s₃)) => some (.ok m, s₃)

end FreeCtx

/-- `free_ops`. -/
def freeOps (mem : FreeMem) : CategoryOps (FreeCtx V E) Nat Nat where
  dom := FreeCtx.freeDom
  cod := FreeCtx.freeCod
  identity s o := s.freeIdentity mem o
  compose s gh fh := s.freeCompose mem gh fh
  objSame s a b := s.freeObjSame g a b
  ownsObj s o := s.vertices.owns o
  ownsMor s m := s.live.owns m

/-! ## Runs -/

/-- A block of its own: one that neither a node nor a morphism occupies. -/
def FreeCtx.Fresh (s : FreeCtx V E) (p : Nat) : Prop :=
  p ∉ s.vertices.addresses ∧ p ∉ s.live.addresses

/-- What the allocator may answer. -/
def FreeCtx.Allows (s : FreeCtx V E) (mem : FreeMem) : Prop :=
  (∀ p, mem.src = some p ∨ mem.dst = some p ∨ mem.mor = some p → s.Fresh p) ∧
    (mem.src = none ∨ mem.src ≠ mem.dst)

/-- A call on the category that returns. -/
inductive FreeCtx.Step (g : Graph V E) : FreeCtx V E → FreeCtx V E → Prop where
  | obj {s : FreeCtx V E} {mem : FreeMem} (hmem : s.Allows mem) (vertex : V) :
      Step g s (s.freeObj g mem.src vertex).2
  | edge {s s' : FreeCtx V E} {mem : FreeMem} {edge : E} {out : Except Status Nat}
      (hmem : s.Allows mem) (h : s.freeEdge g mem edge = some (out, s')) : Step g s s'
  | identity {s s' : FreeCtx V E} {mem : FreeMem} {o m : Nat} (hmem : s.Allows mem)
      (h : Cat89.identity (freeOps g mem) s o = some (.ok (m, s'))) : Step g s s'
  | compose {s s' : FreeCtx V E} {mem : FreeMem} {gh fh m : Nat} (hmem : s.Allows mem)
      (h : Cat89.compose (freeOps g mem) s gh fh = some (.ok (m, s'))) : Step g s s'
  | retain {s s' : FreeCtx V E} {m : Nat} (h : s.freeRetain m = some (.ok s')) : Step g s s'
  | release {s s' : FreeCtx V E} {m : Nat} (h : s.freeRelease m = some s') : Step g s s'

/-- The states that calls lead to from a new category. -/
def FreeCtx.Reached (g : Graph V E) (s : FreeCtx V E) : Prop :=
  Relation.ReflTransGen (FreeCtx.Step g) ⟨[], []⟩ s

/-! ## Paths -/

/-- The edges run from `x` to `y`. -/
def Graph.Path : V → List E → V → Prop
  | x, [], y => g.vertexSame x y = true
  | x, e :: es, y => g.vertexSame x (g.edgeSource e) = true ∧ Graph.Path (g.edgeTarget e) es y

end Cat89
