import EightyNine.Cat89.Kernel
import EightyNine.Library.Links
import Mathlib.Logic.Relation

/-!
# libcat89: the comma category

`src/comma.c`.  The categories `C`, `D` and `E` and the functors belong to the caller:
their handles stand for the objects and morphisms they denote, objects are told apart
by `cat89_obj_same` and the morphisms of `E` by its equality.  What the calls on them
come to, where they can fail, is part of `CommaMem`.
-/

namespace Cat89

open Library (Links)

/-- `struct cnode`: `f` is to go from the image of `c` to the image of `d`. -/
structure CommaNode (ObjC ObjD MorE : Type) where
  c : ObjC
  d : ObjD
  f : MorE

/-- `struct cmor`. -/
structure CommaMor (MorC MorD : Type) where
  refs : Nat
  dom : Nat
  cod : Nat
  u : MorC
  v : MorD

/-- `struct cctx`. -/
structure CommaCtx (ObjC ObjD MorC MorD MorE : Type) where
  nodes : Links (CommaNode ObjC ObjD MorE)
  live : Links (CommaMor MorC MorD)

/-- What comes of the calls that one call makes: `base` for those on the base categories
and the functors that come first, `square` for those of the square, `retain` for the
references to be held, and the addresses of a new node and a new morphism. -/
structure CommaMem where
  base : Status
  square : Status
  retain : Status
  node : Option Nat
  mor : Option Nat

/-- `cat89_compose` on a base category. -/
def baseCompose {Obj Mor : Type} [DecidableEq Obj] (K : Category Obj Mor) (g f : Mor) :
    Except Status Mor :=
  if h : K.dom g = K.cod f then .ok (K.comp g f h) else .error .domain

variable {ObjC ObjD ObjE MorC MorD MorE : Type} {C : Category ObjC MorC}
  {D : Category ObjD MorD} {E : Category ObjE MorE} (F : CatFunctor C E) (G : CatFunctor D E)

/-- `comma_endpoints_ok`, on the nodes of the two objects. -/
def commaEndpointsOk (C : Category ObjC MorC) (D : Category ObjD MorD) [DecidableEq ObjC]
    [DecidableEq ObjD] (dom cod : CommaNode ObjC ObjD MorE) (u : MorC) (v : MorD) : Bool :=
  if C.dom u ≠ dom.c then false
  else if C.cod u ≠ cod.c then false
  else if D.dom v ≠ dom.d then false
  else if D.cod v ≠ cod.d then false
  else true

/-- `comma_square_ok`. -/
def commaSquareOk [DecidableEq ObjE] [DecidableEq MorE] (dom cod : CommaNode ObjC ObjD MorE)
    (u : MorC) (v : MorD) : Except Status Bool :=
  match baseCompose E (G.mor v) dom.f with
  | .error st => .error st
  | .ok lhs =>
    match baseCompose E cod.f (F.mor u) with
    | .error st => .error st
    | .ok rhs => .ok (lhs = rhs)

namespace CommaCtx

variable (s : CommaCtx ObjC ObjD MorC MorD MorE)

/-- `cnode_intern`, with `node_matches`. -/
def cnodeIntern [DecidableEq ObjC] [DecidableEq ObjD] [DecidableEq MorE] (mem : CommaMem)
    (c : ObjC) (f : MorE) (d : ObjD) :
    Except Status (Nat × CommaCtx ObjC ObjD MorC MorD MorE) :=
  match s.nodes.find? fun node =>
      if node.2.c ≠ c then false else if node.2.d ≠ d then false else node.2.f = f with
  | some node => .ok (node.1, s)
  | none =>
    if mem.retain ≠ .ok then .error mem.retain
    else
      match mem.node with
      | none => .error .nomem
      | some o => .ok (o, { s with nodes := (o, ⟨c, d, f⟩) :: s.nodes })

/-- `cmor_assemble`. -/
def cmorAssemble (mem : CommaMem) (dom cod : Nat) (u : MorC) (v : MorD) :
    Except Status (Nat × CommaCtx ObjC ObjD MorC MorD MorE) :=
  if mem.retain ≠ .ok then .error mem.retain
  else
    match mem.mor with
    | none => .error .nomem
    | some m => .ok (m, { s with live := (m, ⟨1, dom, cod, u, v⟩) :: s.live })

/-- `cat89_comma_obj_new`. -/
def commaObjNew [DecidableEq ObjC] [DecidableEq ObjD] [DecidableEq ObjE] [DecidableEq MorE]
    (mem : CommaMem) (c : ObjC) (f : MorE) (d : ObjD) :
    Except Status (Nat × CommaCtx ObjC ObjD MorC MorD MorE) :=
  if mem.base ≠ .ok then .error mem.base
  else if E.dom f ≠ F.obj c then .error .domain
  else if E.cod f ≠ G.obj d then .error .domain
  else s.cnodeIntern mem c f d

/-- `cat89_comma_mor_new`. -/
def commaMorNew [DecidableEq ObjC] [DecidableEq ObjD] [DecidableEq ObjE] [DecidableEq MorE]
    (mem : CommaMem) (domObj codObj : Nat) (u : MorC) (v : MorD) :
    Except Status (Nat × CommaCtx ObjC ObjD MorC MorD MorE) :=
  match s.nodes.find domObj, s.nodes.find codObj with
  | none, _ => .error .invalid
  | some _, none => .error .invalid
  | some dom, some cod =>
    if mem.base ≠ .ok then .error mem.base
    else if commaEndpointsOk C D dom cod u v = false then .error .domain
    else if mem.square ≠ .ok then .error mem.square
    else
      match commaSquareOk F G dom cod u v with
      | .error st => .error st
      | .ok false => .error .invalid
      | .ok true => s.cmorAssemble mem domObj codObj u v

/-- `comma_dom_cb`. -/
def commaDom (m : Nat) : Reply Nat := (s.live.find m).map fun mor => .ok mor.dom

/-- `comma_cod_cb`. -/
def commaCod (m : Nat) : Reply Nat := (s.live.find m).map fun mor => .ok mor.cod

/-- `comma_identity_cb`. -/
def commaIdentity (C : Category ObjC MorC) (D : Category ObjD MorD) (mem : CommaMem)
    (obj : Nat) : Reply (Nat × CommaCtx ObjC ObjD MorC MorD MorE) :=
  (s.nodes.find obj).map fun n =>
    if mem.base ≠ .ok then .error mem.base
    else s.cmorAssemble mem obj obj (C.ident n.c) (D.ident n.d)

/-- `comma_compose_cb`. -/
def commaCompose (C : Category ObjC MorC) (D : Category ObjD MorD) [DecidableEq ObjC]
    [DecidableEq ObjD] (mem : CommaMem) (g f : Nat) :
    Reply (Nat × CommaCtx ObjC ObjD MorC MorD MorE) :=
  (s.live.find g).bind fun gm =>
    (s.live.find f).map fun fm =>
      if mem.base ≠ .ok then .error mem.base
      else
        match baseCompose C gm.u fm.u with
        | .error st => .error st
        | .ok nu =>
          match baseCompose D gm.v fm.v with
          | .error st => .error st
          | .ok nv => s.cmorAssemble mem fm.dom gm.cod nu nv

/-- `comma_retain_cb` through `cat89_mor_retain`. -/
def commaRetain (m : Nat) : Reply (CommaCtx ObjC ObjD MorC MorD MorE) :=
  if s.live.owns m = false then some (.error .invalid)
  else
    (s.live.find m).map fun mor =>
      match refInc mor.refs with
      | .error st => .error st
      | .ok refs => .ok { s with live := s.live.update m fun mor => { mor with refs := refs } }

/-- `comma_release_cb` through `cat89_mor_release`. -/
def commaRelease (m : Nat) : Option (CommaCtx ObjC ObjD MorC MorD MorE) :=
  if s.live.owns m = false then some s
  else
    (s.live.find m).map fun mor =>
      if (refDec mor.refs).2 then { s with live := s.live.unlink m }
      else { s with live := s.live.update m fun mor => { mor with refs := (refDec mor.refs).1 } }

end CommaCtx

/-- `comma_ops`. -/
def commaOps (C : Category ObjC MorC) (D : Category ObjD MorD) [DecidableEq ObjC]
    [DecidableEq ObjD] (mem : CommaMem) :
    CategoryOps (CommaCtx ObjC ObjD MorC MorD MorE) Nat Nat where
  dom := CommaCtx.commaDom
  cod := CommaCtx.commaCod
  identity s o := s.commaIdentity C D mem o
  compose s g f := s.commaCompose C D mem g f
  objSame _ a b := some (a == b)
  ownsObj s o := s.nodes.owns o
  ownsMor s m := s.live.owns m

/-! ## Runs -/

/-- What the allocator may answer: blocks that neither a node nor a morphism occupies. -/
def CommaCtx.Allows (s : CommaCtx ObjC ObjD MorC MorD MorE) (mem : CommaMem) : Prop :=
  (∀ o, mem.node = some o → o ∉ s.nodes.addresses ∧ o ∉ s.live.addresses) ∧
    ∀ m, mem.mor = some m → m ∉ s.nodes.addresses ∧ m ∉ s.live.addresses

/-- A call on the category that succeeds. -/
inductive CommaCtx.Step [DecidableEq ObjC] [DecidableEq ObjD] [DecidableEq ObjE]
    [DecidableEq MorE] (F : CatFunctor C E) (G : CatFunctor D E) :
    CommaCtx ObjC ObjD MorC MorD MorE → CommaCtx ObjC ObjD MorC MorD MorE → Prop where
  | obj {s s' : CommaCtx ObjC ObjD MorC MorD MorE} {mem : CommaMem} {c : ObjC} {f : MorE}
      {d : ObjD} {o : Nat} (hmem : s.Allows mem)
      (h : s.commaObjNew F G mem c f d = .ok (o, s')) : Step F G s s'
  | mor {s s' : CommaCtx ObjC ObjD MorC MorD MorE} {mem : CommaMem} {domObj codObj m : Nat}
      {u : MorC} {v : MorD} (hmem : s.Allows mem)
      (h : s.commaMorNew F G mem domObj codObj u v = .ok (m, s')) : Step F G s s'
  | identity {s s' : CommaCtx ObjC ObjD MorC MorD MorE} {mem : CommaMem} {o m : Nat}
      (hmem : s.Allows mem)
      (h : Cat89.identity (commaOps C D mem) s o = some (.ok (m, s'))) : Step F G s s'
  | compose {s s' : CommaCtx ObjC ObjD MorC MorD MorE} {mem : CommaMem} {g f m : Nat}
      (hmem : s.Allows mem)
      (h : Cat89.compose (commaOps C D mem) s g f = some (.ok (m, s'))) : Step F G s s'
  | retain {s s' : CommaCtx ObjC ObjD MorC MorD MorE} {m : Nat}
      (h : s.commaRetain m = some (.ok s')) : Step F G s s'
  | release {s s' : CommaCtx ObjC ObjD MorC MorD MorE} {m : Nat}
      (h : s.commaRelease m = some s') : Step F G s s'

/-- The states that calls lead to from a new category. -/
def CommaCtx.Reached [DecidableEq ObjC] [DecidableEq ObjD] [DecidableEq ObjE]
    [DecidableEq MorE] (F : CatFunctor C E) (G : CatFunctor D E)
    (s : CommaCtx ObjC ObjD MorC MorD MorE) : Prop :=
  Relation.ReflTransGen (CommaCtx.Step F G) ⟨[], []⟩ s

end Cat89
