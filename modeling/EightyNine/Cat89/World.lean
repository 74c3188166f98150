import EightyNine.Cat89.Finite
import Mathlib.Logic.Relation

/-!
# libcat89: runs of the finite backend

A world holds a builder, once there is one, and the stores of the categories that were
built, which are not released.  A step is one call: on the builder, a build, or a call
on a built category that changes its store.  The allocator may refuse, and where it
answers for a morphism handle it does so with a block of its own.
-/

namespace Cat89

open Relation

/-! ## Calls on the builder -/

/-- The calls that change a builder. -/
inductive BuilderCall where
  | addObject
  | addMorphism (dom cod : Nat)
  | setIdentity (obj mor : Nat)
  | setComposition (g f result : Nat)

def Builder.call (room : Bool) (b : Builder) : BuilderCall → Status × Builder
  | .addObject => ((addObject room b).1, (addObject room b).2.2)
  | .addMorphism dom cod => ((addMorphism room b dom cod).1, (addMorphism room b dom cod).2.2)
  | .setIdentity obj mor => setIdentity b obj mor
  | .setComposition g f result => setComposition room b g f result

/-! ## Calls on a category -/

/-- `sizeof(struct fin_mor)`. -/
def sizeofFinMor : Nat := 32

namespace Store

/-- A block for a `struct fin_mor` that overlaps no live one. -/
def Fresh (s : Store) (m : Nat) : Prop :=
  m + sizeofFinMor ≤ 2 ^ 64 ∧
    ∀ link ∈ s.live, m + sizeofFinMor ≤ link.1 ∨ link.1 + sizeofFinMor ≤ m

/-- What the allocator may answer. -/
def Allows (s : Store) (mem : Option Nat) : Prop := ∀ m, mem = some m → s.Fresh m

/-- A call on the category that succeeds and changes its store. -/
inductive Step : Store → Store → Prop where
  | identity {s s' : Store} {mem : Option Nat} {obj m : Nat} (hmem : s.Allows mem)
      (h : Cat89.identity (finOps mem) s obj = some (.ok (m, s'))) : Step s s'
  | compose {s s' : Store} {mem : Option Nat} {g f m : Nat} (hmem : s.Allows mem)
      (h : Cat89.compose (finOps mem) s g f = some (.ok (m, s'))) : Step s s'
  | morNext {s s' : Store} {mem out : Option Nat} {next next' : Nat} (hmem : s.Allows mem)
      (h : s.morIterNext mem next = .ok (out, next', s')) : Step s s'
  | retain {s s' : Store} {m : Nat} (h : finMorRetain s m = some (.ok s')) : Step s s'
  | release {s s' : Store} {m : Nat} (h : finMorRelease s m = some s') : Step s s'

/-- The handle `m` is live and wraps row `i`. -/
def Denotes (s : Store) (m i : Nat) : Prop := ∃ refs, s.morCread m = some ⟨refs, i⟩

/-- The objects an iterator at `next` still hands out, up to its end, with other calls in
between. -/
inductive ObjDrain : Store → Nat → List Nat → Prop where
  | done {s : Store} {next next' : Nat} (h : s.objIterNext next = (none, next')) :
      ObjDrain s next []
  | next {s : Store} {next next' a : Nat} {objs : List Nat}
      (h : s.objIterNext next = (some a, next')) (hrest : ObjDrain s next' objs) :
      ObjDrain s next (a :: objs)
  | wait {s s' : Store} {next : Nat} {objs : List Nat} (h : Step s s')
      (hrest : ObjDrain s' next objs) : ObjDrain s next objs

/-- The rows of the morphisms an iterator at `next` still hands out, likewise. -/
inductive MorDrain : Store → Nat → List Nat → Prop where
  | done {s s' : Store} {mem : Option Nat} {next next' : Nat}
      (h : s.morIterNext mem next = .ok (none, next', s')) : MorDrain s next []
  | next {s s' : Store} {mem : Option Nat} {next next' m i : Nat} {rows : List Nat}
      (hmem : s.Allows mem) (h : s.morIterNext mem next = .ok (some m, next', s'))
      (hi : s'.Denotes m i) (hrest : MorDrain s' next' rows) : MorDrain s next (i :: rows)
  | wait {s s' : Store} {next : Nat} {rows : List Nat} (h : Step s s')
      (hrest : MorDrain s' next rows) : MorDrain s next rows

end Store

/-! ## Worlds -/

structure World where
  builder : Option Builder
  stores : List Store

inductive World.Step : World → World → Prop where
  | new (stores : List Store) : Step ⟨none, stores⟩ ⟨some builderNew, stores⟩
  | call (b : Builder) (stores : List Store) (room : Bool) (c : BuilderCall) :
      Step ⟨some b, stores⟩ ⟨some (b.call room c).2, stores⟩
  | release (b : Builder) (stores : List Store) : Step ⟨some b, stores⟩ ⟨none, stores⟩
  | build {b : Builder} {stores : List Store} {mem : Answers} {eq enum : Bool} {s : Store}
      (h : finiteBuild b mem eq enum = some (.ok s)) :
      Step ⟨some b, stores⟩ ⟨some b, stores ++ [s]⟩
  | category {b : Option Builder} {stores : List Store} {k : Nat} {s s' : Store}
      (hk : stores[k]? = some s) (h : s.Step s') : Step ⟨b, stores⟩ ⟨b, stores.set k s'⟩

def World.Steps : World → World → Prop := ReflTransGen World.Step

/-- The worlds that calls lead to. -/
def World.Reached (w : World) : Prop := World.Steps ⟨none, []⟩ w

end Cat89
