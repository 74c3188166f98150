import EightyNine.Wasm89.TypeEnv
import Mathlib.Logic.Relation

/-!
# Iso-recursive types

A type of a section stands for a rolled recursive group and a position in it.  Inside
the group a reference to the group itself is a position, and any other reference is
the rolled type it stands for.  Two types are equal when they stand for the same.
What can be replaced in a type is its references, so the groups are rolled by mapping
them, and matching follows the supertypes of rolled types.
-/

namespace Wasm89

open List

variable {ρ σ : Type}

/-! ## References of a type -/

def HeapType.map (f : ρ → σ) : HeapType ρ → HeapType σ
  | .idx x => .idx (f x)
  | .abs h => .abs h

def RefType.map (f : ρ → σ) (rt : RefType ρ) : RefType σ := ⟨rt.nullable, rt.ht.map f⟩

def ValType.map (f : ρ → σ) : ValType ρ → ValType σ
  | .num n => .num n
  | .ref rt => .ref (rt.map f)

def StorageType.map (f : ρ → σ) : StorageType ρ → StorageType σ
  | .packed p => .packed p
  | .val vt => .val (vt.map f)

def FieldType.map (f : ρ → σ) (ft : FieldType ρ) : FieldType σ := ⟨ft.storage.map f, ft.isMut⟩

def CompType.map (f : ρ → σ) : CompType ρ → CompType σ
  | .func ps rs => .func (ps.map (.map f)) (rs.map (.map f))
  | .struct fs => .struct (fs.map (.map f))
  | .array ft => .array (ft.map f)

def SubType.map (f : ρ → σ) (sub : SubType ρ) : SubType σ :=
  ⟨sub.isFinal, sub.supertypes.map f, sub.comp.map f⟩

def HeapType.uses : HeapType ρ → List ρ
  | .idx x => [x]
  | .abs _ => []

def ValType.uses : ValType ρ → List ρ
  | .num _ => []
  | .ref rt => rt.ht.uses

def FieldType.uses (ft : FieldType ρ) : List ρ :=
  match ft.storage with
  | .packed _ => []
  | .val vt => vt.uses

def CompType.uses : CompType ρ → List ρ
  | .func ps rs => ps.flatMap ValType.uses ++ rs.flatMap ValType.uses
  | .struct fs => fs.flatMap FieldType.uses
  | .array ft => ft.uses

/-- The references of a type. -/
def SubType.uses (sub : SubType ρ) : List ρ := sub.supertypes ++ sub.comp.uses

/-! ## Mutability -/

def FieldType.eraseMut (ft : FieldType ρ) : FieldType ρ := { ft with isMut := false }

def CompType.eraseMut : CompType ρ → CompType ρ
  | .func ps rs => .func ps rs
  | .struct fs => .struct (fs.map FieldType.eraseMut)
  | .array ft => .array ft.eraseMut

/-- The type with every field immutable. -/
def SubType.eraseMut (sub : SubType ρ) : SubType ρ := { sub with comp := sub.comp.eraseMut }

/-- A type section with every field immutable. -/
def eraseMuts (rts : List (RecType Nat)) : List (RecType Nat) :=
  rts.map fun rt => rt.map SubType.eraseMut

/-! ## Rolling -/

/-- A rolled group and a position in it. -/
inductive Rolled where
  | roll (subs : List (SubType (Nat ⊕ Rolled))) (pos : Nat)

/-- The reference `x`, when the types `acc` come before the group. -/
def rollRef (acc : List Rolled) (x : Nat) : Nat ⊕ Rolled :=
  match acc[x]? with
  | some c => .inr c
  | none => .inl (x - acc.length)

/-- The types of a group, when the types `acc` come before it. -/
def rollGroup (acc : List Rolled) (rt : RecType Nat) : List Rolled :=
  (List.range rt.length).map fun k => .roll (rt.map (.map (rollRef acc))) k

/-- What the types of a section stand for, after the types `acc`. -/
def rollFrom (acc : List Rolled) : List (RecType Nat) → List Rolled
  | [] => acc
  | rt :: rts => rollFrom (acc ++ rollGroup acc rt) rts

/-- What the types of a section stand for. -/
def rolledTypes (rts : List (RecType Nat)) : List Rolled := rollFrom [] rts

/-- What a type of a section stands for. -/
def rolled (rts : List (RecType Nat)) (x : Nat) : Option Rolled := (rolledTypes rts)[x]?

/-- What a reference inside a rolled group stands for. -/
def unroll (subs : List (SubType (Nat ⊕ Rolled))) : Nat ⊕ Rolled → Rolled
  | .inl k => .roll subs k
  | .inr c => c

/-- `d` is a declared supertype of `c`. -/
def DeclaredSuper (c d : Rolled) : Prop :=
  ∃ subs pos sub, c = .roll subs pos ∧ subs[pos]? = some sub ∧
    ∃ r ∈ sub.supertypes, d = unroll subs r

/-- The type `a` of one section matches the type `b` of another: a supertype of it stands for
the same. -/
def Below (rts : List (RecType Nat)) (a : Nat) (rts' : List (RecType Nat)) (b : Nat) : Prop :=
  ∃ c d, rolled rts a = some c ∧ rolled rts' b = some d ∧ Relation.ReflTransGen DeclaredSuper c d

/-- The index `y` is declared a supertype of the type `x`. -/
def Declares (rts : List (RecType Nat)) (x y : Nat) : Prop :=
  ∃ sub, rts.flatten[x]? = some sub ∧ y ∈ sub.supertypes

/-! ## Where a type is -/

variable {rts rts' pre post : List (RecType Nat)} {rt : RecType Nat} {sub : SubType Nat}
  {x y k first : Nat} {acc : List Rolled}

/-- The type `x` is the `k`-th of the group `rt`, which comes after the groups `pre`. -/
structure Located (rts : List (RecType Nat)) (x : Nat) (pre : List (RecType Nat))
    (rt : RecType Nat) (k : Nat) (sub : SubType Nat) : Prop where
  groups : ∃ post, rts = pre ++ rt :: post
  index : x = pre.flatten.length + k
  sub : rt[k]? = some sub

theorem exists_located (h : x < rts.flatten.length) :
    ∃ pre rt k sub, Located rts x pre rt k sub := by
  induction rts generalizing x with
  | nil => exact absurd h (Nat.not_lt_zero x)
  | cons rt rts ih =>
    rw [flatten_cons, length_append] at h
    rcases lt_or_ge x rt.length with hlt | hge
    · exact ⟨[], rt, x, rt[x], ⟨rts, rfl⟩, (Nat.zero_add x).symm, List.getElem?_eq_getElem hlt⟩
    · obtain ⟨pre, rt', k, sub, ⟨post, hpost⟩, hx, hsub⟩ := ih (x := x - rt.length) (by omega)
      refine ⟨rt :: pre, rt', k, sub, ⟨post, by rw [hpost, cons_append]⟩, ?_, hsub⟩
      rw [flatten_cons, length_append]
      omega

theorem length_rollGroup (acc : List Rolled) (rt : RecType Nat) :
    (rollGroup acc rt).length = rt.length := by
  rw [rollGroup, length_map, length_range]

theorem rollFrom_append (acc : List Rolled) (rts rts' : List (RecType Nat)) :
    rollFrom acc (rts ++ rts') = rollFrom (rollFrom acc rts) rts' := by
  induction rts generalizing acc with
  | nil => rfl
  | cons rt rts ih => exact ih (acc ++ rollGroup acc rt)

theorem length_rollFrom (acc : List Rolled) (rts : List (RecType Nat)) :
    (rollFrom acc rts).length = acc.length + rts.flatten.length := by
  induction rts generalizing acc with
  | nil => rfl
  | cons rt rts ih =>
    rw [rollFrom, ih, length_append, length_rollGroup, flatten_cons, length_append,
      Nat.add_assoc]

@[simp] theorem length_rolledTypes (rts : List (RecType Nat)) :
    (rolledTypes rts).length = rts.flatten.length := by
  rw [rolledTypes, length_rollFrom, length_nil, Nat.zero_add]

/-- Later groups leave the types before them as they are. -/
theorem prefix_rollFrom (acc : List Rolled) (rts : List (RecType Nat)) :
    acc <+: rollFrom acc rts := by
  induction rts generalizing acc with
  | nil => exact prefix_rfl
  | cons rt rts ih => exact (prefix_append acc _).trans (ih _)

theorem rolled_append_left (h : x < pre.flatten.length) : rolled (pre ++ rts) x = rolled pre x := by
  obtain ⟨l, hl⟩ := prefix_rollFrom (rolledTypes pre) rts
  rw [rolled, rolledTypes, rollFrom_append, ← rolledTypes, ← hl,
    List.getElem?_append_left (by simpa using h), rolled]

theorem Located.rolled_eq (h : Located rts x pre rt k sub) :
    rolled rts x = some (.roll (rt.map (.map (rollRef (rolledTypes pre)))) k) := by
  obtain ⟨⟨post, rfl⟩, rfl, hsub⟩ := h
  have hk := (List.getElem?_eq_some_iff.mp hsub).1
  obtain ⟨l, hl⟩ := prefix_rollFrom (rolledTypes pre ++ rollGroup (rolledTypes pre) rt) post
  rw [rolled, rolledTypes, rollFrom_append, ← rolledTypes, rollFrom, ← hl,
    append_assoc, List.getElem?_append_right (by simp), length_rolledTypes,
    Nat.add_sub_cancel_left, List.getElem?_append_left (by rw [length_rollGroup]; exact hk),
    rollGroup, List.getElem?_map, List.getElem?_range hk]
  rfl

theorem Located.unroll_eq (h : Located rts x pre rt k sub)
    (hy : y < pre.flatten.length + rt.length) :
    rolled rts y = some (unroll (rt.map (.map (rollRef (rolledTypes pre))))
      (rollRef (rolledTypes pre) y)) := by
  obtain ⟨⟨post, rfl⟩, rfl, hsub⟩ := h
  rcases lt_or_ge y pre.flatten.length with hlt | hge
  · have hget := List.getElem?_eq_getElem (l := rolledTypes pre) (i := y) (by simpa using hlt)
    rw [rolled_append_left hlt, rolled, rollRef, hget]
    rfl
  · obtain ⟨j, rfl⟩ : ∃ j, y = pre.flatten.length + j := ⟨y - pre.flatten.length, by omega⟩
    obtain ⟨sub', hsub'⟩ : ∃ sub', rt[j]? = some sub' := ⟨_, List.getElem?_eq_getElem (by omega)⟩
    have hloc : Located (pre ++ rt :: post) (pre.flatten.length + j) pre rt j sub' :=
      ⟨⟨post, rfl⟩, rfl, hsub'⟩
    have hnone : (rolledTypes pre)[pre.flatten.length + j]? = none := by simp
    rw [hloc.rolled_eq, rollRef, hnone]
    simp [unroll]

end Wasm89
