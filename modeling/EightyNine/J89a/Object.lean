import Mathlib.Algebra.BigOperators.Group.Multiset.Basic

/-!
# Lists and bags of the algebraic core

The algebraic core of libj89 takes a value as an element of the fixed point
`J = 1 + 2 + N + S + L(J) + B(S x J)`.  An array is an ordered list.  An object is a
*bag* of member occurrences, built as a tree of `empty`, `member` and `union`, and
the tree carries no order.

Objects are mapped and folded by one machine.  Its first stack holds the nodes still
to visit and, as `NULL`, the places where two results are to be combined.  Its second
stack holds the results.  `visit_eq` says that the machine is the recursion over the
tree.  Lists are folded from the back, over a vector that was filled from the front.
-/

namespace J89a

open List

/-- `j89a_status` without `J89A_OK`.  `fault` is no status of the code: it stands for a
read outside the vector of results. -/
inductive Status
  | nomem
  | callback
  | internal
  | fault

/-- What a call with a status and an out parameter gives back. -/
abbrev Result := Except Status

/-- `struct j89a_object`, over the type of the member values. -/
inductive Bag (S α : Type)
  | empty
  | member (name : S) (value : α)
  | union (left right : Bag S α)

/-- `struct j89a_json`, over the carriers of numbers and of strings. -/
inductive Json (N S : Type)
  | null
  | boolean (b : Bool)
  | number (n : N)
  | string (s : S)
  | array (xs : List (Json N S))
  | object (ms : Bag S (Json N S))

variable {P N S T α β γ R : Type}

/-- The values in the tree, from left to right. -/
def Bag.values : Bag S α → List α
  | .empty => []
  | .member _ value => [value]
  | .union left right => left.values ++ right.values

/-- A bag with its names and its values changed. -/
def Bag.map (h : S → T) (f : α → β) : Bag S α → Bag T β
  | .empty => .empty
  | .member name value => .member (h name) (f value)
  | .union left right => .union (left.map h f) (right.map h f)

theorem Bag.sizeOf_lt [SizeOf S] [SizeOf α] {o : Bag S α} {x : α} (h : x ∈ o.values) :
    sizeOf x < sizeOf o := by
  induction o with
  | empty => exact absurd h not_mem_nil
  | member name value =>
    rw [Bag.values, mem_singleton] at h
    rw [h, Bag.member.sizeOf_spec]
    omega
  | union left right ihl ihr =>
    rw [Bag.values, mem_append] at h
    rw [Bag.union.sizeOf_spec]
    rcases h with h | h
    · have := ihl h
      omega
    · have := ihr h
      omega

/-- Induction over a value, with one case for all elements and one for all members. -/
theorem Json.induction {motive : Json N S → Prop} (null : motive .null)
    (boolean : ∀ b, motive (.boolean b)) (number : ∀ n, motive (.number n))
    (string : ∀ s, motive (.string s))
    (array : ∀ xs, (∀ x ∈ xs, motive x) → motive (.array xs))
    (object : ∀ ms, (∀ x ∈ Bag.values ms, motive x) → motive (.object ms)) : ∀ value, motive value
  | .null => null
  | .boolean b => boolean b
  | .number n => number n
  | .string s => string s
  | .array xs =>
    array xs fun x _ => Json.induction null boolean number string array object x
  | .object ms =>
    object ms fun x _ => Json.induction null boolean number string array object x
termination_by value => sizeOf value
decreasing_by
  · have := sizeOf_lt_of_mem ‹x ∈ xs›
    rw [Json.array.sizeOf_spec]
    omega
  · have := Bag.sizeOf_lt ‹x ∈ ms.values›
    rw [Json.object.sizeOf_spec]
    omega

/-! ## The machine over a bag -/

/-- What is done at each kind of node. -/
structure Visit (S α R : Type) where
  /-- An `EMPTY` node. -/
  empty : Result R
  /-- A `MEMBER` node. -/
  member : S → α → Result R
  /-- The marker, with the results for the left and the right child. -/
  combine : R → R → Result R

/-- The nodes and markers that a bag leads to. -/
def Bag.frames : Bag S α → Nat
  | .empty => 1
  | .member _ _ => 1
  | .union left right => left.frames + right.frames + 2

/-- The frames that a stack of nodes and markers leads to. -/
def frames : List (Option (Bag S α)) → Nat
  | [] => 0
  | none :: f => frames f + 1
  | some o :: f => frames f + o.frames

/-- The marker pops the right result and then the left one. -/
def Visit.pop (v : Visit S α R) : List R → Result (List R)
  | right :: left :: r => do .ok ((← v.combine left right) :: r)
  | _ => .error .fault

/-- The loops of `j89a_object_map` and `j89a_object_fold`.  A union pushes the marker, the
right and then the left child. -/
def visitLoop (v : Visit S α R) (f : List (Option (Bag S α))) (r : List R) : Result (List R) :=
  match f with
  | [] => .ok r
  | none :: f => do
    let r ← v.pop r
    visitLoop v f r
  | some .empty :: f => do
    let m ← v.empty
    visitLoop v f (m :: r)
  | some (.member name value) :: f => do
    let m ← v.member name value
    visitLoop v f (m :: r)
  | some (.union left right) :: f => visitLoop v (some left :: some right :: none :: f) r
termination_by frames f
decreasing_by all_goals simp only [frames, Bag.frames]; omega

/-- The last result in the vector. -/
def last : List R → Result R
  | m :: _ => .ok m
  | [] => .error .fault

/-- The machine, from the root to its last result. -/
def visit (v : Visit S α R) (o : Bag S α) : Result R := do
  let r ← visitLoop v [some o] []
  last r

/-! ## The operations on objects -/

/-- `obj_map_member`. -/
def objMapMember (nameMap : P → S → Option S) (valueMap : P → α → Result β) (ctx : P)
    (name : S) (value : α) : Result (Bag S β) :=
  match nameMap ctx name with
  | none => .error .nomem
  | some newName => do .ok (.member newName (← valueMap ctx value))

/-- `j89a_object_map`. -/
def objectMap (o : Bag S α) (nameMap : P → S → Option S) (valueMap : P → α → Result β)
    (ctx : P) : Result (Bag S β) :=
  visit ⟨.ok .empty, objMapMember nameMap valueMap ctx, fun left right => .ok (.union left right)⟩
    o

/-- `j89a_rtype`.  A `copy` of `NULL` copies the bytes. -/
structure RType (R : Type) where
  /-- The duplication of a result. -/
  copy : Option (R → Result R)

/-- `j89a_rcopy`. -/
def rcopy (rt : RType R) (src : R) : Result R :=
  match rt.copy with
  | some copy => copy src
  | none => .ok src

/-- `j89a_object_fold`. -/
def objectFold (o : Bag S α) (rt : RType R) (zero : R) (member : P → S → α → Result R)
    (combine : P → R → R → Result R) (ctx : P) : Result R := do
  let final ← visit ⟨rcopy rt zero, member ctx, combine ctx⟩ o
  rcopy rt final

/-! ## The operations on lists -/

/-- `fold_collect` until the end of the list.  The vector has its last entry first. -/
def foldCollect : List α → List α → List α
  | [], v => v
  | head :: tail, v => foldCollect tail (head :: v)

/-- `fold_pop_step` until the vector is empty. -/
def foldPops (step : P → α → R → Result R) (ctx : P) : List α → R → Result R
  | [], acc => .ok acc
  | head :: v, acc => do foldPops step ctx v (← step ctx head acc)

/-- `j89a_list_fold`. -/
def listFold (xs : List α) (rt : RType R) (zero : R) (step : P → α → R → Result R) (ctx : P) :
    Result R := do
  let v := foldCollect xs []
  let acc ← rcopy rt zero
  let acc ← foldPops step ctx v acc
  rcopy rt acc

/-- `map_step` until the end of the list. -/
def mapSteps (map : P → α → Result β) (ctx : P) : List α → List β → Result (List β)
  | [], v => .ok v
  | head :: tail, v => do mapSteps map ctx tail ((← map ctx head) :: v)

/-- `map_link` until the vector is empty. -/
def mapLinks : List β → List β → List β
  | [], result => result
  | head :: v, result => mapLinks v (head :: result)

/-- `j89a_list_map`. -/
def listMap (xs : List α) (map : P → α → Result β) (ctx : P) : Result (List β) :=
  if xs.isEmpty then .ok []
  else do
    let v ← mapSteps map ctx xs []
    .ok (mapLinks v [])

/-! ## The machine is the recursion -/

/-- The recursion that the machine replaces. -/
def Bag.walk (v : Visit S α R) : Bag S α → Result R
  | .empty => v.empty
  | .member name value => v.member name value
  | .union left right => do
    let l ← left.walk v
    let r ← right.walk v
    v.combine l r

/-- Visiting a bag puts the answer of the recursion on the results. -/
theorem visitLoop_some (v : Visit S α R) (o : Bag S α) :
    ∀ f r, visitLoop v (some o :: f) r = o.walk v >>= fun m => visitLoop v f (m :: r) := by
  induction o with
  | empty | member name value =>
    intro f r
    rw [visitLoop]
    rfl
  | union left right ihl ihr =>
    intro f r
    rw [visitLoop, ihl, Bag.walk]
    cases left.walk v with
    | error e => rfl
    | ok l =>
      simp only [bind, Except.bind] at ihr ⊢
      rw [ihr]
      cases right.walk v with
      | error e => rfl
      | ok m =>
        simp only
        rw [visitLoop]
        simp only [Visit.pop, bind, Except.bind]
        cases v.combine l m with
        | error e | ok u => rfl

theorem visit_eq (v : Visit S α R) (o : Bag S α) : visit v o = o.walk v := by
  unfold visit
  rw [visitLoop_some]
  cases o.walk v with
  | error e => rfl
  | ok m =>
    simp only [bind, Except.bind]
    rw [visitLoop]
    rfl

theorem foldCollect_eq (xs : List α) : ∀ v, foldCollect xs v = xs.reverse ++ v := by
  induction xs with
  | nil => intro v; rfl
  | cons x xs ih =>
    intro v
    rw [foldCollect, ih, reverse_cons, append_assoc]
    rfl

theorem mapLinks_eq (v : List β) : ∀ result, mapLinks v result = v.reverse ++ result := by
  induction v with
  | nil => intro result; rfl
  | cons x v ih =>
    intro result
    rw [mapLinks, ih, reverse_cons, append_assoc]
    rfl

/-! ## Bags as multisets -/

/-- The bag that the tree stands for. -/
def Bag.members : Bag S α → Multiset (S × α)
  | .empty => 0
  | .member name value => {(name, value)}
  | .union left right => left.members + right.members

/-- Two trees that unions, empty objects and their order tell apart, and nothing else. -/
inductive Rearranged : Bag S α → Bag S α → Prop
  | refl (o) : Rearranged o o
  | symm {o o'} : Rearranged o o' → Rearranged o' o
  | trans {o p q} : Rearranged o p → Rearranged p q → Rearranged o q
  | union {l l' r r'} : Rearranged l l' → Rearranged r r' → Rearranged (.union l r) (.union l' r')
  | assoc (l m r) : Rearranged (.union (.union l m) r) (.union l (.union m r))
  | swap (l r) : Rearranged (.union l r) (.union r l)
  | pad (o) : Rearranged (.union .empty o) o

theorem Rearranged.members_eq {o o' : Bag S α} (h : Rearranged o o') : o.members = o'.members := by
  induction h with
  | refl o => rfl
  | symm _ ih => exact ih.symm
  | trans _ _ ih1 ih2 => exact ih1.trans ih2
  | union _ _ ih1 ih2 => rw [Bag.members, Bag.members, ih1, ih2]
  | assoc l m r => exact add_assoc _ _ _
  | swap l r => exact add_comm _ _
  | pad o => exact zero_add _

end J89a
