import EightyNine.J89a.Object

/-!
# The functorial map

`j89a_json_map` maps the numbers and the strings of a value.  It hands the address of a
block of its own (`struct j89a_map_ctx`) down the recursion, and that block carries the
context of the caller.  Numbers and string scalars are mapped with the context of the
caller.  `map_object` passes the block itself to `j89a_object_map`, which hands it to the
map of member names.

So `jsonMap_eq` has two string maps, one for scalars and one for names, and the map is the
functorial action exactly where the two agree on the member names of the value.
-/

namespace J89a

open List

variable {P N S T α β γ : Type}

/-! ## The source -/

/-- `struct j89a_map_ctx` with the address it is stored at. -/
structure MapCtx (P N S : Type) where
  /-- The address of the block. -/
  self : P
  /-- The map of numbers. -/
  numberMap : P → N → N
  /-- The map of strings.  `NULL` is a refused allocation. -/
  stringMap : P → S → Option S
  /-- The context of the caller. -/
  user : P

/-- A bag whose values carry that they are values of it. -/
def Bag.attach : (o : Bag S α) → Bag S {x : α // x ∈ o.values}
  | .empty => .empty
  | .member name value => .member name ⟨value, mem_singleton_self _⟩
  | .union left right =>
    .union (left.attach.map id fun x => ⟨x.1, mem_append_left _ x.2⟩)
      (right.attach.map id fun x => ⟨x.1, mem_append_right _ x.2⟩)

/-- `map_value`, with `map_null` to `map_object`.  The callbacks of the list map and of the
object map take the block back from their context, which is its address. -/
def mapValue (mc : MapCtx P N S) : Json N S → Result (Json N S)
  | .null => .ok .null
  | .boolean b => .ok (.boolean b)
  | .number n => .ok (.number (mc.numberMap mc.user n))
  | .string s =>
    match mc.stringMap mc.user s with
    | none => .error .nomem
    | some t => .ok (.string t)
  | .array xs => do
    let mapped ← listMap xs.attach (fun _ x => mapValue mc x.1) mc.self
    .ok (.array mapped)
  | .object ms => do
    let mapped ← objectMap ms.attach mc.stringMap (fun _ x => mapValue mc x.1) mc.self
    .ok (.object mapped)
termination_by value => sizeOf value
decreasing_by
  · have := sizeOf_lt_of_mem x.2
    rw [Json.array.sizeOf_spec]
    omega
  · have := Bag.sizeOf_lt x.2
    rw [Json.object.sizeOf_spec]
    omega

/-- `j89a_json_map`, with the address of its block.  `NULL` is a failure. -/
def jsonMap (frame : P) (value : Json N S) (numberMap : P → N → N)
    (stringMap : P → S → Option S) (ctx : P) : Option (Json N S) :=
  match mapValue ⟨frame, numberMap, stringMap, ctx⟩ value with
  | .ok result => some result
  | .error _ => none

/-! ## The functorial action -/

mutual

/-- A value with its numbers, its string scalars and its member names changed. -/
def Json.trimap (f : N → N) (g h : S → S) : Json N S → Json N S
  | .null => .null
  | .boolean b => .boolean b
  | .number n => .number (f n)
  | .string s => .string (g s)
  | .array xs => .array (trimapList f g h xs)
  | .object ms => .object (trimapBag f g h ms)

/-- The elements changed. -/
def trimapList (f : N → N) (g h : S → S) : List (Json N S) → List (Json N S)
  | [] => []
  | x :: xs => x.trimap f g h :: trimapList f g h xs

/-- The members changed. -/
def trimapBag (f : N → N) (g h : S → S) : Bag S (Json N S) → Bag S (Json N S)
  | .empty => .empty
  | .member name value => .member (h name) (value.trimap f g h)
  | .union left right => .union (trimapBag f g h left) (trimapBag f g h right)

end

/-- The functorial action on both carriers.  Names are strings. -/
def Json.bimap (f : N → N) (g : S → S) (value : Json N S) : Json N S := value.trimap f g g

mutual

/-- The member names of a value, at every depth. -/
def Json.names : Json N S → List S
  | .null => []
  | .boolean _ => []
  | .number _ => []
  | .string _ => []
  | .array xs => namesList xs
  | .object ms => namesBag ms

/-- The member names in a list of values. -/
def namesList : List (Json N S) → List S
  | [] => []
  | x :: xs => x.names ++ namesList xs

/-- The member names of an object and in its members. -/
def namesBag : Bag S (Json N S) → List S
  | .empty => []
  | .member name value => name :: value.names
  | .union left right => namesBag left ++ namesBag right

end

attribute [local simp] mapValue Bag.attach Bag.map Bag.walk mapSteps Json.trimap trimapList
  trimapBag Json.names namesList namesBag

/-! ## The map is the action, up to the context of names -/

variable {map : P → α → Result β} {ctx : P} {m : α → β} {xs : List α}

theorem mapSteps_ok (h : ∀ x ∈ xs, map ctx x = .ok (m x)) :
    ∀ v, mapSteps map ctx xs v = .ok ((xs.map m).reverse ++ v) := by
  induction xs with
  | nil => intro v; rfl
  | cons x xs ih =>
    intro v
    rw [mapSteps, h x mem_cons_self]
    simp only [bind, Except.bind]
    rw [ih fun y hy => h y (mem_cons_of_mem _ hy), map_cons, reverse_cons, append_assoc]
    rfl

theorem listMap_ok (h : ∀ x ∈ xs, map ctx x = .ok (m x)) : listMap xs map ctx = .ok (xs.map m) := by
  cases xs with
  | nil => rfl
  | cons x xs =>
    simp only [listMap, isEmpty_cons, Bool.false_eq_true, if_false, mapSteps_ok h, bind,
      Except.bind, mapLinks_eq, append_nil, reverse_reverse]

variable {nameMap : P → S → Option S} {valueMap : P → α → Result β} {h : S → S} {o : Bag S α}

theorem Bag.walk_ok (hn : ∀ s, nameMap ctx s = some (h s))
    (hv : ∀ x ∈ o.values, valueMap ctx x = .ok (m x)) :
    o.walk ⟨.ok .empty, objMapMember nameMap valueMap ctx, fun l r => .ok (.union l r)⟩
      = .ok (o.map h m) := by
  induction o with
  | empty => rfl
  | member name value =>
    simp only [Bag.walk, objMapMember, hn name, hv value (mem_singleton_self _), bind,
      Except.bind, Bag.map]
  | union left right ihl ihr =>
    rw [Bag.walk, ihl fun x hx => hv x (mem_append_left _ hx),
      ihr fun x hx => hv x (mem_append_right _ hx)]
    rfl

theorem objectMap_ok (hn : ∀ s, nameMap ctx s = some (h s))
    (hv : ∀ x ∈ o.values, valueMap ctx x = .ok (m x)) :
    objectMap o nameMap valueMap ctx = .ok (o.map h m) := by
  rw [objectMap, visit_eq]
  exact Bag.walk_ok hn hv

theorem Bag.map_map (h : S → T) (f : α → β) (h' : T → S) (f' : β → γ) (o : Bag S α) :
    (o.map h f).map h' f' = o.map (h' ∘ h) (f' ∘ f) := by
  induction o with
  | empty | member name value => rfl
  | union left right ihl ihr => rw [Bag.map, Bag.map, ihl, ihr, Bag.map]

theorem Bag.map_attach (h : S → S) (m : α → β) (o : Bag S α) :
    o.attach.map h (fun x => m x.1) = o.map h m := by
  induction o with
  | empty | member name value => rfl
  | union left right ihl ihr =>
    rw [Bag.attach, Bag.map, Bag.map_map, Bag.map_map, Bag.map]
    exact congrArg₂ Bag.union ihl ihr

theorem trimapList_eq (f : N → N) (g h : S → S) (xs : List (Json N S)) :
    trimapList f g h xs = xs.map (Json.trimap f g h) := by
  induction xs with
  | nil => rfl
  | cons x xs ih => rw [trimapList, ih, map_cons]

theorem trimapBag_eq (f : N → N) (g h : S → S) (o : Bag S (Json N S)) :
    trimapBag f g h o = o.map h (Json.trimap f g h) := by
  induction o with
  | empty | member name value => rfl
  | union left right ihl ihr => rw [trimapBag, ihl, ihr, Bag.map]

/-- Scalars are mapped with the context of the caller, names with the address of the block. -/
theorem mapValue_eq (frame ctx : P) (f : P → N → N) (g : P → S → S) (value : Json N S) :
    mapValue ⟨frame, f, fun c s => some (g c s), ctx⟩ value
      = .ok (value.trimap (f ctx) (g ctx) (g frame)) := by
  induction value using Json.induction with
  | null | boolean b | number n | string s => rw [mapValue, Json.trimap]
  | array xs ih =>
    rw [mapValue, Json.trimap, trimapList_eq, listMap_ok fun x _ => ih x.1 x.2]
    simp only [bind, Except.bind, attach_map_val]
  | object ms ih =>
    rw [mapValue, Json.trimap, trimapBag_eq,
      objectMap_ok (h := g frame) (fun _ => rfl) fun x _ => ih x.1 x.2, Bag.map_attach]
    rfl

/-- The map of a value, whatever the string map makes of the address of the block. -/
theorem jsonMap_eq (frame ctx : P) (f : P → N → N) (g : P → S → S) (value : Json N S) :
    jsonMap frame value f (fun c s => some (g c s)) ctx
      = some (value.trimap (f ctx) (g ctx) (g frame)) := by
  rw [jsonMap, mapValue_eq]

/-! ## The laws of the action -/

theorem Bag.map_congr {h h' : S → T} {f f' : α → β} (hn : h = h')
    (hv : ∀ x ∈ o.values, f x = f' x) : o.map h f = o.map h' f' := by
  subst hn
  induction o with
  | empty => rfl
  | member name value => rw [Bag.map, Bag.map, hv value (mem_singleton_self _)]
  | union left right ihl ihr =>
    rw [Bag.map, Bag.map, ihl fun x hx => hv x (mem_append_left _ hx),
      ihr fun x hx => hv x (mem_append_right _ hx)]

theorem Bag.map_id (o : Bag S α) : o.map id id = o := by
  induction o with
  | empty | member name value => rfl
  | union left right ihl ihr => rw [Bag.map, ihl, ihr]

theorem Json.bimap_id (value : Json N S) : value.bimap id id = value := by
  rw [Json.bimap]
  induction value using Json.induction with
  | null | boolean b => rw [Json.trimap]
  | number n | string s => rw [Json.trimap, id]
  | array xs ih => rw [Json.trimap, trimapList_eq, map_congr_left ih, map_id']
  | object ms ih =>
    have hid : ms.map id (Json.trimap id id id) = ms.map id id := Bag.map_congr rfl ih
    rw [Json.trimap, trimapBag_eq, hid, Bag.map_id]

theorem Json.bimap_bimap (f f' : N → N) (g g' : S → S) (value : Json N S) :
    (value.bimap f g).bimap f' g' = value.bimap (f' ∘ f) (g' ∘ g) := by
  rw [Json.bimap, Json.bimap, Json.bimap]
  induction value using Json.induction with
  | null | boolean b => simp only [Json.trimap]
  | number n | string s => simp only [Json.trimap, Function.comp]
  | array xs ih =>
    simp only [Json.trimap, trimapList_eq, map_map]
    exact congrArg Json.array (map_congr_left ih)
  | object ms ih =>
    simp only [Json.trimap, trimapBag_eq, Bag.map_map]
    exact congrArg Json.object (Bag.map_congr rfl ih)

theorem namesList_mem (m : S) (xs : List (Json N S)) :
    m ∈ namesList xs ↔ ∃ x ∈ xs, m ∈ x.names := by
  induction xs with
  | nil => simp [namesList]
  | cons x xs ih => simp [namesList, ih]

/-- Two string maps give the same value exactly where they agree on the names. -/
theorem Json.trimap_eq_iff (f : N → N) (g h : S → S) (value : Json N S) :
    value.trimap f g h = value.trimap f g g ↔ ∀ m ∈ value.names, h m = g m := by
  induction value using Json.induction with
  | null | boolean b | number n | string s => simp [Json.trimap, Json.names]
  | array xs ih =>
    rw [Json.trimap, Json.trimap, Json.names, Json.array.injEq, trimapList_eq, trimapList_eq,
      map_inj_left]
    constructor
    · intro hall m hm
      obtain ⟨x, hx, hmx⟩ := (namesList_mem m xs).1 hm
      exact (ih x hx).1 (hall x hx) m hmx
    · intro hall x hx
      exact (ih x hx).2 fun m hm => hall m ((namesList_mem m xs).2 ⟨x, hx, hm⟩)
  | object ms ih =>
    rw [Json.trimap, Json.trimap, Json.names, Json.object.injEq]
    induction ms with
    | empty => simp [trimapBag, namesBag]
    | member name value =>
      rw [trimapBag, trimapBag, namesBag, Bag.member.injEq, forall_mem_cons,
        ih value (mem_singleton_self _)]
    | union left right ihl ihr =>
      rw [trimapBag, trimapBag, namesBag, Bag.union.injEq, forall_mem_append,
        ihl fun x hx => ih x (mem_append_left _ hx),
        ihr fun x hx => ih x (mem_append_right _ hx)]

/-- The map is the functorial action exactly where the string map answers the same for the
block of the map as for the context of the caller, on every member name of the value; and the
action is a functor. -/
theorem jsonMap_functorial_iff (frame ctx : P) (f : P → N → N) (g : P → S → S)
    (value : Json N S) :
    (jsonMap frame value f (fun c s => some (g c s)) ctx = some (value.bimap (f ctx) (g ctx))
      ↔ ∀ m ∈ value.names, g frame m = g ctx m)
    ∧ value.bimap id id = value
    ∧ ∀ f' g', (value.bimap (f ctx) (g ctx)).bimap f' g'
        = value.bimap (f' ∘ f ctx) (g' ∘ g ctx) := by
  refine ⟨?_, value.bimap_id, fun f' g' => value.bimap_bimap (f ctx) f' (g ctx) g'⟩
  rw [jsonMap_eq, Option.some.injEq, Json.bimap]
  exact value.trimap_eq_iff (f ctx) (g ctx) (g frame)

/-- A string map that puts a prefix in front for the context `0` of the caller, and an object
with the member `a`.  The block is at the address `1`. -/
theorem jsonMap_keeps_name :
    ¬ ∀ (f : Nat → Nat → Nat) (g : Nat → String → String) (ctx frame : Nat)
        (value : Json Nat String),
        jsonMap frame value f (fun c s => some (g c s)) ctx
          = some (value.bimap (f ctx) (g ctx)) := by
  intro h
  have hmap := h (fun _ n => n) (fun c s => if c = 0 then "x" ++ s else s) 0 1
    (.object (.member "a" .null))
  rw [jsonMap_eq, Option.some.injEq, Json.bimap, Json.trimap_eq_iff] at hmap
  have hname := hmap "a" (by decide)
  exact absurd hname (by decide)

end J89a
