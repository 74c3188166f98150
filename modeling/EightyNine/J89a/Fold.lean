import EightyNine.J89a.Object

/-!
# The folds

`j89a_object_fold` eliminates an object by the machine.  `j89a_json_fold` eliminates a
whole value by recursion.  At an array and at an object it first folds the children into a
copy of its own, a list (`j89a_rlist`) or a tree in which an empty object is `NULL`
(`j89a_robject`), and hands the copy to the case of the caller.  The caller reads the copy
through `j89a_rlist_fold` and `j89a_robject_fold`.

The abstract side is `Cases` and `Json.cata`: an array case sees the list of the results,
an object case the multiset of the named results.  `Algebra.Computes` says that an algebra
of callbacks computes such cases, from what the two views show and nothing else.
-/

namespace J89a

variable {P N S α R : Type}

/-! ## The source -/

/-- `struct j89a_robject`.  The tag `J89A_ROBJ_EMPTY` is never stored. -/
inductive RObject (S R : Type)
  /-- `NULL`. -/
  | null
  | member (name : S) (r : R)
  | union (left right : RObject S R)

/-- `j89a_algebra`.  A `j89a_rlist` is the list of its nodes. -/
structure Algebra (P N S R : Type) where
  /-- The context of the callbacks. -/
  ctx : P
  /-- The case of null. -/
  nullCase : P → Result R
  /-- The case of a boolean. -/
  booleanCase : P → Bool → Result R
  /-- The case of a number. -/
  numberCase : P → N → Result R
  /-- The case of a string. -/
  stringCase : P → S → Result R
  /-- The case of an array, with its folded elements. -/
  arrayCase : P → List R → Result R
  /-- The case of an object, with its folded members. -/
  objectCase : P → RObject S R → Result R

/-- `rlist_fold_to`, which is `j89a_rlist_fold`. -/
def rlistFold (rt : RType R) (zero : R) (step : P → α → R → Result R) (ctx : P) :
    List α → Result R
  | [] => rcopy rt zero
  | r :: rest => do
    let buf ← rlistFold rt zero step ctx rest
    step ctx r buf

/-- `j89a_robject_fold`, with `robj_fold_union`. -/
def robjectFold (rt : RType R) (zero : R) (member : P → S → α → Result R)
    (combine : P → R → R → Result R) (ctx : P) : RObject S α → Result R
  | .null => rcopy rt zero
  | .member name r => member ctx name r
  | .union left right => do
    let lb ← robjectFold rt zero member combine ctx left
    let rb ← robjectFold rt zero member combine ctx right
    combine ctx lb rb

mutual

/-- `fold_to`, which is `j89a_json_fold`. -/
def jsonFold (alg : Algebra P N S R) : Json N S → Result R
  | .null => alg.nullCase alg.ctx
  | .boolean b => alg.booleanCase alg.ctx b
  | .number n => alg.numberCase alg.ctx n
  | .string s => alg.stringCase alg.ctx s
  | .array xs => do
    let children ← rlistFromList alg xs
    alg.arrayCase alg.ctx children
  | .object ms => do
    let members ← robjectFromObject alg ms
    alg.objectCase alg.ctx members

/-- `rlist_from_list`. -/
def rlistFromList (alg : Algebra P N S R) : List (Json N S) → Result (List R)
  | [] => .ok []
  | head :: tail => do
    let r ← jsonFold alg head
    let rest ← rlistFromList alg tail
    .ok (r :: rest)

/-- `robject_from_object`. -/
def robjectFromObject (alg : Algebra P N S R) : Bag S (Json N S) → Result (RObject S R)
  | .empty => .ok .null
  | .member name value => do
    let r ← jsonFold alg value
    .ok (.member name r)
  | .union left right => do
    let l ← robjectFromObject alg left
    let r ← robjectFromObject alg right
    .ok (.union l r)

end

/-! ## Catamorphisms -/

/-- What to do at each kind of value, with a list for an array and a multiset of named results
for an object. -/
structure Cases (N S R : Type) where
  /-- Null. -/
  null : R
  /-- A boolean. -/
  boolean : Bool → R
  /-- A number. -/
  number : N → R
  /-- A string. -/
  string : S → R
  /-- An array, in order. -/
  array : List R → R
  /-- An object, without order. -/
  object : Multiset (S × R) → R

mutual

/-- The recursive catamorphism. -/
def Json.cata (k : Cases N S R) : Json N S → R
  | .null => k.null
  | .boolean b => k.boolean b
  | .number n => k.number n
  | .string s => k.string s
  | .array xs => k.array (cataList k xs)
  | .object ms => k.object (cataBag k ms)

/-- The results of the elements. -/
def cataList (k : Cases N S R) : List (Json N S) → List R
  | [] => []
  | x :: xs => x.cata k :: cataList k xs

/-- The named results of the members. -/
def cataBag (k : Cases N S R) : Bag S (Json N S) → Multiset (S × R)
  | .empty => 0
  | .member name value => {(name, value.cata k)}
  | .union left right => cataBag k left + cataBag k right

end

/-- Duplicating a result gives the result. -/
def RType.Copies (rt : RType R) : Prop := ∀ r, rcopy rt r = .ok r

/-- Every `j89a_rlist_fold` of the children is the right fold of the list. -/
def ShowsList (children : List R) (xs : List R) : Prop :=
  ∀ (T P : Type) (rt : RType T) (zero : T) (step : P → R → T → T) (ctx : P), rt.Copies →
    rlistFold rt zero (fun c r acc => .ok (step c r acc)) ctx children
      = .ok (xs.foldr (step ctx) zero)

/-- Every `j89a_robject_fold` of the members into a commutative monoid is the sum over the
multiset. -/
def ShowsBag (members : RObject S R) (ms : Multiset (S × R)) : Prop :=
  ∀ (M P : Type) [AddCommMonoid M] (rt : RType M) (member : P → S → R → M) (ctx : P), rt.Copies →
    robjectFold rt 0 (fun c name r => .ok (member c name r)) (fun _ l r => .ok (l + r)) ctx members
      = .ok ((ms.map fun m => member ctx m.1 m.2).sum)

/-- The callbacks compute the cases, whatever copies of the children they are given that show
the same list or the same multiset. -/
structure Algebra.Computes (alg : Algebra P N S R) (k : Cases N S R) : Prop where
  null : alg.nullCase alg.ctx = .ok k.null
  boolean : ∀ b, alg.booleanCase alg.ctx b = .ok (k.boolean b)
  number : ∀ n, alg.numberCase alg.ctx n = .ok (k.number n)
  string : ∀ s, alg.stringCase alg.ctx s = .ok (k.string s)
  array : ∀ children xs, ShowsList children xs → alg.arrayCase alg.ctx children = .ok (k.array xs)
  object : ∀ members ms, ShowsBag members ms →
    alg.objectCase alg.ctx members = .ok (k.object ms)

/-! ## The object fold -/

variable {M : Type}

theorem Bag.walk_sum [AddCommMonoid M] (member : S → α → M) (o : Bag S α) :
    o.walk ⟨.ok 0, fun name value => .ok (member name value), fun l r => .ok (l + r)⟩
      = .ok ((o.members.map fun m => member m.1 m.2).sum) := by
  induction o with
  | empty => rfl
  | member name value => simp only [Bag.walk, Bag.members, Multiset.map_singleton,
      Multiset.sum_singleton]
  | union left right ihl ihr =>
    rw [Bag.walk, ihl, ihr, Bag.members, Multiset.map_add, Multiset.sum_add]
    rfl

/-- The machine of `j89a_object_fold` sums the members. -/
theorem objectFold_sum [AddCommMonoid M] {rt : RType M} (hrt : rt.Copies)
    (o : Bag S α) (member : P → S → α → M) (ctx : P) :
    objectFold o rt 0 (fun c name value => .ok (member c name value)) (fun _ l r => .ok (l + r)) ctx
      = .ok ((o.members.map fun m => member ctx m.1 m.2).sum) := by
  rw [objectFold, visit_eq, hrt, Bag.walk_sum]
  exact hrt _

/-! ## The list folds -/

theorem foldPops_append (step : P → α → R → Result R) (ctx : P) (v w : List α) :
    ∀ acc, foldPops step ctx (v ++ w) acc = foldPops step ctx v acc >>= foldPops step ctx w := by
  induction v with
  | nil => intro acc; rfl
  | cons x v ih =>
    intro acc
    simp only [List.cons_append, foldPops, ih]
    cases step ctx x acc with
    | error e | ok r => rfl

variable {rt : RType R}

/-- `j89a_list_fold` over its vector is the recursion of `j89a_rlist_fold`. -/
theorem listFold_eq (hrt : rt.Copies) (zero : R) (step : P → α → R → Result R)
    (ctx : P) (xs : List α) : listFold xs rt zero step ctx = rlistFold rt zero step ctx xs := by
  have hpops : foldPops step ctx xs.reverse zero = rlistFold rt zero step ctx xs := by
    induction xs with
    | nil => exact (hrt zero).symm
    | cons x xs ih =>
      rw [List.reverse_cons, foldPops_append, ih, rlistFold]
      cases rlistFold rt zero step ctx xs with
      | error e => rfl
      | ok acc =>
        simp only [foldPops, bind, Except.bind]
        cases step ctx x acc with
        | error e | ok r => rfl
  simp only [listFold, foldCollect_eq, List.append_nil, hrt zero, bind, Except.bind, hpops]
  cases rlistFold rt zero step ctx xs with
  | error e => rfl
  | ok acc => exact hrt acc

theorem rlistFold_foldr (hrt : rt.Copies) (zero : R) (step : P → α → R → R)
    (ctx : P) (xs : List α) :
    rlistFold rt zero (fun c x acc => .ok (step c x acc)) ctx xs
      = .ok (xs.foldr (step ctx) zero) := by
  induction xs with
  | nil => exact hrt zero
  | cons x xs ih =>
    rw [rlistFold, ih]
    rfl

/-! ## The copies show the children -/

theorem showsList_self (xs : List R) : ShowsList xs xs :=
  fun _ _ _ zero step ctx hrt => rlistFold_foldr hrt zero step ctx xs

/-- The multiset a fold-local object stands for. -/
def RObject.members : RObject S R → Multiset (S × R)
  | .null => 0
  | .member name r => {(name, r)}
  | .union left right => left.members + right.members

theorem showsBag_members (o : RObject S R) : ShowsBag o o.members := by
  intro M P _ rt member ctx hrt
  induction o with
  | null => exact hrt 0
  | member name r => simp only [robjectFold, RObject.members, Multiset.map_singleton,
      Multiset.sum_singleton]
  | union left right ihl ihr =>
    rw [robjectFold, ihl, ihr, RObject.members, Multiset.map_add, Multiset.sum_add]
    rfl

/-! ## The value fold -/

mutual

variable {alg : Algebra P N S R} {k : Cases N S R}

theorem jsonFold_eq (h : alg.Computes k) :
    ∀ value, jsonFold alg value = .ok (value.cata k)
  | .null => h.null
  | .boolean b => h.boolean b
  | .number n => h.number n
  | .string s => h.string s
  | .array xs => by
    rw [jsonFold, rlistFromList_eq h xs, Json.cata]
    exact h.array _ _ (showsList_self _)
  | .object ms => by
    obtain ⟨members, hm, heq⟩ := robjectFromObject_eq h ms
    rw [jsonFold, hm, Json.cata, ← heq]
    exact h.object _ _ (showsBag_members members)

theorem rlistFromList_eq (h : alg.Computes k) :
    ∀ xs, rlistFromList alg xs = .ok (cataList k xs)
  | [] => rfl
  | x :: xs => by
    rw [rlistFromList, jsonFold_eq h x, rlistFromList_eq h xs, cataList]
    rfl

theorem robjectFromObject_eq (h : alg.Computes k) :
    ∀ o, ∃ members, robjectFromObject alg o = .ok members ∧ members.members = cataBag k o
  | .empty => ⟨.null, rfl, rfl⟩
  | .member name value => by
    refine ⟨.member name (value.cata k), ?_, rfl⟩
    rw [robjectFromObject, jsonFold_eq h value]
    rfl
  | .union left right => by
    obtain ⟨l, hl, hleq⟩ := robjectFromObject_eq h left
    obtain ⟨r, hr, hreq⟩ := robjectFromObject_eq h right
    refine ⟨.union l r, ?_, ?_⟩
    · rw [robjectFromObject, hl, hr]
      rfl
    · rw [RObject.members, hleq, hreq, cataBag]

end

theorem cataList_eq (k : Cases N S R) (xs : List (Json N S)) :
    cataList k xs = xs.map (Json.cata k) := by
  induction xs with
  | nil => rfl
  | cons x xs ih => rw [cataList, ih, List.map_cons]

/-- The object case sees the multiset of the members, each with its result. -/
theorem cataBag_eq (k : Cases N S R) (o : Bag S (Json N S)) :
    cataBag k o = o.members.map fun m => (m.1, m.2.cata k) := by
  induction o with
  | empty => rfl
  | member name value => rw [cataBag, Bag.members, Multiset.map_singleton]
  | union left right ihl ihr => rw [cataBag, ihl, ihr, Bag.members, Multiset.map_add]

/-! ## Every cases have an algebra -/

/-- The algebra that reads its children through the two views. -/
def Cases.algebra (k : Cases N S R) : Algebra Unit N S R where
  ctx := ()
  nullCase _ := .ok k.null
  booleanCase _ b := .ok (k.boolean b)
  numberCase _ n := .ok (k.number n)
  stringCase _ s := .ok (k.string s)
  arrayCase c children := do
    let xs ← rlistFold ⟨none⟩ [] (fun _ r acc => .ok (r :: acc)) c children
    .ok (k.array xs)
  objectCase c members := do
    let ms ← robjectFold ⟨none⟩ 0 (fun _ name r => .ok {(name, r)}) (fun _ l r => .ok (l + r)) c
      members
    .ok (k.object ms)

theorem Cases.algebra_computes (k : Cases N S R) : k.algebra.Computes k where
  null := rfl
  boolean _ := rfl
  number _ := rfl
  string _ := rfl
  array children xs h := by
    have hxs := h (List R) Unit ⟨none⟩ [] (fun _ r acc => r :: acc) () fun _ => rfl
    simp only [Cases.algebra, hxs, bind, Except.bind, List.foldr_cons_nil]
  object members ms h := by
    have hms := h (Multiset (S × R)) Unit ⟨none⟩ (fun _ name r => {(name, r)}) () fun _ => rfl
    have hsum : (ms.map fun m => ({(m.1, m.2)} : Multiset (S × R))).sum = ms :=
      Multiset.sum_map_singleton ms
    rw [hsum] at hms
    simp only [Cases.algebra, hms, bind, Except.bind]

/-! ## Both folds -/

/-- For a result type whose copies are duplicates, the object fold into a commutative monoid is
the sum over the multiset of members, so that rearranging the unions changes nothing, and the list
fold is the right fold.  The value fold of callbacks that compute the cases is the catamorphism,
which sees the same list and the same multiset. -/
theorem folds_catamorphic {M : Type} [AddCommMonoid M] {rt : RType M} (hrt : rt.Copies)
    (member : P → S → Json N S → M) (ctx : P) {alg : Algebra P N S R} {k : Cases N S R}
    (hk : alg.Computes k) :
    (∀ o, objectFold o rt 0 (fun c name value => .ok (member c name value))
        (fun _ l r => .ok (l + r)) ctx
      = .ok ((o.members.map fun m => member ctx m.1 m.2).sum))
    ∧ (∀ o o', Rearranged o o' →
      objectFold o rt 0 (fun c name value => .ok (member c name value))
          (fun _ l r => .ok (l + r)) ctx
        = objectFold o' rt 0 (fun c name value => .ok (member c name value))
          (fun _ l r => .ok (l + r)) ctx)
    ∧ (∀ (xs : List (Json N S)) (zero : M) (step : P → Json N S → M → M),
      listFold xs rt zero (fun c x acc => .ok (step c x acc)) ctx
        = .ok (xs.foldr (step ctx) zero))
    ∧ (∀ value, jsonFold alg value = .ok (value.cata k))
    ∧ (∀ xs, (Json.array xs).cata k = k.array (xs.map (Json.cata k)))
    ∧ ∀ ms, (Json.object ms).cata k = k.object (ms.members.map fun m => (m.1, m.2.cata k)) := by
  refine ⟨fun o => objectFold_sum hrt o member ctx, fun o o' h => ?_, fun xs zero step => ?_,
    jsonFold_eq hk, fun xs => ?_, fun ms => ?_⟩
  · rw [objectFold_sum hrt, objectFold_sum hrt, h.members_eq]
  · rw [listFold_eq hrt]
    exact rlistFold_foldr hrt zero step ctx xs
  · rw [Json.cata, cataList_eq]
  · rw [Json.cata, cataBag_eq]

/-- The sum of a value, in which an object counts by its members. -/
def total : Cases Nat String Nat where
  null := 0
  boolean _ := 0
  number n := n
  string _ := 0
  array xs := xs.foldr Nat.add 0
  object ms := Multiset.card ms

/-- Two members named `a` beside an empty object, and an array around them. -/
theorem folds_catamorphic_total :
    objectFold (α := Json Nat String)
        (.union .empty (.union (.member "a" (.number 2)) (.member "a" (.number 3))))
        ⟨none⟩ 0 (fun _ name _ => .ok name.length) (fun _ l r => .ok (l + r)) ()
      = .ok 2
    ∧ jsonFold total.algebra (.array [.number 1,
        .object (.union .empty (.union (.member "a" (.number 2)) (.member "a" (.number 3))))])
      = .ok 3 := by
  have h := folds_catamorphic (fun _ => rfl : RType.Copies ⟨none⟩)
    (fun _ name (_ : Json Nat String) => name.length) () total.algebra_computes
  exact ⟨h.1 _, h.2.2.2.1 _⟩

end J89a
