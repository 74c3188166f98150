import EightyNine.J89.Parse

/-!
# Parsing when memory is refused

The parser with its requests for memory.  The n-th place that needs memory gets the
answer `mem n`, which is yes where there is room already.  A refusal ends the parse
with a message, but for the node of an empty container: there the parser goes on
with `J89_BAD` as the node.
-/

namespace J89

open Library

/-- What memory is for: the node of an empty container, which `j89_array_empty` and
`j89_object_empty` hand on unseen, or anything else. -/
inductive Purpose where
  | checked
  | emptyNode

/-- The requests so far, in order. -/
abbrev Requests := List Purpose

/-- The answers to the requests, in order. -/
abbrev Memory := Nat → Bool

/-- A tree in the arena, where a child may be `J89_BAD`. -/
inductive Node where
  | bad
  | null
  | bool (v : Bool)
  | number (x : Num)
  | string (bytes : Bytes)
  | array (items : List Node)
  | object (members : List (Bytes × Node))

mutual

/-- Neither the node nor one that it reaches is `J89_BAD`. -/
def Node.whole : Node → Bool
  | .bad => false
  | .null => true
  | .bool _ => true
  | .number _ => true
  | .string _ => true
  | .array items => Node.wholeItems items
  | .object members => Node.wholeMembers members

def Node.wholeItems : List Node → Bool
  | [] => true
  | t :: ts => t.whole && Node.wholeItems ts

def Node.wholeMembers : List (Bytes × Node) → Bool
  | [] => true
  | (_, t) :: ts => t.whole && Node.wholeMembers ts

end

namespace Refused

/-- What a reader gives, with the requests and the input after it. -/
abbrev Reading (α : Type) := (α × Requests) × Bytes

/-- A parser of values that asks for memory. -/
abbrev Reader := Requests → Bytes → Result (Reading Node)

variable (mem : Memory)

/-- A request whose refusal ends the parse. -/
def need (log : Requests) : Result Requests :=
  if mem log.length then .ok (log ++ [.checked]) else fail "out of memory"

/-- The step of a loop that carries the requests along. -/
def carry {σ α : Type} (step : σ → Requests → Bytes → Result (Reading (Round σ α))) :
    Step Failure (σ × Requests) UInt8 (α × Requests) := fun (acc, log) s => do
  let ((round, log), r) ← step acc log s
  match round with
  | .again acc => .ok (.again (acc, log), r)
  | .done a => .ok (.done (a, log), r)

/-- `j89_str_step`: every further round appends once to the buffer. -/
def strStep (b : Bytes) (log : Requests) (s : Bytes) : Result (Reading (Round Bytes Bytes)) := do
  let (round, r) ← J89.strStep b s
  match round with
  | .again b => do
    let log ← need mem log
    .ok ((.again b, log), r)
  | .done b => .ok ((.done b, log), r)

/-- `j89_parse_string`: after the loop it needs room for the terminator, the node and
an entry in the registry. -/
def parseString (log : Requests) (s : Bytes) : Result (Reading Bytes) := do
  let ((b, log), r) ← scan .rounds (carry (strStep mem)) ([], log) (bump s)
  let log ← need mem log
  let log ← need mem log
  let log ← need mem log
  .ok ((b, log), r)

/-- `j89_finish_scalar`. -/
def finishScalar (node : Node) (log : Requests) (r : Bytes) : Result (Reading Node) := do
  let log ← need mem log
  .ok ((node, log), r)

/-- `j89_float_node`, where `j89_token_to_double` needs a buffer. -/
def floatNode (t : Token) (log : Requests) (r : Bytes) : Result (Reading Node) := do
  let log ← need mem log
  match tokenToDouble t.sig t.e t.frac with
  | none => fail "number out of range"
  | some value => finishScalar mem (.number (.float (applySign value t.neg))) log r

/-- `j89_parse_number`. -/
def parseNumber (log : Requests) (s : Bytes) : Result (Reading Node) := do
  let (t, r) ← scanNumber s
  if t.isFloat then floatNode mem t log r
  else if t.acc.iover then fail "integer out of range"
  else finishScalar mem (.number (.integer t.acc.ival)) log r

/-- `j89_parse_lit`. -/
def parseLit (tok : List Char) (node : Node) (log : Requests) (s : Bytes) :
    Result (Reading Node) := do
  let r ← litChars tok s
  finishScalar mem node log r

/-- `j89_next_cap` of the parser. -/
def nextCap (cap : Nat) : Nat := if cap = 0 then 8 else cap * 2

/-- `j89_ary_reserve` and `j89_member_reserve`, when the buffer is full. -/
def reserve (count cap : Nat) (log : Requests) : Result (Nat × Requests) :=
  if count = cap then do
    let log ← need mem log
    .ok (nextCap cap, log)
  else .ok (cap, log)

/-- `j89_array_empty` and `j89_object_empty`: the bad node is handed on. -/
def emptyNode (node : Node) (log : Requests) (s : Bytes) : Result (Reading Node) :=
  .ok ((if mem log.length then node else .bad, log ++ [.emptyNode]), bump s)

/-- `j89_make_array` and `j89_make_object` of a container that is not empty: its slots
and its node. -/
def makeNode (node : Node) (log : Requests) (r : Bytes) : Result (Reading Node) := do
  let log ← need mem log
  let log ← need mem log
  .ok ((node, log), r)

/-- `j89_array_item`, with the parser of values.  It keeps the capacity of the buffer. -/
def arrayItem (parseValue : Reader) :
    List Node × Nat → Requests → Bytes →
      Result (Reading (Round (List Node × Nat) (List Node))) :=
  fun (childs, cap) log s => do
    let (cap, log) ← reserve mem childs.length cap log
    let ((child, log), r) ← parseValue log s
    let childs := childs ++ [child]
    let r := skipWs r
    if cur r = ch ',' then .ok ((.again (childs, cap), log), consumeComma r)
    else if cur r = ch ']' then .ok ((.done childs, log), bump r)
    else fail "expected , or ]"

/-- `j89_parse_array`. -/
def parseArray (parseValue : Reader) (log : Requests) (s : Bytes) : Result (Reading Node) :=
  let s := skipWs (bump s)
  if cur s = ch ']' then emptyNode mem (.array []) log s
  else do
    let ((childs, log), r) ← scan .rounds (carry (arrayItem mem parseValue)) (([], 0), log) s
    makeNode mem (.array childs) log r

/-- `j89_has_dup`. -/
def hasDup (members : List (Bytes × Node)) (key : Bytes) : Bool :=
  members.any fun m => m.1 == key

/-- `j89_object_member`, with the parser of values. -/
def objectMember (parseValue : Reader) :
    List (Bytes × Node) × Nat → Requests → Bytes →
      Result (Reading (Round (List (Bytes × Node) × Nat) (List (Bytes × Node)))) :=
  fun (members, cap) log s => do
    let (cap, log) ← reserve mem members.length cap log
    let s := skipWs s
    if cur s ≠ ch '"' then fail "expected object key"
    else do
      let ((key, log), r) ← parseString mem log s
      let r := skipWs r
      if cur r ≠ ch ':' then fail "expected :"
      else do
        let ((value, log), r) ← parseValue log (skipWs (bump r))
        if hasDup members key then fail "duplicate object key"
        else
          let members := members ++ [(key, value)]
          let r := skipWs r
          if cur r = ch ',' then .ok ((.again (members, cap), log), bump r)
          else if cur r = ch '}' then .ok ((.done members, log), bump r)
          else fail "expected , or \x7d"

/-- `j89_parse_object`. -/
def parseObject (parseValue : Reader) (log : Requests) (s : Bytes) : Result (Reading Node) :=
  let s := skipWs (bump s)
  if cur s = ch '}' then emptyNode mem (.object []) log s
  else do
    let ((members, log), r) ←
      scan .rounds (carry (objectMember mem parseValue)) (([], 0), log) s
    makeNode mem (.object members) log r

/-- `j89_parse_value` on a character, with the parser of nested values. -/
def parseValueAt (nested : Int → Reader) (log : Requests) (s : Bytes) : Result (Reading Node) :=
  let s := skipWs s
  let c := cur s
  if c = ch '{' then nested c log s
  else if c = ch '[' then nested c log s
  else if c = ch '"' then do
    let ((bytes, log), r) ← parseString mem log s
    .ok ((.string bytes, log), r)
  else if c = ch 't' then parseLit mem "true".toList (.bool true) log s
  else if c = ch 'f' then parseLit mem "false".toList (.bool false) log s
  else if c = ch 'n' then parseLit mem "null".toList .null log s
  else if c = ch '-' ∨ isDigit c then parseNumber mem log s
  else fail "unexpected character"

/-- `j89_parse_nested`, with the parser of the values one level down. -/
def parseNested (parseValue : Option Reader) (c : Int) (log : Requests) (s : Bytes) :
    Result (Reading Node) :=
  match parseValue with
  | none => fail "maximum depth exceeded"
  | some parseValue =>
    if c = ch '{' then parseObject mem parseValue log s else parseArray mem parseValue log s

/-- `j89_parse_value`, `levels` below the maximum depth. -/
def parseValue : Nat → Reader
  | 0 => parseValueAt mem (parseNested mem none)
  | levels + 1 => parseValueAt mem (parseNested mem (some (parseValue levels)))

/-- `j89_parse`.  A root is `J89_BAD` without an error when it is `bad`. -/
def parse (buf : Bytes) : Result Node := do
  let ((root, _), r) ← parseValue mem maxDepth [] (bomStart buf)
  if eof (skipWs r) then .ok root else fail "trailing data"

end Refused

end J89

/-!
# What a document asks for

The requests for a document are read off its tree (`Json.requests`), and so is the node
that the parser makes of it when the nodes of some of its empty containers are refused
(`Json.node`).  That node is whole when none of them is (`Json.whole_node`).
-/

namespace J89

open Library List U89

/-! ## What a document asks for -/

/-- The characters of a text in UTF-8, by its bytes that do not continue one. -/
def characters (v : Bytes) : Nat := v.countP fun b => !continues b

def stringRequests (v : Bytes) : Requests :=
  replicate (characters v) .checked ++ [.checked, .checked, .checked]

def Num.requests : Num → Requests
  | .integer _ => [.checked]
  | .float _ => [.checked, .checked]

/-- The capacity of the buffer of a container before its item `i`. -/
def capBefore : Nat → Nat
  | 0 => 0
  | i + 1 => if i = capBefore i then Refused.nextCap (capBefore i) else capBefore i

def growRequests (i : Nat) : Requests := if i = capBefore i then [.checked] else []

mutual

/-- The requests for a tree. -/
def Json.requests : Json Num → Requests
  | .null => [.checked]
  | .bool _ => [.checked]
  | .number x => x.requests
  | .string v => stringRequests v
  | .array items =>
    if items.isEmpty then [.emptyNode]
    else Json.itemRequests items 0 ++ [.checked, .checked]
  | .object members =>
    if members.isEmpty then [.emptyNode]
    else Json.memberRequests members 0 ++ [.checked, .checked]

/-- The requests for items from item `i` on. -/
def Json.itemRequests : List (Json Num) → Nat → Requests
  | [], _ => []
  | t :: ts, i => growRequests i ++ (t.requests ++ Json.itemRequests ts (i + 1))

def Json.memberRequests : List (Bytes × Json Num) → Nat → Requests
  | [], _ => []
  | (k, t) :: ts, i =>
    growRequests i ++ (stringRequests k ++ (t.requests ++ Json.memberRequests ts (i + 1)))

end

mutual

/-- The node for a tree, after `n` requests. -/
def Json.node (mem : Memory) : Json Num → Nat → Node
  | .null, _ => .null
  | .bool v, _ => .bool v
  | .number x, _ => .number x
  | .string v, _ => .string v
  | .array items, n =>
    if items.isEmpty then (if mem n then .array [] else .bad)
    else .array (Json.itemNodes mem items 0 n)
  | .object members, n =>
    if members.isEmpty then (if mem n then .object [] else .bad)
    else .object (Json.memberNodes mem members 0 n)

def Json.itemNodes (mem : Memory) : List (Json Num) → Nat → Nat → List Node
  | [], _, _ => []
  | t :: ts, i, n =>
    let m := n + (growRequests i).length
    t.node mem m :: Json.itemNodes mem ts (i + 1) (m + t.requests.length)

def Json.memberNodes (mem : Memory) : List (Bytes × Json Num) → Nat → Nat → List (Bytes × Node)
  | [], _, _ => []
  | (k, t) :: ts, i, n =>
    let m := n + (growRequests i).length + (stringRequests k).length
    (k, t.node mem m) :: Json.memberNodes mem ts (i + 1) (m + t.requests.length)

end

/-! ## One item more -/

theorem Json.itemRequests_snoc (ts : List (Json Num)) (t : Json Num) (i : Nat) :
    Json.itemRequests (ts ++ [t]) i =
      Json.itemRequests ts i ++ (growRequests (i + ts.length) ++ t.requests) := by
  induction ts generalizing i with
  | nil => simp [itemRequests]
  | cons u ts ih =>
    rw [cons_append, itemRequests, itemRequests, ih, length_cons,
      Nat.add_right_comm, Nat.add_assoc i]
    simp only [append_assoc]

theorem Json.memberRequests_snoc (ts : List (Bytes × Json Num)) (k : Bytes) (t : Json Num)
    (i : Nat) :
    Json.memberRequests (ts ++ [(k, t)]) i =
      Json.memberRequests ts i ++
        (growRequests (i + ts.length) ++ (stringRequests k ++ t.requests)) := by
  induction ts generalizing i with
  | nil => simp [memberRequests]
  | cons m ts ih =>
    obtain ⟨k', u⟩ := m
    rw [cons_append, memberRequests, memberRequests, ih, length_cons,
      Nat.add_right_comm, Nat.add_assoc i]
    simp only [append_assoc]

theorem Json.itemNodes_snoc (mem : Memory) (ts : List (Json Num)) (t : Json Num) (i n : Nat) :
    Json.itemNodes mem (ts ++ [t]) i n =
      Json.itemNodes mem ts i n ++
        [t.node mem (n + (Json.itemRequests ts i ++ growRequests (i + ts.length)).length)] := by
  induction ts generalizing i n with
  | nil => simp [itemNodes, itemRequests]
  | cons u ts ih =>
    have hi : i + 1 + ts.length = i + (ts.length + 1) := by omega
    simp only [cons_append, itemNodes, itemRequests, ih, length_cons, hi,
      length_append]
    congr 4
    omega

theorem Json.memberNodes_snoc (mem : Memory) (ts : List (Bytes × Json Num)) (k : Bytes)
    (t : Json Num) (i n : Nat) :
    Json.memberNodes mem (ts ++ [(k, t)]) i n =
      Json.memberNodes mem ts i n ++
        [(k, t.node mem (n + (Json.memberRequests ts i ++
          (growRequests (i + ts.length) ++ stringRequests k)).length))] := by
  induction ts generalizing i n with
  | nil => simp [memberNodes, memberRequests, Nat.add_assoc]
  | cons m ts ih =>
    obtain ⟨k', u⟩ := m
    have hi : i + 1 + ts.length = i + (ts.length + 1) := by omega
    simp only [cons_append, memberNodes, memberRequests, ih, length_cons, hi,
      length_append]
    congr 5
    omega

@[simp] theorem Json.length_itemNodes (mem : Memory) (ts : List (Json Num)) (i n : Nat) :
    (Json.itemNodes mem ts i n).length = ts.length := by
  induction ts generalizing i n with
  | nil => rfl
  | cons t ts ih => rw [itemNodes, length_cons, ih, length_cons]

@[simp] theorem Json.length_memberNodes (mem : Memory) (ts : List (Bytes × Json Num))
    (i n : Nat) : (Json.memberNodes mem ts i n).length = ts.length := by
  induction ts generalizing i n with
  | nil => rfl
  | cons t ts ih => rw [memberNodes, length_cons, ih, length_cons]

theorem Json.hasDup_memberNodes (mem : Memory) (ts : List (Bytes × Json Num)) (key : Bytes)
    (i n : Nat) : Refused.hasDup (Json.memberNodes mem ts i n) key = J89.hasDup ts key := by
  induction ts generalizing i n with
  | nil => rfl
  | cons m ts ih =>
    simp only [Refused.hasDup, J89.hasDup, memberNodes, any_cons] at ih ⊢
    rw [ih]

/-! ## What is granted -/

/-- The requests for `p` among `tail`, which come after `n` others, are granted. -/
def Granted (mem : Memory) (p : Purpose) (n : Nat) (tail : Requests) : Prop :=
  ∀ i, tail[i]? = some p → mem (n + i) = true

section

variable {mem : Memory} {p : Purpose} {n : Nat}

theorem granted_nil : Granted mem p n [] := by simp [Granted]

theorem granted_append {t t' : Requests} :
    Granted mem p n (t ++ t') ↔ Granted mem p n t ∧ Granted mem p (n + t.length) t' := by
  constructor
  · intro h
    refine ⟨fun i hi => ?_, fun i hi => ?_⟩
    · have hlt : i < t.length := by
        by_contra hge
        rw [getElem?_eq_none (by omega)] at hi
        cases hi
      exact h i (by rw [getElem?_append_left hlt, hi])
    · have := h (t.length + i) (by rw [getElem?_append_right (by omega)]; simpa using hi)
      rwa [Nat.add_assoc]
  · rintro ⟨h, h'⟩ i hi
    rcases Nat.lt_or_ge i t.length with hlt | hge
    · exact h i (by rwa [getElem?_append_left hlt] at hi)
    · rw [getElem?_append_right hge] at hi
      have := h' _ hi
      rwa [Nat.add_assoc, Nat.add_sub_cancel' hge] at this

theorem granted_cons {q : Purpose} {t : Requests} :
    Granted mem p n (q :: t) ↔ (q = p → mem n = true) ∧ Granted mem p (n + 1) t := by
  rw [← singleton_append, granted_append]
  refine and_congr ⟨fun h hq => h 0 (by simp [hq]), fun h i hi => ?_⟩ Iff.rfl
  cases i with
  | zero => exact h (by simpa using hi)
  | succ i => simp at hi

theorem Granted.of_prefix {t t' : Requests} (h : Granted mem p n t') (ht : t <+: t') :
    Granted mem p n t := by
  obtain ⟨u, rfl⟩ := ht
  exact (granted_append.mp h).1

end

/-! ## What is lost -/

theorem granted_of_notMem {mem : Memory} {p : Purpose} {n : Nat} {t : Requests} (h : p ∉ t) :
    Granted mem p n t := fun _ hi => absurd (mem_of_getElem? hi) h

theorem emptyNode_notMem_grow (i : Nat) : Purpose.emptyNode ∉ growRequests i := by
  rw [growRequests]
  split <;> simp

theorem emptyNode_notMem_string (v : Bytes) : Purpose.emptyNode ∉ stringRequests v := by
  simp [stringRequests]

theorem emptyNode_notMem_num (x : Num) : Purpose.emptyNode ∉ x.requests := by
  cases x <;> simp [Num.requests]

mutual

/-- A node is whole when no empty container below is lost. -/
theorem Json.whole_node (mem : Memory) : ∀ (t : Json Num) (n : Nat),
    (t.node mem n).whole = true ↔ Granted mem .emptyNode n t.requests
  | .null, n => iff_of_true rfl (granted_of_notMem (by simp [requests]))
  | .bool v, n => iff_of_true rfl (granted_of_notMem (by simp [requests]))
  | .number x, n => iff_of_true rfl (granted_of_notMem (emptyNode_notMem_num x))
  | .string v, n => iff_of_true rfl (granted_of_notMem (emptyNode_notMem_string v))
  | .array items, n => by
    rw [node, requests]
    split
    · cases h : mem n <;> simp [granted_cons, granted_nil, h, Node.whole, Node.wholeItems]
    · rw [Node.whole, whole_itemNodes mem items 0 n, granted_append]
      exact (and_iff_left (granted_of_notMem (by simp))).symm
  | .object members, n => by
    rw [node, requests]
    split
    · cases h : mem n <;> simp [granted_cons, granted_nil, h, Node.whole, Node.wholeMembers]
    · rw [Node.whole, whole_memberNodes mem members 0 n, granted_append]
      exact (and_iff_left (granted_of_notMem (by simp))).symm

theorem Json.whole_itemNodes (mem : Memory) : ∀ (ts : List (Json Num)) (i n : Nat),
    Node.wholeItems (Json.itemNodes mem ts i n) = true ↔
      Granted mem .emptyNode n (Json.itemRequests ts i)
  | [], i, n => iff_of_true rfl granted_nil
  | t :: ts, i, n => by
    rw [itemNodes, itemRequests, Node.wholeItems, Bool.and_eq_true, whole_node mem t,
      whole_itemNodes mem ts, granted_append, granted_append,
      and_iff_right (granted_of_notMem (emptyNode_notMem_grow i))]

theorem Json.whole_memberNodes (mem : Memory) : ∀ (ts : List (Bytes × Json Num)) (i n : Nat),
    Node.wholeMembers (Json.memberNodes mem ts i n) = true ↔
      Granted mem .emptyNode n (Json.memberRequests ts i)
  | [], i, n => iff_of_true rfl granted_nil
  | (k, t) :: ts, i, n => by
    rw [memberNodes, memberRequests, Node.wholeMembers, Bool.and_eq_true, whole_node mem t,
      whole_memberNodes mem ts, granted_append, granted_append, granted_append,
      and_iff_right (granted_of_notMem (emptyNode_notMem_grow i)),
      and_iff_right (granted_of_notMem (emptyNode_notMem_string k))]

end

end J89
