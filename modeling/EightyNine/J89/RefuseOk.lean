import EightyNine.J89.Shadow

/-!
# The parser when memory is refused

The parser gives the node of the document, unless a request that it looks at is refused
(`refused_parse`).  So it fails with a message or gives a whole tree, but where the node
of an empty container is refused and nothing else (`allOrNothing_iff`).
-/

namespace J89

open Library U89 List

/-! ## Strings -/

/-- An encoding has one byte that does not continue a character. -/
theorem characters_encode (c : Char) : characters (String.utf8EncodeChar c) = 1 := by
  have hcount : characters (String.utf8EncodeChar c) =
      ((String.utf8EncodeChar c).map UInt8.toNat).countP fun n => !(0x80 ≤ n && n < 0xC0) := by
    rw [countP_map]
    refine countP_congr fun b _ => ?_
    have h := continues_iff b
    simp only [Function.comp_apply, Bool.not_eq_true', ← Bool.not_eq_true]
    rw [h]
    simp
  have hv : c.toNat.isValidChar := c.valid
  rw [hcount, utf8EncodeChar_toNat]
  unfold Nat.isValidChar at hv
  split
  · simp [countP_cons]; omega
  · split
    · simp [countP_cons]; omega
    · split <;> (simp [countP_cons]; omega)

theorem StrChar.characters_eq {x v : Bytes} (h : StrChar x v) : characters v = 1 := by
  cases h with
  | raw c _ _ _ | unicode c _ | pair c _ _ _ _ _ => exact characters_encode c
  | @simple e v h =>
    have hall : ∀ p ∈ simpleEscapes, p.2.toNat < 128 := by decide
    have hlt : v.toNat < 128 := hall (e, v) h
    have hc : continues (byte v) = false := by
      rw [← Bool.not_eq_true, continues_iff, byte_toNat hlt]
      omega
    simp [characters, hc]

namespace Refused

section

variable {mem : Memory} {log : Requests}

/-! ### Strings -/

/-- The requests for the characters that the loop has read. -/
def bodyRequests (b : Bytes) : Requests := replicate (characters b) .checked

variable {b s r : Bytes}

theorem strStep_again {b' : Bytes} (h : J89.strStep b s = .ok (.again b', r)) :
    bodyRequests b' = bodyRequests b ++ [.checked] := by
  obtain ⟨x, v, hx, -, rfl⟩ := strStep_again_iff.mp h
  have hc : characters (b ++ v) = characters b + 1 := by
    rw [characters, countP_append, ← characters, ← characters, hx.characters_eq]
  rw [bodyRequests, hc, replicate_succ', bodyRequests]

theorem strStep_more {round : Round Bytes Bytes}
    (h : J89.strStep b s = .ok (round, r)) :
    bodyRequests b <+: roundAsks bodyRequests bodyRequests round := by
  cases round with
  | again b' =>
    rw [roundAsks, strStep_again h]
    exact prefix_append _ _
  | done a =>
    obtain ⟨-, rfl⟩ := strStep_done_iff.mp h
    exact prefix_rfl

theorem strStep_shadows (hg : Granted mem .checked log.length (bodyRequests b))
    (s : Bytes) :
    Shadows mem log (roundAsks bodyRequests bodyRequests) (roundBuild id id) (J89.strStep b s)
      (strStep mem b (log ++ bodyRequests b) s) := by
  rw [strStep]
  cases hx : J89.strStep b s with
  | error e =>
    exact .of_refuses (((told_strStep b s).refuses hx).bind _) fun _ _ h => by cases h
  | ok p =>
    obtain ⟨round, r⟩ := p
    cases round with
    | done a =>
      obtain ⟨-, rfl⟩ := strStep_done_iff.mp hx
      exact .ok hg rfl rfl
    | again b' =>
      have hb := strStep_again hx
      refine .need hg (fun a r' h => ?_) fun hg' => ?_
      · cases h
        rw [roundAsks, hb]
      · rw [← hb] at hg' ⊢
        exact .ok hg' rfl rfl

/-- A string asks for its characters and for three more. -/
theorem parseString_shadows (log : Requests) (s : Bytes) :
    Shadows mem log stringRequests id (J89.parseString s) (parseString mem log s) := by
  have hscan : Shadows mem log bodyRequests id (J89.parseString s)
      (scan .rounds (carry (strStep mem)) ([], log) (bump s)) := by
    have h : Shadows mem log bodyRequests id (scan .rounds J89.strStep [] (bump s))
        (scan .rounds (carry (strStep mem)) (id [], log ++ bodyRequests []) (bump s)) :=
      Shadows.scan bodyRequests id (G := fun _ => True) (fun _ h => h)
        (fun acc s _ hg => strStep_shadows (b := acc) hg s) (fun _ _ _ _ => strStep_more)
        (fun acc s _ => told_scan (G := fun _ => True) strStep_consumes (fun _ h => h)
          (fun b s _ => told_strStep b s) acc s trivial) trivial granted_nil
    simpa [bodyRequests, characters, J89.parseString] using h
  have hmore : ∀ (v : Bytes) (t : Requests), t <+: [.checked, .checked, .checked] →
      bodyRequests v ++ t <+: stringRequests v :=
    fun v t ht => (prefix_append_right_inj _).mpr ht
  have hx : J89.parseString s = J89.parseString s >>= fun p => .ok (p.1, p.2) := by
    cases J89.parseString s <;> rfl
  rw [hx, parseString]
  refine hscan.bind (fun v r v' r' _ h => ?_) fun v r _ hg => ?_
  · cases h
    exact prefix_append _ _
  refine .need hg (fun a r' h => ?_) fun hg => ?_
  · cases h
    exact hmore v [.checked] ⟨_, rfl⟩
  refine .need hg (fun a r' h => ?_) fun hg => ?_
  · cases h
    rw [append_assoc]
    exact hmore v [.checked, .checked] ⟨_, rfl⟩
  refine .need hg (fun a r' h => ?_) fun hg => ?_
  · cases h
    simp only [append_assoc]
    exact hmore v [.checked, .checked, .checked] prefix_rfl
  · simp only [append_assoc] at hg ⊢
    exact .ok hg rfl rfl

/-! ### Scalars -/

variable {α β : Type}

theorem result_bind (a : α) (f : α → Result β) : (.ok a >>= f) = f a := rfl

variable {asks : α → Requests} {x : Result (α × Bytes)}

theorem Shadows.map {α' : Type} {asks' : α' → Requests} {build : α → β}
    {build' : α' → β} {y : Result (Reading β)}
    (h : Shadows mem log asks build x y) (f : α → α') (ha : ∀ a, asks' (f a) = asks a)
    (hb : ∀ a, build' (f a) = build a) :
    Shadows mem log asks' build' (x >>= fun p => .ok (f p.1, p.2)) y where
  fails e hx := by
    obtain e | ⟨a, r⟩ := x
    · exact h.fails _ rfl
    · cases hx
  refused a' r' hx hn := by
    obtain e | ⟨a, r⟩ := x
    · cases hx
    · cases hx
      rw [ha] at hn
      exact h.refused a r rfl hn
  gives a' r' hx hg := by
    obtain e | ⟨a, r⟩ := x
    · cases hx
    · cases hx
      rw [ha] at hg ⊢
      rw [hb]
      exact h.gives a r rfl hg

variable {build : α → Node} {t : Requests} {a : α}

theorem finishScalar_shadows
    (hg : Granted mem .checked log.length t) (ha : asks a = t ++ [.checked]) (r : Bytes) :
    Shadows mem log asks build (.ok (a, r)) (finishScalar mem (build a) (log ++ t) r) := by
  refine .need hg (fun a' r' h => ?_) fun hg' => ?_
  · cases h
    rw [ha]
  · rw [← ha] at hg' ⊢
    exact .ok hg' rfl rfl

theorem parseLit_shadows (log : Requests) {node : Json Num} {n : Node}
    (hr : node.requests = [.checked]) (hn : ∀ k, node.node mem k = n) (tok : List Char)
    (s : Bytes) :
    Shadows mem log Json.requests (fun t => t.node mem log.length) (J89.parseLit tok node s)
      (parseLit mem tok n log s) := by
  rw [J89.parseLit, parseLit]
  cases hx : litChars tok s with
  | error e =>
    exact .of_refuses (((told_litChars tok s).refuses hx).bind _) fun _ _ h => by cases h
  | ok r =>
    have h : Shadows mem log Json.requests (fun t => t.node mem log.length) (.ok (node, r))
        (finishScalar mem (node.node mem log.length) (log ++ []) r) :=
      finishScalar_shadows granted_nil hr r
    rw [result_bind, result_bind]
    simpa only [hn, append_nil] using h

theorem parseNumber_shadows (log : Requests) (hs : ShortFractions s) :
    Shadows mem log Num.requests Node.number (J89.parseNumber s) (parseNumber mem log s) := by
  rw [J89.parseNumber, parseNumber]
  cases hx : scanNumber s with
  | error e =>
    exact .of_refuses (((told_scanNumber hs).refuses hx).bind _) fun _ _ h => by cases h
  | ok p =>
    obtain ⟨t, r⟩ := p
    simp only [result_bind, numberNode]
    split
    · have hlog : floatNode mem t log r = floatNode mem t (log ++ []) r := by
        rw [append_nil]
      rw [hlog, floatNode]
      cases tokenToDouble t.sig t.e t.frac with
      | none => exact .need granted_nil (fun _ _ h => by cases h) fun _ => .fail _ _
      | some value =>
        refine .need granted_nil (fun a r' h => ?_) fun hg => ?_
        · cases h
          exact ⟨[.checked], rfl⟩
        · have h : Shadows mem log Num.requests Node.number
              (.ok (.float (applySign value t.neg), r))
              (finishScalar mem (.number (.float (applySign value t.neg)))
                (log ++ [.checked]) r) := finishScalar_shadows hg (by rfl) r
          exact h
    · split
      · exact .fail _ _
      · have h : Shadows mem log Num.requests Node.number (.ok (.integer t.acc.ival, r))
            (finishScalar mem (.number (.integer t.acc.ival)) (log ++ []) r) :=
          finishScalar_shadows granted_nil (by rfl) r
        rwa [append_nil] at h

/-! ### Containers -/

theorem reserve_shadows {build : α → β}
    {k : Nat × Requests → Result (Reading β)} {i : Nat}
    (hg : Granted mem .checked log.length t)
    (hmore : ∀ a r, x = .ok (a, r) → t ++ growRequests i <+: asks a)
    (hk : Granted mem .checked log.length (t ++ growRequests i) →
      Shadows mem log asks build x (k (capBefore (i + 1), log ++ (t ++ growRequests i)))) :
    Shadows mem log asks build x (reserve mem i (capBefore i) (log ++ t) >>= k) := by
  rw [growRequests] at hmore hk
  rw [reserve]
  rw [capBefore] at hk
  by_cases h : i = capBefore i
  · simp only [if_pos h] at hmore hk ⊢
    rw [bind_assoc]
    exact .need hg hmore hk
  · simp only [if_neg h, append_nil] at hk ⊢
    exact hk hg

/-- A parser of values that shadows the plain one. -/
def ShadowsAt (mem : Memory) (plain : Bytes → Result (Json Num × Bytes)) (reader : Reader) : Prop :=
  ∀ log s, ShortFractions s → Shadows mem log Json.requests (fun t => t.node mem log.length) (plain s) (reader log s)

theorem makeNode_shadows
    (hg : Granted mem .checked log.length t) (ha : asks a = t ++ [.checked, .checked])
    (r : Bytes) :
    Shadows mem log asks build (.ok (a, r)) (makeNode mem (build a) (log ++ t) r) := by
  refine .need hg (fun a' r' h => ?_) fun hg => .need hg (fun a' r' h => ?_) fun hg => ?_
  · cases h
    rw [ha]
    exact (prefix_append_right_inj _).mpr ⟨[.checked], rfl⟩
  · cases h
    rw [ha, append_assoc]
    exact prefix_rfl
  · rw [append_assoc] at hg ⊢
    change Granted mem .checked log.length (t ++ [.checked, .checked]) at hg
    change Shadows mem log asks build _ (.ok ((build a, log ++ (t ++ [.checked, .checked])), r))
    rw [← ha] at hg ⊢
    exact .ok hg rfl rfl

theorem emptyNode_shadows (log : Requests) {t : Json Num} {n : Node}
    (hr : t.requests = [.emptyNode]) (hn : ∀ k, t.node mem k = if mem k then n else .bad)
    (s : Bytes) :
    Shadows mem log Json.requests (fun t => t.node mem log.length) (.ok (t, bump s))
      (emptyNode mem n log s) := by
  refine .ok ?_ (hn _).symm ?_
  · rw [hr]
    exact granted_of_notMem (by simp)
  · rw [hr]

/-! ### Arrays -/

variable {plain : Bytes → Result (Json Num × Bytes)} {reader : Reader} {n : Nat}

def itemsAsks (acc : List (Json Num)) : Requests := Json.itemRequests acc 0

def itemsBuild (mem : Memory) (log : Requests) (acc : List (Json Num)) : List Node :=
  Json.itemNodes mem acc 0 log.length

/-- The nodes for the items, and the capacity of their buffer. -/
def itemsLoop (mem : Memory) (log : Requests) (acc : List (Json Num)) : List Node × Nat :=
  (itemsBuild mem log acc, capBefore acc.length)

theorem arrayItem_ok {acc : List (Json Num)}
    {round : Round (List (Json Num)) (List (Json Num))}
    (h : J89.arrayItem plain acc s = .ok (round, r)) :
    ∃ child, round = .again (acc ++ [child]) ∨ round = .done (acc ++ [child]) := by
  obtain ⟨⟨child, r'⟩, -, h⟩ := bind_eq_ok.mp h
  refine ⟨child, ?_⟩
  simp only at h
  split at h
  · cases h
    exact .inl rfl
  · split at h
    · cases h
      exact .inr rfl
    · cases h

theorem itemsAsks_snoc (acc : List (Json Num)) (child : Json Num) :
    itemsAsks (acc ++ [child]) = itemsAsks acc ++ growRequests acc.length ++ child.requests := by
  rw [itemsAsks, Json.itemRequests_snoc, Nat.zero_add, append_assoc]
  rfl

theorem arrayItem_grows {acc : List (Json Num)}
    {round : Round (List (Json Num)) (List (Json Num))}
    (h : J89.arrayItem plain acc s = .ok (round, r)) :
    itemsAsks acc ++ growRequests acc.length <+: roundAsks itemsAsks itemsAsks round := by
  obtain ⟨child, rfl | rfl⟩ := arrayItem_ok h
  · rw [roundAsks, itemsAsks_snoc]
    exact prefix_append _ _
  · rw [roundAsks, itemsAsks_snoc]
    exact prefix_append _ _

theorem arrayItem_shadows (hv : ShadowsAt mem plain reader) (acc : List (Json Num)) (s : Bytes)
    (hs : ShortFractions s) (hg : Granted mem .checked log.length (itemsAsks acc)) :
    Shadows mem log (roundAsks itemsAsks itemsAsks)
      (roundBuild (itemsLoop mem log) (itemsBuild mem log)) (J89.arrayItem plain acc s)
      (arrayItem mem reader (itemsLoop mem log acc) (log ++ itemsAsks acc) s) := by
  have hlen : (itemsBuild mem log acc).length = acc.length := Json.length_itemNodes ..
  rw [arrayItem, itemsLoop, hlen]
  refine reserve_shadows hg (fun _ _ h => arrayItem_grows h) fun hg => ?_
  refine ((hv _ s hs).after hg).bind (fun child r round r' hx h => ?_) fun child r hx hg => ?_
  · have h' : J89.arrayItem plain acc s = .ok (round, r') := bind_eq_ok.mpr ⟨_, hx, h⟩
    simp only at h
    split at h
    · cases h
      rw [roundAsks, itemsAsks_snoc]
    · split at h
      · cases h
        rw [roundAsks, itemsAsks_snoc]
      · cases h
  rw [← itemsAsks_snoc] at hg ⊢
  have hb : itemsBuild mem log acc ++
      [child.node mem (log ++ (itemsAsks acc ++ growRequests acc.length)).length] =
      itemsBuild mem log (acc ++ [child]) := by
    rw [itemsBuild, itemsBuild, Json.itemNodes_snoc, Nat.zero_add, length_append]
    rfl
  simp only [hb]
  refine .ite (fun _ => .ok hg ?_ rfl) fun _ => .ite (fun _ => .ok hg rfl rfl) fun _ => .fail _ _
  simp [roundBuild, itemsLoop]

theorem parseArray_shadows (hv : ShadowsAt mem plain reader)
    (hp : Parses Numeral.read n plain) (ht : ∀ s, ShortFractions s → Told (plain s)) :
    ShadowsAt mem (J89.parseArray plain) (parseArray mem reader) := by
  intro log s hs
  rw [J89.parseArray, parseArray]
  refine .ite (fun _ => emptyNode_shadows log rfl (fun _ => rfl) _) fun _ => ?_
  have hscan : Shadows mem log itemsAsks (itemsBuild mem log)
      (scan .rounds (J89.arrayItem plain) [] (skipWs (bump s)))
      (scan .rounds (carry (arrayItem mem reader)) (([], 0), log ++ itemsAsks [])
        (skipWs (bump s))) :=
    Shadows.scan itemsAsks (itemsLoop mem log)
      (fun h hs => hs.of_suffix (arrayItem_suffix hp h)) (arrayItem_shadows hv)
      (fun _ _ _ _ h => (prefix_append _ _).trans (arrayItem_grows h))
      (told_scan_arrayItem hp ht) (hs.of_suffix ((skipWs_suffix _).trans (bump_suffix s)))
      granted_nil
  rw [itemsAsks, Json.itemRequests, append_nil] at hscan
  have hne : ∀ items r, scan .rounds (J89.arrayItem plain) [] (skipWs (bump s)) = .ok (items, r) →
      items.isEmpty = false := by
    intro items r h
    refine scan_induct (Q := fun _ _ items _ => items.isEmpty = false) ?_ ?_ h
    · intro acc s a r h
      obtain ⟨child, h | h⟩ := arrayItem_ok h <;> cases h
      simp
    · exact fun _ h => h
  refine hscan.bind (fun items r a r' hx h => ?_) fun items r hx hg => ?_
  · cases h
    rw [Json.requests, hne items r hx]
    exact prefix_append _ _
  · have hr : (Json.array items).requests = itemsAsks items ++ [.checked, .checked] := by
      rw [Json.requests, hne items r hx]
      rfl
    have hb : (Json.array items).node mem log.length = .array (itemsBuild mem log items) := by
      rw [Json.node, hne items r hx]
      rfl
    have h : Shadows mem log Json.requests (fun t => t.node mem log.length) (.ok (.array items, r))
        (makeNode mem ((Json.array items).node mem log.length) (log ++ itemsAsks items) r) :=
      makeNode_shadows hg hr r
    rwa [hb] at h

/-! ### Objects -/

def membersAsks (acc : List (Bytes × Json Num)) : Requests := Json.memberRequests acc 0

def membersBuild (mem : Memory) (log : Requests) (acc : List (Bytes × Json Num)) :
    List (Bytes × Node) :=
  Json.memberNodes mem acc 0 log.length

/-- The nodes for the members, and the capacity of their buffer. -/
def membersLoop (mem : Memory) (log : Requests) (acc : List (Bytes × Json Num)) :
    List (Bytes × Node) × Nat :=
  (membersBuild mem log acc, capBefore acc.length)

theorem membersAsks_snoc (acc : List (Bytes × Json Num)) (k : Bytes) (t : Json Num) :
    membersAsks (acc ++ [(k, t)]) =
      membersAsks acc ++ growRequests acc.length ++ stringRequests k ++ t.requests := by
  rw [membersAsks, Json.memberRequests_snoc, Nat.zero_add, ← append_assoc, ← append_assoc]
  rfl

variable {acc : List (Bytes × Json Num)}
  {round : Round (List (Bytes × Json Num)) (List (Bytes × Json Num))} {key : Bytes}
  {value : Json Num}

/-- What follows the value of a member, for the key and the value. -/
theorem objectMember_last {r' : Bytes}
    (h : (if J89.hasDup acc key then J89.fail "duplicate object key"
      else
        let members := acc ++ [(key, value)]
        let r := skipWs r
        if cur r = ch ',' then .ok (.again members, bump r)
        else if cur r = ch '}' then .ok (.done members, bump r)
        else J89.fail "expected , or \x7d") = Except.ok (round, r')) :
    round = .again (acc ++ [(key, value)]) ∨ round = .done (acc ++ [(key, value)]) := by
  split at h
  · cases h
  · simp only at h
    split at h
    · cases h
      exact .inl rfl
    · split at h
      · cases h
        exact .inr rfl
      · cases h

theorem objectMember_ok (h : J89.objectMember plain acc s = .ok (round, r)) :
    ∃ key value, round = .again (acc ++ [(key, value)]) ∨ round = .done (acc ++ [(key, value)]) := by
  rw [J89.objectMember] at h
  simp only at h
  split at h
  · cases h
  obtain ⟨⟨key, r1⟩, -, h⟩ := bind_eq_ok.mp h
  simp only at h
  split at h
  · cases h
  obtain ⟨⟨value, r2⟩, -, h⟩ := bind_eq_ok.mp h
  exact ⟨key, value, objectMember_last h⟩

theorem membersAsks_more
    (h : round = .again (acc ++ [(key, value)]) ∨ round = .done (acc ++ [(key, value)])) :
    roundAsks membersAsks membersAsks round =
      membersAsks acc ++ growRequests acc.length ++ stringRequests key ++ value.requests := by
  rcases h with rfl | rfl <;> rw [roundAsks, membersAsks_snoc]

theorem objectMember_grows (h : J89.objectMember plain acc s = .ok (round, r)) :
    membersAsks acc ++ growRequests acc.length <+: roundAsks membersAsks membersAsks round := by
  obtain ⟨key, value, h⟩ := objectMember_ok h
  rw [membersAsks_more h, append_assoc]
  exact prefix_append _ _

theorem objectMember_shadows (hv : ShadowsAt mem plain reader) (acc : List (Bytes × Json Num))
    (s : Bytes) (hs : ShortFractions s) (hg : Granted mem .checked log.length (membersAsks acc)) :
    Shadows mem log (roundAsks membersAsks membersAsks)
      (roundBuild (membersLoop mem log) (membersBuild mem log)) (J89.objectMember plain acc s)
      (objectMember mem reader (membersLoop mem log acc) (log ++ membersAsks acc) s) := by
  have hlen : (membersBuild mem log acc).length = acc.length := Json.length_memberNodes ..
  have hdup : ∀ key, hasDup (membersBuild mem log acc) key = J89.hasDup acc key :=
    fun key => Json.hasDup_memberNodes ..
  rw [objectMember, membersLoop, hlen]
  refine reserve_shadows hg (fun _ _ h => objectMember_grows h) fun hg => ?_
  rw [J89.objectMember]
  simp only [hdup]
  refine .ite (fun _ => .fail _ _) fun hq => ?_
  -- the key
  refine ((parseString_shadows _ _).after hg).bind (fun key r round r' _ h => ?_)
    fun key r hkey hg => ?_
  · simp only at h
    split at h
    · cases h
    obtain ⟨⟨value, r2⟩, -, h⟩ := bind_eq_ok.mp h
    rw [membersAsks_more (objectMember_last h)]
    exact prefix_append _ _
  refine .ite (fun _ => .fail _ _) fun _ => ?_
  -- the value
  have hr := hs.of_suffix ((parseString_suffix (not_not.mp hq) hkey).trans (skipWs_suffix s))
  have hvalue := hr.of_suffix
    (((skipWs_suffix (bump (skipWs r))).trans (bump_suffix _)).trans (skipWs_suffix r))
  refine ((hv _ _ hvalue).after hg).bind (fun value r2 round r' _ h => ?_) fun value r2 _ hg => ?_
  · rw [membersAsks_more (objectMember_last h)]
  rw [← membersAsks_snoc] at hg ⊢
  have hb : membersBuild mem log acc ++ [(key, value.node mem
      (log ++ (membersAsks acc ++ growRequests acc.length ++ stringRequests key)).length)] =
      membersBuild mem log (acc ++ [(key, value)]) := by
    rw [membersBuild, membersBuild, Json.memberNodes_snoc, Nat.zero_add, length_append,
      ← append_assoc (Json.memberRequests acc 0)]
    rfl
  simp only [id_eq, hb]
  refine .ite (fun _ => .fail _ _) fun _ => ?_
  refine .ite (fun _ => .ok hg ?_ rfl) fun _ => .ite (fun _ => .ok hg rfl rfl) fun _ => .fail _ _
  simp [roundBuild, membersLoop]

theorem parseObject_shadows (hv : ShadowsAt mem plain reader)
    (hp : Parses Numeral.read n plain) (ht : ∀ s, ShortFractions s → Told (plain s)) :
    ShadowsAt mem (J89.parseObject plain) (parseObject mem reader) := by
  intro log s hs
  rw [J89.parseObject, parseObject]
  refine .ite (fun _ => emptyNode_shadows log rfl (fun _ => rfl) _) fun _ => ?_
  have hscan : Shadows mem log membersAsks (membersBuild mem log)
      (scan .rounds (J89.objectMember plain) [] (skipWs (bump s)))
      (scan .rounds (carry (objectMember mem reader)) (([], 0), log ++ membersAsks [])
        (skipWs (bump s))) :=
    Shadows.scan membersAsks (membersLoop mem log)
      (fun h hs => hs.of_suffix (objectMember_suffix hp h)) (objectMember_shadows hv)
      (fun _ _ _ _ h => (prefix_append _ _).trans (objectMember_grows h))
      (told_scan_objectMember hp ht) (hs.of_suffix ((skipWs_suffix _).trans (bump_suffix s)))
      granted_nil
  rw [membersAsks, Json.memberRequests, append_nil] at hscan
  have hne : ∀ members r,
      scan .rounds (J89.objectMember plain) [] (skipWs (bump s)) = .ok (members, r) →
      members.isEmpty = false := by
    intro members r h
    refine scan_induct (Q := fun _ _ members _ => members.isEmpty = false) ?_ ?_ h
    · intro acc s a r h
      obtain ⟨key, value, h | h⟩ := objectMember_ok h <;> cases h
      simp
    · exact fun _ h => h
  refine hscan.bind (fun members r a r' hx h => ?_) fun members r hx hg => ?_
  · cases h
    rw [Json.requests, hne members r hx]
    exact prefix_append _ _
  · have hr : (Json.object members).requests = membersAsks members ++ [.checked, .checked] := by
      rw [Json.requests, hne members r hx]
      rfl
    have hb : (Json.object members).node mem log.length =
        .object (membersBuild mem log members) := by
      rw [Json.node, hne members r hx]
      rfl
    have h : Shadows mem log Json.requests (fun t => t.node mem log.length) (.ok (.object members, r))
        (makeNode mem ((Json.object members).node mem log.length) (log ++ membersAsks members) r) :=
      makeNode_shadows hg hr r
    rwa [hb] at h

/-! ### Values -/

theorem parseValueAt_shadows {plainNested : Int → Bytes → Result (Json Num × Bytes)}
    {nested : Int → Reader} (h : ∀ c, ShadowsAt mem (plainNested c) (nested c)) :
    ShadowsAt mem (J89.parseValueAt J89.parseNumber plainNested) (parseValueAt mem nested) := by
  intro log s hs
  have hs' := hs.of_suffix (skipWs_suffix s)
  rw [J89.parseValueAt, parseValueAt]
  refine .ite (fun _ => h _ log _ hs') fun _ => .ite (fun _ => h _ log _ hs') fun _ => ?_
  refine .ite (fun _ => ?_) fun _ => .ite (fun _ => ?_) fun _ => .ite (fun _ => ?_) fun _ =>
    .ite (fun _ => ?_) fun _ => .ite (fun _ => ?_) fun _ => .fail _ _
  · refine (parseString_shadows log (skipWs s)).bind (fun v r a r' _ h => ?_) fun v r _ hg => .ok hg rfl rfl
    cases h
    exact prefix_rfl
  · exact parseLit_shadows log rfl (fun _ => rfl) _ _
  · exact parseLit_shadows log rfl (fun _ => rfl) _ _
  · exact parseLit_shadows log rfl (fun _ => rfl) _ _
  · exact (parseNumber_shadows log hs').map Json.number (fun _ => rfl) fun _ => rfl

theorem parseNested_shadows (hv : ShadowsAt mem plain reader)
    (hp : Parses Numeral.read n plain) (ht : ∀ s, ShortFractions s → Told (plain s)) (c : Int) :
    ShadowsAt mem (J89.parseNested (some plain) c) (parseNested mem (some reader) c) :=
  fun log s hs => .ite (fun _ => parseObject_shadows hv hp ht log s hs)
    fun _ => parseArray_shadows hv hp ht log s hs

theorem parseValue_shadows (mem : Memory) (levels : Nat) :
    ShadowsAt mem (J89.parseValue J89.parseNumber levels) (parseValue mem levels) := by
  induction levels with
  | zero => exact parseValueAt_shadows fun c log s _ => .fail _ _
  | succ levels ih =>
    exact parseValueAt_shadows
      (parseNested_shadows ih (parseValue_parses parseNumber_reads levels) (told_parseValue levels))

end

end Refused

/-! ## Documents -/

theorem bomStart_suffix (buf : Bytes) : bomStart buf <:+ buf := by
  unfold bomStart
  split
  · exact ⟨bom, rfl⟩
  · exact suffix_rfl

variable {buf : Bytes}

theorem refused_of_not_document (mem : Memory) (hbuf : ShortFractions buf)
    (h : ∀ t, ¬ Document Numeral.read buf t) : Refused.Refuses (Refused.parse mem buf) := by
  have hs := Refused.parseValue_shadows mem maxDepth [] (bomStart buf)
    (hbuf.of_suffix (bomStart_suffix buf))
  rw [Refused.parse]
  cases hx : parseValue parseNumber maxDepth (bomStart buf) with
  | error e => exact (hs.fails e hx).bind _
  | ok p =>
    obtain ⟨t, r⟩ := p
    by_cases hg : Granted mem .checked 0 t.requests
    · rw [hs.gives t r hx hg, Refused.result_bind]
      have heof : ¬ eof (skipWs r) = true := by
        intro heof
        exact h t (parse_iff.mp (bind_eq_ok.mpr ⟨(t, r), hx, if_pos heof⟩))
      exact ⟨_, if_neg heof⟩
    · exact (hs.refused t r hx hg).bind _

/-- A document that is refused, or else the node that it gives. -/
theorem refused_parse (mem : Memory) (hbuf : ShortFractions buf) {t : Json Num}
    (h : Document Numeral.read buf t) :
    Granted mem .checked 0 t.requests ∧ Refused.parse mem buf = .ok (t.node mem 0) ∨
      ¬ Granted mem .checked 0 t.requests ∧ Refused.Refuses (Refused.parse mem buf) := by
  obtain ⟨⟨root, r⟩, hval, hrest⟩ := bind_eq_ok.mp (parse_iff.mpr h)
  simp only at hrest
  split at hrest
  case isFalse => cases hrest
  case isTrue heof =>
    cases hrest
    have hs := Refused.parseValue_shadows mem maxDepth [] (bomStart buf)
      (hbuf.of_suffix (bomStart_suffix buf))
    rw [Refused.parse]
    by_cases hg : Granted mem .checked 0 t.requests
    · refine .inl ⟨hg, ?_⟩
      rw [hs.gives t r hval hg, Refused.result_bind]
      exact if_pos heof
    · exact .inr ⟨hg, (hs.refused t r hval hg).bind _⟩

/-- The parser fails with a message, or gives a root from which no `J89_BAD` is reached. -/
def AllOrNothing (mem : Memory) (buf : Bytes) : Prop :=
  (∃ message, Refused.parse mem buf = .error (.error message)) ∨
    ∃ root, Refused.parse mem buf = .ok root ∧ root.whole = true

end J89
