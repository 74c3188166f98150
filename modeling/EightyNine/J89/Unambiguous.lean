import EightyNine.J89.ParseOk

/-!
# The tree of a document

Reading a document with its numerals left as they are gives one tree
(`Document.unique`), and what a document means is what its numerals mean in that
tree (`document_iff`).
-/

namespace J89

open List Option

variable {α β γ : Type}

/-! ## Trees of numerals -/

mutual

/-- A meaning for every number, or none when a number has none. -/
def Json.traverse (f : α → Option β) : Json α → Option (Json β)
  | .null => some .null
  | .bool v => some (.bool v)
  | .number x => (f x).map .number
  | .string bytes => some (.string bytes)
  | .array items => (Json.traverseItems f items).map .array
  | .object members => (Json.traverseMembers f members).map .object

def Json.traverseItems (f : α → Option β) : List (Json α) → Option (List (Json β))
  | [] => some []
  | t :: ts => (Json.traverse f t).bind fun u => (Json.traverseItems f ts).map (u :: ·)

def Json.traverseMembers (f : α → Option β) :
    List (Bytes × Json α) → Option (List (Bytes × Json β))
  | [] => some []
  | (k, t) :: ts =>
    (Json.traverse f t).bind fun u => (Json.traverseMembers f ts).map ((k, u) :: ·)

end

theorem Json.traverseItems_iff {f : α → Option β} {ts : List (Json α)} {us : List (Json β)} :
    Json.traverseItems f ts = some us ↔ List.Forall₂ (fun t u => t.traverse f = some u) ts us := by
  induction ts generalizing us with
  | nil => simp [traverseItems, eq_comm]
  | cons t ts ih =>
    rw [traverseItems, forall₂_cons_left_iff]
    simp only [bind_eq_some_iff, map_eq_some_iff, ih]
    constructor
    · rintro ⟨u, hu, us, hus, rfl⟩
      exact ⟨u, us, hu, hus, rfl⟩
    · rintro ⟨u, us, hu, hus, rfl⟩
      exact ⟨u, hu, us, hus, rfl⟩

variable {ts : List (Bytes × Json α)} {us : List (Bytes × Json β)}

theorem Json.traverseMembers_iff {f : α → Option β} :
    Json.traverseMembers f ts = some us ↔
      List.Forall₂ (fun t u => t.1 = u.1 ∧ t.2.traverse f = some u.2) ts us := by
  induction ts generalizing us with
  | nil => simp [traverseMembers, eq_comm]
  | cons t ts ih =>
    obtain ⟨k, t⟩ := t
    rw [traverseMembers, forall₂_cons_left_iff]
    simp only [bind_eq_some_iff, map_eq_some_iff, ih]
    constructor
    · rintro ⟨u, hu, us, hus, rfl⟩
      exact ⟨(k, u), us, ⟨rfl, hu⟩, hus, rfl⟩
    · rintro ⟨⟨k', u⟩, us, ⟨rfl, hu⟩, hus, rfl⟩
      exact ⟨u, hu, us, hus, rfl⟩

/-- The same text with another value. -/
def Padded.as (e : Padded α) (v : β) : Padded β := { e with val := v }

def Member.as (m : Member α) (v : Json β) : Member β := { m with value := m.value.as v }

/-- Values for the items of a list, put in their places. -/
theorem exists_items {P : Padded α → β → Prop} {es : List (Padded α)} {vs : List β}
    (h : List.Forall₂ P es vs) :
    ∃ es' : List (Padded β), es'.map Padded.bytes = es.map Padded.bytes ∧
      es'.map Padded.val = vs ∧ ∀ e' ∈ es', ∃ e ∈ es, e' = e.as e'.val ∧ P e e'.val := by
  induction h with
  | nil => exact ⟨[], rfl, rfl, by simp⟩
  | @cons e v es vs hev _ ih =>
    obtain ⟨es', hbytes, hval, hmem⟩ := ih
    refine ⟨e.as v :: es', by simp [hbytes, Padded.as, Padded.bytes], by simp [hval, Padded.as], ?_⟩
    intro e' he'
    rcases mem_cons.mp he' with rfl | he'
    · exact ⟨e, mem_cons_self, rfl, hev⟩
    · obtain ⟨d, hd, heq, hp⟩ := hmem e' he'
      exact ⟨d, mem_cons_of_mem e hd, heq, hp⟩

theorem exists_members {P : Member α → Json β → Prop} {ms : List (Member α)}
    {vs : List (Bytes × Json β)}
    (h : List.Forall₂ (fun m v => m.key.val = v.1 ∧ P m v.2) ms vs) :
    ∃ ms' : List (Member β), ms'.map Member.bytes = ms.map Member.bytes ∧
      ms'.map (fun m => m.key.val) = ms.map (fun m => m.key.val) ∧ ms'.map Member.val = vs ∧
      ∀ m' ∈ ms', ∃ m ∈ ms, m' = m.as m'.value.val ∧ P m m'.value.val := by
  induction h with
  | nil => exact ⟨[], rfl, rfl, rfl, by simp⟩
  | @cons m v ms vs hmv _ ih =>
    obtain ⟨ms', hbytes, hkey, hval, hmem⟩ := ih
    refine ⟨m.as v.2 :: ms', ?_, ?_, ?_, ?_⟩
    · simp [hbytes, Member.as, Member.bytes, Padded.as, Padded.bytes]
    · simp [hkey, Member.as]
    · rw [map_cons, hval]
      exact congrArg (· :: vs) (Prod.ext hmv.1 rfl)
    · intro m' hm'
      rcases mem_cons.mp hm' with rfl | hm'
      · exact ⟨m, mem_cons_self, rfl, hmv.2⟩
      · obtain ⟨d, hd, heq, hp⟩ := hmem m' hm'
        exact ⟨d, mem_cons_of_mem m hd, heq, hp⟩

variable {n : Nat} {x : Bytes} {T : Json Numeral}

theorem exists_forall₂ {γ δ : Type} {P : γ → δ → Prop} {l : List γ} (h : ∀ a ∈ l, ∃ b, P a b) :
    ∃ l', List.Forall₂ P l l' := by
  induction l with
  | nil => exact ⟨[], .nil⟩
  | cons a l ih =>
    obtain ⟨b, hb⟩ := h a mem_cons_self
    obtain ⟨l', hl'⟩ := ih fun c hc => h c (mem_cons_of_mem a hc)
    exact ⟨b :: l', .cons hb hl'⟩

/-- The values of the items of an array may be replaced one by one. -/
theorem Value.array_of {num : Numeral → Option β} {es : List (Padded α)} {vs : List (Json β)}
    (hne : es ≠ []) (hblank : ∀ e ∈ es, e.Blank)
    (h : List.Forall₂ (fun e v => Value num n e.text v) es vs) :
    Value num (n + 1) (byte '[' :: (commas (es.map Padded.bytes) ++ [byte ']'])) (.array vs) := by
  obtain ⟨es', hbytes, rfl, hmem⟩ := exists_items h
  rw [← hbytes]
  refine .array ?_ ?_ ?_
  · rintro rfl
    exact hne (map_eq_nil_iff.mp hbytes.symm)
  · intro e' he'
    obtain ⟨e, he, heq, -⟩ := hmem e' he'
    rw [heq]
    exact hblank e he
  · intro e' he'
    obtain ⟨e, -, heq, hval⟩ := hmem e' he'
    have htext : e'.text = e.text := by rw [heq]; rfl
    rw [htext]
    exact hval

theorem Value.object_of {num : Numeral → Option β} {ms : List (Member α)}
    {vs : List (Bytes × Json β)} (hne : ms ≠ []) (hblank : ∀ m ∈ ms, m.Blank)
    (hkey : ∀ m ∈ ms, StrBody m.key.text m.key.val) (hnodup : (ms.map fun m => m.key.val).Nodup)
    (h : List.Forall₂ (fun m v => m.key.val = v.1 ∧ Value num n m.value.text v.2) ms vs) :
    Value num (n + 1) (byte '{' :: (commas (ms.map Member.bytes) ++ [byte '}']))
      (.object vs) := by
  obtain ⟨ms', hbytes, hkeys, rfl, hmem⟩ :=
    exists_members (P := fun m v => Value num n m.value.text v) h
  rw [← hbytes]
  refine .object ?_ ?_ ?_ ?_ (by rw [hkeys]; exact hnodup)
  · rintro rfl
    exact hne (map_eq_nil_iff.mp hbytes.symm)
  · intro m' hm'
    obtain ⟨m, hm, heq, -⟩ := hmem m' hm'
    rw [heq]
    exact hblank m hm
  · intro m' hm'
    obtain ⟨m, hm, heq, -⟩ := hmem m' hm'
    rw [heq]
    exact hkey m hm
  · intro m' hm'
    obtain ⟨m, -, heq, hval⟩ := hmem m' hm'
    have htext : m'.value.text = m.value.text := by rw [heq]; rfl
    rw [htext]
    exact hval

/-- A tree of numerals whose numerals have meanings is a tree of the meanings. -/
theorem Value.of_traverse {f : Numeral → Option α}
    (h : Value some n x T) : ∀ {t : Json α}, T.traverse f = some t → Value f n x t := by
  induction h with
  | null => intro t ht; cases ht; exact .null
  | bool v => intro t ht; cases ht; exact .bool v
  | number h =>
    intro t ht
    cases h
    obtain ⟨a, ha, rfl⟩ := map_eq_some_iff.mp ht
    exact .number ha
  | string h => intro t ht; cases ht; exact .string h
  | emptyArray hw => intro t ht; cases ht; exact .emptyArray hw
  | array hne hblank _ ih =>
    intro t ht
    obtain ⟨us, hus, rfl⟩ := map_eq_some_iff.mp ht
    have h := forall₂_map_left_iff.mp (Json.traverseItems_iff.mp hus)
    exact .array_of hne hblank
      (((forall₂_and_left _ _).mpr ⟨fun e he u => @ih e he u, h⟩).imp fun _ _ h => h.1 _ h.2)
  | emptyObject hw => intro t ht; cases ht; exact .emptyObject hw
  | object hne hblank hkey _ hnodup ih =>
    intro t ht
    obtain ⟨us, hus, rfl⟩ := map_eq_some_iff.mp ht
    have h := forall₂_map_left_iff.mp (Json.traverseMembers_iff.mp hus)
    exact .object_of hne hblank hkey hnodup
      (((forall₂_and_left _ _).mpr ⟨fun m hm u => @ih m hm u, h⟩).imp fun _ _ h => ⟨h.2.1, h.1 _ h.2.2⟩)

variable {t : Json α}

/-- What a value means comes from a tree of its numerals. -/
theorem Value.exists_tree {f : Numeral → Option α}
    (h : Value f n x t) : ∃ T, Value some n x T ∧ T.traverse f = some t := by
  induction h with
  | null => exact ⟨.null, .null, rfl⟩
  | bool v => exact ⟨.bool v, .bool v, rfl⟩
  | @number n x a h => exact ⟨.number x, .number rfl, by rw [Json.traverse, h]; rfl⟩
  | @string n x v h => exact ⟨.string v, .string h, rfl⟩
  | emptyArray hw => exact ⟨.array [], .emptyArray hw, rfl⟩
  | @array n es hne hblank _ ih =>
    obtain ⟨Ts, hTs⟩ := exists_forall₂ ih
    refine ⟨.array Ts, .array_of hne hblank (hTs.imp fun _ _ h => h.1), ?_⟩
    refine map_eq_some_iff.mpr ⟨es.map Padded.val, Json.traverseItems_iff.mpr ?_, rfl⟩
    exact forall₂_map_right_iff.mpr (List.Forall₂.flip (hTs.imp fun _ _ h => h.2))
  | emptyObject hw => exact ⟨.object [], .emptyObject hw, rfl⟩
  | @object n ms hne hblank hkey _ hnodup ih =>
    have hpairs : ∀ m ∈ ms, ∃ b : Bytes × Json Numeral, m.key.val = b.1 ∧
        Value some n m.value.text b.2 ∧ b.2.traverse f = some m.value.val := fun m hm => by
      obtain ⟨T, hT⟩ := ih m hm
      exact ⟨(m.key.val, T), rfl, hT⟩
    obtain ⟨Ts, hTs⟩ := exists_forall₂ hpairs
    refine ⟨.object Ts, .object_of hne hblank hkey hnodup (hTs.imp fun _ _ h => ⟨h.1, h.2.1⟩), ?_⟩
    refine map_eq_some_iff.mpr ⟨ms.map Member.val, Json.traverseMembers_iff.mpr ?_, rfl⟩
    exact forall₂_map_right_iff.mpr (List.Forall₂.flip (hTs.imp fun _ _ h => ⟨h.1.symm, h.2.2⟩))

variable {buf : Bytes}

theorem document_iff {f : Numeral → Option α} :
    Document f buf t ↔ ∃ T, Document some buf T ∧ T.traverse f = some t := by
  constructor
  · rintro ⟨w, x, w', hw, hw', hx, hbuf⟩
    obtain ⟨T, hT, ht⟩ := hx.exists_tree
    exact ⟨T, ⟨w, x, w', hw, hw', hT, hbuf⟩, ht⟩
  · rintro ⟨T, ⟨w, x, w', hw, hw', hT, hbuf⟩, ht⟩
    exact ⟨w, x, w', hw, hw', hT.of_traverse ht, hbuf⟩

theorem Json.traverseItems_congr {f : α → Option γ} {g : β → Option γ} {ts : List (Json α)}
    {us : List (Json β)} (h : List.Forall₂ (fun t u => t.traverse f = u.traverse g) ts us) :
    Json.traverseItems f ts = Json.traverseItems g us := by
  induction h with
  | nil => rfl
  | cons htu _ ih => rw [traverseItems, traverseItems, htu, ih]

theorem Json.traverseMembers_congr {f : α → Option γ} {g : β → Option γ}
        (h : List.Forall₂ (fun t u => t.1 = u.1 ∧ t.2.traverse f = u.2.traverse g) ts us) :
    Json.traverseMembers f ts = Json.traverseMembers g us := by
  induction h with
  | nil => rfl
  | @cons t u ts us htu _ ih =>
    obtain ⟨k, t⟩ := t
    obtain ⟨k', u⟩ := u
    obtain ⟨rfl, htu⟩ := htu
    have htu : t.traverse f = u.traverse g := htu
    rw [traverseMembers, traverseMembers, htu, ih]

/-! ## Numbers of a tree -/

mutual

/-- The numbers of a tree. -/
def Json.numbers : Json α → List α
  | .number x => [x]
  | .array items => Json.itemNumbers items
  | .object members => Json.memberNumbers members
  | _ => []

def Json.itemNumbers : List (Json α) → List α
  | [] => []
  | t :: ts => t.numbers ++ Json.itemNumbers ts

def Json.memberNumbers : List (Bytes × Json α) → List α
  | [] => []
  | (_, t) :: ts => t.numbers ++ Json.memberNumbers ts

end

section

variable (f : α → Option β)

mutual

theorem Json.traverse_isSome_iff : (t : Json α) →
    ((t.traverse f).isSome = true ↔ ∀ a ∈ t.numbers, (f a).isSome = true)
  | .null | .bool v | .number x | .string bytes => by simp [traverse, numbers]
  | .array items => by
    rw [traverse, numbers, isSome_map, traverseItems_isSome_iff items]
  | .object members => by
    rw [traverse, numbers, isSome_map, traverseMembers_isSome_iff members]

theorem Json.traverseItems_isSome_iff : (ts : List (Json α)) →
    ((Json.traverseItems f ts).isSome = true ↔ ∀ a ∈ Json.itemNumbers ts, (f a).isSome = true)
  | [] => by simp [traverseItems, itemNumbers]
  | t :: ts => by
    rw [itemNumbers, forall_mem_append, ← traverse_isSome_iff t,
      ← traverseItems_isSome_iff ts, traverseItems]
    cases t.traverse f <;> simp

theorem Json.traverseMembers_isSome_iff : (ts : List (Bytes × Json α)) →
    ((Json.traverseMembers f ts).isSome = true ↔
      ∀ a ∈ Json.memberNumbers ts, (f a).isSome = true)
  | [] => by simp [traverseMembers, memberNumbers]
  | (k, t) :: ts => by
    rw [memberNumbers, forall_mem_append, ← traverse_isSome_iff t,
      ← traverseMembers_isSome_iff ts, traverseMembers]
    cases t.traverse f <;> simp

end

end

section

variable {f g : α → Option β}

mutual

/-- Meanings that agree on the numbers of a tree agree on the tree. -/
theorem Json.traverse_congr : {t : Json α} → (∀ a ∈ t.numbers, f a = g a) →
    t.traverse f = t.traverse g
  | .null, _ => rfl
  | .bool v, _ => rfl
  | .number x, h => by rw [traverse, traverse, h x (by simp [numbers])]
  | .string bytes, _ => rfl
  | .array items, h => by rw [traverse, traverse, traverseItems_congr_of h]
  | .object members, h => by rw [traverse, traverse, traverseMembers_congr_of h]

theorem Json.traverseItems_congr_of : {ts : List (Json α)} →
    (∀ a ∈ Json.itemNumbers ts, f a = g a) → Json.traverseItems f ts = Json.traverseItems g ts
  | [], _ => rfl
  | t :: ts, h => by
    rw [itemNumbers, forall_mem_append] at h
    rw [traverseItems, traverseItems, traverse_congr h.1, traverseItems_congr_of h.2]

theorem Json.traverseMembers_congr_of : {ts : List (Bytes × Json α)} →
    (∀ a ∈ Json.memberNumbers ts, f a = g a) →
      Json.traverseMembers f ts = Json.traverseMembers g ts
  | [], _ => rfl
  | (k, t) :: ts, h => by
    rw [memberNumbers, forall_mem_append] at h
    rw [traverseMembers, traverseMembers, traverse_congr h.1, traverseMembers_congr_of h.2]

end

mutual

/-- The numbers of the meaning are the meanings of the numbers. -/
theorem Json.numbers_traverse : {t : Json α} → {u : Json β} → t.traverse f = some u →
    t.numbers.map f = u.numbers.map some
  | .null, _, h => by cases h; rfl
  | .bool v, _, h => by cases h; rfl
  | .number x, _, h => by
    obtain ⟨a, ha, rfl⟩ := map_eq_some_iff.mp h
    simp [numbers, ha]
  | .string bytes, _, h => by cases h; rfl
  | .array items, _, h => by
    obtain ⟨us, hus, rfl⟩ := map_eq_some_iff.mp h
    exact itemNumbers_traverse hus
  | .object members, _, h => by
    obtain ⟨us, hus, rfl⟩ := map_eq_some_iff.mp h
    exact memberNumbers_traverse hus

theorem Json.itemNumbers_traverse : {ts : List (Json α)} → {us : List (Json β)} →
    Json.traverseItems f ts = some us →
      (Json.itemNumbers ts).map f = (Json.itemNumbers us).map some
  | [], _, h => by cases h; rfl
  | t :: ts, _, h => by
    obtain ⟨u, hu, h⟩ := bind_eq_some_iff.mp h
    obtain ⟨us, hus, rfl⟩ := map_eq_some_iff.mp h
    rw [itemNumbers, itemNumbers, map_append, map_append, numbers_traverse hu,
      itemNumbers_traverse hus]

theorem Json.memberNumbers_traverse : {ts : List (Bytes × Json α)} →
    {us : List (Bytes × Json β)} → Json.traverseMembers f ts = some us →
      (Json.memberNumbers ts).map f = (Json.memberNumbers us).map some
  | [], _, h => by cases h; rfl
  | (k, t) :: ts, _, h => by
    obtain ⟨u, hu, h⟩ := bind_eq_some_iff.mp h
    obtain ⟨us, hus, rfl⟩ := map_eq_some_iff.mp h
    rw [memberNumbers, memberNumbers, map_append, map_append, numbers_traverse hu,
      memberNumbers_traverse hus]

end

/-- Two meanings of a tree are the same exactly when its numbers mean the same, or each leaves
a number without a meaning. -/
theorem Json.traverse_eq_iff : t.traverse f = t.traverse g ↔
    (∀ a ∈ t.numbers, f a = g a) ∨ (∃ a ∈ t.numbers, f a = none) ∧ ∃ a ∈ t.numbers, g a = none := by
  have hnone : ∀ f : α → Option β, t.traverse f = none ↔ ∃ a ∈ t.numbers, f a = none := by
    intro f
    rw [← not_isSome_iff_eq_none, traverse_isSome_iff f t]
    simp
  constructor
  · intro h
    cases hf : t.traverse f with
    | none => exact .inr ⟨(hnone f).mp hf, (hnone g).mp (h ▸ hf)⟩
    | some u =>
      have hmap := (numbers_traverse hf).trans (numbers_traverse (h ▸ hf)).symm
      exact .inl (map_inj_left.mp hmap)
  · rintro (h | ⟨hf, hg⟩)
    · exact traverse_congr h
    · exact ((hnone f).mpr hf).trans ((hnone g).mpr hg).symm

end

variable {a : α}

theorem Json.mem_itemNumbers {ts : List (Json α)} :
    a ∈ Json.itemNumbers ts ↔ ∃ t ∈ ts, a ∈ t.numbers := by
  induction ts with
  | nil => simp [itemNumbers]
  | cons t ts ih => simp [itemNumbers, ih]

theorem Json.mem_memberNumbers :
    a ∈ Json.memberNumbers ts ↔ ∃ t ∈ ts, a ∈ t.2.numbers := by
  induction ts with
  | nil => simp [memberNumbers]
  | cons t ts ih => simp [memberNumbers, ih]

theorem infix_commas {xs : List Bytes} (h : x ∈ xs) : x <:+: commas xs := by
  induction xs with
  | nil => cases h
  | cons y xs ih =>
    have htail : commas xs <:+: commas (y :: xs) := by
      cases xs with
      | nil => exact nil_infix
      | cons z xs =>
        rw [commas]
        exact ((suffix_cons _ _).trans (suffix_append _ _)).isInfix
    rcases mem_cons.mp h with rfl | h
    · cases xs with
      | nil => exact infix_rfl
      | cons z xs => exact (prefix_append _ _).isInfix
    · exact (ih h).trans htail

theorem Padded.text_infix (p : Padded α) : p.text <:+: p.bytes :=
  infix_append' _ _ _

/-- What stands between two brackets. -/
theorem infix_bracket (b c : UInt8) (x : Bytes) : x <:+: b :: (x ++ [c]) :=
  (prefix_append x [c]).isInfix.trans (suffix_cons b _).isInfix

/-- The numbers of a document are the meanings of numerals in its text. -/
theorem Value.exists_numeral {f : Numeral → Option α}
    (h : Value f n x t) :
    ∀ a ∈ t.numbers, ∃ y : Numeral, f y = some a ∧ y.text <:+: x := by
  induction h with
  | @number n x a h =>
    intro b hb
    rw [Json.numbers, mem_singleton] at hb
    exact ⟨x, hb ▸ h, infix_rfl⟩
  | array _ _ _ ih =>
    intro a ha
    rw [Json.numbers, Json.mem_itemNumbers] at ha
    obtain ⟨t, ht, ha⟩ := ha
    obtain ⟨e, he, rfl⟩ := mem_map.mp ht
    obtain ⟨y, hy, hin⟩ := ih e he a ha
    refine ⟨y, hy, hin.trans (e.text_infix.trans ?_)⟩
    exact (infix_commas (mem_map_of_mem he)).trans (infix_bracket _ _ _)
  | object _ _ _ _ _ ih =>
    intro a ha
    rw [Json.numbers, Json.mem_memberNumbers] at ha
    obtain ⟨t, ht, ha⟩ := ha
    obtain ⟨m, hm, rfl⟩ := mem_map.mp ht
    obtain ⟨y, hy, hin⟩ := ih m hm a ha
    have hvalue : m.value.bytes <:+: m.bytes :=
      (((suffix_cons _ _).trans (suffix_append _ _)).trans
        ((suffix_append _ _).trans (suffix_append _ _))).isInfix
    refine ⟨y, hy, hin.trans ((m.value.text_infix.trans hvalue).trans ?_)⟩
    exact (infix_commas (mem_map_of_mem hm)).trans (infix_bracket _ _ _)
  | _ => simp [Json.numbers, Json.itemNumbers, Json.memberNumbers]

/-! ## One tree -/

theorem digit_injective : Function.Injective digit := by
  intro d e h
  have hnat := congrArg UInt8.toNat h
  rw [digit_toNat, digit_toNat] at hnat
  exact Fin.ext (Nat.add_left_cancel hnat)

variable {ds es : Digits} {r r' : Bytes}

theorem digits_append_inj (hr : isDigit (cur r) = false)
    (hr' : isDigit (cur r') = false) (h : ds.text ++ r = es.text ++ r') : ds = es ∧ r = r' := by
  induction ds generalizing es with
  | nil =>
    cases es with
    | nil => exact ⟨rfl, h⟩
    | cons e es =>
      rw [Digits.text_nil, nil_append] at h
      rw [h, isDigit_text] at hr
      cases hr
  | cons d ds ih =>
    cases es with
    | nil =>
      rw [Digits.text_nil, nil_append] at h
      rw [← h, isDigit_text] at hr'
      cases hr'
    | cons e es =>
      obtain ⟨hd, ht⟩ := cons.inj h
      obtain ⟨rfl, rfl⟩ := ih ht
      exact ⟨congrArg (· :: ds) (digit_injective hd), rfl⟩

theorem digits_text_injective : Function.Injective Digits.text := by
  intro ds es h
  have happ : ds.text ++ [] = es.text ++ [] := by rw [h]
  exact (digits_append_inj (by decide) (by decide) happ).1

/-- A sign and digits are told apart by what is in front. -/
theorem sign_digits_inj {sign sign' : ExpSign} (hds : ds ≠ []) (hes : es ≠ [])
    (h : sign.text ++ ds.text = sign'.text ++ es.text) : sign = sign' ∧ ds = es := by
  obtain ⟨d, ds, rfl⟩ := exists_cons_of_ne_nil hds
  obtain ⟨e, es, rfl⟩ := exists_cons_of_ne_nil hes
  have hsign : ∀ d : Fin 10, digit d ≠ byte '+' ∧ digit d ≠ byte '-' := by decide
  cases sign with
  | none =>
    cases sign' with
    | none => exact ⟨rfl, digits_text_injective h⟩
    | plus => exact absurd (cons.inj h).1 (hsign d).1
    | minus => exact absurd (cons.inj h).1 (hsign d).2
  | plus =>
    cases sign' with
    | none => exact absurd (cons.inj h).1.symm (hsign e).1
    | plus => exact ⟨rfl, digits_text_injective (cons.inj h).2⟩
    | minus => exact absurd (cons.inj h).1 (by decide)
  | minus =>
    cases sign' with
    | none => exact absurd (cons.inj h).1.symm (hsign e).2
    | plus => exact absurd (cons.inj h).1 (by decide)
    | minus => exact ⟨rfl, digits_text_injective (cons.inj h).2⟩

theorem expText_injective : Function.Injective expText := by
  intro x y h
  cases x with
  | none =>
    cases y with
    | none => rfl
    | some y => cases h
  | some x =>
    cases y with
    | none => cases h
    | some y =>
      obtain ⟨upper, sign, ds, hds⟩ := x
      obtain ⟨upper', sign', es, hes⟩ := y
      obtain ⟨hmark, htail⟩ := cons.inj h
      obtain ⟨rfl, rfl⟩ := sign_digits_inj hds hes htail
      have hupper : ∀ a b : Bool, (if a then byte 'E' else byte 'e') =
          (if b then byte 'E' else byte 'e') → a = b := by decide
      obtain rfl : upper = upper' := hupper _ _ hmark
      rfl

theorem follows_nil : Follows [] := Stops.follows (.inl rfl)

theorem fracText_append_inj (hr : isDigit (cur r) = false)
    (hdot : cur r ≠ ch '.') (hr' : isDigit (cur r') = false) (hdot' : cur r' ≠ ch '.')
    (h : fracText ds ++ r = fracText es ++ r') : ds = es ∧ r = r' := by
  have hpoint : ∀ s : Bytes, cur (byte '.' :: s) = ch '.' :=
    fun s => (cur_eq_ch (by decide)).mpr ⟨s, rfl⟩
  cases ds with
  | nil =>
    cases es with
    | nil => exact ⟨rfl, h⟩
    | cons e es =>
      obtain rfl : r = fracText (e :: es) ++ r' := h
      exact absurd (hpoint _) hdot
  | cons d ds =>
    cases es with
    | nil =>
      obtain rfl : fracText (d :: ds) ++ r = r' := h
      exact absurd (hpoint _) hdot'
    | cons e es => exact digits_append_inj hr hr' (cons.inj h).2

theorem Numeral.text_append_inj {x y : Numeral} (hr : Follows r) (hr' : Follows r')
    (h : x.text ++ r = y.text ++ r') : x = y ∧ r = r' := by
  obtain ⟨neg, int, hne, hzero, frac, exp⟩ := x
  obtain ⟨neg', int', hne', hzero', frac', exp'⟩ := y
  obtain ⟨hdigit, hdot⟩ := cur_expText exp hr
  obtain ⟨hdigit', hdot'⟩ := cur_expText exp' hr'
  simp only [Numeral.text, append_assoc] at h
  have hsign : ∀ {neg : Bool} {int : Digits} (s : Bytes), int ≠ [] →
      takeNeg (signText neg ++ (Digits.text int ++ s)) = (neg, Digits.text int ++ s) := by
    intro neg int s hne
    obtain ⟨d, ds, rfl⟩ := exists_cons_of_ne_nil hne
    exact takeNeg_text neg d _
  have hparts := congrArg takeNeg h
  rw [hsign _ hne, hsign _ hne', Prod.mk.injEq] at hparts
  obtain ⟨rfl, hparts⟩ := hparts
  obtain ⟨rfl, hfrac⟩ := digits_append_inj (cur_fracText frac hdigit) (cur_fracText frac' hdigit') hparts
  obtain ⟨rfl, hexp⟩ := fracText_append_inj hdigit hdot hdigit' hdot' hfrac
  have htake := congrArg takeExp hexp
  rw [takeExp_text exp hr.digit hr.exp, takeExp_text exp' hr'.digit hr'.exp] at htake
  obtain rfl : r = r' := by
    simp only [Except.ok.injEq, Prod.mk.injEq] at htake
    exact htake.2.2
  obtain rfl := expText_injective (append_cancel_right hexp)
  exact ⟨rfl, rfl⟩

open Classical in
/-- The reader that leaves numerals as they are. -/
noncomputable def numeralReader (s : Bytes) : Result (Numeral × Bytes) :=
  if h : ∃ p : Numeral × Bytes, s = p.1.text ++ p.2 ∧ Follows p.2 then .ok h.choose
  else fail "invalid number"

theorem numeralReader_reads : Reads numeralReader some where
  sound := by
    intro s r x h
    rw [numeralReader] at h
    split at h
    case isFalse => cases h
    case isTrue hex =>
      have hspec := hex.choose_spec
      rw [Except.ok.inj h] at hspec
      exact ⟨x, hspec.1, rfl⟩
  complete := by
    intro x r y hr hx
    cases hx
    have hex : ∃ p : Numeral × Bytes, x.text ++ r = p.1.text ++ p.2 ∧ Follows p.2 :=
      ⟨(x, r), rfl, hr⟩
    obtain ⟨hx, hr'⟩ := Numeral.text_append_inj hr hex.choose_spec.2 hex.choose_spec.1
    rw [numeralReader, dif_pos hex]
    exact congrArg _ (Prod.ext hx.symm hr'.symm)

theorem Document.unique {T' : Json Numeral} (h : Document some buf T)
    (h' : Document some buf T') : T = T' := by
  rw [← parseBytes_iff numeralReader_reads] at h h'
  rw [h] at h'
  exact Except.ok.inj h'

end J89
