import EightyNine.J89.SprintfOk

/-!
# Rendering and reading back

The text of a tree that the parser has built is a document, and its tree is that of
the numbers as they are read back (`parse_render`).  So a tree without FLOAT nodes
comes back as it was (`render_parse`), and the text of any tree is read unless it
has a number that is not (`render_readable_iff`).
-/

namespace J89

open U89 List

/-! ## Strings -/

theorem hexDigit_wHexDigit (v i : Nat) :
    HexDigit (wHexDigit v i) ((v >>> (12 - i * 4)) % 16) := by
  have htable : ∀ k < 16, HexDigit (byte ("0123456789abcdef".toList.getD k '0')) k := by
    unfold HexDigit
    decide
  have hmask : (v >>> (12 - i * 4)) &&& 0xF = (v >>> (12 - i * 4)) % 16 :=
    Nat.and_two_pow_sub_one_eq_mod _ 4
  rw [wHexDigit, hmask]
  exact htable _ (Nat.mod_lt _ (by norm_num))

theorem hex4_wHex4 {u : Nat} (h : u < 0x10000) : Hex4 (wHex4 u) u := by
  refine ⟨_, _, _, _, _, _, _, _, hexDigit_wHexDigit u 0, hexDigit_wHexDigit u 1,
    hexDigit_wHexDigit u 2, hexDigit_wHexDigit u 3, rfl, ?_⟩
  simp only [Nat.shiftRight_eq_div_pow]
  omega

theorem wEscapeChar_ascii {c : Char} (hc : c.toNat < 0x80) :
    StrChar (wEscapeChar (byte c)) [byte c] := by
  rw [wEscapeChar]
  split
  case isTrue h => rw [h]; exact .simple (e := '"') (v := '"') (by decide)
  case isFalse hq =>
    split
    case isTrue h => rw [h]; exact .simple (e := '\\') (v := '\\') (by decide)
    case isFalse hb =>
      split
      case isTrue h => rw [h]; exact .simple (e := 'n') (v := '\n') (by decide)
      split
      case isTrue h => rw [h]; exact .simple (e := 't') (v := '\t') (by decide)
      split
      case isTrue h => rw [h]; exact .simple (e := 'r') (v := '\r') (by decide)
      split
      case isTrue h => rw [h]; exact .simple (e := 'b') (v := '\x08') (by decide)
      split
      case isTrue h => rw [h]; exact .simple (e := 'f') (v := '\x0C') (by decide)
      rw [← utf8EncodeChar_byte hc]
      split
      case isTrue =>
        have hu : (byte c).toNat = c.toNat := byte_toNat hc
        exact .unicode c (hu ▸ hex4_wHex4 (by omega))
      case isFalse hctl =>
        rw [UInt8.lt_iff_toNat_lt, byte_toNat hc] at hctl
        exact .raw c (not_lt.mp hctl) (fun h => hq (h ▸ rfl)) fun h => hb (h ▸ rfl)

theorem wEscapeChar_high {b : UInt8} (h : 0x80 ≤ b.toNat) : wEscapeChar b = [b] := by
  have hne : ∀ c : Char, c.toNat < 0x80 → b ≠ byte c := fun c hc heq => by
    rw [heq, byte_toNat hc] at h
    omega
  have hctl : ¬ b < 0x20 := by
    rw [UInt8.lt_iff_toNat_lt]
    exact not_lt.mpr (le_trans (by decide) h)
  rw [wEscapeChar, if_neg (hne _ (by decide)), if_neg (hne _ (by decide)),
    if_neg (hne _ (by decide)), if_neg (hne _ (by decide)), if_neg (hne _ (by decide)),
    if_neg (hne _ (by decide)), if_neg (hne _ (by decide)), if_neg hctl]

theorem wEscapeChar_encode (c : Char) :
    StrChar ((String.utf8EncodeChar c).flatMap wEscapeChar) (String.utf8EncodeChar c) := by
  rcases lt_or_ge c.toNat 0x80 with hc | hc
  · rw [utf8EncodeChar_byte hc, flatMap_singleton]
    exact wEscapeChar_ascii hc
  · have hraw : (String.utf8EncodeChar c).flatMap wEscapeChar = String.utf8EncodeChar c := by
      rw [flatMap_congr fun b hb => wEscapeChar_high (utf8EncodeChar_high hc hb)]
      exact flatMap_singleton' _
    rw [hraw]
    refine .raw c (le_trans (by decide) hc) ?_ ?_ <;> (rintro rfl; revert hc; decide)

variable {x v : Bytes}

/-- What stands for one character is the encoding of one. -/
theorem StrChar.exists_char (h : StrChar x v) :
    ∃ c : Char, v = String.utf8EncodeChar c := by
  cases h with
  | raw c | unicode c | pair c => exact ⟨c, rfl⟩
  | @simple e v h =>
    have hascii : ∀ p ∈ simpleEscapes, p.2.toNat < 0x80 := by decide
    exact ⟨v, (utf8EncodeChar_byte (hascii _ h)).symm⟩

/-- A string that is read is written as a string that stands for it. -/
theorem StrBody.escape (h : StrBody x v) : StrBody (v.flatMap wEscapeChar) v := by
  induction h with
  | nil => exact .nil
  | cons hc _ ih =>
    obtain ⟨c, rfl⟩ := hc.exists_char
    rw [flatMap_append]
    exact .cons (wEscapeChar_encode c) ih

/-! ## Trees -/

theorem commas_eq (x : Bytes) (xs : List Bytes) :
    commas (x :: xs) = x ++ xs.flatMap (byte ',' :: ·) := by
  induction xs generalizing x with
  | nil => simp [commas]
  | cons y ys ih => rw [commas, ih, flatMap_cons]; rfl

variable {depth : Nat} {xs : List Bytes}

theorem wRenderElems_more {ts : List (Json Num)}
    (h : List.Forall₂ (fun t x => wRender depth t = .ok x) ts xs) (i : Nat) :
    wRenderElems depth (i + 1) ts = .ok (xs.flatMap (byte ',' :: ·)) := by
  induction h generalizing i with
  | nil => rw [wRenderElems]; rfl
  | @cons t x ts xs ht _ ih =>
    rw [wRenderElems, bind_of_ok ht, bind_of_ok (ih (i + 1)), if_pos (Nat.succ_ne_zero i)]
    rfl

theorem wRenderElems_eq {ts : List (Json Num)}
    (h : List.Forall₂ (fun t x => wRender depth t = .ok x) ts xs) :
    wRenderElems depth 0 ts = .ok (commas xs) := by
  cases h with
  | nil => rw [wRenderElems]; rfl
  | @cons t x ts xs ht hts =>
    rw [wRenderElems, bind_of_ok ht, bind_of_ok (wRenderElems_more hts 0), commas_eq]
    rfl

variable {ts : List (Bytes × Json Num)}

theorem wRenderMembers_more (h : List.Forall₂ (fun t x => ∃ out, wRender depth t.2 = .ok out ∧
      x = wEscapeString t.1 ++ byte ':' :: out) ts xs) (i : Nat) :
    wRenderMembers depth (i + 1) ts = .ok (xs.flatMap (byte ',' :: ·)) := by
  induction h generalizing i with
  | nil => rw [wRenderMembers]; rfl
  | @cons t x ts xs ht _ ih =>
    obtain ⟨out, hout, rfl⟩ := ht
    obtain ⟨k, t⟩ := t
    rw [wRenderMembers, bind_of_ok hout, bind_of_ok (ih (i + 1)), if_pos (Nat.succ_ne_zero i)]
    simp

theorem wRenderMembers_eq (h : List.Forall₂ (fun t x => ∃ out, wRender depth t.2 = .ok out ∧
      x = wEscapeString t.1 ++ byte ':' :: out) ts xs) :
    wRenderMembers depth 0 ts = .ok (commas xs) := by
  cases h with
  | nil => rw [wRenderMembers]; rfl
  | @cons t x ts xs ht hts =>
    obtain ⟨out, hout, rfl⟩ := ht
    obtain ⟨k, t⟩ := t
    rw [wRenderMembers, bind_of_ok hout, bind_of_ok (wRenderMembers_more hts 0), commas_eq]
    simp

theorem forall_of_forall₂ {γ δ : Type} {P : γ → δ → Prop} {Q : δ → Prop} {l : List γ}
    {l' : List δ} (h : List.Forall₂ P l l') (hPQ : ∀ a b, P a b → Q b) : ∀ b ∈ l', Q b := by
  induction h with
  | nil => simp
  | @cons a b l l' hab _ ih => exact forall_mem_cons.mpr ⟨hPQ a b hab, ih⟩

/-- The text of a tree, and the numerals in it. -/
structure Renders (depth n : Nat) (t : Json Num) (out : Bytes) (T : Json Numeral) : Prop where
  text : wRender depth t = .ok out
  value : Value some n out T
  back : T.traverse Numeral.read = t.traverse reread

/-- A text without whitespace. -/
def Padded.tight {α : Type} (text : Bytes) (val : α) : Padded α := ⟨[], text, [], val⟩

@[simp] theorem Padded.tight_bytes {α : Type} (text : Bytes) (val : α) :
    (Padded.tight text val).bytes = text := by
  simp [Padded.tight, Padded.bytes]

theorem Padded.tight_blank {α : Type} (text : Bytes) (val : α) : (Padded.tight text val).Blank :=
  ⟨Ws.nil, Ws.nil⟩

variable {t : Json Num}

/-- A value that is read is written as a value, with its numbers as they are written. -/
theorem Value.renders {n : Nat} (h : Value Numeral.read n x t) :
    ∀ depth : Nat, depth + n ≤ maxDepth → ∃ out T, Renders depth n t out T := by
  induction h with
  | null => exact fun _ _ => ⟨_, .null, ⟨by rw [wRender], .null, rfl⟩⟩
  | bool v => exact fun _ _ => ⟨_, .bool v, ⟨by rw [wRender], .bool v, rfl⟩⟩
  | @number n x a h =>
    intro depth _
    obtain ⟨y, hy⟩ := J89.exists_numeral h
    refine ⟨_, .number y, by rw [wRender, hy], .number rfl, ?_⟩
    simp only [Json.traverse, reread_of_text hy]
  | @string n x v h => exact fun _ _ => ⟨_, .string v, ⟨by rw [wRender]; rfl, .string h.escape, rfl⟩⟩
  | @emptyArray n w hw =>
    intro depth hd
    refine ⟨_, .array [], ?_, .emptyArray Ws.nil, rfl⟩
    rw [wRender, if_neg (by omega), bind_of_ok (wRenderElems_eq .nil)]
    rfl
  | @array n es hne hblank _ ih =>
    intro depth hd
    have hitems : ∀ e ∈ es, ∃ e' : Padded (Json Numeral), e'.Blank ∧ e'.bytes = e'.text ∧
        Renders (depth + 1) n e.val e'.text e'.val := by
      intro e he
      obtain ⟨out, T, hT⟩ := ih e he (depth + 1) (by omega)
      exact ⟨.tight out T, Padded.tight_blank out T, Padded.tight_bytes out T, hT⟩
    obtain ⟨es', hes⟩ := exists_forall₂ hitems
    have hlen := hes.length_eq
    refine ⟨_, .array (es'.map Padded.val), ?_, .array ?_ ?_ ?_, ?_⟩
    · have htexts : List.Forall₂ (fun t x => wRender (depth + 1) t = .ok x) (es.map Padded.val)
          (es'.map Padded.bytes) := by
        rw [forall₂_map_left_iff, forall₂_map_right_iff]
        exact hes.imp fun e e' he => he.2.1 ▸ he.2.2.text
      rw [wRender, if_neg (by omega), bind_of_ok (wRenderElems_eq htexts)]
    · rintro rfl
      exact hne (length_eq_zero_iff.mp hlen)
    · exact forall_of_forall₂ hes fun e e' he => he.1
    · exact forall_of_forall₂ hes fun e e' he => he.2.2.value
    · rw [Json.traverse, Json.traverse, Json.traverseItems_congr]
      rw [forall₂_map_left_iff, forall₂_map_right_iff]
      exact (hes.imp fun e e' he => he.2.2.back).flip
  | @emptyObject n w hw =>
    intro depth hd
    refine ⟨_, .object [], ?_, .emptyObject Ws.nil, rfl⟩
    rw [wRender, if_neg (by omega), bind_of_ok (wRenderMembers_eq .nil)]
    rfl
  | @object n ms hne hblank hkey _ hnodup ih =>
    intro depth hd
    have hmembers : ∀ m ∈ ms, ∃ m' : Member Numeral, m'.Blank ∧ m'.key.val = m.key.val ∧
        StrBody m'.key.text m'.key.val ∧
        m'.bytes = wEscapeString m.key.val ++ byte ':' :: m'.value.text ∧
        Renders (depth + 1) n m.value.val m'.value.text m'.value.val := by
      intro m hm
      obtain ⟨out, T, hT⟩ := ih m hm (depth + 1) (by omega)
      refine ⟨⟨.tight (m.key.val.flatMap wEscapeChar) m.key.val, .tight out T⟩,
        ⟨Padded.tight_blank _ _, Padded.tight_blank _ _⟩, rfl, (hkey m hm).escape, ?_, hT⟩
      rw [Member.bytes, Padded.tight_bytes]
      rfl
    obtain ⟨ms', hms⟩ := exists_forall₂ hmembers
    have hlen := hms.length_eq
    refine ⟨_, .object (ms'.map Member.val), ?_, .object ?_ ?_ ?_ ?_ ?_, ?_⟩
    · have htexts : List.Forall₂ (fun t x => ∃ out, wRender (depth + 1) t.2 = .ok out ∧
          x = wEscapeString t.1 ++ byte ':' :: out) (ms.map Member.val) (ms'.map Member.bytes) := by
        rw [forall₂_map_left_iff, forall₂_map_right_iff]
        exact hms.imp fun m m' hm => ⟨_, hm.2.2.2.2.text, hm.2.2.2.1⟩
      rw [wRender, if_neg (by omega), bind_of_ok (wRenderMembers_eq htexts)]
    · rintro rfl
      exact hne (length_eq_zero_iff.mp hlen)
    · exact forall_of_forall₂ hms fun m m' hm => hm.1
    · exact forall_of_forall₂ hms fun m m' hm => hm.2.2.1
    · exact forall_of_forall₂ hms fun m m' hm => hm.2.2.2.2.value
    · have hkeys : ms'.map (fun m => m.key.val) = ms.map fun m => m.key.val := by
        rw [← forall₂_eq_eq_eq, forall₂_map_left_iff, forall₂_map_right_iff]
        exact (hms.imp fun m m' hm => hm.2.1).flip
      rw [hkeys]
      exact hnodup
    · rw [Json.traverse, Json.traverse, Json.traverseMembers_congr]
      rw [forall₂_map_left_iff, forall₂_map_right_iff]
      exact (hms.imp fun m m' hm => ⟨hm.2.1, hm.2.2.2.2.back⟩).flip

/-! ## Numbers of a tree -/

section

variable {α : Type} {f : α → Option α}

mutual

theorem Json.traverse_self : {t : Json α} → (∀ a ∈ t.numbers, f a = some a) →
    t.traverse f = some t
  | .null, _ => rfl
  | .bool v, _ => rfl
  | .number x, h => by rw [traverse, h x (by simp [numbers])]; rfl
  | .string bytes, _ => rfl
  | .array items, h => by rw [traverse, traverseItems_self h]; rfl
  | .object members, h => by rw [traverse, traverseMembers_self h]; rfl

theorem Json.traverseItems_self : {ts : List (Json α)} →
    (∀ a ∈ Json.itemNumbers ts, f a = some a) → Json.traverseItems f ts = some ts
  | [], _ => rfl
  | t :: ts, h => by
    rw [itemNumbers, forall_mem_append] at h
    rw [traverseItems, traverse_self h.1, traverseItems_self h.2]
    rfl

theorem Json.traverseMembers_self : {ts : List (Bytes × Json α)} →
    (∀ a ∈ Json.memberNumbers ts, f a = some a) → Json.traverseMembers f ts = some ts
  | [], _ => rfl
  | (k, t) :: ts, h => by
    rw [memberNumbers, forall_mem_append] at h
    rw [traverseMembers, traverse_self h.1, traverseMembers_self h.2]
    rfl

end

end

/-! ## Documents -/

/-- The text of a tree that is read is a document, which is read with its numbers as they are
read back. -/
theorem parse_render {buf : Bytes} (h : parse buf = .ok t) :
    ∃ out, render t = .ok out ∧ ∀ t', parse out = .ok t' ↔ t.traverse reread = some t' := by
  obtain ⟨w, x, w', hw, hw', hx, hbuf⟩ := parse_iff.mp h
  obtain ⟨out, T, hT⟩ := hx.renders 0 (Nat.zero_add _).le
  have hdoc : Document some out T :=
    ⟨[], out, [], Ws.nil, Ws.nil, hT.value, .inl (append_nil _).symm⟩
  refine ⟨out, hT.text, fun t' => ?_⟩
  rw [parse_iff, document_iff, ← hT.back]
  constructor
  · rintro ⟨T', hT', ht'⟩
    rwa [hdoc.unique hT']
  · exact fun ht' => ⟨T, hdoc, ht'⟩

/-- A tree without FLOAT nodes that is read is rendered, and its text is read as the same
tree. -/
theorem render_parse {buf : Bytes} {t : Json Num} (h : parse buf = .ok t)
    (hfloat : ∀ v, Num.float v ∉ t.numbers) :
    ∃ out, render t = .ok out ∧ parse out = .ok t := by
  obtain ⟨w, x, w', -, -, hx, -⟩ := parse_iff.mp h
  obtain ⟨out, hout, hparse⟩ := parse_render h
  refine ⟨out, hout, (hparse t).mpr (Json.traverse_self fun a ha => ?_)⟩
  obtain ⟨y, hy, -⟩ := hx.exists_numeral a ha
  rcases Numeral.read_cases hy with ⟨v, rfl, hv⟩ | ⟨neg, q, rfl, -⟩
  · exact reread_integer hv
  · exact absurd ha (hfloat _)

theorem parse_value (h : Value Numeral.read maxDepth x t) :
    parse x = .ok t :=
  parse_iff.mpr ⟨[], x, [], Ws.nil, Ws.nil, h, .inl (append_nil _).symm⟩

/-- A number and a string with an escape. -/
theorem render_parse_array :
    ∃ out, render (.array [.number (.integer 12), .string [0x0A]]) = .ok out ∧
      parse out = .ok (.array [.number (.integer 12), .string [0x0A]]) := by
  have hnumber : Value Numeral.read 9999 (ascii "12") (.number (.integer 12)) :=
    .number (x := stripped false [1, 2] [] ⟨by decide, by decide⟩ none) (by rfl)
  have hstring : Value Numeral.read 9999 (quoted (ascii "\\n")) (.string [0x0A]) :=
    .string (.cons (.simple (e := 'n') (v := '\n') (by decide)) .nil)
  have hvalue : Value Numeral.read 10000 _ (.array (map Padded.val
      [.tight (ascii "12") (.number (.integer 12)), .tight (quoted (ascii "\\n")) (.string [0x0A])])) :=
    .array (by simp) (by simp [Padded.tight_blank])
      (by simpa [Padded.tight] using ⟨hnumber, hstring⟩)
  exact render_parse (parse_value hvalue) (by simp [Json.numbers, Json.itemNumbers])

/-- The text of a tree that is read is read, unless the tree has a number that is printed as
an integer out of range. -/
theorem render_readable_iff {buf : Bytes} {t : Json Num} (h : parse buf = .ok t) :
    (∃ out t', render t = .ok out ∧ parse out = .ok t') ↔ ∀ a ∈ t.numbers, ¬ a.Wide := by
  obtain ⟨w, x, w', -, -, hx, -⟩ := parse_iff.mp h
  obtain ⟨out, hout, hparse⟩ := parse_render h
  have hback : (t.traverse reread).isSome = true ↔ ∀ a ∈ t.numbers, ¬ a.Wide := by
    rw [Json.traverse_isSome_iff]
    refine forall₂_congr fun a ha => ?_
    obtain ⟨y, hy, -⟩ := hx.exists_numeral a ha
    exact reread_isSome_iff hy
  rw [← hback, Option.isSome_iff_exists]
  constructor
  · rintro ⟨out', t', hout', ht'⟩
    rw [hout] at hout'
    cases hout'
    exact ⟨t', (hparse t').mp ht'⟩
  · rintro ⟨t', ht'⟩
    exact ⟨out, t', hout, (hparse t').mpr ht'⟩

/-- A fraction is read. -/
theorem render_readable_fraction :
    ∃ out t', render (.number (.float (.finite false (5 / 2)))) = .ok out ∧
      parse out = .ok t' := by
  have hread : (stripped false [2] [5] ⟨by decide, by decide⟩ none).read =
      some (.float (.finite false (5 / 2))) := by
    rw [Numeral.read_eq_num (by decide)]
    decide +kernel
  refine (render_readable_iff (parse_value (.number hread))).mpr ?_
  rw [Json.numbers, forall_mem_singleton, Num.Wide]
  rintro ⟨n, hn, hlow, -⟩
  have hsmall : (n : ℚ) < (3 : ℕ) := by rw [← hn]; norm_num
  have hsmall : n < 3 := by exact_mod_cast hsmall
  omega

/-- A one with sixteen zeros, written with an exponent. -/
def wideNumeral : Numeral :=
  stripped false [1] [] ⟨by decide, by decide⟩ (some ⟨false, .none, [1, 6], by decide⟩)

example : wideNumeral.text = ascii "1e16" := by decide

/-- The text `1e16` is read, and written as digits that are refused. -/
theorem wideNumeral_unreadable :
    ¬ ∀ buf t, parse buf = .ok t → ∃ out t', render t = .ok out ∧ parse out = .ok t' := by
  have hread : wideNumeral.read = some (.float (.finite false (10 ^ 16 : Nat))) := by
    rw [Numeral.read_eq_num (by decide)]
    decide +kernel
  have hback : reread (.float (.finite false (10 ^ 16 : Nat))) = none := by
    rw [reread_whole rfl (by norm_num), if_neg (by norm_num)]
  have hparse := parse_value (.number hread)
  obtain ⟨out, hout, hiff⟩ := parse_render hparse
  intro h
  obtain ⟨out', t', hout', ht'⟩ := h _ _ hparse
  rw [hout] at hout'
  cases hout'
  have htree := (hiff t').mp ht'
  rw [Json.traverse, hback] at htree
  cases htree

end J89
