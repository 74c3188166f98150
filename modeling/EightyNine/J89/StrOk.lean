import EightyNine.J89.Grammar
import EightyNine.J89.Parse

/-!
# Strings against the grammar

A step of the string reader takes one character of the grammar, or the closing
quote (`strStep_again_iff`, `strStep_done_iff`).  So the reader takes a body and
its quotes, and nothing else (`parseString_iff`).
-/

namespace J89

open Library U89 List

variable {α : Type}

theorem bind_eq_ok {β : Type} {x : Result α} {f : α → Result β} {b : β} :
    (x >>= f) = .ok b ↔ ∃ a, x = .ok a ∧ f a = .ok b := by
  cases x with
  | error e => exact ⟨fun h => (by cases h), fun ⟨_, h, _⟩ => (by cases h)⟩
  | ok a => exact ⟨fun h => ⟨a, rfl, h⟩, fun ⟨a', ha, h⟩ => (by cases ha; exact h)⟩

@[simp] theorem fail_ne_ok {m : String} {a : α} : fail m = .ok a ↔ False :=
  ⟨fun h => (by cases h), False.elim⟩

/-! ## Hexadecimal digits -/

variable {s : Bytes}

theorem hexval_iff {b : UInt8} {n : Nat} :
    hexval (cur (b :: s)) = n ↔ HexDigit b n := by
  have hb := b.toNat_lt
  rw [cur_cons]
  simp only [hexval, HexDigit, ch, Char.reduceToNat]
  constructor
  · intro h
    split_ifs at h <;> omega
  · intro h
    split_ifs <;> omega

variable {r : Bytes}

theorem hexDigit_iff {v v' : Nat} :
    hexDigit v s = .ok (v', r) ↔ ∃ b n, HexDigit b n ∧ s = b :: r ∧ v' = v * 16 + n := by
  cases s with
  | nil => exact ⟨fun h => (by cases h), fun ⟨_, _, _, h, _⟩ => (by cases h)⟩
  | cons b s =>
    rw [hexDigit]
    constructor
    · intro h
      split at h
      case isTrue => cases h
      case isFalse hn =>
        cases h
        exact ⟨b, _, (hexval_iff).mp (Int.toNat_of_nonneg (by omega)).symm, rfl, rfl⟩
    · rintro ⟨b', n, hx, hs, rfl⟩
      obtain ⟨rfl, rfl⟩ := cons.inj hs
      have hn := (hexval_iff (s := s)).mpr hx
      simp only [hn]
      rw [if_neg (by omega)]
      rfl

variable {u : Nat}

theorem parseHex4_iff :
    parseHex4 s = .ok (u, r) ↔ ∃ x, Hex4 x u ∧ s = x ++ r := by
  simp only [parseHex4, hexDigits, bind_eq_ok, Prod.exists, hexDigit_iff]
  constructor
  · rintro ⟨_, _, ⟨a, i, ha, rfl, rfl⟩, _, _, ⟨b, j, hb, rfl, rfl⟩, _, _, ⟨c, k, hc, rfl, rfl⟩,
      _, _, ⟨d, l, hd, rfl, rfl⟩, h⟩
    cases h
    exact ⟨[a, b, c, d], ⟨a, b, c, d, i, j, k, l, ha, hb, hc, hd, rfl, by omega⟩, rfl⟩
  · rintro ⟨_, ⟨a, b, c, d, i, j, k, l, ha, hb, hc, hd, rfl, rfl⟩, rfl⟩
    exact ⟨_, _, ⟨a, i, ha, rfl, rfl⟩, _, _, ⟨b, j, hb, rfl, rfl⟩, _, _, ⟨c, k, hc, rfl, rfl⟩,
      _, _, ⟨d, l, hd, rfl, rfl⟩, by simp⟩

variable {x : Bytes}

theorem Hex4.lt (h : Hex4 x u) : u < 0x10000 := by
  obtain ⟨a, b, c, d, i, j, k, l, ha, hb, hc, hd, -, rfl⟩ := h
  have hlt : ∀ {x i}, HexDigit x i → i < 16 := by
    intro x i h
    unfold HexDigit at h
    omega
  have := hlt ha
  have := hlt hb
  have := hlt hc
  have := hlt hd
  clear ha hb hc hd
  omega

/-! ## Escapes -/

theorem byte_ne_nil_encode (c : Char) : String.utf8EncodeChar c ≠ [] := by
  intro h
  have := congrArg length h
  rw [String.length_utf8EncodeChar] at this
  exact absurd this c.utf8Size_pos.ne'

/-- A scalar is appended as the encoding of its character. -/
theorem strEmitCp_char (b : Bytes) (c : Char) :
    strEmitCp b c.toNat = .ok (b ++ String.utf8EncodeChar c) := by
  rw [strEmitCp, utf8Encode_char]
  split
  case h_1 h => exact absurd h (byte_ne_nil_encode c)
  case h_2 => rfl

variable {hi cp : Nat}

theorem utf16DecodePair_iff {lo : Nat} (hhi : 0xD800 ≤ hi ∧ hi ≤ 0xDBFF) :
    utf16DecodePair hi lo = some cp ↔ (0xDC00 ≤ lo ∧ lo ≤ 0xDFFF) ∧
      cp = (hi - 0xD800) * 0x400 + (lo - 0xDC00) + 0x10000 := by
  rw [utf16DecodePair, utf16IsHighSurrogate_iff.mpr hhi, if_neg (by simp), Nat.shiftLeft_eq]
  cases hlow : utf16IsLowSurrogate lo with
  | false =>
    have hlo : ¬ (0xDC00 ≤ lo ∧ lo ≤ 0xDFFF) := fun h => by
      rw [utf16IsLowSurrogate_iff.mpr h] at hlow; cases hlow
    simp [hlo]
  | true =>
    have hlo := utf16IsLowSurrogate_iff.mp hlow
    simp [hlo, eq_comm]

theorem strPair_iff (hhi : 0xD800 ≤ hi ∧ hi ≤ 0xDBFF) :
    strPair hi s = .ok (cp, r) ↔
      ∃ y lo, Hex4 y lo ∧ (0xDC00 ≤ lo ∧ lo ≤ 0xDFFF) ∧ s = byte '\\' :: byte 'u' :: y ++ r ∧
        cp = (hi - 0xD800) * 0x400 + (lo - 0xDC00) + 0x10000 := by
  rw [strPair]
  constructor
  · intro h
    split at h
    case isTrue => cases h
    case isFalse h1 =>
    obtain ⟨s1, rfl⟩ := (cur_eq_ch (by decide)).mp (not_not.mp h1)
    split at h
    case isTrue => cases h
    case isFalse h2 =>
    obtain ⟨s2, rfl⟩ := (cur_eq_ch (by decide)).mp (not_not.mp h2)
    obtain ⟨⟨lo, r'⟩, hr, hpair⟩ := (bind_eq_ok).mp h
    obtain ⟨y, hy, hs2⟩ := (parseHex4_iff).mp hr
    cases hcp : utf16DecodePair hi lo with
    | none => simp [hcp] at hpair
    | some v =>
      simp only [hcp, Except.ok.injEq, Prod.mk.injEq] at hpair
      obtain ⟨rfl, rfl⟩ := hpair
      obtain ⟨hlo, hval⟩ := (utf16DecodePair_iff hhi).mp hcp
      have hs2' : s2 = y ++ r' := hs2
      exact ⟨y, lo, hy, hlo, by rw [hs2']; rfl, hval⟩
  · rintro ⟨y, lo, hy, hlo, rfl, rfl⟩
    have h1 : cur (byte '\\' :: byte 'u' :: y ++ r) = ch '\\' := (cur_eq_ch (by decide)).mpr ⟨_, rfl⟩
    have h2 : cur (bump (byte '\\' :: byte 'u' :: y ++ r)) = ch 'u' :=
      (cur_eq_ch (by decide)).mpr ⟨_, rfl⟩
    rw [if_neg (not_not.mpr h1), if_neg (not_not.mpr h2)]
    refine (bind_eq_ok).mpr ⟨(lo, r), (parseHex4_iff).mpr ⟨y, hy, rfl⟩, ?_⟩
    simp only [(utf16DecodePair_iff hhi).mpr ⟨hlo, rfl⟩]

/-- What follows `\u` in the escape of a character. -/
def UnicodeText (x : Bytes) (c : Char) : Prop :=
  Hex4 x c.toNat ∨ ∃ x' y hi lo, x = x' ++ byte '\\' :: byte 'u' :: y ∧ Hex4 x' hi ∧ Hex4 y lo ∧
    (0xD800 ≤ hi ∧ hi ≤ 0xDBFF) ∧ (0xDC00 ≤ lo ∧ lo ≤ 0xDFFF) ∧
    c.toNat = (hi - 0xD800) * 0x400 + (lo - 0xDC00) + 0x10000

variable {c : Char}

theorem UnicodeText.strChar (h : UnicodeText x c) :
    StrChar (byte '\\' :: byte 'u' :: x) (String.utf8EncodeChar c) := by
  rcases h with h | ⟨x', y, hi, lo, rfl, hx, hy, hhi, hlo, hc⟩
  · exact .unicode c h
  · exact .pair c hx hy hhi hlo hc

/-- A code unit is read alone when it is no surrogate, and else in a pair. -/
theorem strReadCp_iff :
    strReadCp s = .ok (cp, r) ↔ ∃ x c, UnicodeText x c ∧ s = x ++ r ∧ cp = c.toNat := by
  rw [strReadCp]
  constructor
  · intro h
    obtain ⟨⟨unit, s1⟩, hr, hrest⟩ := (bind_eq_ok).mp h
    obtain ⟨x, hx, rfl⟩ := (parseHex4_iff).mp hr
    have hlt := hx.lt
    simp only at hrest
    split at hrest
    case isTrue hhigh =>
      have hhi := utf16IsHighSurrogate_iff.mp hhigh
      obtain ⟨y, lo, hy, hlo, rfl, rfl⟩ := (strPair_iff hhi).mp hrest
      obtain ⟨c, hc⟩ := exists_char (n := (unit - 0xD800) * 0x400 + (lo - 0xDC00) + 0x10000)
        (by unfold Nat.isValidChar; omega)
      exact ⟨_, c, .inr ⟨x, y, unit, lo, rfl, hx, hy, hhi, hlo, hc⟩, by simp, hc.symm⟩
    case isFalse hhigh =>
      split at hrest
      case isTrue => cases hrest
      case isFalse hlow =>
        cases hrest
        rw [utf16IsHighSurrogate_iff] at hhigh
        rw [utf16IsLowSurrogate_iff] at hlow
        obtain ⟨c, rfl⟩ := exists_char (n := cp) (by unfold Nat.isValidChar; omega)
        exact ⟨x, c, .inl hx, rfl, rfl⟩
  · rintro ⟨_, c, hx | ⟨x, y, hi, lo, rfl, hx, hy, hhi, hlo, hc⟩, rfl, rfl⟩
    · refine (bind_eq_ok).mpr ⟨(c.toNat, r), (parseHex4_iff).mpr ⟨_, hx, rfl⟩, ?_⟩
      have hv : c.toNat.isValidChar := c.valid
      have hlt := hx.lt
      unfold Nat.isValidChar at hv
      simp only
      rw [if_neg (by rw [utf16IsHighSurrogate_iff]; omega),
        if_neg (by rw [utf16IsLowSurrogate_iff]; omega)]
    · refine (bind_eq_ok).mpr ⟨(hi, byte '\\' :: byte 'u' :: y ++ r),
        (parseHex4_iff).mpr ⟨x, hx, by simp⟩, ?_⟩
      simp only
      rw [if_pos (utf16IsHighSurrogate_iff.mpr hhi)]
      exact (strPair_iff hhi).mpr ⟨y, lo, hy, hlo, rfl, hc⟩

variable {b b' : Bytes}

theorem strUnicode_iff :
    strUnicode b s = .ok (b', r) ↔
      ∃ x c, UnicodeText x c ∧ s = x ++ r ∧ b' = b ++ String.utf8EncodeChar c := by
  rw [strUnicode]
  constructor
  · intro h
    obtain ⟨⟨cp, s1⟩, hr, hrest⟩ := (bind_eq_ok).mp h
    obtain ⟨x, c, hx, rfl, rfl⟩ := (strReadCp_iff).mp hr
    simp only [strEmitCp_char] at hrest
    cases hrest
    exact ⟨x, c, hx, rfl, rfl⟩
  · rintro ⟨x, c, hx, rfl, rfl⟩
    refine (bind_eq_ok).mpr ⟨(c.toNat, r), (strReadCp_iff).mpr ⟨x, c, hx, rfl, rfl⟩, ?_⟩
    simp only [strEmitCp_char]
    rfl

variable {p : Char × Char}

theorem strSimpleVal_mem (h : p ∈ simpleEscapes) :
    strSimpleVal (ch p.1) = (byte p.2).toNat := by
  revert p
  decide

theorem exists_simpleEscape {c : Int} (h : 0 ≤ strSimpleVal c) :
    ∃ p ∈ simpleEscapes, c = ch p.1 := by
  by_contra hne
  simp only [simpleEscapes, mem_cons, not_mem_nil, or_false, exists_eq_or_imp,
    exists_eq_left, not_or] at hne
  simp [strSimpleVal, hne] at h

theorem simpleEscapes_lt (h : p ∈ simpleEscapes) :
    p.1.toNat < 128 ∧ p.1 ≠ 'u' := by
  revert p
  decide

theorem strEscape_iff :
    strEscape b (byte '\\' :: s) = .ok (b', r) ↔
      (∃ p ∈ simpleEscapes, s = byte p.1 :: r ∧ b' = b ++ [byte p.2]) ∨
        ∃ x c, UnicodeText x c ∧ s = byte 'u' :: x ++ r ∧ b' = b ++ String.utf8EncodeChar c := by
  show strDispatch b (cur s) (bump s) = _ ↔ _
  rw [strDispatch]
  constructor
  · intro h
    split at h
    case isTrue hu =>
      obtain ⟨s, rfl⟩ := (cur_eq_ch (by decide)).mp hu
      obtain ⟨x, c, hx, hs, hb⟩ := (strUnicode_iff).mp h
      exact .inr ⟨x, c, hx, congrArg _ hs, hb⟩
    case isFalse =>
      simp only at h
      split at h
      case isTrue => cases h
      case isFalse hval =>
        obtain ⟨p, hp, hc⟩ := exists_simpleEscape (not_lt.mp hval)
        obtain ⟨s, rfl⟩ := (cur_eq_ch (simpleEscapes_lt hp).1).mp hc
        rw [hc, strSimpleVal_mem hp] at h
        cases h
        exact .inl ⟨p, hp, rfl, by simp⟩
  · rintro (⟨p, hp, rfl, rfl⟩ | ⟨x, c, hx, rfl, rfl⟩)
    · have hc : cur (byte p.1 :: r) = ch p.1 := (cur_eq_ch (simpleEscapes_lt hp).1).mpr ⟨r, rfl⟩
      have hu : ch p.1 ≠ ch 'u' := fun h => (simpleEscapes_lt hp).2 (by
        rw [ch, ch] at h
        exact Char.toNat_inj.mp (by exact_mod_cast h))
      rw [hc, if_neg hu, strSimpleVal_mem hp]
      simp [bump]
    · have hu : cur (byte 'u' :: x ++ r) = ch 'u' := (cur_eq_ch (by decide)).mpr ⟨_, rfl⟩
      rw [if_pos hu]
      exact (strUnicode_iff).mpr ⟨x, c, hx, rfl, rfl⟩

/-! ## Raw characters -/

theorem utf8EncodeChar_byte (h : c.toNat < 0x80) :
    String.utf8EncodeChar c = [byte c] := utf8EncodeChar_ascii h

theorem utf8EncodeChar_append_ascii {u : UInt8} {t : Bytes} (hu : u.toNat < 0x80)
    (h : u :: t = String.utf8EncodeChar c ++ r) : c.toNat = u.toNat ∧ t = r := by
  rcases lt_or_ge c.toNat 0x80 with hc | hc
  · rw [utf8EncodeChar_byte hc] at h
    obtain ⟨rfl, rfl⟩ := cons.inj h
    exact ⟨(byte_toNat hc).symm, rfl⟩
  · obtain ⟨v, t', hv⟩ := exists_cons_of_ne_nil (byte_ne_nil_encode c)
    have hhigh := utf8EncodeChar_high hc (b := v) (by rw [hv]; exact mem_cons_self)
    rw [hv] at h
    obtain ⟨rfl, -⟩ := cons.inj h
    omega

/-- A character that is no quote and no escape is copied. -/
theorem strRaw_iff (hne : s ≠ []) (hq : cur s ≠ ch '"') (hb : cur s ≠ ch '\\') :
    strRaw b s = .ok (b', r) ↔
      ∃ c : Char, 0x20 ≤ c.toNat ∧ c ≠ '"' ∧ c ≠ '\\' ∧ s = String.utf8EncodeChar c ++ r ∧
        b' = b ++ String.utf8EncodeChar c := by
  obtain ⟨u, t, rfl⟩ := exists_cons_of_ne_nil hne
  have hu := u.toNat_lt
  rcases lt_or_ge u.toNat 0x80 with hlt | hge
  · have hlow : ¬ 0x80 ≤ (u :: t).headD 0xFF := by
      rw [headD_cons, UInt8.le_iff_toNat_le]; exact not_le.mpr hlt
    rw [strRaw, strByte, if_neg hlow]
    rw [cur_of_lt hlt] at hq hb ⊢
    constructor
    · intro h
      split at h
      case isTrue => cases h
      case isFalse hctl =>
        cases h
        obtain ⟨c, hc⟩ := exists_char (n := u.toNat) (by unfold Nat.isValidChar; omega)
        have henc : String.utf8EncodeChar c = [u] := by
          rw [utf8EncodeChar_ascii (by omega), hc, Nat.toUInt8_eq, UInt8.ofNat_toNat]
        refine ⟨c, ?_, ?_, ?_, by rw [henc]; rfl, by rw [henc]; rfl⟩
        · rw [hc]; simpa [isControl] using hctl
        · rintro rfl
          exact hq (by rw [← hc]; rfl)
        · rintro rfl
          exact hb (by rw [← hc]; rfl)
    · rintro ⟨c, hc, -, -, hs, rfl⟩
      obtain ⟨hcu, rfl⟩ := utf8EncodeChar_append_ascii hlt hs
      rw [if_neg (by simp [isControl]; omega), utf8EncodeChar_ascii (by omega), hcu,
        Nat.toUInt8_eq, UInt8.ofNat_toNat]
      rfl
  · have hctl : isControl (cur (u :: t)) = false := by
      rw [cur_cons, if_neg (by omega)]; simp [isControl]; omega
    have hhigh : 0x80 ≤ (u :: t).headD 0xFF := by
      rw [headD_cons, UInt8.le_iff_toNat_le]; exact hge
    rw [strRaw, hctl, if_neg (by simp), strByte, if_pos hhigh, strUtf8Emit, utf8Seq]
    constructor
    · intro h
      rcases Nat.eq_zero_or_pos (decodeOne (u :: t)) with h0 | hpos
      · rw [if_pos h0] at h; cases h
      · rw [if_neg hpos.ne'] at h
        cases h
        obtain ⟨c, r, hs, hn⟩ := decodeOne_sound hpos.ne'
        have hc : 0x80 ≤ c.toNat := by
          by_contra hlt
          rw [utf8EncodeChar_byte (by omega)] at hs
          obtain ⟨rfl, -⟩ := cons.inj hs
          rw [byte_toNat (by omega)] at hge
          omega
        refine ⟨c, by omega, ?_, ?_, ?_, ?_⟩
        · rintro rfl; exact absurd hc (by decide)
        · rintro rfl; exact absurd hc (by decide)
        · rw [hn, hs, drop_left]
        · rw [hn, hs, take_left]
    · rintro ⟨c, -, -, -, hs, rfl⟩
      rw [hs, decodeOne_char, if_neg (by simpa using c.utf8Size_pos.ne'), take_left, drop_left]

/-! ## Bodies -/

/-- The character in front is not one of ASCII that the raw character is not. -/
theorem cur_utf8EncodeChar_ne {d : Char} (hd : d.toNat < 128) (h : c ≠ d) (r : Bytes) :
    cur (String.utf8EncodeChar c ++ r) ≠ ch d := by
  intro hcur
  obtain ⟨t, ht⟩ := (cur_eq_ch hd).mp hcur
  have hc := (utf8EncodeChar_append_ascii (by rw [byte_toNat hd]; exact hd) ht.symm).1
  rw [byte_toNat hd] at hc
  exact h (Char.toNat_inj.mp hc)

theorem strStep_done_iff {a : Bytes} :
    strStep b s = .ok (.done a, r) ↔ s = byte '"' :: r ∧ a = b := by
  rw [strStep]
  constructor
  · intro h
    split at h
    case isTrue => cases h
    split at h
    case isTrue hq =>
      obtain ⟨t, rfl⟩ := (cur_eq_ch (by decide)).mp hq
      cases h
      exact ⟨rfl, rfl⟩
    case isFalse =>
      obtain ⟨_, _, h⟩ := (bind_eq_ok).mp h
      cases h
  · rintro ⟨rfl, rfl⟩
    have hq : cur (byte '"' :: r) = ch '"' := (cur_eq_ch (by decide)).mpr ⟨r, rfl⟩
    rw [if_neg (by simp [eof]), if_pos hq]
    rfl

theorem strStep_escape (h : strEscape b (byte '\\' :: s) = .ok (b', r)) :
    strStep b (byte '\\' :: s) = .ok (.again b', r) := by
  have hb : cur (byte '\\' :: s) = ch '\\' := (cur_eq_ch (by decide)).mpr ⟨s, rfl⟩
  rw [strStep, if_neg (by simp [eof]), hb, if_neg (by decide), if_pos rfl]
  exact (bind_eq_ok).mpr ⟨_, h, rfl⟩

theorem strStep_again_iff :
    strStep b s = .ok (.again b', r) ↔ ∃ x v, StrChar x v ∧ s = x ++ r ∧ b' = b ++ v := by
  constructor
  · intro h
    rw [strStep] at h
    split at h
    case isTrue => cases h
    split at h
    case isTrue => cases h
    rename_i hne hq
    obtain ⟨⟨b'', r'⟩, hstep, heq⟩ := (bind_eq_ok).mp h
    cases heq
    split at hstep
    case isTrue hb =>
      obtain ⟨t, rfl⟩ := (cur_eq_ch (by decide)).mp hb
      rcases (strEscape_iff).mp hstep with ⟨p, hp, rfl, rfl⟩ | ⟨x, c, hx, rfl, rfl⟩
      · exact ⟨_, _, .simple hp, rfl, rfl⟩
      · exact ⟨_, _, hx.strChar, rfl, rfl⟩
    case isFalse hb =>
      obtain ⟨c, hc, hq', hb', rfl, rfl⟩ :=
        (strRaw_iff (by simpa [eof] using hne) hq hb).mp hstep
      exact ⟨_, _, .raw c hc hq' hb', rfl, rfl⟩
  · rintro ⟨x, v, hx, rfl, rfl⟩
    cases hx with
    | raw c hc hq hb =>
      have hq' := cur_utf8EncodeChar_ne (by decide) hq r
      have hb' := cur_utf8EncodeChar_ne (by decide) hb r
      have hne : String.utf8EncodeChar c ++ r ≠ [] := by simp
      rw [strStep, if_neg (by simp [eof]), if_neg hq', if_neg hb']
      exact (bind_eq_ok).mpr ⟨_, (strRaw_iff hne hq' hb').mpr ⟨c, hc, hq, hb, rfl, rfl⟩, rfl⟩
    | simple h =>
      exact strStep_escape ((strEscape_iff).mpr (.inl ⟨_, h, rfl, rfl⟩))
    | unicode c h =>
      exact strStep_escape ((strEscape_iff).mpr (.inr ⟨_, c, .inl h, rfl, rfl⟩))
    | pair c hx hy hhi hlo hc =>
      refine strStep_escape ((strEscape_iff).mpr (.inr ⟨_, c, .inr ⟨_, _, _, _, rfl, hx, hy, hhi, hlo, hc⟩,
        ?_, rfl⟩))
      simp

variable {v : Bytes}

theorem StrChar.length_pos (h : StrChar x v) : 0 < x.length := by
  cases h with
  | raw c _ _ _ => rw [String.length_utf8EncodeChar]; exact c.utf8Size_pos
  | _ => exact Nat.succ_pos _

theorem strStep_consumes : Consumes strStep := by
  intro b s b' r h
  obtain ⟨x, v, hx, rfl, -⟩ := (strStep_again_iff).mp h
  have := hx.length_pos
  rw [List.length_append]
  omega

theorem scan_strStep_iff :
    scan .rounds strStep b s = .ok (v, r) ↔
      ∃ x w, StrBody x w ∧ s = x ++ byte '"' :: r ∧ v = b ++ w := by
  constructor
  · refine scan_induct (Q := fun b s v r => ∃ x w, StrBody x w ∧ s = x ++ byte '"' :: r ∧ v = b ++ w)
      ?_ ?_
    · intro b s v r h
      obtain ⟨rfl, rfl⟩ := (strStep_done_iff).mp h
      exact ⟨[], [], .nil, rfl, (List.append_nil _).symm⟩
    · intro b s b' s' v r h ih
      obtain ⟨x, w, hx, rfl, rfl⟩ := (strStep_again_iff).mp h
      obtain ⟨y, w', hy, rfl, rfl⟩ := ih
      exact ⟨x ++ y, w ++ w', .cons hx hy, by simp, by simp⟩
  · rintro ⟨x, w, hx, rfl, rfl⟩
    induction hx generalizing b with
    | nil => exact scan_done strStep_consumes ((strStep_done_iff).mpr ⟨rfl, by simp⟩)
    | cons h t ih =>
      rw [List.append_assoc, scan_again strStep_consumes ((strStep_again_iff).mpr ⟨_, _, h, rfl, rfl⟩),
        ih, List.append_assoc]

theorem parseString_iff :
    parseString (byte '"' :: s) = .ok (v, r) ↔
      ∃ x, StrBody x v ∧ byte '"' :: s = quoted x ++ r := by
  rw [parseString, show bump (byte '"' :: s) = s from rfl, scan_strStep_iff]
  simp [quoted]

end J89
