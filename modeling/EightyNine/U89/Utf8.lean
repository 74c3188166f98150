import Mathlib.Algebra.Group.Nat.Defs
import Mathlib.Data.Nat.Basic

/-!
# UTF-8 and UTF-16

The decoder reads one sequence of UTF-8 and reports how many bytes it took, 0 for
a malformed or truncated one.  What it takes is the encoding of one character
(`decodeOne_iff`), and the encoder writes the same bytes (`utf8Encode_char`).
The scalar that the decoder also writes is `scalarAt`, next to the traversals.
-/

namespace U89

/-! ## The code -/

/-- `between`. -/
def between (cp lo hi : Nat) : Bool :=
  if cp < lo then false
  else if cp > hi then false
  else true

/-- `u89_is_scalar`. -/
def isScalar (cp : Nat) : Bool :=
  if between cp 0x0000 0xD7FF then true
  else if between cp 0xE000 0x10FFFF then true
  else false

/-- The test for a continuation byte. -/
def continues (b : UInt8) : Bool := b &&& 0xC0 == 0x80

/-- `decode_two`. -/
def decodeTwo : List UInt8 → Nat
  | _ :: c1 :: _ => if !continues c1 then 0 else 2
  | _ => 0

/-- `decode_three`. -/
def decodeThree : List UInt8 → Nat
  | b :: c1 :: c2 :: _ =>
    if b == 0xE0 && c1 < 0xA0 then 0
    else if b == 0xED && c1 > 0x9F then 0
    else if !continues c1 then 0
    else if !continues c2 then 0
    else 3
  | _ => 0

/-- `decode_four`. -/
def decodeFour : List UInt8 → Nat
  | b :: c1 :: c2 :: c3 :: _ =>
    if b == 0xF0 && c1 < 0x90 then 0
    else if b == 0xF4 && c1 > 0x8F then 0
    else if !continues c1 then 0
    else if !continues c2 then 0
    else if !continues c3 then 0
    else 4
  | _ => 0

/-- `decode_one`, on the bytes from the position on. -/
def decodeOne : List UInt8 → Nat
  | [] => 0
  | b :: s =>
    if b < 0x80 then 1
    else if between b.toNat 0xC2 0xDF then decodeTwo (b :: s)
    else if between b.toNat 0xE0 0xEF then decodeThree (b :: s)
    else if between b.toNat 0xF0 0xF4 then decodeFour (b :: s)
    else 0

/-- `put_byte`. -/
def putByte (v : Nat) : UInt8 := UInt8.ofNat v

/-- `u89_utf8_encode`: the bytes it writes. -/
def utf8Encode (cp : Nat) : List UInt8 :=
  if !isScalar cp then []
  else if cp < 0x80 then [putByte cp]
  else if cp < 0x800 then
    [putByte (0xC0 ||| cp >>> 6), putByte (0x80 ||| cp &&& 0x3F)]
  else if cp < 0x10000 then
    [putByte (0xE0 ||| cp >>> 12), putByte (0x80 ||| cp >>> 6 &&& 0x3F),
      putByte (0x80 ||| cp &&& 0x3F)]
  else
    [putByte (0xF0 ||| cp >>> 18), putByte (0x80 ||| cp >>> 12 &&& 0x3F),
      putByte (0x80 ||| cp >>> 6 &&& 0x3F), putByte (0x80 ||| cp &&& 0x3F)]

/-- `u89_utf16_is_high_surrogate`. -/
def utf16IsHighSurrogate (unit : Nat) : Bool := between unit 0xD800 0xDBFF

/-- `u89_utf16_is_low_surrogate`. -/
def utf16IsLowSurrogate (unit : Nat) : Bool := between unit 0xDC00 0xDFFF

/-- `u89_utf16_decode_pair`. -/
def utf16DecodePair (high low : Nat) : Option Nat :=
  if !utf16IsHighSurrogate high then none
  else if !utf16IsLowSurrogate low then none
  else some ((high - 0xD800) <<< 10 + (low - 0xDC00) + 0x10000)

/-! ## Ranges -/

variable {cp : Nat}

@[simp] theorem between_iff {lo hi : Nat} : between cp lo hi = true ↔ lo ≤ cp ∧ cp ≤ hi := by
  unfold between
  split
  · simp; omega
  · split <;> simp <;> omega

variable {unit : Nat}

@[simp] theorem utf16IsHighSurrogate_iff :
    utf16IsHighSurrogate unit = true ↔ 0xD800 ≤ unit ∧ unit ≤ 0xDBFF := between_iff

@[simp] theorem utf16IsLowSurrogate_iff :
    utf16IsLowSurrogate unit = true ↔ 0xDC00 ≤ unit ∧ unit ≤ 0xDFFF := between_iff

theorem isScalar_iff : isScalar cp = true ↔ cp.isValidChar := by
  simp [isScalar, Nat.isValidChar]
  omega

@[simp] theorem isScalar_char (c : Char) : isScalar c.toNat = true :=
  isScalar_iff.mpr c.valid

theorem continues_iff (b : UInt8) : continues b = true ↔ 0x80 ≤ b.toNat ∧ b.toNat < 0xC0 := by
  have h : ∀ n < 256, (UInt8.ofNat n &&& 0xC0 == 0x80) = decide (0x80 ≤ n ∧ n < 0xC0) := by
    decide +kernel
  have hb := h b.toNat b.toNat_lt
  rw [UInt8.ofNat_toNat] at hb
  rw [continues, hb, decide_eq_true_iff]

/-! ## The encoder -/

variable {k a x : Nat}

/-- The bits of a lead or a continuation byte are above those of its payload. -/
theorem or_eq_add (h : x < 2 ^ k) : 2 ^ k * a ||| x = 2 ^ k * a + x :=
  (Nat.two_pow_add_eq_or_of_lt h a).symm

theorem tail_eq (n : Nat) : 0x80 ||| n &&& 0x3F = n % 0x40 + 0x80 := by
  rw [show n &&& 0x3F = n % 0x40 from Nat.and_two_pow_sub_one_eq_mod n 6]
  have h := or_eq_add (k := 7) (a := 1) (x := n % 0x40) (by omega)
  exact h.trans (Nat.add_comm _ _)

theorem lead_eq (lead m : Nat) (hm : m = 2 ^ k) (hl : lead = m * a) (hx : x < m) :
    lead ||| x = x % m + lead := by
  subst hm
  rw [hl, or_eq_add hx, Nat.mod_eq_of_lt hx, Nat.add_comm]

theorem utf8Encode_char (c : Char) : utf8Encode c.toNat = String.utf8EncodeChar c := by
  have hv : c.toNat.isValidChar := c.valid
  have hs6 : c.toNat >>> 6 = c.toNat / 64 := Nat.shiftRight_eq_div_pow c.toNat 6
  have hs12 : c.toNat >>> 12 = c.toNat / 4096 := Nat.shiftRight_eq_div_pow c.toNat 12
  have hs18 : c.toNat >>> 18 = c.toNat / 262144 := Nat.shiftRight_eq_div_pow c.toNat 18
  have hc : c.val.toNat = c.toNat := rfl
  unfold utf8Encode String.utf8EncodeChar
  rw [hc]
  generalize c.toNat = n at *
  have hscalar : isScalar n = true := isScalar_iff.mpr hv
  simp only [hscalar, Bool.not_true, Bool.false_eq_true, if_false, hs6, hs12, hs18, tail_eq,
    putByte]
  unfold Nat.isValidChar at hv
  rcases lt_or_ge n 0x80 with h1 | h1
  · rw [if_pos h1, if_pos (by omega)]
  rw [if_neg (by omega), if_neg (c := n ≤ 0x7f) (by omega)]
  rcases lt_or_ge n 0x800 with h2 | h2
  · rw [if_pos h2, if_pos (by omega), lead_eq 0xC0 32 (k := 5) (a := 6) rfl rfl (by omega)]
  rw [if_neg (by omega), if_neg (c := n ≤ 0x7ff) (by omega)]
  rcases lt_or_ge n 0x10000 with h3 | h3
  · rw [if_pos h3, if_pos (by omega), lead_eq 0xE0 16 (k := 4) (a := 14) rfl rfl (by omega)]
  · rw [if_neg (by omega), if_neg (by omega), lead_eq 0xF0 8 (k := 3) (a := 30) rfl rfl (by omega)]

variable {c : Char}

theorem utf8EncodeChar_ascii (h : c.toNat < 0x80) :
    String.utf8EncodeChar c = [c.toNat.toUInt8] := by
  unfold String.utf8EncodeChar
  exact if_pos (by have hc : c.val.toNat = c.toNat := rfl; omega)

/-! ## The decoder -/

theorem utf8EncodeChar_toNat (c : Char) :
    (String.utf8EncodeChar c).map UInt8.toNat =
      if c.toNat < 0x80 then [c.toNat]
      else if c.toNat < 0x800 then [c.toNat / 64 + 0xC0, c.toNat % 64 + 0x80]
      else if c.toNat < 0x10000 then
        [c.toNat / 4096 + 0xE0, c.toNat / 64 % 64 + 0x80, c.toNat % 64 + 0x80]
      else
        [c.toNat / 262144 + 0xF0, c.toNat / 4096 % 64 + 0x80, c.toNat / 64 % 64 + 0x80,
          c.toNat % 64 + 0x80] := by
  have hv : c.toNat.isValidChar := c.valid
  have hc : c.val.toNat = c.toNat := rfl
  unfold String.utf8EncodeChar
  rw [hc]
  generalize c.toNat = n at *
  unfold Nat.isValidChar at hv
  simp only
  rcases lt_or_ge n 0x80 with h1 | h1
  · rw [if_pos h1, if_pos (by omega)]
    simp; omega
  rw [if_neg (c := n < 0x80) (by omega), if_neg (by omega)]
  rcases lt_or_ge n 0x800 with h2 | h2
  · rw [if_pos h2, if_pos (by omega)]
    simp; omega
  rw [if_neg (c := n < 0x800) (by omega), if_neg (by omega)]
  rcases lt_or_ge n 0x10000 with h3 | h3
  · rw [if_pos h3, if_pos (by omega)]
    simp; omega
  · rw [if_neg (c := n < 0x10000) (by omega), if_neg (by omega)]
    simp; omega

variable {b : UInt8}

theorem utf8EncodeChar_high (h : 0x80 ≤ c.toNat)
    (hb : b ∈ String.utf8EncodeChar c) : 0x80 ≤ b.toNat := by
  have hmem : b.toNat ∈ (String.utf8EncodeChar c).map UInt8.toNat := List.mem_map_of_mem hb
  rw [utf8EncodeChar_toNat, if_neg (by omega)] at hmem
  split at hmem
  · simp at hmem; omega
  · split at hmem <;> (simp at hmem; omega)

variable {n : Nat}

theorem exists_char (h : n.isValidChar) : ∃ c : Char, c.toNat = n :=
  ⟨Char.ofNat n, by rw [Char.ofNat, dif_pos h]; rfl⟩

/-- Bytes that are those of a scalar are the encoding of its character. -/
theorem exists_encoding (bs : List UInt8) (hv : n.isValidChar)
    (h : ∀ c : Char, c.toNat = n → bs.map UInt8.toNat = (String.utf8EncodeChar c).map UInt8.toNat) :
    ∃ c : Char, bs = String.utf8EncodeChar c := by
  obtain ⟨c, hc⟩ := exists_char hv
  exact ⟨c, List.map_inj_right (fun _ _ => UInt8.toNat_inj.mp) |>.mp (h c hc)⟩

/-- `s` starts with the encoding of a character, and `n` is its length. -/
def Encoded (s : List UInt8) (n : Nat) : Prop :=
  ∃ c r, s = String.utf8EncodeChar c ++ r ∧ n = (String.utf8EncodeChar c).length

variable {s : List UInt8}

theorem refusal_ne_iff {p : Prop} [Decidable p] : (if p then 0 else n) ≠ 0 ↔ ¬ p ∧ n ≠ 0 := by
  split <;> simp [*]

theorem decodeTwo_sound (hb : 0xC2 ≤ b.toNat ∧ b.toNat ≤ 0xDF)
    (h : decodeTwo (b :: s) ≠ 0) : Encoded (b :: s) (decodeTwo (b :: s)) := by
  match s, h with
  | [], h => exact absurd rfl h
  | c1 :: r, h =>
    simp only [decodeTwo, refusal_ne_iff] at h
    obtain ⟨hc1, -⟩ := h
    have h1 := (continues_iff c1).mp (by simpa using hc1)
    have hv : ((b.toNat - 0xC0) * 64 + (c1.toNat - 0x80)).isValidChar := by
      unfold Nat.isValidChar; omega
    obtain ⟨c, hc⟩ := exists_encoding [b, c1] hv (fun c hc => by
      rw [utf8EncodeChar_toNat, hc, if_neg (by omega), if_pos (by omega)]
      simp; omega)
    exact ⟨c, r, by rw [← hc]; rfl, by rw [← hc, decodeTwo, if_neg hc1]; rfl⟩

theorem decodeThree_sound (hb : 0xE0 ≤ b.toNat ∧ b.toNat ≤ 0xEF)
    (h : decodeThree (b :: s) ≠ 0) : Encoded (b :: s) (decodeThree (b :: s)) := by
  match s, h with
  | [], h => exact absurd rfl h
  | [_], h => exact absurd rfl h
  | c1 :: c2 :: r, h =>
    simp only [decodeThree, refusal_ne_iff] at h
    obtain ⟨hE0, hED, hc1, hc2, -⟩ := h
    have h1 := (continues_iff c1).mp (by simpa using hc1)
    have h2 := (continues_iff c2).mp (by simpa using hc2)
    have h3 : b.toNat = 0xE0 → 0xA0 ≤ c1.toNat := by
      simpa [← UInt8.toNat_inj, UInt8.lt_iff_toNat_lt] using hE0
    have h4 : b.toNat = 0xED → c1.toNat ≤ 0x9F := by
      simpa [← UInt8.toNat_inj, UInt8.lt_iff_toNat_lt] using hED
    have hv : ((b.toNat - 0xE0) * 4096 + (c1.toNat - 0x80) * 64 + (c2.toNat - 0x80)).isValidChar := by
      unfold Nat.isValidChar; omega
    obtain ⟨c, hc⟩ := exists_encoding [b, c1, c2] hv (fun c hc => by
      rw [utf8EncodeChar_toNat, hc, if_neg (by omega), if_neg (by omega), if_pos (by omega)]
      simp; omega)
    refine ⟨c, r, by rw [← hc]; rfl, ?_⟩
    rw [← hc, decodeThree, if_neg hE0, if_neg hED, if_neg hc1, if_neg hc2]; rfl

theorem decodeFour_sound (hb : 0xF0 ≤ b.toNat ∧ b.toNat ≤ 0xF4)
    (h : decodeFour (b :: s) ≠ 0) : Encoded (b :: s) (decodeFour (b :: s)) := by
  match s, h with
  | [], h => exact absurd rfl h
  | [_], h => exact absurd rfl h
  | [_, _], h => exact absurd rfl h
  | c1 :: c2 :: c3 :: r, h =>
    simp only [decodeFour, refusal_ne_iff] at h
    obtain ⟨hF0, hF4, hc1, hc2, hc3, -⟩ := h
    have h1 := (continues_iff c1).mp (by simpa using hc1)
    have h2 := (continues_iff c2).mp (by simpa using hc2)
    have h3 := (continues_iff c3).mp (by simpa using hc3)
    have h4 : b.toNat = 0xF0 → 0x90 ≤ c1.toNat := by
      simpa [← UInt8.toNat_inj, UInt8.lt_iff_toNat_lt] using hF0
    have h5 : b.toNat = 0xF4 → c1.toNat ≤ 0x8F := by
      simpa [← UInt8.toNat_inj, UInt8.lt_iff_toNat_lt] using hF4
    have hv : ((b.toNat - 0xF0) * 262144 + (c1.toNat - 0x80) * 4096 + (c2.toNat - 0x80) * 64 +
        (c3.toNat - 0x80)).isValidChar := by
      unfold Nat.isValidChar; omega
    obtain ⟨c, hc⟩ := exists_encoding [b, c1, c2, c3] hv (fun c hc => by
      rw [utf8EncodeChar_toNat, hc, if_neg (by omega), if_neg (by omega), if_neg (by omega)]
      simp; omega)
    refine ⟨c, r, by rw [← hc]; rfl, ?_⟩
    rw [← hc, decodeFour, if_neg hF0, if_neg hF4, if_neg hc1, if_neg hc2, if_neg hc3]; rfl

/-- What the decoder takes is the encoding of a character. -/
theorem decodeOne_sound (h : decodeOne s ≠ 0) : Encoded s (decodeOne s) := by
  cases s with
  | nil => exact absurd rfl h
  | cons b s =>
    rw [decodeOne] at h ⊢
    split at h
    case isTrue hb =>
      have hlt : b.toNat < 0x80 := UInt8.lt_iff_toNat_lt.mp hb
      have hv : b.toNat.isValidChar := by unfold Nat.isValidChar; omega
      obtain ⟨c, hc⟩ := exists_encoding [b] hv (fun c hc => by
        rw [utf8EncodeChar_toNat, hc, if_pos hlt]; rfl)
      exact ⟨c, s, by rw [← hc]; rfl, by rw [← hc, if_pos hb]; rfl⟩
    rename_i hb
    rw [if_neg hb]
    split at h
    case isTrue h2 =>
      rw [if_pos h2]
      exact decodeTwo_sound (between_iff.mp h2) h
    rename_i h2
    rw [if_neg h2]
    split at h
    case isTrue h3 =>
      rw [if_pos h3]
      exact decodeThree_sound (between_iff.mp h3) h
    rename_i h3
    rw [if_neg h3]
    split at h
    case isTrue h4 =>
      rw [if_pos h4]
      exact decodeFour_sound (between_iff.mp h4) h
    case isFalse => exact absurd rfl h

theorem continues_of (h : b.toNat = x % 64 + 0x80) : continues b = true :=
  (continues_iff b).mpr (by omega)

/-- The encoding of a character is one of four lists of bytes. -/
theorem utf8EncodeChar_cases (c : Char) {P : List UInt8 → Nat → Prop}
    (one : ∀ b : UInt8, b.toNat < 0x80 → P [b] b.toNat)
    (two : ∀ (n : Nat) (b c1 : UInt8), 0x80 ≤ n → n < 0x800 → b.toNat = n / 64 + 0xC0 →
      c1.toNat = n % 64 + 0x80 → P [b, c1] n)
    (three : ∀ (n : Nat) (b c1 c2 : UInt8), 0x800 ≤ n → n < 0x10000 → ¬ (0xD800 ≤ n ∧ n < 0xE000) →
      b.toNat = n / 4096 + 0xE0 → c1.toNat = n / 64 % 64 + 0x80 → c2.toNat = n % 64 + 0x80 →
      P [b, c1, c2] n)
    (four : ∀ (n : Nat) (b c1 c2 c3 : UInt8), 0x10000 ≤ n → n < 0x110000 →
      b.toNat = n / 262144 + 0xF0 → c1.toNat = n / 4096 % 64 + 0x80 →
      c2.toNat = n / 64 % 64 + 0x80 → c3.toNat = n % 64 + 0x80 → P [b, c1, c2, c3] n) :
    P (String.utf8EncodeChar c) c.toNat := by
  have hv : c.toNat.isValidChar := c.valid
  unfold Nat.isValidChar at hv
  have hbytes := utf8EncodeChar_toNat c
  generalize String.utf8EncodeChar c = bs at *
  generalize c.toNat = n at *
  split_ifs at hbytes <;> simp only [List.map_eq_cons_iff, List.map_eq_nil_iff] at hbytes
  · obtain ⟨b, _, rfl, hb, rfl⟩ := hbytes
    exact hb ▸ one b (by omega)
  · obtain ⟨b, _, rfl, hb, c1, _, rfl, h1, rfl⟩ := hbytes
    exact two n b c1 (by omega) (by omega) hb h1
  · obtain ⟨b, _, rfl, hb, c1, _, rfl, h1, c2, _, rfl, h2, rfl⟩ := hbytes
    exact three n b c1 c2 (by omega) (by omega) (by omega) hb h1 h2
  · obtain ⟨b, _, rfl, hb, c1, _, rfl, h1, c2, _, rfl, h2, c3, _, rfl, h3, rfl⟩ := hbytes
    exact four n b c1 c2 c3 (by omega) (by omega) hb h1 h2 h3

theorem decodeOne_char (c : Char) (r : List UInt8) :
    decodeOne (String.utf8EncodeChar c ++ r) = (String.utf8EncodeChar c).length := by
  have hlow : ∀ {b : UInt8}, 0x80 ≤ b.toNat → ¬ b < 0x80 := fun h => by
    rw [UInt8.lt_iff_toNat_lt]; exact not_lt.mpr h
  refine utf8EncodeChar_cases c (P := fun bs _ => decodeOne (bs ++ r) = bs.length) ?_ ?_ ?_ ?_
  · intro b h1
    show (if b < 0x80 then 1 else _) = 1
    rw [if_pos (UInt8.lt_iff_toNat_lt.mpr h1)]
  · intro n b c1 h1 h2 hb hc1
    show decodeOne (b :: c1 :: r) = 2
    rw [decodeOne, if_neg (hlow (by omega)), if_pos (between_iff.mpr (by omega)), decodeTwo,
      continues_of hc1]
    rfl
  · intro n b c1 c2 h2 h3 hv hb hc1 hc2
    show decodeOne (b :: c1 :: c2 :: r) = 3
    rw [decodeOne, if_neg (hlow (by omega)), if_neg (by rw [between_iff]; omega),
      if_pos (between_iff.mpr (by omega)), decodeThree,
      if_neg (by simp [← UInt8.toNat_inj, UInt8.lt_iff_toNat_lt]; omega),
      if_neg (by simp [← UInt8.toNat_inj, UInt8.lt_iff_toNat_lt]; omega),
      continues_of hc1, continues_of hc2]
    rfl
  · intro n b c1 c2 c3 h3 hv hb hc1 hc2 hc3
    show decodeOne (b :: c1 :: c2 :: c3 :: r) = 4
    rw [decodeOne, if_neg (hlow (by omega)), if_neg (by rw [between_iff]; omega),
      if_neg (by rw [between_iff]; omega), if_pos (between_iff.mpr (by omega)), decodeFour,
      if_neg (by simp [← UInt8.toNat_inj, UInt8.lt_iff_toNat_lt]; omega),
      if_neg (by simp [← UInt8.toNat_inj, UInt8.lt_iff_toNat_lt]; omega),
      continues_of hc1, continues_of hc2, continues_of hc3]
    rfl

end U89
