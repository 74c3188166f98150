import EightyNine.J89.StrOk
import Mathlib.Tactic.Ring

/-!
# Numbers against the grammar

The scanner takes the text of a numeral, and its locals are those of the numeral
(`scanNumber_sound`, `scanNumber_text`).  The nodes made from them are what
`Numeral.read` says (`numberNode_token`).
-/

namespace J89

open List

open Library (Double)

/-! ## Digits -/

/-- The byte of a digit. -/
def digit (d : Fin 10) : UInt8 := (0x30 + d.val).toUInt8

theorem digit_toNat (d : Fin 10) : (digit d).toNat = 0x30 + d.val := by
  revert d; decide

theorem cur_digit (d : Fin 10) (s : Bytes) : cur (digit d :: s) = ch '0' + d.val := by
  rw [cur_of_lt (by rw [digit_toNat]; omega), digit_toNat]
  exact Int.natCast_add 0x30 d.val

theorem isDigit_digit (d : Fin 10) (s : Bytes) : isDigit (cur (digit d :: s)) = true := by
  have h9 : ch '9' = ch '0' + 9 := rfl
  simp only [cur_digit, isDigit, h9, Bool.and_eq_true, decide_eq_true_eq]
  omega

variable {s : Bytes}

theorem exists_digit (h : isDigit (cur s) = true) : ∃ d r, s = digit d :: r := by
  have hrange : ch '0' ≤ cur s ∧ cur s ≤ ch '9' := by simpa [isDigit] using h
  simp only [ch, Char.reduceToNat] at hrange
  obtain ⟨b, r, rfl, -, hcur⟩ := cur_nonneg (s := s) (by omega)
  refine ⟨⟨b.toNat - 0x30, by omega⟩, r, ?_⟩
  congr 1
  apply UInt8.toNat_inj.mp
  rw [digit_toNat]
  simp only
  omega

@[simp] theorem Digits.text_nil : Digits.text [] = [] := rfl

@[simp] theorem Digits.text_cons (d : Fin 10) (ds : Digits) :
    Digits.text (d :: ds) = digit d :: Digits.text ds := rfl

@[simp] theorem Digits.text_append (ds es : Digits) :
    Digits.text (ds ++ es) = Digits.text ds ++ Digits.text es := map_append

theorem isDigit_text (d : Fin 10) (ds : Digits) (r : Bytes) :
    isDigit (cur (Digits.text (d :: ds) ++ r)) = true := isDigit_digit d _

/-- Every input is a run of digits and what does not go on with one. -/
theorem exists_digits (s : Bytes) :
    ∃ ds r, s = Digits.text ds ++ r ∧ isDigit (cur r) = false := by
  induction s with
  | nil => exact ⟨[], [], rfl, by decide⟩
  | cons b s ih =>
    cases hd : isDigit (cur (b :: s)) with
    | false => exact ⟨[], b :: s, rfl, hd⟩
    | true =>
      obtain ⟨d, r, hs⟩ := exists_digit hd
      obtain ⟨rfl, rfl⟩ := cons.inj hs
      obtain ⟨ds, r, rfl, hr⟩ := ih
      exact ⟨d :: ds, r, rfl, hr⟩

/-- Digits that follow the number `n`. -/
def Digits.follow (n : Nat) (ds : Digits) : Nat := ds.foldl (fun n d => n * 10 + d.val) n

theorem Digits.le_follow (ds : Digits) (n : Nat) : n ≤ ds.follow n := by
  induction ds generalizing n with
  | nil => exact le_rfl
  | cons d ds ih => exact le_trans (by omega) (ih (n * 10 + d.val))

theorem natOf_text (ds : Digits) : natOf ds.text = ds.value := by
  have h : ∀ n, (Digits.text ds).foldl (fun n b => n * 10 + (b.toNat - 0x30)) n = ds.follow n := by
    induction ds with
    | nil => intro n; rfl
    | cons d ds ih =>
      intro n
      rw [Digits.text_cons, foldl_cons, ih, digit_toNat, Nat.add_sub_cancel_left]
      rfl
  exact h 0

/-! ## The integer part -/

theorem accPos_eq (n : Nat) (d : Fin 10) :
    accPos ⟨n, false⟩ d.val =
      if n * 10 + d.val ≤ 2 ^ 53 then ⟨(n * 10 + d.val : Nat), false⟩ else ⟨n, true⟩ := by
  have hlim : (intMax - d.val).tdiv 10 = (2 ^ 53 - d.val) / 10 :=
    Int.tdiv_eq_ediv_of_nonneg (by unfold intMax; omega)
  unfold accPos
  simp only [hlim]
  split
  · rw [if_neg (by omega)]
  · rw [if_pos (by omega)]
    simp

theorem accNeg_eq (n : Nat) (d : Fin 10) :
    accNeg ⟨-n, false⟩ d.val =
      if n * 10 + d.val ≤ 2 ^ 53 then ⟨-(n * 10 + d.val : Nat), false⟩ else ⟨-n, true⟩ := by
  have hlim : (intMin + d.val).tdiv 10 = -((2 ^ 53 - d.val) / 10) := by
    rw [show intMin + d.val = -(2 ^ 53 - d.val) by unfold intMin; ring, Int.neg_tdiv,
      Int.tdiv_eq_ediv_of_nonneg (by omega)]
  unfold accNeg
  simp only [hlim]
  split
  · rw [if_neg (by omega)]
  · rw [if_pos (by omega)]
    simp only [Acc.mk.injEq, and_true]
    omega

/-- The integer of a sign and a magnitude. -/
def signedInt (neg : Bool) (n : Nat) : Int := if neg then -n else n

theorem accDigit_eq (neg : Bool) (n : Nat) (d : Fin 10) :
    accDigit neg ⟨signedInt neg n, false⟩ d.val =
      if n * 10 + d.val ≤ 2 ^ 53 then ⟨signedInt neg (n * 10 + d.val), false⟩
      else ⟨signedInt neg n, true⟩ := by
  cases neg with
  | false => exact accPos_eq n d
  | true => exact accNeg_eq n d

/-- The digits of the integer part, folded into the accumulator. -/
def accDigits (neg : Bool) (a : Acc) (ds : Digits) : Acc :=
  ds.foldl (fun a d => accDigit neg a d.val) a

theorem accDigits_over (neg : Bool) (v : Int) (ds : Digits) :
    accDigits neg ⟨v, true⟩ ds = ⟨v, true⟩ := by
  induction ds with
  | nil => rfl
  | cons d ds ih => exact ih

/-- The accumulator holds the integer, or has left the range with it. -/
theorem accDigits_eq (neg : Bool) (ds : Digits) :
    ∀ n : Nat, n ≤ 2 ^ 53 →
      (ds.follow n ≤ 2 ^ 53 → accDigits neg ⟨signedInt neg n, false⟩ ds =
        ⟨signedInt neg (ds.follow n), false⟩) ∧
      (2 ^ 53 < ds.follow n → (accDigits neg ⟨signedInt neg n, false⟩ ds).iover = true) := by
  induction ds with
  | nil => exact fun n hn => ⟨fun _ => rfl, fun h => absurd hn (not_le.mpr h)⟩
  | cons d ds ih =>
    intro n hn
    have hstep : accDigits neg ⟨signedInt neg n, false⟩ (d :: ds) =
        accDigits neg (accDigit neg ⟨signedInt neg n, false⟩ d.val) ds := rfl
    have hfollow : Digits.follow n (d :: ds) = Digits.follow (n * 10 + d.val) ds := rfl
    rw [hstep, hfollow, accDigit_eq]
    split
    case isTrue hle => exact ih _ hle
    case isFalse hgt =>
      have := Digits.le_follow ds (n * 10 + d.val)
      exact ⟨fun h => by omega, fun _ => by rw [accDigits_over]⟩

variable {r : Bytes}

theorem scanIntDigits_text (neg : Bool) (hr : isDigit (cur r) = false) (ds : Digits) :
    ∀ a, scanIntDigits neg a (ds.text ++ r) = (accDigits neg a ds, r) := by
  induction ds with
  | nil =>
    intro a
    cases r with
    | nil => rfl
    | cons b r => exact if_neg (by rw [hr]; simp)
  | cons d ds ih =>
    intro a
    rw [Digits.text_cons, cons_append, scanIntDigits, if_pos (isDigit_digit d _), cur_digit,
      add_sub_cancel_left, ih]
    rfl

/-- The integer part of the grammar: digits with no zero in front of others. -/
def IntPart (ds : Digits) : Prop := ds ≠ [] ∧ (ds.head? = some 0 → ds = [0])

/-- The accumulator after the integer part. -/
def accOf (neg : Bool) (ds : Digits) : Acc := accDigits neg ⟨0, false⟩ ds

theorem accOf_zero (neg : Bool) : accOf neg [0] = ⟨0, false⟩ := by
  cases neg <;> decide

variable {neg : Bool}

theorem readIntPart_sound {a : Acc}
    (h : readIntPart neg s = some (a, r)) :
    ∃ ds, IntPart ds ∧ s = Digits.text ds ++ r ∧ a = accOf neg ds := by
  rw [readIntPart] at h
  split at h
  case isTrue h0 =>
    obtain ⟨s, rfl⟩ := (cur_eq_ch (by decide)).mp h0
    cases h
    exact ⟨[0], ⟨by simp, fun _ => rfl⟩, rfl, (accOf_zero neg).symm⟩
  case isFalse h0 =>
    split at h
    case isFalse => cases h
    case isTrue hd =>
      obtain ⟨ds, r', rfl, hr'⟩ := exists_digits s
      rw [scanIntDigits_text neg hr'] at h
      cases h
      refine ⟨ds, ⟨?_, ?_⟩, rfl, rfl⟩
      · rintro rfl
        rw [Digits.text_nil, nil_append] at hd
        rw [hr'] at hd; cases hd
      · intro hz
        cases ds with
        | nil => cases hz
        | cons d ds =>
          cases hz
          have hzero : cur (Digits.text (0 :: ds) ++ r) = ch '0' := cur_digit 0 _
          exact absurd hzero h0

variable {ds : Digits}

theorem readIntPart_text (neg : Bool) (hds : IntPart ds)
    (hr : isDigit (cur r) = false) :
    readIntPart neg (Digits.text ds ++ r) = some (accOf neg ds, r) := by
  obtain ⟨d, ds', rfl⟩ := exists_cons_of_ne_nil hds.1
  rw [readIntPart]
  split
  case isTrue h0 =>
    have hd : d = 0 := by
      rw [Digits.text_cons, cons_append, cur_digit] at h0
      exact Fin.ext (by show d.val = 0; omega)
    subst hd
    rw [hds.2 rfl, accOf_zero]
    rfl
  case isFalse =>
    rw [if_pos (isDigit_text d ds' r), scanIntDigits_text neg hr]
    rfl

/-! ## The fraction -/

theorem scanFracDigits_text (hr : isDigit (cur r) = false) (ds : Digits) :
    ∀ {n : Int}, n ≤ cIntMax → scanFracDigits n (ds.text ++ r) =
      if n + ds.length ≤ cIntMax then .ok (n + ds.length, r) else .error .overflow := by
  induction ds with
  | nil =>
    intro n hn
    rw [length_nil, Nat.cast_zero, add_zero, if_pos hn, Digits.text_nil, nil_append]
    cases r with
    | nil => rfl
    | cons b r => rw [scanFracDigits, if_neg (by rw [hr]; simp)]
  | cons d ds ih =>
    intro n hn
    have hlen : n + (d :: ds).length = n + 1 + ds.length := by
      rw [length_cons]
      push_cast
      ring
    rw [Digits.text_cons, cons_append, scanFracDigits, if_pos (isDigit_digit d _), hlen]
    rcases eq_or_ne n cIntMax with rfl | hne
    · rw [if_pos rfl, if_neg (by omega)]
    · rw [if_neg hne, ih (by omega)]

/-- The digits of a fraction are counted, as long as an `int` can. -/
theorem takeFrac_text (ds : Digits) (hr : isDigit (cur r) = false)
    (hdot : cur r ≠ ch '.') : takeFrac (fracText ds ++ r) =
      if ds.length ≤ cIntMax then .ok (some (decide (ds ≠ []), ds.length, r))
      else .error .overflow := by
  cases ds with
  | nil => exact if_pos hdot
  | cons d ds =>
    have hc : cur (byte '.' :: (Digits.text (d :: ds) ++ r)) = ch '.' :=
      (cur_eq_ch (by decide)).mpr ⟨_, rfl⟩
    have hscan := scanFracDigits_text hr (d :: ds) (n := 0) (by decide)
    rw [fracText, if_neg (by simp), cons_append, takeFrac, if_neg (not_not.mpr hc)]
    show (if isDigit (cur (Digits.text (d :: ds) ++ r)) = true then
      (scanFracDigits 0 (Digits.text (d :: ds) ++ r)).bind _ else _) = _
    rw [if_pos (isDigit_text d ds r), hscan, zero_add, decide_eq_true (by simp : d :: ds ≠ [])]
    split <;> rfl

variable {f : Bool}

theorem takeFrac_sound {n : Int}
    (h : takeFrac s = .ok (some (f, n, r))) : ∃ ds : Digits, s = fracText ds ++ r ∧
      f = decide (ds ≠ []) ∧ n = ds.length ∧ (ds.length : Int) ≤ cIntMax := by
  by_cases hdot : cur s = ch '.'
  · obtain ⟨s, rfl⟩ := (cur_eq_ch (by decide)).mp hdot
    obtain ⟨ds, r', rfl, hr'⟩ := exists_digits s
    have hb : bump (byte '.' :: (ds.text ++ r')) = ds.text ++ r' := rfl
    rw [takeFrac, if_neg (not_not.mpr hdot), hb] at h
    simp only at h
    split at h
    case isFalse => cases h
    case isTrue hd =>
      obtain ⟨⟨n', r''⟩, hscan, heq⟩ := bind_eq_ok.mp h
      rw [scanFracDigits_text hr' ds (by decide), zero_add] at hscan
      split at hscan
      case isFalse => cases hscan
      case isTrue hle =>
        cases hscan
        cases heq
        have hne : ds ≠ [] := by
          rintro rfl
          rw [Digits.text_nil, nil_append, hr'] at hd
          cases hd
        exact ⟨ds, by rw [fracText, if_neg hne]; rfl, (decide_eq_true hne).symm, rfl, hle⟩
  · rw [takeFrac, if_pos hdot] at h
    cases h
    exact ⟨[], rfl, rfl, rfl, by decide⟩

/-! ## The exponent -/

theorem clampAcc_eq (n : Nat) (d : Fin 10) :
    clampAcc (min n (2 ^ 30)) d.val expBound = min ((n * 10 + d.val : Nat) : Int) (2 ^ 30) := by
  have hb : expBound.tdiv 10 = 107374182 := by decide
  rw [clampAcc, hb, expBound]
  split_ifs <;> omega

theorem scanExpDigits_text (hr : isDigit (cur r) = false) (ds : Digits) :
    ∀ (n : Nat) (any : Bool), scanExpDigits expBound (min (n : Int) (2 ^ 30)) any (ds.text ++ r) =
      (min (Digits.follow n ds : Int) (2 ^ 30), any || decide (ds ≠ []), r) := by
  induction ds with
  | nil =>
    intro n any
    cases r with
    | nil => simp [scanExpDigits, Digits.follow]
    | cons b r =>
      rw [Digits.text_nil, nil_append, scanExpDigits, if_neg (by rw [hr]; simp)]
      simp [Digits.follow]
  | cons d ds ih =>
    intro n any
    rw [Digits.text_cons, cons_append, scanExpDigits, if_pos (isDigit_digit d _), cur_digit,
      add_sub_cancel_left, clampAcc_eq, ih]
    simp [Digits.follow]

theorem expAdvance_sound {m : Bool} (h : expAdvance s = (m, r)) :
    ∃ sign : ExpSign, s = sign.text ++ r ∧ m = decide (sign = .minus) := by
  rw [expAdvance] at h
  split at h
  case isTrue hp =>
    obtain ⟨s, rfl⟩ := (cur_eq_ch (by decide)).mp hp
    cases h
    exact ⟨.plus, rfl, rfl⟩
  case isFalse =>
    split at h
    case isTrue hm =>
      obtain ⟨s, rfl⟩ := (cur_eq_ch (by decide)).mp hm
      cases h
      exact ⟨.minus, rfl, rfl⟩
    case isFalse =>
      cases h
      exact ⟨.none, rfl, rfl⟩

theorem expAdvance_text (sign : ExpSign) {d : Fin 10} :
    expAdvance (sign.text ++ digit d :: s) = (decide (sign = .minus), digit d :: s) := by
  have hplus : ∀ t, cur (byte '+' :: t) = ch '+' := fun t => (cur_eq_ch (by decide)).mpr ⟨t, rfl⟩
  have hminus : ∀ t, cur (byte '-' :: t) = ch '-' := fun t => (cur_eq_ch (by decide)).mpr ⟨t, rfl⟩
  rw [expAdvance]
  cases sign with
  | plus => exact if_pos (hplus _)
  | minus =>
    show (if cur (byte '-' :: digit d :: s) = ch '+' then _ else _) = _
    rw [if_neg (by rw [hminus]; decide)]
    exact if_pos (hminus _)
  | none =>
    have hp : ch '+' = 43 := rfl
    have hm : ch '-' = 45 := rfl
    have h0 : ch '0' = 48 := rfl
    show (if cur (digit d :: s) = ch '+' then _ else _) = _
    rw [if_neg (by rw [cur_digit]; omega)]
    refine if_neg ?_
    show ¬ cur (digit d :: s) = ch '-'
    rw [cur_digit]
    omega

/-- The exponent that the code makes of a sign and digits. -/
theorem clamp_signed (sign : ExpSign) (ds : Digits) :
    (if decide (sign = .minus) then -min (Digits.follow 0 ds : Int) (2 ^ 30)
      else min (Digits.follow 0 ds : Int) (2 ^ 30)) =
      clamp (if sign = .minus then -Digits.value ds else Digits.value ds) := by
  have hv : Digits.value ds = Digits.follow 0 ds := rfl
  rw [hv, clamp]
  cases sign with
  | minus => simp; omega
  | _ => simp

variable {e : Int}

theorem parseExp_sound {b : UInt8} (h : parseExp (b :: s) = .ok (e, r)) :
    ∃ (sign : ExpSign) (ds : Digits), ds ≠ [] ∧ s = sign.text ++ (Digits.text ds ++ r) ∧
      e = clamp (if sign = .minus then -Digits.value ds else Digits.value ds) := by
  rw [parseExp] at h
  cases hadv : expAdvance (bump (b :: s)) with
  | mk m s1 =>
  obtain ⟨sign, hs, rfl⟩ := expAdvance_sound hadv
  obtain ⟨ds, r', rfl, hr'⟩ := exists_digits s1
  have hscan := scanExpDigits_text hr' ds 0 false
  rw [hadv] at h
  simp only at h
  rw [show min ((0 : Nat) : Int) (2 ^ 30) = 0 by decide, Bool.false_or] at hscan
  rw [hscan] at h
  simp only at h
  split at h
  case isFalse => cases h
  case isTrue hne =>
    rw [clamp_signed] at h
    cases h
    exact ⟨sign, ds, of_decide_eq_true hne, hs, rfl⟩

theorem parseExp_text (b : UInt8) (sign : ExpSign) (hds : ds ≠ [])
    (hr : isDigit (cur r) = false) :
    parseExp (b :: (sign.text ++ (Digits.text ds ++ r))) =
      .ok (clamp (if sign = .minus then -Digits.value ds else Digits.value ds), r) := by
  obtain ⟨d, ds', rfl⟩ := exists_cons_of_ne_nil hds
  have hadv : expAdvance (bump (b :: (sign.text ++ (Digits.text (d :: ds') ++ r)))) =
      (decide (sign = .minus), Digits.text (d :: ds') ++ r) := expAdvance_text sign
  have hscan := scanExpDigits_text hr (d :: ds') 0 false
  rw [show min ((0 : Nat) : Int) (2 ^ 30) = 0 by decide, Bool.false_or] at hscan
  rw [parseExp, hadv]
  simp only
  rw [hscan]
  simp only [ne_eq, reduceCtorEq, not_false_eq_true, decide_true, if_true]
  rw [← clamp_signed]

theorem takeExp_sound (h : takeExp s = .ok (f, e, r)) :
    ∃ x : Option Exponent, s = expText x ++ r ∧ f = x.isSome ∧
      e = clamp (x.elim 0 Exponent.value) := by
  rw [takeExp] at h
  split at h
  case isTrue => cases h; exact ⟨none, rfl, rfl, rfl⟩
  case isFalse hexp =>
    obtain ⟨⟨e', r'⟩, hparse, heq⟩ := bind_eq_ok.mp h
    cases heq
    have hmark : ∃ (upper : Bool) (t : Bytes), s = (if upper then byte 'E' else byte 'e') :: t := by
      rcases (by tauto : cur s = ch 'e' ∨ cur s = ch 'E') with hc | hc
      · obtain ⟨t, rfl⟩ := (cur_eq_ch (by decide)).mp hc
        exact ⟨false, t, rfl⟩
      · obtain ⟨t, rfl⟩ := (cur_eq_ch (by decide)).mp hc
        exact ⟨true, t, rfl⟩
    obtain ⟨upper, t, rfl⟩ := hmark
    obtain ⟨sign, ds, hne, rfl, rfl⟩ := parseExp_sound hparse
    exact ⟨some ⟨upper, sign, ds, hne⟩, by simp [expText, Exponent.text], rfl, rfl⟩

theorem takeExp_text (x : Option Exponent) (hr : isDigit (cur r) = false)
    (he : cur r ≠ ch 'e' ∧ cur r ≠ ch 'E') :
    takeExp (expText x ++ r) = .ok (x.isSome, clamp (x.elim 0 Exponent.value), r) := by
  cases x with
  | none => exact if_pos he
  | some x =>
    obtain ⟨upper, sign, ds, hne⟩ := x
    have htext : expText (some ⟨upper, sign, ds, hne⟩) ++ r =
        (if upper then byte 'E' else byte 'e') :: (sign.text ++ (Digits.text ds ++ r)) := by
      simp [expText, Exponent.text]
    have hmark : ∀ t, ¬ (cur ((if upper then byte 'E' else byte 'e') :: t) ≠ ch 'e' ∧
        cur ((if upper then byte 'E' else byte 'e') :: t) ≠ ch 'E') := by
      intro t hne
      cases upper with
      | false => exact hne.1 ((cur_eq_ch (by decide)).mpr ⟨t, rfl⟩)
      | true => exact hne.2 ((cur_eq_ch (by decide)).mpr ⟨t, rfl⟩)
    rw [htext, takeExp, if_neg (hmark _), parseExp_text _ sign hne hr]
    rfl

/-! ## The token -/

/-- The locals of the code for a numeral. -/
def Numeral.token (x : Numeral) : Token where
  neg := x.neg
  acc := accOf x.neg x.int
  isFloat := x.isFloat
  frac := x.frac.length
  e := clamp x.exponent
  sig := signText x.neg ++ (Digits.text x.int ++ fracText x.frac)

theorem takeNeg_sound (h : takeNeg s = (neg, r)) :
    s = signText neg ++ r := by
  rw [takeNeg] at h
  split at h
  case isTrue hm =>
    obtain ⟨s, rfl⟩ := (cur_eq_ch (by decide)).mp hm
    cases h
    rfl
  case isFalse => cases h; rfl

theorem take_before (a t : Bytes) : (a ++ t).take ((a ++ t).length - t.length) = a :=
  take_left' (by simp)

theorem scanNumber_sound {t : Token} (h : scanNumber s = .ok (t, r)) :
    ∃ x : Numeral, s = x.text ++ r ∧ t = x.token ∧ (x.frac.length : Int) ≤ cIntMax := by
  rw [scanNumber] at h
  cases hneg : takeNeg s with
  | mk neg s1 =>
  have hs := takeNeg_sound hneg
  rw [hneg] at h
  simp only at h
  cases hint : readIntPart neg s1 with
  | none => rw [hint] at h; cases h
  | some p =>
  obtain ⟨acc, s2⟩ := p
  obtain ⟨int, hpart, rfl, rfl⟩ := readIntPart_sound hint
  rw [hint] at h
  simp only at h
  obtain ⟨p, hfrac, h⟩ := bind_eq_ok.mp h
  cases p with
  | none => cases h
  | some p =>
  obtain ⟨f, n, s3⟩ := p
  obtain ⟨frac, rfl, rfl, rfl, hlen⟩ := takeFrac_sound hfrac
  obtain ⟨⟨f, e, r'⟩, hexp, heq⟩ := bind_eq_ok.mp h
  obtain ⟨exp, rfl, rfl, rfl⟩ := takeExp_sound hexp
  simp only [Except.ok.injEq, Prod.mk.injEq] at heq
  obtain ⟨ht, rfl⟩ := heq
  refine ⟨⟨neg, int, hpart.1, hpart.2, frac, exp⟩, by simp [hs, Numeral.text], ?_, hlen⟩
  have hsig : s.take (s.length - (expText exp ++ r').length) =
      signText neg ++ (Digits.text int ++ fracText frac) := by
    have hs' : s = (signText neg ++ (Digits.text int ++ fracText frac)) ++ (expText exp ++ r') := by
      simp [hs]
    rw [hs']
    exact take_before _ _
  rw [← ht, hsig]
  rfl

/-- What can follow a numeral. -/
structure Follows (r : Bytes) : Prop where
  digit : isDigit (cur r) = false
  dot : cur r ≠ ch '.'
  exp : cur r ≠ ch 'e' ∧ cur r ≠ ch 'E'

theorem cur_expText (x : Option Exponent) (hr : Follows r) :
    isDigit (cur (expText x ++ r)) = false ∧ cur (expText x ++ r) ≠ ch '.' := by
  cases x with
  | none => exact ⟨hr.digit, hr.dot⟩
  | some x =>
    have hmark : ∀ t, cur ((if x.upper then byte 'E' else byte 'e') :: t) =
        if x.upper then ch 'E' else ch 'e' := by
      intro t
      cases x.upper with
      | false | true => exact (cur_eq_ch (by decide)).mpr ⟨t, rfl⟩
    show isDigit (cur ((if x.upper then byte 'E' else byte 'e') :: _)) = false ∧
      cur ((if x.upper then byte 'E' else byte 'e') :: _) ≠ ch '.'
    rw [hmark]
    cases x.upper <;> decide

theorem cur_fracText (ds : Digits) (hr : isDigit (cur r) = false) :
    isDigit (cur (fracText ds ++ r)) = false := by
  cases ds with
  | nil => exact hr
  | cons d ds =>
    have hdot : cur (fracText (d :: ds) ++ r) = ch '.' := (cur_eq_ch (by decide)).mpr ⟨_, rfl⟩
    rw [hdot]
    decide

theorem takeNeg_text (neg : Bool) (d : Fin 10) (s : Bytes) :
    takeNeg (signText neg ++ digit d :: s) = (neg, digit d :: s) := by
  rw [takeNeg]
  cases neg with
  | true => exact if_pos ((cur_eq_ch (by decide)).mpr ⟨_, rfl⟩)
  | false =>
    refine if_neg ?_
    have hm : ch '-' = 45 := rfl
    have h0 : ch '0' = 48 := rfl
    show ¬ cur (digit d :: s) = ch '-'
    rw [cur_digit]
    omega

theorem scanNumber_text (x : Numeral) (hr : Follows r) :
    scanNumber (x.text ++ r) =
      if (x.frac.length : Int) ≤ cIntMax then .ok (x.token, r) else .error .overflow := by
  obtain ⟨neg, int, hne, hzero, frac, exp⟩ := x
  obtain ⟨hexpDigit, hexpDot⟩ := cur_expText exp hr
  have htext : Numeral.text ⟨neg, int, hne, hzero, frac, exp⟩ ++ r =
      signText neg ++ (Digits.text int ++ (fracText frac ++ (expText exp ++ r))) := by
    simp [Numeral.text]
  have hneg : takeNeg (signText neg ++ (Digits.text int ++ (fracText frac ++ (expText exp ++ r)))) =
      (neg, Digits.text int ++ (fracText frac ++ (expText exp ++ r))) := by
    obtain ⟨d, ds, rfl⟩ := exists_cons_of_ne_nil hne
    exact takeNeg_text neg d _
  have hsig : ∀ s, s = signText neg ++ (Digits.text int ++ (fracText frac ++ (expText exp ++ r))) →
      s.take (s.length - (expText exp ++ r).length) =
        signText neg ++ (Digits.text int ++ fracText frac) := by
    rintro s rfl
    rw [show signText neg ++ (Digits.text int ++ (fracText frac ++ (expText exp ++ r))) =
      (signText neg ++ (Digits.text int ++ fracText frac)) ++ (expText exp ++ r) by simp]
    exact take_before _ _
  rw [htext, scanNumber, hneg]
  simp only
  rw [readIntPart_text neg ⟨hne, hzero⟩ (cur_fracText frac hexpDigit)]
  simp only
  rw [takeFrac_text frac hexpDigit hexpDot]
  split
  · refine bind_eq_ok.mpr ⟨_, rfl, bind_eq_ok.mpr ⟨_, takeExp_text exp hr.digit hr.exp, ?_⟩⟩
    simp only [hsig _ rfl]
    rfl
  · rfl

/-! ## The nodes -/

theorem collectMant_digits (ds : Digits) : collectMant ds.text = ds.text := by
  refine filter_eq_self.mpr fun b hb => ?_
  obtain ⟨d, -, rfl⟩ := mem_map.mp hb
  clear hb
  revert d
  decide

/-- The mantissa is the digits on both sides of the point. -/
theorem collectMant_text (neg : Bool) (int frac : Digits) :
    collectMant (signText neg ++ (Digits.text int ++ fracText frac)) = Digits.text (int ++ frac) := by
  have happ : ∀ a b, collectMant (a ++ b) = collectMant a ++ collectMant b := filter_append
  have hsign : collectMant (signText neg) = [] := by cases neg <;> decide
  have hfrac : collectMant (fracText frac) = Digits.text frac := by
    cases frac with
    | nil => rfl
    | cons d ds => exact collectMant_digits (d :: ds)
  rw [happ, happ, hsign, collectMant_digits, hfrac, Digits.text_append, nil_append]

theorem follow_eq_zero_iff (ds : Digits) (n : Nat) :
    ds.follow n = 0 ↔ n = 0 ∧ (Digits.text ds).any (fun b => b != byte '0') = false := by
  induction ds generalizing n with
  | nil => simp [Digits.follow]
  | cons d ds ih =>
    have hd : ∀ d : Fin 10, (digit d != byte '0') = false ↔ d.val = 0 := by decide
    show Digits.follow (n * 10 + d.val) ds = 0 ↔ _
    rw [ih, Digits.text_cons, any_cons, Bool.or_eq_false_iff, hd]
    constructor
    · rintro ⟨h0, h⟩; exact ⟨by omega, by omega, h⟩
    · rintro ⟨h0, h1, h⟩; exact ⟨by omega, h⟩

theorem tokenToDouble_eq (neg : Bool) (int frac : Digits) (e f : Int) :
    tokenToDouble (signText neg ++ (Digits.text int ++ fracText frac)) e f =
      toDouble (Digits.value (int ++ frac) * 10 ^ (e - f)) := by
  have hz := follow_eq_zero_iff (int ++ frac) 0
  have hq : ((Digits.value (int ++ frac) : ℚ) * 10 ^ (e - f) ≠ 0) ↔
      Digits.value (int ++ frac) ≠ 0 := by
    rw [mul_ne_zero_iff, Nat.cast_ne_zero]
    exact ⟨fun h => h.1, fun h => ⟨h, zpow_ne_zero _ (by norm_num)⟩⟩
  rw [tokenToDouble, collectMant_text, strtod, natOf_text, toDouble]
  cases Double.nearest (Digits.value (int ++ frac) * 10 ^ (e - f)) with
  | nan | infinite neg => rfl
  | finite neg mag =>
    have hnonzero : (Digits.text (int ++ frac)).any (fun b => b != byte '0') = true ↔
        Digits.value (int ++ frac) ≠ 0 := by
      rw [show Digits.value (int ++ frac) = Digits.follow 0 (int ++ frac) from rfl, ne_eq, hz,
        eq_self, true_and, Bool.not_eq_false]
    simp only [hq, hnonzero]

/-- The integer part is in the range of the code when its integer is. -/
theorem accOf_eq (neg : Bool) (ds : Digits) :
    (ds.value ≤ 2 ^ 53 → accOf neg ds = ⟨signedInt neg ds.value, false⟩) ∧
      (2 ^ 53 < ds.value → (accOf neg ds).iover = true) := by
  have h := accDigits_eq neg ds 0 (by omega)
  rw [show signedInt neg 0 = 0 by cases neg <;> rfl] at h
  exact h

theorem numberNode_token (x : Numeral) (n : Num) :
    numberNode x.token = .ok n ↔ x.node (clamp x.exponent - x.frac.length) = some n := by
  have hdouble : tokenToDouble x.token.sig x.token.e x.token.frac =
      toDouble (x.mantissa * 10 ^ (clamp x.exponent - x.frac.length)) :=
    tokenToDouble_eq x.neg x.int x.frac _ _
  have hfloat : x.token.isFloat = x.isFloat := rfl
  rw [numberNode, hdouble, hfloat, Numeral.node]
  cases x.isFloat with
  | true =>
    simp only [if_true]
    generalize toDouble (x.mantissa * 10 ^ (clamp x.exponent - x.frac.length)) = d
    cases d with
    | none => simp
    | some v =>
      show Except.ok (Num.float (x.signed v)) = _ ↔ _
      simp
  | false =>
    simp only [Bool.false_eq_true, if_false]
    obtain ⟨hin, hout⟩ := accOf_eq x.neg x.int
    have hint : x.integer = signedInt x.neg (Digits.value x.int) := rfl
    show (if (accOf x.neg x.int).iover then _ else Except.ok (Num.integer (accOf x.neg x.int).ival)) =
      _ ↔ _
    rcases le_or_gt (Digits.value x.int) (2 ^ 53) with hle | hgt
    · have hrange : -2 ^ 53 ≤ x.integer ∧ x.integer ≤ 2 ^ 53 := by
        rw [hint, signedInt]
        split <;> omega
      rw [hin hle, if_pos hrange, hint]
      simp
    · have hrange : ¬ (-2 ^ 53 ≤ x.integer ∧ x.integer ≤ 2 ^ 53) := by
        rw [hint, signedInt]
        split <;> omega
      rw [hout hgt, if_neg hrange]
      simp

/-! ## The reader -/

/-- A reader of numbers takes the numerals that `num` gives a meaning. -/
structure Reads {α : Type} (number : Bytes → Result (α × Bytes)) (num : Numeral → Option α) :
    Prop where
  sound : ∀ {s r : Bytes} {a : α}, number s = .ok (a, r) → ∃ x, s = x.text ++ r ∧ num x = some a
  complete : ∀ {x : Numeral} {r : Bytes} {a : α}, Follows r → num x = some a →
    number (x.text ++ r) = .ok (a, r)

/-- The code reads numerals with their exponents and digit counts in its range. -/
theorem parseNumber_reads : Reads parseNumber Numeral.read where
  sound := by
    intro s r a h
    obtain ⟨⟨t, r'⟩, hscan, hrest⟩ := bind_eq_ok.mp h
    obtain ⟨n, hnode, heq⟩ := bind_eq_ok.mp hrest
    cases heq
    obtain ⟨x, rfl, rfl, hlen⟩ := scanNumber_sound hscan
    exact ⟨x, rfl, (if_pos hlen).trans ((numberNode_token x a).mp hnode)⟩
  complete := by
    intro x r a hr h
    rw [Numeral.read] at h
    split at h
    case isFalse => cases h
    case isTrue hlen =>
      refine bind_eq_ok.mpr ⟨_, (scanNumber_text x hr).trans (if_pos hlen), ?_⟩
      exact bind_eq_ok.mpr ⟨a, (numberNode_token x a).mpr h, rfl⟩

end J89
