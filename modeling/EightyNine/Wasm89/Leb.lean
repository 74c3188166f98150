import Mathlib.Algebra.Group.Nat.Defs
import Mathlib.Algebra.Order.Ring.Int
import Mathlib.Tactic.Linarith
import Mathlib.Tactic.Positivity
import Mathlib.Tactic.Ring

/-!
# LEB128 numbers

The readers of `leb.c` against the grammar of integers in the binary format: they
succeed exactly where the window starts with an encoding of the width, and return its
value and what comes after it (`lebUErr_exact`, `lebSErr_exact`).
-/

namespace Wasm89

open Nat BitVec

/-! ## The readers -/

/-- The values of `w89_err` that reading a number gives. -/
inductive LebErr where
  | none
  | eof
  | intTooLarge
  | lebTooLong
  deriving DecidableEq

/-- What a reader leaves: its status, the bytes from its pointer to the end, and its output. -/
structure LebRead where
  err : LebErr
  window : List UInt8
  out : BitVec 64

/-- The bytes with another to follow. -/
def lebNonterm (b : UInt8) : Bool := b &&& 0x80 != 0

/-- `b & W89_LEB_PAYLOAD`. -/
def lebPayload (b : UInt8) : BitVec 64 := (b &&& 0x7F).toBitVec.setWidth 64

/-- The branch of `w89_leb_u_err` for the last byte. -/
def lebULast (nbits : Nat) (result : BitVec 64) (shift : Nat) (b : UInt8) :
    Except LebErr (BitVec 64) :=
  if shift = 63 ∧ b &&& 0x7E ≠ 0 then .error .intTooLarge
  else
    let payload := if shift = 63 then (b &&& 0x01).toBitVec.setWidth 64 else lebPayload b
    let result := result ||| (payload <<< shift)
    if nbits < 64 ∧ result ≥ (1 : BitVec 64) <<< nbits then .error .intTooLarge
    else .ok result

/-- The branch of `w89_leb_s_err` for the last byte. -/
def lebSLast (nbits : Nat) (result : BitVec 64) (shift : Nat) (b : UInt8) :
    Except LebErr (BitVec 64) :=
  if shift = 63 ∧ b ≠ 0x00 ∧ b ≠ 0x7F then .error .intTooLarge
  else
    let result :=
      if shift = 63 then result ||| ((b &&& 0x01).toBitVec.setWidth 64 <<< 63)
      else
        let result := result ||| (lebPayload b <<< shift)
        if (b >>> 6) &&& 0x01 ≠ 0 then result ||| (BitVec.allOnes 64 <<< (shift + 7)) else result
    let signZone := result >>> (nbits - 1)
    if nbits < 64 ∧ signZone ≠ 0 ∧ signZone ≠ BitVec.allOnes 64 >>> (nbits - 1) then
      .error .intTooLarge
    else .ok result

/-- The loop of both readers. -/
def lebLoop (last : BitVec 64 → Nat → UInt8 → Except LebErr (BitVec 64)) (maxBytes : Nat)
    (result : BitVec 64) (shift n : Nat) : List UInt8 → Except LebErr (List UInt8 × BitVec 64)
  | [] => .error .eof
  | b :: q =>
    if n + 1 > maxBytes then .error .lebTooLong
    else if lebNonterm b then
      if shift > 56 then .error .lebTooLong
      else lebLoop last maxBytes (result ||| (lebPayload b <<< shift)) (shift + 7) (n + 1) q
    else
      match last result shift b with
      | .error e => .error e
      | .ok result => .ok (q, result)

/-- A reader moves its pointer and writes its output only when it succeeds. -/
def lebRead (last : BitVec 64 → Nat → UInt8 → Except LebErr (BitVec 64)) (nbits : Nat)
    (window : List UInt8) (out : BitVec 64) : LebRead :=
  match lebLoop last ((nbits + 6) / 7) 0 0 0 window with
  | .error e => ⟨e, window, out⟩
  | .ok (q, result) => ⟨.none, q, result⟩

/-- `w89_leb_u_err`. -/
def lebUErr (nbits : Nat) (window : List UInt8) (out : BitVec 64) : LebRead :=
  lebRead (lebULast nbits) nbits window out

/-- `w89_leb_s_err`. -/
def lebSErr (nbits : Nat) (window : List UInt8) (out : BitVec 64) : LebRead :=
  lebRead (lebSLast nbits) nbits window out

/-! ## The grammar -/

/-- The encodings of `uN`. -/
inductive UnsignedEnc : Nat → List UInt8 → Nat → Prop where
  | last {N : Nat} {b : UInt8} : b.toNat < 128 → b.toNat < 2 ^ N → UnsignedEnc N [b] b.toNat
  | more {N : Nat} {b : UInt8} {bs : List UInt8} {v : Nat} : 128 ≤ b.toNat → 7 < N →
      UnsignedEnc (N - 7) bs v → UnsignedEnc N (b :: bs) (128 * v + (b.toNat - 128))

/-- The encodings of `sN`. -/
inductive SignedEnc : Nat → List UInt8 → Int → Prop where
  | nonneg {N : Nat} {b : UInt8} : b.toNat < 64 → b.toNat < 2 ^ (N - 1) → SignedEnc N [b] b.toNat
  | neg {N : Nat} {b : UInt8} : 64 ≤ b.toNat → b.toNat < 128 → 128 ≤ b.toNat + 2 ^ (N - 1) →
      SignedEnc N [b] (b.toNat - 128)
  | more {N : Nat} {b : UInt8} {bs : List UInt8} {z : Int} : 128 ≤ b.toNat → 7 < N →
      SignedEnc (N - 7) bs z → SignedEnc N (b :: bs) (128 * z + (b.toNat - 128))

section

variable {N n s : Nat} {b : UInt8} {bs w rest : List UInt8} {v : Nat} {z : Int}

theorem UnsignedEnc.length_le (h : UnsignedEnc N bs v) (hN : 0 < N) : bs.length ≤ (N + 6) / 7 := by
  induction h with
  | last =>
    rw [List.length_singleton]
    omega
  | more _ h7 _ ih =>
    rw [List.length_cons]
    have := ih (by omega)
    omega

theorem SignedEnc.length_le (h : SignedEnc N bs z) (hN : 0 < N) : bs.length ≤ (N + 6) / 7 := by
  induction h with
  | nonneg | neg =>
    rw [List.length_singleton]
    omega
  | more _ h7 _ ih =>
    rw [List.length_cons]
    have := ih (by omega)
    omega

/-! ## Bytes as numbers -/

theorem lebNonterm_iff (b : UInt8) : lebNonterm b = true ↔ 128 ≤ b.toNat := by
  have h : ∀ c : BitVec 8, ((⟨c⟩ : UInt8) &&& 0x80 != 0) = true ↔ 128 ≤ c.toNat := by decide
  exact h b.toBitVec

theorem lebPayload_toNat (b : UInt8) : (lebPayload b).toNat = b.toNat % 128 := by
  have h : ∀ c : BitVec 8, ((⟨c⟩ : UInt8) &&& 0x7F).toBitVec.toNat = c.toNat % 128 := by decide
  rw [lebPayload, toNat_setWidth, h b.toBitVec]
  exact mod_eq_of_lt (by omega)

theorem toNat_or_shift {r x : BitVec 64} (hr : r.toNat < 2 ^ s) (hx : x.toNat * 2 ^ s < 2 ^ 64) :
    (r ||| (x <<< s)).toNat = r.toNat + x.toNat * 2 ^ s := by
  rw [toNat_or, toNat_shiftLeft, Nat.shiftLeft_eq, mod_eq_of_lt hx, Nat.or_comm,
    Nat.mul_comm, ← two_pow_add_eq_or_of_lt hr, Nat.add_comm]

theorem lebStep_toNat {r : BitVec 64} (hs : s ≤ 56) (hr : r.toNat < 2 ^ s) :
    (r ||| (lebPayload b <<< s)).toNat = r.toNat + b.toNat % 128 * 2 ^ s ∧
      (r ||| (lebPayload b <<< s)).toNat < 2 ^ (s + 7) := by
  have hpow : (2 : Nat) ^ s ≤ 2 ^ 56 := Nat.pow_le_pow_right (by omega) hs
  have hb : b.toNat % 128 * 2 ^ s ≤ 127 * 2 ^ s := Nat.mul_le_mul_right _ (by omega)
  have heq : (r ||| (lebPayload b <<< s)).toNat = r.toNat + b.toNat % 128 * 2 ^ s := by
    rw [toNat_or_shift hr, lebPayload_toNat]
    rw [lebPayload_toNat]
    omega
  refine ⟨heq, ?_⟩
  rw [heq, Nat.pow_add]
  omega

theorem lebTop_toNat (b : UInt8) : ((b &&& 0x01).toBitVec.setWidth 64).toNat = b.toNat % 2 := by
  have h : ∀ c : BitVec 8, ((⟨c⟩ : UInt8) &&& 0x01).toBitVec.toNat = c.toNat % 2 := by decide
  rw [toNat_setWidth, h b.toBitVec]
  exact mod_eq_of_lt (by omega)

theorem lebTop_bits (b : UInt8) (hb : b.toNat < 128) : b &&& 0x7E ≠ 0 ↔ 2 ≤ b.toNat := by
  have h : ∀ c : BitVec 8, c.toNat < 128 → ((⟨c⟩ : UInt8) &&& 0x7E ≠ 0 ↔ 2 ≤ c.toNat) := by decide
  exact h b.toBitVec hb

theorem lebSign_iff (b : UInt8) (hb : b.toNat < 128) : (b >>> 6) &&& 0x01 ≠ 0 ↔ 64 ≤ b.toNat := by
  have h : ∀ c : BitVec 8, c.toNat < 128 →
      (((⟨c⟩ : UInt8) >>> 6) &&& 0x01 ≠ 0 ↔ 64 ≤ c.toNat) := by decide
  exact h b.toBitVec hb

/-! ## The loop -/

/-- What the grammar of a width says of the first byte, and what the reader does at the last. -/
structure LebForm (N : Nat) (last : BitVec 64 → Nat → UInt8 → Except LebErr (BitVec 64))
    (value : BitVec 64 → Int) (Enc : Nat → List UInt8 → Int → Prop) : Prop where
  width : N ≤ 64
  nonempty : ∀ k z, ¬Enc k [] z
  single : ∀ k b bs z, Enc k (b :: bs) z → b.toNat < 128 → bs = []
  more : ∀ k b bs z, 128 ≤ b.toNat → (Enc k (b :: bs) z ↔ 7 < k ∧
    ∃ z', Enc (k - 7) bs z' ∧ z = 128 * z' + (b.toNat - 128))
  accept : ∀ n r b z, 7 * n < N → r.toNat < 2 ^ (7 * n) → b.toNat < 128 → Enc (N - 7 * n) [b] z →
    ∃ out, last r (7 * n) b = .ok out ∧ value out = r.toNat + 2 ^ (7 * n) * z
  reject : ∀ n r b, 7 * n < N → r.toNat < 2 ^ (7 * n) → b.toNat < 128 →
    (∀ z, ¬Enc (N - 7 * n) [b] z) → last r (7 * n) b = .error .intTooLarge

/-- The loop finds an encoding of the width that is left, or fails. -/
structure LebFinds (value : BitVec 64 → Int) (Enc : List UInt8 → Int → Prop) (base scale : Int)
    (w : List UInt8) (res : Except LebErr (List UInt8 × BitVec 64)) : Prop where
  accepts : ∀ bytes rest z, w = bytes ++ rest → Enc bytes z →
    ∃ out, res = .ok (rest, out) ∧ value out = base + scale * z
  rejects : (∀ bytes rest z, w = bytes ++ rest → ¬Enc bytes z) → ∃ e, e ≠ .none ∧ res = .error e

variable {last : BitVec 64 → Nat → UInt8 → Except LebErr (BitVec 64)} {value : BitVec 64 → Int}
  {Enc : Nat → List UInt8 → Int → Prop}

theorem LebFinds.fails {Enc : List UInt8 → Int → Prop} {base scale : Int} {e : LebErr}
    (hno : ∀ bytes rest z, w = bytes ++ rest → ¬Enc bytes z) (he : e ≠ .none) :
    LebFinds value Enc base scale w (.error e) where
  accepts := fun bytes rest z hw henc => absurd henc (hno bytes rest z hw)
  rejects := fun _ => ⟨e, he, rfl⟩

/-- Nothing is read after the last byte the width allows. -/
theorem lebLoop_over (last : BitVec 64 → Nat → UInt8 → Except LebErr (BitVec 64)) (s : Nat)
    {maxBytes : Nat} (h : maxBytes ≤ n) (r : BitVec 64) (w : List UInt8) :
    ∃ e, e ≠ .none ∧ lebLoop last maxBytes r s n w = .error e := by
  cases w with
  | nil => exact ⟨.eof, by decide, rfl⟩
  | cons b q => exact ⟨.lebTooLong, by decide, if_pos (by omega)⟩

/-- The loop after `n` bytes, by induction on the bytes left. -/
theorem LebForm.loop (hF : LebForm N last value Enc) (w : List UInt8) (n : Nat) (r : BitVec 64)
    (hn : 7 * n < N) (hr : r.toNat < 2 ^ (7 * n)) :
    LebFinds value (Enc (N - 7 * n)) r.toNat (2 ^ (7 * n)) w
      (lebLoop last ((N + 6) / 7) r (7 * n) n w) := by
  induction w generalizing n r with
  | nil =>
    refine .fails (fun bytes rest z hw henc => ?_) (by decide)
    rw [(List.append_eq_nil_iff.mp hw.symm).1] at henc
    exact hF.nonempty _ z henc
  | cons b q ih =>
    have hwidth := hF.width
    rw [lebLoop, if_neg (by omega)]
    rcases Nat.lt_or_ge b.toNat 128 with hb | hb
    · -- the last byte
      rw [if_neg (by rw [lebNonterm_iff]; omega)]
      have hsplit : ∀ bytes rest z, b :: q = bytes ++ rest → Enc (N - 7 * n) bytes z →
          bytes = [b] ∧ rest = q := by
        intro bytes rest z hw henc
        cases bytes with
        | nil => exact absurd henc (hF.nonempty _ z)
        | cons c bytes =>
          cases hw
          rw [hF.single _ _ _ z henc hb]
          exact ⟨rfl, rfl⟩
      constructor
      · intro bytes rest z hw henc
        obtain ⟨rfl, rfl⟩ := hsplit bytes rest z hw henc
        obtain ⟨out, hout, hval⟩ := hF.accept n r b z hn hr hb henc
        rw [hout]
        exact ⟨out, rfl, hval⟩
      · intro hno
        rw [hF.reject n r b hn hr hb fun z henc => hno [b] q z rfl henc]
        exact ⟨.intTooLarge, by decide, rfl⟩
    · -- another byte has to follow
      rw [if_pos ((lebNonterm_iff b).mpr hb)]
      have hno : N - 7 * n ≤ 7 → ∀ bytes rest z, b :: q = bytes ++ rest →
          ¬Enc (N - 7 * n) bytes z := by
        intro hle bytes rest z hw henc
        cases bytes with
        | nil => exact hF.nonempty _ z henc
        | cons c bytes =>
          cases hw
          exact absurd ((hF.more _ _ _ z hb).mp henc).1 (by omega)
      by_cases hs : 7 * n > 56
      · rw [if_pos hs]
        exact .fails (hno (by omega)) (by decide)
      rw [if_neg hs]
      obtain ⟨hstep, hlt⟩ := lebStep_toNat (b := b) (by omega) hr
      rcases Nat.lt_or_ge (7 * (n + 1)) N with hn' | hn'
      · have hfinds := ih (n + 1) _ hn' hlt
        have hw : N - 7 * (n + 1) = N - 7 * n - 7 := by omega
        rw [hw] at hfinds
        constructor
        · intro bytes rest z hsplit henc
          cases bytes with
          | nil => exact absurd henc (hF.nonempty _ z)
          | cons c bytes =>
            cases hsplit
            obtain ⟨-, z', henc', rfl⟩ := (hF.more _ _ _ z hb).mp henc
            obtain ⟨out, hout, hval⟩ := hfinds.accepts bytes rest z' rfl henc'
            refine ⟨out, hout, ?_⟩
            have hmod : b.toNat % 128 = b.toNat - 128 := by
              have := b.toNat_lt
              omega
            rw [hval, hstep, hmod, Nat.mul_add, Int.pow_add]
            push_cast [cast_sub hb]
            ring
        · intro hnone
          refine hfinds.rejects fun bytes rest z hsplit henc => ?_
          refine hnone (b :: bytes) rest (128 * z + (b.toNat - 128)) (by rw [hsplit, List.cons_append]) ?_
          exact (hF.more _ _ _ _ hb).mpr ⟨by omega, z, henc, rfl⟩
      · have hover : (N + 6) / 7 ≤ n + 1 := by omega
        obtain ⟨e, he, hloop⟩ := lebLoop_over last (7 * n + 7) hover
          (r ||| (lebPayload b <<< (7 * n))) q
        rw [hloop]
        exact .fails (hno (by omega)) he

/-! ## The last byte -/

theorem unsigned_last_lt {r : Nat} (hs : s < N) (hr : r < 2 ^ s) :
    r + b.toNat * 2 ^ s < 2 ^ N ↔ b.toNat < 2 ^ (N - s) := by
  have hpow : (2 : Nat) ^ N = 2 ^ (N - s) * 2 ^ s := by
    rw [← Nat.pow_add, Nat.sub_add_cancel hs.le]
  rw [hpow]
  constructor
  · intro h
    exact Nat.lt_of_mul_lt_mul_right (lt_of_le_of_lt (Nat.le_add_left _ r) h)
  · intro h
    calc r + b.toNat * 2 ^ s < 2 ^ s + b.toNat * 2 ^ s := Nat.add_lt_add_right hr _
      _ = (b.toNat + 1) * 2 ^ s := by ring
      _ ≤ 2 ^ (N - s) * 2 ^ s := Nat.mul_le_mul_right _ h

/-- The last byte of an unsigned number is added, unless the number gets too large. -/
theorem lebULast_eq (hN : N ≤ 64) (n : Nat) {r : BitVec 64} (hn : 7 * n < N)
    (hr : r.toNat < 2 ^ (7 * n)) (hb : b.toNat < 128) :
    (b.toNat < 2 ^ (N - 7 * n) → ∃ out, lebULast N r (7 * n) b = .ok out ∧
      out.toNat = r.toNat + b.toNat * 2 ^ (7 * n)) ∧
    (¬b.toNat < 2 ^ (N - 7 * n) → lebULast N r (7 * n) b = .error .intTooLarge) := by
  unfold lebULast
  by_cases hs : 7 * n = 63
  · obtain rfl : N = 64 := by omega
    have hn9 : n = 9 := by omega
    subst hn9
    have hlt : ¬(64 : Nat) < 64 := by omega
    by_cases hbits : 2 ≤ b.toNat
    · rw [if_pos ⟨hs, (lebTop_bits b hb).mpr hbits⟩]
      exact ⟨fun h => absurd h (by simp; omega), fun _ => rfl⟩
    · rw [if_neg fun h => hbits ((lebTop_bits b hb).mp h.2), if_pos hs, if_neg fun h => hlt h.1]
      refine ⟨fun _ => ⟨_, rfl, ?_⟩, fun h => absurd h (by simp; omega)⟩
      have hmod : b.toNat % 2 = b.toNat := by omega
      rw [toNat_or_shift hr, lebTop_toNat, hmod]
      rw [lebTop_toNat]
      omega
  · have hmod : b.toNat % 128 = b.toNat := mod_eq_of_lt hb
    obtain ⟨hstep, hlt⟩ := lebStep_toNat (b := b) (s := 7 * n) (by omega) hr
    rw [hmod] at hstep
    rw [if_neg fun h => hs h.1, if_neg hs]
    dsimp only
    rcases Nat.lt_or_ge N 64 with hlt64 | hge
    · have hone : ((1 : BitVec 64) <<< N).toNat = 2 ^ N := by
        rw [toNat_shiftLeft, Nat.shiftLeft_eq]
        have : (2 : Nat) ^ N < 2 ^ 64 := Nat.pow_lt_pow_right (by omega) hlt64
        show 1 * 2 ^ N % 2 ^ 64 = 2 ^ N
        rw [Nat.one_mul, mod_eq_of_lt this]
      have hcond : (N < 64 ∧ r ||| (lebPayload b <<< (7 * n)) ≥ (1 : BitVec 64) <<< N) ↔
          ¬b.toNat < 2 ^ (N - 7 * n) := by
        rw [and_iff_right hlt64, ge_iff_le, le_def, hone, hstep, ← not_lt,
          unsigned_last_lt hn hr]
      constructor
      · intro h
        rw [if_neg fun h' => hcond.mp h' h]
        exact ⟨_, rfl, hstep⟩
      · intro h
        rw [if_pos (hcond.mpr h)]
    · rw [if_neg fun h => absurd h.1 (by omega)]
      refine ⟨fun _ => ⟨_, rfl, hstep⟩, fun h => absurd ?_ h⟩
      exact hb.trans_le (Nat.pow_le_pow_right (show 0 < 2 by omega) (show 7 ≤ N - 7 * n by omega))

theorem unsigned_form (hN : N ≤ 64) :
    LebForm N (lebULast N) (fun x => x.toNat) (fun k bs z => ∃ v : Nat, UnsignedEnc k bs v ∧ z = v) where
  width := hN
  nonempty := by
    rintro k z ⟨v, h, -⟩
    cases h
  single := by
    rintro k b bs z ⟨v, h, -⟩ hb
    cases h with
    | last _ _ => rfl
    | more hge _ _ => exact absurd hb (not_lt.mpr hge)
  more := by
    intro k b bs z hb
    constructor
    · rintro ⟨v, h, rfl⟩
      cases h with
      | last hlt _ => exact absurd hb (not_le.mpr hlt)
      | more _ h7 h => exact ⟨h7, _, ⟨_, h, rfl⟩, by push_cast [cast_sub hb]; ring⟩
    · rintro ⟨h7, z', ⟨v, h, rfl⟩, rfl⟩
      exact ⟨_, .more hb h7 h, by push_cast [cast_sub hb]; ring⟩
  accept := by
    rintro n r b z hn hr hb ⟨v, h, rfl⟩
    cases h with
    | last _ hlt =>
      obtain ⟨out, hout, hval⟩ := (lebULast_eq hN n hn hr hb).1 hlt
      refine ⟨out, hout, ?_⟩
      rw [hval]
      push_cast
      ring
    | more hge _ _ => exact absurd hb (not_lt.mpr hge)
  reject := by
    intro n r b hn hr hb hno
    exact (lebULast_eq hN n hn hr hb).2 fun hlt => hno b.toNat ⟨_, .last hb hlt, rfl⟩

/-! ### Signed numbers -/

/-- What the last byte of a signed number stands for. -/
def lebSigned (b : UInt8) : Int := if b.toNat < 64 then b.toNat else b.toNat - 128

theorem signedEnc_single (hb : b.toNat < 128) :
    SignedEnc N [b] z ↔ z = lebSigned b ∧ -2 ^ (N - 1) ≤ lebSigned b ∧ lebSigned b < 2 ^ (N - 1) := by
  have hcast : ((2 ^ (N - 1) : Nat) : Int) = 2 ^ (N - 1) := by push_cast; rfl
  have hpos : 0 < 2 ^ (N - 1) := Nat.two_pow_pos _
  unfold lebSigned
  rw [← hcast]
  constructor
  · intro h
    cases h with
    | nonneg h64 hlt =>
      rw [if_pos h64]
      exact ⟨rfl, by omega, by omega⟩
    | neg h64 _ hge =>
      rw [if_neg (not_lt.mpr h64)]
      exact ⟨rfl, by omega, by omega⟩
    | more hge _ _ => exact absurd hb (not_lt.mpr hge)
  · rintro ⟨rfl, hlo, hhi⟩
    by_cases h64 : b.toNat < 64
    · rw [if_pos h64] at hhi ⊢
      exact .nonneg h64 (by omega)
    · rw [if_neg h64] at hlo ⊢
      exact .neg (not_lt.mp h64) hb (by omega)

theorem signZone_iff (hN : 0 < N) (h64 : N < 64) (x : BitVec 64) :
    ¬(x >>> (N - 1) ≠ 0 ∧ x >>> (N - 1) ≠ BitVec.allOnes 64 >>> (N - 1)) ↔
      -2 ^ (N - 1) ≤ x.toInt ∧ x.toInt < 2 ^ (N - 1) := by
  have hcast : ((2 ^ (N - 1) : Nat) : Int) = 2 ^ (N - 1) := by push_cast; rfl
  have hsplit : 2 ^ (65 - N) * 2 ^ (N - 1) = 2 ^ 64 := by
    rw [← Nat.pow_add]
    congr 1
    omega
  have hsmall : 2 ^ (N - 1) ≤ 2 ^ 62 := Nat.pow_le_pow_right (by omega) (by omega)
  have hpos : 0 < 2 ^ (N - 1) := Nat.two_pow_pos _
  have hx := x.isLt
  have hzero : x >>> (N - 1) = 0 ↔ x.toNat < 2 ^ (N - 1) := by
    rw [← toNat_inj, toNat_ushiftRight, shiftRight_eq_div_pow]
    exact div_eq_zero_iff_lt hpos
  have hones : x >>> (N - 1) = BitVec.allOnes 64 >>> (N - 1) ↔ 2 ^ 64 ≤ x.toNat + 2 ^ (N - 1) := by
    rw [← toNat_inj, toNat_ushiftRight, toNat_ushiftRight,
      shiftRight_eq_div_pow, shiftRight_eq_div_pow, toNat_allOnes]
    generalize 2 ^ (65 - N) = c at hsplit
    generalize 2 ^ (N - 1) = p at hsplit hsmall hpos
    have htop : (2 ^ 64 - 1) / p = c - 1 := by
      rw [Nat.div_eq_iff hpos, Nat.sub_mul, Nat.one_mul, hsplit]
      omega
    rw [htop, Nat.div_eq_iff hpos, Nat.sub_mul, Nat.one_mul, hsplit]
    omega
  rw [← hcast, not_and_or, not_ne_iff, not_ne_iff, hzero, hones, toInt_eq_toNat_cond]
  split <;> omega

/-- A number is in the range of its width when its last byte is in the range of what is left. -/
theorem signed_last_range {r : Nat} (hs : s < N) (hr : r < 2 ^ s) (z : Int) :
    (-2 ^ (N - 1) ≤ (r : Int) + 2 ^ s * z ∧ (r : Int) + 2 ^ s * z < 2 ^ (N - 1)) ↔
      -2 ^ (N - s - 1) ≤ z ∧ z < 2 ^ (N - s - 1) := by
  have hpow : (2 : Int) ^ (N - 1) = 2 ^ s * 2 ^ (N - s - 1) := by
    rw [← Int.pow_add]
    congr 1
    omega
  have hpos : (0 : Int) < 2 ^ s := by positivity
  have hr' : (r : Int) < 2 ^ s := by exact_mod_cast hr
  rw [hpow]
  constructor
  · rintro ⟨hlo, hhi⟩
    constructor
    · by_contra hlt
      nlinarith
    · by_contra hge
      nlinarith
  · rintro ⟨hlo, hhi⟩
    constructor <;> nlinarith

/-- The bits that the last byte of a signed number leaves. -/
theorem lebSBits (n : Nat) {r : BitVec 64} (hs : 7 * n ≤ 56) (hr : r.toNat < 2 ^ (7 * n))
    (hb : b.toNat < 128) :
    (if (b >>> 6) &&& 0x01 ≠ 0 then
      (r ||| (lebPayload b <<< (7 * n))) ||| (BitVec.allOnes 64 <<< (7 * n + 7))
      else r ||| (lebPayload b <<< (7 * n))).toInt = r.toNat + 2 ^ (7 * n) * lebSigned b := by
  obtain ⟨hstep, hlt⟩ := lebStep_toNat (b := b) hs hr
  rw [mod_eq_of_lt hb] at hstep
  have hpow : 2 ^ (7 * n + 7) ≤ 2 ^ 63 := Nat.pow_le_pow_right (by omega) (by omega)
  have hcast : ((2 ^ (7 * n) : Nat) : Int) = 2 ^ (7 * n) := by push_cast; rfl
  unfold lebSigned
  rw [← hcast]
  by_cases h64 : b.toNat < 64
  · have hsign : ¬(b >>> 6) &&& 0x01 ≠ 0 := fun h => absurd ((lebSign_iff b hb).mp h) (by omega)
    rw [if_neg hsign, if_pos h64, toInt_eq_toNat_cond, if_pos (by omega), hstep]
    push_cast
    ring
  · have hsign : (b >>> 6) &&& 0x01 ≠ 0 := (lebSign_iff b hb).mpr (by omega)
    have hones : (BitVec.allOnes 64 <<< (7 * n + 7)).toNat =
        (2 ^ (57 - 7 * n) - 1) * 2 ^ (7 * n + 7) := by
      have hsplit : 2 ^ (57 - 7 * n) * 2 ^ (7 * n + 7) = 2 ^ 64 := by
        rw [← Nat.pow_add]
        congr 1
        omega
      rw [toNat_shiftLeft, toNat_allOnes, Nat.shiftLeft_eq]
      generalize 2 ^ (57 - 7 * n) = c at hsplit
      generalize 2 ^ (7 * n + 7) = p at hsplit hpow
      have hp : 0 < p := by
        rcases Nat.eq_zero_or_pos p with rfl | h
        · simp at hsplit
        · exact h
      have hc : (c - 1) * p = 2 ^ 64 - p := by rw [Nat.sub_mul, Nat.one_mul, hsplit]
      have hwrap : (2 ^ 64 - 1) * p = (2 ^ 64 - p) + 2 ^ 64 * (p - 1) := by omega
      rw [hc, hwrap, add_mul_mod_self_left]
      exact mod_eq_of_lt (by omega)
    have hor : ((r ||| (lebPayload b <<< (7 * n))) ||| (BitVec.allOnes 64 <<< (7 * n + 7))).toNat =
        r.toNat + b.toNat * 2 ^ (7 * n) + (2 ^ (57 - 7 * n) - 1) * 2 ^ (7 * n + 7) := by
      rw [toNat_or (y := BitVec.allOnes 64 <<< (7 * n + 7)), hones, Nat.or_comm, Nat.mul_comm,
        ← two_pow_add_eq_or_of_lt hlt, hstep, Nat.add_comm]
    have hsplit : (2 ^ (57 - 7 * n) - 1) * 2 ^ (7 * n + 7) = 2 ^ 64 - 2 ^ (7 * n + 7) := by
      rw [Nat.sub_mul, Nat.one_mul, ← Nat.pow_add]
      congr 2
      omega
    have hseven : 2 ^ (7 * n + 7) = 2 ^ (7 * n) * 128 := Nat.pow_add 2 (7 * n) 7
    rw [if_pos hsign, if_neg h64, toInt_eq_toNat_cond, if_neg (by omega), hor, hsplit, hseven]
    have hmul : ((2 ^ (7 * n) : Nat) : Int) * ((b.toNat : Int) - 128) =
        (b.toNat * 2 ^ (7 * n) : Nat) - (2 ^ (7 * n) : Nat) * 128 := by
      push_cast
      ring
    rw [hmul]
    omega

/-- The last byte of a signed number must fit in the bits that are left. -/
theorem lebSLast_eq (hN : N ≤ 64) (n : Nat) {r : BitVec 64} (hn : 7 * n < N)
    (hr : r.toNat < 2 ^ (7 * n)) (hb : b.toNat < 128) :
    (-2 ^ (N - 7 * n - 1) ≤ lebSigned b ∧ lebSigned b < 2 ^ (N - 7 * n - 1) →
      ∃ out, lebSLast N r (7 * n) b = .ok out ∧ out.toInt = r.toNat + 2 ^ (7 * n) * lebSigned b) ∧
    (¬(-2 ^ (N - 7 * n - 1) ≤ lebSigned b ∧ lebSigned b < 2 ^ (N - 7 * n - 1)) →
      lebSLast N r (7 * n) b = .error .intTooLarge) := by
  unfold lebSLast
  by_cases hs : 7 * n = 63
  · obtain rfl : N = 64 := by omega
    have hn9 : n = 9 := by omega
    subst hn9
    have hzero : b = 0x00 ↔ b.toNat = 0 := UInt8.toNat_inj.symm
    have hones : b = 0x7F ↔ b.toNat = 127 := UInt8.toNat_inj.symm
    have hrange : (-2 ^ (64 - 7 * 9 - 1) ≤ lebSigned b ∧ lebSigned b < 2 ^ (64 - 7 * 9 - 1)) ↔
        b.toNat = 0 ∨ b.toNat = 127 := by
      show (-1 ≤ lebSigned b ∧ lebSigned b < 1) ↔ _
      unfold lebSigned
      split <;> omega
    rw [hrange]
    by_cases hin : b.toNat = 0 ∨ b.toNat = 127
    · refine ⟨fun _ => ?_, fun h => absurd hin h⟩
      have hno : ¬(7 * 9 = 63 ∧ b ≠ 0x00 ∧ b ≠ 0x7F) := by
        rw [Ne, Ne, hzero, hones]
        omega
      have hlt : ¬((64 : Nat) < 64) := by omega
      rw [if_neg hno, if_pos hs, if_neg fun h => hlt h.1]
      refine ⟨_, rfl, ?_⟩
      have htop : (r ||| ((b &&& 0x01).toBitVec.setWidth 64 <<< 63)).toNat =
          r.toNat + b.toNat % 2 * 2 ^ 63 := by
        rw [toNat_or_shift hr, lebTop_toNat]
        rw [lebTop_toNat]
        omega
      rw [toInt_eq_toNat_cond, htop]
      unfold lebSigned
      rcases hin with h | h
      · rw [h]
        omega
      · rw [h]
        omega
    · refine ⟨fun h => absurd h hin, fun _ => if_pos ⟨hs, ?_⟩⟩
      rw [Ne, Ne, hzero, hones]
      omega
  · have hbits := lebSBits n (by omega) hr hb
    have hno : ¬(7 * n = 63 ∧ b ≠ 0x00 ∧ b ≠ 0x7F) := fun h => hs h.1
    rw [if_neg hno, if_neg hs]
    dsimp only
    generalize (if (b >>> 6) &&& 0x01 ≠ 0 then
      (r ||| (lebPayload b <<< (7 * n))) ||| (BitVec.allOnes 64 <<< (7 * n + 7))
      else r ||| (lebPayload b <<< (7 * n))) = out at hbits
    rcases Nat.lt_or_ge N 64 with hlt64 | hge
    · have hzone := signZone_iff (by omega) hlt64 out
      rw [hbits, signed_last_range hn hr] at hzone
      constructor
      · intro h
        rw [if_neg fun h' => hzone.mpr h h'.2]
        exact ⟨out, rfl, hbits⟩
      · intro h
        exact if_pos ⟨hlt64, not_not.mp (mt hzone.mp h)⟩
    · have hlt64 : ¬N < 64 := by omega
      rw [if_neg fun h => hlt64 h.1]
      refine ⟨fun _ => ⟨out, rfl, hbits⟩, fun h => absurd ?_ h⟩
      have hwide : (64 : Int) ≤ 2 ^ (N - 7 * n - 1) := by
        have : (2 : Int) ^ 6 ≤ 2 ^ (N - 7 * n - 1) := pow_le_pow_right₀ (by omega) (by omega)
        exact this
      unfold lebSigned
      split <;> constructor <;> omega

theorem signed_form (hN : N ≤ 64) : LebForm N (lebSLast N) BitVec.toInt SignedEnc where
  width := hN
  nonempty := fun k z h => by cases h
  single := by
    intro k b bs z h hb
    cases h with
    | nonneg _ _ | neg _ _ _ => rfl
    | more hge _ _ => exact absurd hb (not_lt.mpr hge)
  more := by
    intro k b bs z hb
    constructor
    · intro h
      cases h with
      | nonneg hlt _ | neg _ hlt _ => exact absurd hlt (by omega)
      | more _ h7 h => exact ⟨h7, _, h, rfl⟩
    · rintro ⟨h7, z', h, rfl⟩
      exact .more hb h7 h
  accept := by
    intro n r b z hn hr hb h
    obtain ⟨rfl, hrange⟩ := (signedEnc_single hb).mp h
    exact (lebSLast_eq hN n hn hr hb).1 hrange
  reject := by
    intro n r b hn hr hb hno
    exact (lebSLast_eq hN n hn hr hb).2 fun hrange => hno _ ((signedEnc_single hb).mpr ⟨rfl, hrange⟩)

/-! ## Exactness -/

/-- Reading succeeds exactly where the window starts with an encoding.  It returns the value and
what comes after the encoding, and changes nothing when it fails. -/
structure ReadsExactly (read : List UInt8 → BitVec 64 → LebRead) (value : BitVec 64 → Int)
    (maxBytes : Nat) (Enc : List UInt8 → Int → Prop) : Prop where
  accepts : ∀ bytes rest z out, Enc bytes z → bytes.length ≤ maxBytes ∧
    ∃ x, read (bytes ++ rest) out = ⟨.none, rest, x⟩ ∧ value x = z
  rejects : ∀ window out, (∀ bytes rest z, window = bytes ++ rest → ¬Enc bytes z) →
    ∃ e, e ≠ .none ∧ read window out = ⟨e, window, out⟩

theorem LebForm.readsExactly (hF : LebForm N last value Enc) (hN : 0 < N)
    (hlen : ∀ bs z, Enc N bs z → bs.length ≤ (N + 6) / 7) :
    ReadsExactly (lebRead last N) value ((N + 6) / 7) (Enc N) where
  accepts := by
    intro bytes rest z out henc
    refine ⟨hlen bytes z henc, ?_⟩
    obtain ⟨x, hx, hval⟩ := (hF.loop (bytes ++ rest) 0 0 hN Nat.one_pos).accepts bytes rest z rfl henc
    refine ⟨x, ?_, ?_⟩
    · show (match lebLoop last ((N + 6) / 7) 0 (7 * 0) 0 (bytes ++ rest) with
        | .error e => (⟨e, bytes ++ rest, out⟩ : LebRead)
        | .ok (q, result) => ⟨.none, q, result⟩) = _
      rw [hx]
    · rw [hval]
      simp
  rejects := by
    intro window out hno
    obtain ⟨e, he, hloop⟩ := (hF.loop window 0 0 hN Nat.one_pos).rejects hno
    refine ⟨e, he, ?_⟩
    show (match lebLoop last ((N + 6) / 7) 0 (7 * 0) 0 window with
      | .error e => (⟨e, window, out⟩ : LebRead)
      | .ok (q, result) => ⟨.none, q, result⟩) = _
    rw [hloop]

/-- Both readers are exact at every width. -/
theorem leb_exact (N : Nat) (h1 : 1 ≤ N) (h64 : N ≤ 64) :
    ReadsExactly (lebUErr N) (fun x => x.toNat) ((N + 6) / 7)
      (fun bytes z => ∃ v : Nat, UnsignedEnc N bytes v ∧ z = v) ∧
    ReadsExactly (lebSErr N) BitVec.toInt ((N + 6) / 7) (SignedEnc N) := by
  constructor
  · exact (unsigned_form h64).readsExactly h1 fun bs z ⟨v, h, _⟩ => h.length_le h1
  · exact (signed_form h64).readsExactly h1 fun bs z h => h.length_le h1

theorem leb_exact_words :
    (ReadsExactly (lebUErr 32) (fun x => x.toNat) 5
        (fun bytes z => ∃ v : Nat, UnsignedEnc 32 bytes v ∧ z = v) ∧
      ReadsExactly (lebSErr 32) BitVec.toInt 5 (SignedEnc 32)) ∧
    ReadsExactly (lebUErr 64) (fun x => x.toNat) 10
        (fun bytes z => ∃ v : Nat, UnsignedEnc 64 bytes v ∧ z = v) ∧
      ReadsExactly (lebSErr 64) BitVec.toInt 10 (SignedEnc 64) :=
  ⟨leb_exact 32 (by omega) (by omega), leb_exact 64 (by omega) (by omega)⟩

example : lebSErr 33 [0xC0, 0x7F, 0x01] 5 = ⟨.none, [0x01], BitVec.ofInt 64 (-64)⟩ := rfl

end

end Wasm89
