import EightyNine.Library.Loop
import EightyNine.U89.Utf8
import Mathlib.Data.List.Induction

/-!
# Traversing UTF-8

The scalar the decoder writes, validation, and the traversals forward and
backward over the positions of a string.  Sizes are natural numbers, and the
offset that `u89_utf8_valid` and `u89_utf8_prev` mark as bad is `none` here.
Everything rests on one fact: to decode at a position is to find the encoding of
a character there (`utf8Decode_iff`).
-/

namespace U89

open List

open Library (Drains)

/-! ## The code -/

/-- `u89_status`, less `U89_OK`. -/
inductive Status where
  | einval
  | eutf8
  | enospc
  | ework
  | eoverflow
  | erange
  deriving DecidableEq

/-- The value of a status. -/
def Status.code : Status → Int
  | einval => -1
  | eutf8 => -2
  | enospc => -3
  | ework => -4
  | eoverflow => -5
  | erange => -6

/-- The scalar that `decode_two` writes. -/
def scalarTwo (b c1 : UInt8) : Nat :=
  (b.toNat &&& 0x1F) <<< 6 ||| (c1.toNat &&& 0x3F)

/-- The scalar that `decode_three` writes. -/
def scalarThree (b c1 c2 : UInt8) : Nat :=
  (b.toNat &&& 0x0F) <<< 12 ||| (c1.toNat &&& 0x3F) <<< 6 ||| (c2.toNat &&& 0x3F)

/-- The scalar that `decode_four` writes. -/
def scalarFour (b c1 c2 c3 : UInt8) : Nat :=
  (b.toNat &&& 0x07) <<< 18 ||| (c1.toNat &&& 0x3F) <<< 12 ||| (c2.toNat &&& 0x3F) <<< 6 |||
    (c3.toNat &&& 0x3F)

/-- What `decode_one` writes when it takes `d` bytes. -/
def scalarAt : Nat → List UInt8 → Nat
  | 1, b :: _ => b.toNat
  | 2, b :: c1 :: _ => scalarTwo b c1
  | 3, b :: c1 :: c2 :: _ => scalarThree b c1 c2
  | 4, b :: c1 :: c2 :: c3 :: _ => scalarFour b c1 c2 c3
  | _, _ => 0

/-- `u89_utf8_decode`: the scalar and the offset after it. -/
def utf8Decode (s : List UInt8) (pos : Nat) : Except Status (Nat × Nat) :=
  if pos ≥ s.length then .error .erange
  else
    let d := decodeOne (s.drop pos)
    if d = 0 then .error .eutf8
    else .ok (scalarAt d (s.drop pos), pos + d)

/-- `prev_floor`. -/
def prevFloor (pos : Nat) : Nat := if pos > 4 then pos - 4 else 0

/-- The loop of `prev_lead` over `prev_step`. -/
def prevScan (s : List UInt8) (floor : Nat) : Nat → Nat
  | 0 => 0
  | i + 1 =>
    if i + 1 ≤ floor then i + 1
    else if !continues (s.getD (i + 1) 0) then i + 1
    else prevScan s floor i

/-- `prev_lead`: the scalar and the offset of its lead. -/
def prevLead (s : List UInt8) (pos : Nat) : Option (Nat × Nat) :=
  let i := prevScan s (prevFloor pos) (pos - 1)
  let window := (s.drop i).take (pos - i)
  let d := decodeOne window
  if d = 0 then none
  else if i + d ≠ pos then none
  else some (scalarAt d window, i)

/-- `u89_utf8_prev`: the scalar and its starting offset. -/
def utf8Prev (s : List UInt8) (pos : Nat) : Except Status (Nat × Nat) :=
  if pos = 0 then .error .erange
  else if pos > s.length then .error .erange
  else
    match prevLead s pos with
    | none => .error .eutf8
    | some r => .ok r

/-- `decode_adv`. -/
def decodeAdv (s : List UInt8) (i : Nat) : Option Nat :=
  let d := decodeOne (s.drop i)
  if d = 0 then none else some (i + d)

theorem decodeAdv_lt {s : List UInt8} {i j : Nat} (h : decodeAdv s i = some j) : i < j := by
  unfold decodeAdv at h
  dsimp only at h
  split at h
  · cases h
  · cases h
    omega

/-- The loop of `u89_utf8_valid`. -/
def utf8ValidFrom (s : List UInt8) (i : Nat) : Bool :=
  if i < s.length then
    match _ : decodeAdv s i with
    | none => false
    | some j => utf8ValidFrom s j
  else true
termination_by s.length - i
decreasing_by
  rename_i h
  have := decodeAdv_lt h
  omega

/-- `u89_utf8_valid`. -/
def utf8Valid (s : List UInt8) : Bool := utf8ValidFrom s 0

/-- `u89_iter`, with offsets into the string for the pointers. -/
structure Iter where
  cur : Nat
  stop : Nat
  cp : Nat
  err : Nat
  leading : Nat

/-- `u89_iter_init`. -/
def iterInit (s : List UInt8) : Iter where
  cur := 0
  stop := s.length
  cp := 0
  err := 0
  leading := 0

/-- `u89_iter_next`: what it returns, and the iterator after it. -/
def iterNext (s : List UInt8) (it : Iter) : Nat × Iter :=
  if it.err ≠ 0 then (1, it)
  else if it.cur ≥ it.stop then (1, { it with err := 2 })
  else
    let window := (s.drop it.cur).take (it.stop - it.cur)
    let d := decodeOne window
    if d = 0 then (1, { it with err := 1 })
    else (0, { it with cp := scalarAt d window, leading := d, cur := it.cur + d })

/-! ## Traversals -/

/-- A scalar with the offset it starts at and the offset after it. -/
structure Span where
  start : Nat
  cp : Nat
  stop : Nat

/-- One `u89_utf8_decode` of a loop that goes on where the last one ended. -/
def decodeStep (s : List UInt8) (pos : Nat) : Except Status (Span × Nat) :=
  (utf8Decode s pos).map fun r => (⟨pos, r.1, r.2⟩, r.2)

/-- One `u89_utf8_prev` of a loop that goes on where the last one started. -/
def prevStep (s : List UInt8) (pos : Nat) : Except Status (Span × Nat) :=
  (utf8Prev s pos).map fun r => (⟨r.2, r.1, pos⟩, r.2)

/-- One `u89_iter_next` of a loop that ends when it returns nonzero, with `err`. -/
def iterStep (s : List UInt8) (it : Iter) : Except Nat (Span × Iter) :=
  let r := iterNext s it
  if r.1 ≠ 0 then .error r.2.err
  else .ok (⟨r.2.cur - r.2.leading, r.2.cp, r.2.cur⟩, r.2)

/-! ## What a string codes -/

/-- `s` is the concatenation of the encodings of the scalars. -/
def Codes (cps : List Nat) (s : List UInt8) : Prop :=
  (∀ cp ∈ cps, isScalar cp = true) ∧ cps.flatMap utf8Encode = s

/-- The spans of the scalars, from an offset on. -/
def spansFrom (pos : Nat) : List Nat → List Span
  | [] => []
  | cp :: cps =>
    ⟨pos, cp, pos + (utf8Encode cp).length⟩ :: spansFrom (pos + (utf8Encode cp).length) cps

/-! ## Decoding a character -/

variable {s r : List UInt8} {c : Char} {cp pos next q i k floor : Nat}

theorem and_mask (n j : Nat) {m : Nat} (hm : m = 2 ^ j - 1) : n &&& m = n % 2 ^ j := by
  rw [hm, Nat.and_two_pow_sub_one_eq_mod]

theorem shift_or (a j : Nat) {x : Nat} (h : x < 2 ^ j) : a <<< j ||| x = 2 ^ j * a + x := by
  rw [Nat.shiftLeft_eq, Nat.mul_comm, or_eq_add h]

theorem scalarTwo_eq (b c1 : UInt8) :
    scalarTwo b c1 = b.toNat % 32 * 64 + c1.toNat % 64 := by
  rw [scalarTwo, and_mask (m := 0x1F) _ 5 rfl, and_mask (m := 0x3F) _ 6 rfl, shift_or _ 6 (by omega)]
  omega

theorem scalarThree_eq (b c1 c2 : UInt8) :
    scalarThree b c1 c2 = b.toNat % 16 * 4096 + c1.toNat % 64 * 64 + c2.toNat % 64 := by
  rw [scalarThree, and_mask (m := 0x0F) _ 4 rfl, and_mask (m := 0x3F) _ 6 rfl,
    and_mask (m := 0x3F) _ 6 rfl, Nat.or_assoc, shift_or (c1.toNat % 2 ^ 6) 6 (by omega), shift_or _ 12 (by omega)]
  omega

theorem scalarFour_eq (b c1 c2 c3 : UInt8) :
    scalarFour b c1 c2 c3 =
      b.toNat % 8 * 262144 + c1.toNat % 64 * 4096 + c2.toNat % 64 * 64 + c3.toNat % 64 := by
  rw [scalarFour, and_mask (m := 0x07) _ 3 rfl, and_mask (m := 0x3F) _ 6 rfl,
    and_mask (m := 0x3F) _ 6 rfl, and_mask (m := 0x3F) _ 6 rfl, Nat.or_assoc, Nat.or_assoc, shift_or (c2.toNat % 2 ^ 6) 6 (by omega),
    shift_or (c1.toNat % 2 ^ 6) 12 (by omega), shift_or _ 18 (by omega)]
  omega

theorem scalarAt_char (c : Char) (r : List UInt8) :
    scalarAt (String.utf8EncodeChar c).length (String.utf8EncodeChar c ++ r) = c.toNat := by
  refine utf8EncodeChar_cases c (P := fun bs n => scalarAt bs.length (bs ++ r) = n)
    (fun _ _ => rfl) ?_ ?_ ?_
  · intro n b c1 _ _ hb hc1
    show scalarTwo b c1 = n
    rw [scalarTwo_eq]
    omega
  · intro n b c1 c2 _ _ _ hb hc1 hc2
    show scalarThree b c1 c2 = n
    rw [scalarThree_eq]
    omega
  · intro n b c1 c2 c3 _ _ hb hc1 hc2 hc3
    show scalarFour b c1 c2 c3 = n
    rw [scalarFour_eq]
    omega

theorem decodeOne_starts (h : String.utf8EncodeChar c <+: s) :
    decodeOne s = (String.utf8EncodeChar c).length := by
  obtain ⟨r, rfl⟩ := h
  exact decodeOne_char c r

theorem scalarAt_starts (h : String.utf8EncodeChar c <+: s) :
    scalarAt (String.utf8EncodeChar c).length s = c.toNat := by
  obtain ⟨r, rfl⟩ := h
  exact scalarAt_char c r

theorem exists_start (h : decodeOne s ≠ 0) : ∃ c, String.utf8EncodeChar c <+: s := by
  obtain ⟨c, r, hs, _⟩ := decodeOne_sound h
  exact ⟨c, r, hs.symm⟩

theorem utf8EncodeChar_pos (c : Char) : 0 < (String.utf8EncodeChar c).length := by
  have h := congrArg length (utf8EncodeChar_toNat c)
  rw [length_map] at h
  rw [h]
  split
  · simp
  · split
    · simp
    · split <;> simp

theorem decodeOne_ne_zero (h : String.utf8EncodeChar c <+: s) : decodeOne s ≠ 0 := by
  have := utf8EncodeChar_pos c
  rw [decodeOne_starts h]
  omega

/-- To decode at a position is to find the encoding of a character there. -/
theorem utf8Decode_iff : utf8Decode s pos = .ok (cp, next) ↔
    ∃ c : Char, String.utf8EncodeChar c <+: s.drop pos ∧ cp = c.toNat ∧
      next = pos + (String.utf8EncodeChar c).length := by
  constructor
  · intro h
    unfold utf8Decode at h
    split at h
    · cases h
    · dsimp only at h
      split at h
      · cases h
      · rename_i hd
        obtain ⟨c, hc⟩ := exists_start hd
        rw [decodeOne_starts hc, scalarAt_starts hc] at h
        cases h
        exact ⟨c, hc, rfl, rfl⟩
  · rintro ⟨c, hc, rfl, rfl⟩
    have hpos := utf8EncodeChar_pos c
    have hlen := hc.length_le
    rw [length_drop] at hlen
    rw [utf8Decode, if_neg (by omega)]
    dsimp only
    rw [if_neg (decodeOne_ne_zero hc), decodeOne_starts hc, scalarAt_starts hc]

/-! ## Scanning back -/

/-- The first byte of an encoding leads, and at most three more continue. -/
theorem utf8EncodeChar_shape (c : Char) : ∃ b l, String.utf8EncodeChar c = b :: l ∧
    continues b = false ∧ (∀ x ∈ l, continues x = true) ∧ l.length ≤ 3 := by
  have lead : ∀ b : UInt8, ¬(0x80 ≤ b.toNat ∧ b.toNat < 0xC0) → continues b = false := by
    intro b hb
    rw [← Bool.not_eq_true, continues_iff]
    exact hb
  refine utf8EncodeChar_cases c (P := fun bs _ => ∃ b l, bs = b :: l ∧ continues b = false ∧
    (∀ x ∈ l, continues x = true) ∧ l.length ≤ 3) ?_ ?_ ?_ ?_
  · exact fun b hb => ⟨b, [], rfl, lead b (by omega), by simp, by simp⟩
  · exact fun n b c1 _ _ hb h1 => ⟨b, [c1], rfl, lead b (by omega), by simp [continues_of h1], by simp⟩
  · exact fun n b c1 c2 _ _ _ hb h1 h2 => ⟨b, [c1, c2], rfl, lead b (by omega),
      by simp [continues_of h1, continues_of h2], by simp⟩
  · exact fun n b c1 c2 c3 _ _ hb h1 h2 h3 => ⟨b, [c1, c2, c3], rfl, lead b (by omega),
      by simp [continues_of h1, continues_of h2, continues_of h3], by simp⟩

/-- The scan goes back over continuation bytes to the first byte that is none. -/
theorem prevScan_eq (hfloor : floor ≤ q) (hlead : continues (s.getD q 0) = false)
    (hcont : ∀ j, q < j → j ≤ q + k → continues (s.getD j 0) = true) :
    prevScan s floor (q + k) = q := by
  induction k with
  | zero =>
    cases q with
    | zero => rfl
    | succ q =>
      rw [Nat.add_zero, prevScan]
      split
      · rfl
      · rw [hlead]
        rfl
  | succ k ih =>
    rw [← Nat.add_assoc, prevScan, if_neg (by omega), hcont (q + k + 1) (by omega) (by omega)]
    exact ih fun j hj hk => hcont j hj (by omega)

/-- From the end of an encoding the scan finds its lead. -/
theorem prevScan_start (h : String.utf8EncodeChar c <+: s.drop q) :
    prevScan s (prevFloor (q + (String.utf8EncodeChar c).length))
      (q + (String.utf8EncodeChar c).length - 1) = q := by
  obtain ⟨b, l, hbl, hb, hl, hlen⟩ := utf8EncodeChar_shape c
  rw [hbl] at h ⊢
  have hget : ∀ j, j ≤ l.length → s.getD (q + j) 0 = (b :: l)[j]?.getD 0 := by
    intro j hj
    obtain ⟨r, hr⟩ := h
    rw [getD_eq_getElem?_getD, ← getElem?_drop, ← hr, getElem?_append_left (by simp; omega)]
  rw [length_cons, show q + (l.length + 1) - 1 = q + l.length by omega]
  refine prevScan_eq ?_ ?_ ?_
  · unfold prevFloor
    split <;> omega
  · have h0 := hget 0 (Nat.zero_le _)
    rw [Nat.add_zero] at h0
    rw [h0]
    exact hb
  · intro j hj hk
    obtain ⟨i, rfl⟩ : ∃ i, j = q + (i + 1) := ⟨j - q - 1, by omega⟩
    have hi : i < l.length := by omega
    rw [hget (i + 1) (by omega), getElem?_cons_succ, getElem?_eq_getElem hi]
    exact hl _ (getElem_mem hi)

theorem prevLead_iff : prevLead s pos = some (cp, q) ↔
    ∃ c : Char, String.utf8EncodeChar c <+: s.drop q ∧ cp = c.toNat ∧
      pos = q + (String.utf8EncodeChar c).length := by
  constructor
  · intro h
    unfold prevLead at h
    simp only at h
    generalize hi : prevScan s (prevFloor pos) (pos - 1) = i at h
    split at h
    · cases h
    · rename_i hd
      split at h
      · cases h
      · rename_i hend
        obtain ⟨c, hc⟩ := exists_start hd
        rw [decodeOne_starts hc] at hend
        rw [decodeOne_starts hc, scalarAt_starts hc] at h
        cases h
        exact ⟨c, hc.trans ( take_prefix _ _), rfl, by omega⟩
  · rintro ⟨c, hc, rfl, rfl⟩
    have hwindow : String.utf8EncodeChar c <+:
        (s.drop q).take (q + (String.utf8EncodeChar c).length - q) := by
      rw [prefix_take_iff]
      exact ⟨hc, by omega⟩
    rw [prevLead, prevScan_start hc]
    rw [if_neg (decodeOne_ne_zero hwindow), decodeOne_starts hwindow, if_neg (by simp),
      scalarAt_starts hwindow]

theorem utf8Prev_iff : utf8Prev s pos = .ok (cp, q) ↔
    ∃ c : Char, String.utf8EncodeChar c <+: s.drop q ∧ cp = c.toNat ∧
      pos = q + (String.utf8EncodeChar c).length := by
  rw [← prevLead_iff]
  constructor
  · intro h
    unfold utf8Prev at h
    split at h
    · cases h
    · split at h
      · cases h
      · split at h
        · cases h
        · rename_i hlead
          cases h
          exact hlead
  · intro h
    obtain ⟨c, hc, _, rfl⟩ := prevLead_iff.mp h
    have hpos := utf8EncodeChar_pos c
    have hlen := hc.length_le
    rw [length_drop] at hlen
    rw [utf8Prev, if_neg (by omega), if_neg (by omega), h]

theorem utf8Prev_iff_decode :
    utf8Prev s pos = .ok (cp, q) ↔ q < pos ∧ utf8Decode s q = .ok (cp, pos) := by
  rw [utf8Prev_iff, utf8Decode_iff]
  constructor
  · rintro ⟨c, hc, hcp, rfl⟩
    have := utf8EncodeChar_pos c
    exact ⟨by omega, c, hc, hcp, rfl⟩
  · exact And.right

/-! ## Strings that code characters -/

variable {cs : List Char} {cps cps' : List Nat}

/-- The bytes of a string of characters. -/
def text (cs : List Char) : List UInt8 := cs.flatMap String.utf8EncodeChar

@[simp] theorem text_nil : text [] = [] := rfl

@[simp] theorem text_cons (c : Char) (cs : List Char) :
    text (c :: cs) = String.utf8EncodeChar c ++ text cs := rfl

@[simp] theorem text_snoc (cs : List Char) (c : Char) :
    text (cs ++ [c]) = text cs ++ String.utf8EncodeChar c := by
  simp [text]

theorem flatMap_utf8Encode (cs : List Char) : (cs.map Char.toNat).flatMap utf8Encode = text cs := by
  rw [flatMap_map, text]
  congr 1
  funext c
  exact utf8Encode_char c

theorem exists_chars (h : ∀ cp ∈ cps, isScalar cp = true) : ∃ cs : List Char, cs.map Char.toNat = cps := by
  induction cps with
  | nil => exact ⟨[], rfl⟩
  | cons cp cps ih =>
    obtain ⟨cs, hcs⟩ := ih fun x hx => h x (mem_cons_of_mem _ hx)
    obtain ⟨c, hc⟩ := exists_char (isScalar_iff.mp (h cp mem_cons_self))
    exact ⟨c :: cs, by rw [map_cons, hc, hcs]⟩

theorem codes_iff : Codes cps s ↔ ∃ cs : List Char, cs.map Char.toNat = cps ∧ text cs = s := by
  constructor
  · rintro ⟨hscalar, rfl⟩
    obtain ⟨cs, rfl⟩ := exists_chars hscalar
    exact ⟨cs, rfl, (flatMap_utf8Encode cs).symm⟩
  · rintro ⟨cs, rfl, rfl⟩
    refine ⟨?_, flatMap_utf8Encode cs⟩
    intro cp hcp
    obtain ⟨c, _, rfl⟩ := mem_map.mp hcp
    exact isScalar_char c

theorem spansFrom_cps (pos : Nat) (cps : List Nat) : (spansFrom pos cps).map Span.cp = cps := by
  induction cps generalizing pos with
  | nil => rfl
  | cons cp cps ih => rw [spansFrom, map_cons, ih]

theorem spansFrom_append (pos : Nat) (as bs : List Nat) :
    spansFrom pos (as ++ bs) =
      spansFrom pos as ++ spansFrom (pos + (as.flatMap utf8Encode).length) bs := by
  induction as generalizing pos with
  | nil => rfl
  | cons a as ih =>
    rw [cons_append, spansFrom, ih, spansFrom, flatMap_cons, length_append,
      Nat.add_assoc, cons_append]

/-! ## Validation -/

theorem drop_after (h : s.drop pos = String.utf8EncodeChar c ++ r) :
    s.drop (pos + (String.utf8EncodeChar c).length) = r := by
  rw [← drop_drop, h, drop_left]

theorem lt_of_drop (h : s.drop pos = String.utf8EncodeChar c ++ r) : pos < s.length := by
  have hlen := congrArg length h
  have hpos := utf8EncodeChar_pos c
  rw [length_drop, length_append] at hlen
  omega

/-- Valid from a position on is text from there on. -/
theorem utf8ValidFrom_iff : utf8ValidFrom s i = true ↔ ∃ cs, s.drop i = text cs := by
  constructor
  · intro h
    induction i using utf8ValidFrom.induct s with
    | case1 i _ hnone =>
      rw [utf8ValidFrom, if_pos ‹_›] at h
      split at h
      · cases h
      · rename_i hsome
        rw [hnone] at hsome
        cases hsome
    | case2 i hlt j hj ih =>
      rw [utf8ValidFrom, if_pos hlt] at h
      split at h
      · cases h
      · rename_i j' hj'
        rw [hj] at hj'
        cases hj'
        obtain ⟨cs, hcs⟩ := ih h
        unfold decodeAdv at hj
        dsimp only at hj
        split at hj
        · cases hj
        · rename_i hd
          obtain ⟨c, hc⟩ := exists_start hd
          rw [decodeOne_starts hc] at hj
          cases hj
          obtain ⟨r, hr⟩ := hc
          refine ⟨c :: cs, ?_⟩
          rw [← hr, text_cons, ← hcs, drop_after hr.symm]
    | case3 i hge => exact ⟨[], drop_eq_nil_of_le (by omega)⟩
  · rintro ⟨cs, hcs⟩
    induction cs generalizing i with
    | nil =>
      rw [utf8ValidFrom, if_neg]
      have := drop_eq_nil_iff.mp hcs
      omega
    | cons c cs ih =>
      have hc : String.utf8EncodeChar c <+: s.drop i := ⟨_, hcs.symm⟩
      have hadv : decodeAdv s i = some (i + (String.utf8EncodeChar c).length) := by
        unfold decodeAdv
        dsimp only
        rw [if_neg (decodeOne_ne_zero hc), decodeOne_starts hc]
      rw [utf8ValidFrom, if_pos (lt_of_drop hcs)]
      split
      · rename_i hnone
        rw [hadv] at hnone
        cases hnone
      · rename_i j hj
        rw [hadv] at hj
        cases hj
        exact ih (drop_after hcs)

theorem utf8Valid_iff : utf8Valid s = true ↔ ∃ cps, Codes cps s := by
  rw [utf8Valid, utf8ValidFrom_iff]
  constructor
  · rintro ⟨cs, hcs⟩
    exact ⟨cs.map Char.toNat, codes_iff.mpr ⟨cs, rfl, hcs.symm⟩⟩
  · rintro ⟨cps, h⟩
    obtain ⟨cs, _, rfl⟩ := codes_iff.mp h
    exact ⟨cs, rfl⟩

/-! ## The traversals -/

theorem decodeStep_drains (h : s.drop pos = text cs) :
    Drains (decodeStep s) pos (spansFrom pos (cs.map Char.toNat)) .erange := by
  induction cs generalizing pos with
  | nil =>
    refine .stop ?_
    rw [decodeStep, utf8Decode, if_pos (drop_eq_nil_iff.mp h)]
    rfl
  | cons c cs ih =>
    have hdecode := utf8Decode_iff.mpr ⟨c, ⟨_, h.symm⟩, rfl, rfl⟩
    rw [map_cons, spansFrom, utf8Encode_char]
    refine .item ?_ (ih (drop_after h))
    rw [decodeStep, hdecode]
    rfl

theorem iterStep_drains {it : Iter} (h : s.drop it.cur = text cs) (hstop : it.stop = s.length)
    (herr : it.err = 0) :
    Drains (iterStep s) it (spansFrom it.cur (cs.map Char.toNat)) 2 := by
  induction cs generalizing it with
  | nil =>
    have hnext : iterNext s it = (1, { it with err := 2 }) := by
      rw [iterNext, if_neg (not_not.mpr herr), if_pos]
      rw [hstop]
      exact drop_eq_nil_iff.mp h
    refine .stop ?_
    rw [iterStep, hnext]
    rfl
  | cons c cs ih =>
    have hlt := lt_of_drop h
    have hc : String.utf8EncodeChar c <+: (s.drop it.cur).take (it.stop - it.cur) := by
      rw [take_of_length_le (by rw [length_drop, hstop])]
      exact ⟨_, h.symm⟩
    have hnext : iterNext s it = (0, { it with
        cp := c.toNat
        leading := (String.utf8EncodeChar c).length
        cur := it.cur + (String.utf8EncodeChar c).length }) := by
      rw [iterNext, if_neg (not_not.mpr herr), if_neg (by omega)]
      dsimp only
      rw [if_neg (decodeOne_ne_zero hc), decodeOne_starts hc, scalarAt_starts hc]
    rw [map_cons, spansFrom, utf8Encode_char]
    refine .item (t := (iterNext s it).2) ?_ ?_
    · rw [iterStep, hnext]
      simp
    · rw [hnext]
      exact ih (drop_after h) hstop herr

/-- Going back goes through the characters before, last first. -/
theorem prevStep_drains (cs : List Char) (r : List UInt8) :
    Drains (prevStep (text cs ++ r)) (text cs).length (spansFrom 0 (cs.map Char.toNat)).reverse
      .erange := by
  induction cs using reverseRecOn generalizing r with
  | nil => exact .stop rfl
  | append_singleton cs c ih =>
    have hprev : utf8Prev (text (cs ++ [c]) ++ r) (text (cs ++ [c])).length =
        .ok (c.toNat, (text cs).length) := by
      refine utf8Prev_iff.mpr ⟨c, ?_, rfl, by simp⟩
      simp
    rw [map_append, spansFrom_append, reverse_append, flatMap_utf8Encode, Nat.zero_add]
    refine .item (t := (text cs).length) ?_ ?_
    · rw [prevStep, hprev]
      simp [utf8Encode_char, Except.map]
    · rw [text_snoc, append_assoc]
      exact ih _

theorem Codes.unique (h : Codes cps s) (h' : Codes cps' s) : cps' = cps := by
  obtain ⟨cs, rfl, hs⟩ := codes_iff.mp h
  obtain ⟨cs', rfl, hs'⟩ := codes_iff.mp h'
  have hd : Drains (decodeStep s) 0 (spansFrom 0 (cs.map Char.toNat)) .erange :=
    decodeStep_drains hs.symm
  have hd' : Drains (decodeStep s) 0 (spansFrom 0 (cs'.map Char.toNat)) .erange :=
    decodeStep_drains hs'.symm
  have hspans := congrArg (map Span.cp) (hd.unique hd').1
  rwa [spansFrom_cps, spansFrom_cps] at hspans

/-- The three traversals of a string that codes a sequence hand out just its scalars, with
the same offsets, and then report the end. -/
theorem Codes.traversals (h : Codes cps s) (out : List Span) (e : Status) (err : Nat) :
    (Drains (decodeStep s) 0 out e ↔ out = spansFrom 0 cps ∧ e = .erange) ∧
    (Drains (iterStep s) (iterInit s) out err ↔ out = spansFrom 0 cps ∧ err = 2) ∧
    (Drains (prevStep s) s.length out e ↔ out = (spansFrom 0 cps).reverse ∧ e = .erange) := by
  obtain ⟨cs, rfl, rfl⟩ := codes_iff.mp h
  have hprev := prevStep_drains cs []
  rw [append_nil] at hprev
  exact ⟨(decodeStep_drains rfl).iff, (iterStep_drains rfl rfl rfl).iff, hprev.iff⟩

/-- The code of a string is exact in both directions. -/
theorem utf8_exact (s : List UInt8) :
    (utf8Valid s = true ↔ ∃ cps, Codes cps s) ∧
    (∀ cps cps', Codes cps s → Codes cps' s → cps' = cps) ∧
    (∀ cps, Codes cps s → ∀ out e err,
      (Drains (decodeStep s) 0 out e ↔ out = spansFrom 0 cps ∧ e = .erange) ∧
      (Drains (iterStep s) (iterInit s) out err ↔ out = spansFrom 0 cps ∧ err = 2) ∧
      (Drains (prevStep s) s.length out e ↔ out = (spansFrom 0 cps).reverse ∧ e = .erange)) ∧
    (∀ pos cp q, utf8Prev s pos = .ok (cp, q) ↔ q < pos ∧ utf8Decode s q = .ok (cp, pos)) :=
  ⟨utf8Valid_iff, fun _ _ => Codes.unique, fun _ h => h.traversals, fun _ _ _ =>
    utf8Prev_iff_decode⟩

end U89
