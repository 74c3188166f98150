import EightyNine.Library.Binary64

/-!
# Documents and the cursor

A document is a tree over its numbers, which are INTEGER or FLOAT nodes.  The
parser is a cursor on the bytes that are left.  `cur` is what it sees: the byte as
a `char`, which is signed, and `-1` at the end of the input, as for the byte `FF`.
-/

namespace J89

open Library (Double)

abbrev Bytes := List UInt8

/-- The nodes of a tree, over its numbers. -/
inductive Json (α : Type) where
  | null
  | bool (v : Bool)
  | number (x : α)
  | string (bytes : Bytes)
  | array (items : List (Json α))
  | object (members : List (Bytes × Json α))

/-- A number node.  The double of an INTEGER node is exact, so it is the integer. -/
inductive Num where
  | integer (v : Int)
  | float (v : Double)
  deriving DecidableEq

/-- Why a call failed: with the message of `j89_fail`, with a count beyond an `int`, for
which C has no behaviour, or for want of rounds in a loop of the model. -/
inductive Failure where
  | error (message : String)
  | overflow
  | rounds

abbrev Result (α : Type) := Except Failure α

/-- `j89_fail`. -/
def fail {α : Type} (message : String) : Result α := .error (.error message)

/-- `INT_MAX`. -/
def cIntMax : Int := 2147483647

/-- `J89_MAX_DEPTH`. -/
def maxDepth : Nat := 10000

/-- A character constant. -/
def ch (c : Char) : Int := c.toNat

/-- The byte of a character constant. -/
def byte (c : Char) : UInt8 := c.toNat.toUInt8

/-! ## The cursor -/

/-- `j89_cur`. -/
def cur : Bytes → Int
  | [] => -1
  | b :: _ => b.toInt8.toInt

/-- `j89_eof`. -/
def eof (s : Bytes) : Bool := s.isEmpty

/-- `j89_bump`. -/
def bump (s : Bytes) : Bytes := s.tail

/-- `j89_is_ws`. -/
def isWs (c : Int) : Bool := c == ch ' ' || c == ch '\t' || c == ch '\n' || c == ch '\r'

/-- `j89_is_digit`. -/
def isDigit (c : Int) : Bool := ch '0' ≤ c && c ≤ ch '9'

/-- `j89_is_control`. -/
def isControl (c : Int) : Bool := 0 ≤ c && c < 0x20

/-- `j89_skip_ws`. -/
def skipWs : Bytes → Bytes
  | [] => []
  | b :: s => if isWs (cur (b :: s)) then skipWs s else b :: s

/-! ## What the cursor sees -/

theorem cur_cons (b : UInt8) (s : Bytes) :
    cur (b :: s) = if b.toNat < 128 then (b.toNat : Int) else b.toNat - 256 := by
  have hlt := b.toNat_lt
  show b.toInt8.toBitVec.toInt = _
  rw [BitVec.toInt_eq_toNat_cond]
  show (if 2 * b.toNat < 2 ^ 8 then (b.toNat : Int) else b.toNat - (2 ^ 8 : Nat)) = _
  split <;> split <;> omega

theorem cur_of_lt {b : UInt8} (h : b.toNat < 128) (s : Bytes) : cur (b :: s) = b.toNat := by
  rw [cur_cons, if_pos h]

/-- What is neither the end nor a byte from `80` on is a byte of ASCII. -/
theorem cur_nonneg {s : Bytes} (h : 0 ≤ cur s) :
    ∃ b r, s = b :: r ∧ b.toNat < 128 ∧ cur s = b.toNat := by
  cases s with
  | nil => exact absurd h (by decide)
  | cons b r =>
    have hb := b.toNat_lt
    rw [cur_cons] at h ⊢
    split at h
    · exact ⟨b, r, rfl, ‹_›, by simp [*]⟩
    · omega

theorem byte_toNat {c : Char} (hc : c.toNat < 128) : (byte c).toNat = c.toNat := by
  show (UInt8.ofNat c.toNat).toNat = c.toNat
  rw [UInt8.toNat_ofNat']
  omega

theorem cur_eq_ch {c : Char} (hc : c.toNat < 128) {s : Bytes} :
    cur s = ch c ↔ ∃ r, s = byte c :: r := by
  constructor
  · intro h
    obtain ⟨b, r, rfl, hb, hcur⟩ := cur_nonneg (s := s) (by rw [h]; exact Int.natCast_nonneg _)
    refine ⟨r, ?_⟩
    congr 1
    apply UInt8.toNat_inj.mp
    rw [byte_toNat hc]
    rw [h, ch] at hcur
    exact_mod_cast hcur.symm
  · rintro ⟨r, rfl⟩
    rw [cur_of_lt (by rw [byte_toNat hc]; exact hc), byte_toNat hc, ch]

end J89

/-!
## Numbers

A number token is scanned into the locals of `j89_parse_number`, and then becomes
an INTEGER node, when it has no fraction and no exponent, or a FLOAT node.  The
integer is accumulated in 64 bits and saturates beyond `2 ^ 53`; the fraction
digits are counted in an `int`, and the exponent is clamped to `2 ^ 30`.
-/

namespace J89

open Library (Double)

/-! ## Scanning -/

/-- `J89_INT_MAX`. -/
def intMax : Int := 2 ^ 53

/-- `J89_INT_MIN`. -/
def intMin : Int := -2 ^ 53

/-- The value of the integer part and whether it left the range. -/
structure Acc where
  ival : Int
  iover : Bool
  deriving DecidableEq

/-- `j89_acc_pos`. -/
def accPos (a : Acc) (digit : Int) : Acc :=
  let lim := (intMax - digit).tdiv 10
  if a.ival > lim then { a with iover := true } else { a with ival := a.ival * 10 + digit }

/-- `j89_acc_neg`. -/
def accNeg (a : Acc) (digit : Int) : Acc :=
  let lim := (intMin + digit).tdiv 10
  if a.ival < lim then { a with iover := true } else { a with ival := a.ival * 10 - digit }

/-- What `j89_int_digit` does with a digit. -/
def accDigit (neg : Bool) (a : Acc) (digit : Int) : Acc :=
  if a.iover then a
  else if neg then accNeg a digit
  else accPos a digit

/-- `j89_scan_int_digits`. -/
def scanIntDigits (neg : Bool) : Acc → Bytes → Acc × Bytes
  | a, [] => (a, [])
  | a, b :: s =>
    if isDigit (cur (b :: s)) then
      scanIntDigits neg (accDigit neg a (cur (b :: s) - ch '0')) s
    else (a, b :: s)

/-- `j89_take_neg`. -/
def takeNeg (s : Bytes) : Bool × Bytes :=
  if cur s = ch '-' then (true, bump s) else (false, s)

/-- `j89_read_int_part`. -/
def readIntPart (neg : Bool) (s : Bytes) : Option (Acc × Bytes) :=
  if cur s = ch '0' then some (⟨0, false⟩, bump s)
  else if isDigit (cur s) then some (scanIntDigits neg ⟨0, false⟩ s)
  else none

/-- `j89_scan_frac_digits`. -/
def scanFracDigits : Int → Bytes → Result (Int × Bytes)
  | frac, [] => .ok (frac, [])
  | frac, b :: s =>
    if isDigit (cur (b :: s)) then
      if frac = cIntMax then .error .overflow else scanFracDigits (frac + 1) s
    else .ok (frac, b :: s)

/-- `j89_take_frac`: whether there is a fraction, and its number of digits. -/
def takeFrac (s : Bytes) : Result (Option (Bool × Int × Bytes)) :=
  if cur s ≠ ch '.' then .ok (some (false, 0, s))
  else
    let s := bump s
    if isDigit (cur s) then do
      let (frac, r) ← scanFracDigits 0 s
      .ok (some (true, frac, r))
    else .ok none

/-- The bound of `j89_parse_exp`. -/
def expBound : Int := 1073741824

/-- `j89_clamp_acc`. -/
def clampAcc (e digit bound : Int) : Int :=
  if e > bound.tdiv 10 then bound
  else if e * 10 + digit > bound then bound
  else e * 10 + digit

/-- `j89_scan_exp_digits`: the exponent and whether there was any digit. -/
def scanExpDigits (bound : Int) : Int → Bool → Bytes → Int × Bool × Bytes
  | e, any, [] => (e, any, [])
  | e, any, b :: s =>
    if isDigit (cur (b :: s)) then
      scanExpDigits bound (clampAcc e (cur (b :: s) - ch '0') bound) true s
    else (e, any, b :: s)

/-- `j89_exp_advance`: whether there is a minus sign. -/
def expAdvance (s : Bytes) : Bool × Bytes :=
  if cur s = ch '+' then (false, bump s)
  else if cur s = ch '-' then (true, bump s)
  else (false, s)

/-- `j89_parse_exp`. -/
def parseExp (s : Bytes) : Result (Int × Bytes) :=
  let (minus, s) := expAdvance (bump s)
  let (e, any, r) := scanExpDigits expBound 0 false s
  if any then .ok (if minus then -e else e, r) else fail "invalid number"

/-- `j89_take_exp`: whether there is an exponent, and its value. -/
def takeExp (s : Bytes) : Result (Bool × Int × Bytes) :=
  if cur s ≠ ch 'e' ∧ cur s ≠ ch 'E' then .ok (false, 0, s)
  else do
    let (e, r) ← parseExp s
    .ok (true, e, r)

/-- The locals of `j89_parse_number` once the token is scanned.  `sig` is the
token up to its exponent. -/
structure Token where
  neg : Bool
  acc : Acc
  isFloat : Bool
  frac : Int
  e : Int
  sig : Bytes

/-- `j89_parse_number`, up to its nodes. -/
def scanNumber (s : Bytes) : Result (Token × Bytes) :=
  let (neg, s1) := takeNeg s
  match readIntPart neg s1 with
  | none => fail "invalid number"
  | some (acc, s2) => do
    match ← takeFrac s2 with
    | none => fail "invalid number"
    | some (fracFloat, frac, s3) =>
      let (expFloat, e, r) ← takeExp s3
      .ok ({ neg, acc, isFloat := fracFloat || expFloat, frac, e,
             sig := s.take (s.length - s3.length) }, r)

/-! ## Nodes -/

/-- The natural number that decimal digits write. -/
def natOf (digits : Bytes) : Nat := digits.foldl (fun n b => n * 10 + (b.toNat - 0x30)) 0

/-- The text given to `strtod` is digits, an `e` and a whole number. -/
def strtod (digits : Bytes) (net : Int) : Double := .nearest (natOf digits * 10 ^ net)

/-- `j89_collect_mant`, for every byte of the token up to its exponent. -/
def collectMant (sig : Bytes) : Bytes := sig.filter fun b => b != byte '-' && b != byte '.'

/-- `j89_token_to_double`, none when out of range. -/
def tokenToDouble (sig : Bytes) (e frac : Int) : Option Double :=
  let mant := collectMant sig
  let nonzero := mant.any fun b => b != byte '0'
  match strtod mant (e - frac) with
  | .nan => none
  | .infinite _ => none
  | .finite neg mag => if mag = 0 ∧ nonzero then none else some (.finite neg mag)

/-- `j89_apply_sign`. -/
def applySign (value : Double) (neg : Bool) : Double := if neg then value.negate else value

/-- The nodes of `j89_parse_number`. -/
def numberNode (t : Token) : Result Num :=
  if t.isFloat then
    match tokenToDouble t.sig t.e t.frac with
    | none => fail "number out of range"
    | some value => .ok (.float (applySign value t.neg))
  else if t.acc.iover then fail "integer out of range"
  else .ok (.integer t.acc.ival)

/-- `j89_parse_number`. -/
def parseNumber (s : Bytes) : Result (Num × Bytes) := do
  let (t, r) ← scanNumber s
  let node ← numberNode t
  .ok (node, r)

end J89
