import EightyNine.J89.Types
import EightyNine.Library.Decimal

/-!
# The grammar

The grammar of RFC 8259 over bytes, with the tree it assigns.  Strings are UTF-8
with escapes, and a surrogate is escaped in a pair.  A value is indexed by a bound
on its nesting.  What a numeral means is a parameter: `Numeral.num` is the exact
meaning, an integer of at most `2 ^ 53` or a correctly rounded double, and
`Numeral.read` the same with the exponent and the number of fraction digits in the
range of the code.
-/

namespace J89

open Library (Double)

/-- The bytes of an ASCII text. -/
def ascii (s : String) : Bytes := s.toList.map byte

def Ws (w : Bytes) : Prop := ∀ b ∈ w, b = 0x20 ∨ b = 0x09 ∨ b = 0x0A ∨ b = 0x0D

/-! ## Strings -/

def HexDigit (b : UInt8) (n : Nat) : Prop :=
  n < 10 ∧ b.toNat = 0x30 + n ∨
    10 ≤ n ∧ n < 16 ∧ (b.toNat = 0x61 + (n - 10) ∨ b.toNat = 0x41 + (n - 10))

def Hex4 (x : Bytes) (u : Nat) : Prop :=
  ∃ a b c d i j k l, HexDigit a i ∧ HexDigit b j ∧ HexDigit c k ∧ HexDigit d l ∧
    x = [a, b, c, d] ∧ u = ((i * 16 + j) * 16 + k) * 16 + l

/-- The escapes of one character and what they stand for. -/
def simpleEscapes : List (Char × Char) :=
  [('n', '\n'), ('t', '\t'), ('r', '\r'), ('b', '\x08'), ('f', '\x0C'), ('\\', '\\'), ('"', '"'),
    ('/', '/')]

/-- One character of a string: its text and the bytes it stands for. -/
inductive StrChar : Bytes → Bytes → Prop where
  | raw (c : Char) (hc : 0x20 ≤ c.toNat) (hq : c ≠ '"') (hb : c ≠ '\\') :
      StrChar (String.utf8EncodeChar c) (String.utf8EncodeChar c)
  | simple {e v : Char} (h : (e, v) ∈ simpleEscapes) : StrChar [byte '\\', byte e] [byte v]
  | unicode {x : Bytes} (c : Char) (h : Hex4 x c.toNat) :
      StrChar (byte '\\' :: byte 'u' :: x) (String.utf8EncodeChar c)
  | pair {x y : Bytes} {hi lo : Nat} (c : Char) (hx : Hex4 x hi) (hy : Hex4 y lo)
      (hhi : 0xD800 ≤ hi ∧ hi ≤ 0xDBFF) (hlo : 0xDC00 ≤ lo ∧ lo ≤ 0xDFFF)
      (hc : c.toNat = (hi - 0xD800) * 0x400 + (lo - 0xDC00) + 0x10000) :
      StrChar (byte '\\' :: byte 'u' :: x ++ byte '\\' :: byte 'u' :: y) (String.utf8EncodeChar c)

/-- The body of a string and the bytes it stands for. -/
inductive StrBody : Bytes → Bytes → Prop where
  | nil : StrBody [] []
  | cons {x v y w : Bytes} (h : StrChar x v) (t : StrBody y w) : StrBody (x ++ y) (v ++ w)

/-- A body between its quotes. -/
def quoted (x : Bytes) : Bytes := byte '"' :: (x ++ [byte '"'])

/-! ## Numerals -/

abbrev Digits := List (Fin 10)

def Digits.text (ds : Digits) : Bytes := ds.map fun d => (0x30 + d.val).toUInt8

def Digits.value (ds : Digits) : Nat := ds.foldl (fun n d => n * 10 + d.val) 0

inductive ExpSign where
  | none
  | plus
  | minus
  deriving DecidableEq

def ExpSign.text : ExpSign → Bytes
  | .none => []
  | .plus => [byte '+']
  | .minus => [byte '-']

structure Exponent where
  upper : Bool
  sign : ExpSign
  digits : Digits
  digits_ne : digits ≠ []

def Exponent.text (e : Exponent) : Bytes :=
  (if e.upper then byte 'E' else byte 'e') :: (e.sign.text ++ e.digits.text)

def Exponent.value (e : Exponent) : Int :=
  if e.sign = .minus then -e.digits.value else e.digits.value

/-- A number as it is written.  Without a fraction, `frac` is empty. -/
structure Numeral where
  neg : Bool
  int : Digits
  int_ne : int ≠ []
  int_zero : int.head? = some 0 → int = [0]
  frac : Digits
  exp : Option Exponent

def signText (neg : Bool) : Bytes := if neg then [byte '-'] else []

def fracText (ds : Digits) : Bytes := if ds = [] then [] else byte '.' :: Digits.text ds

def expText (e : Option Exponent) : Bytes := e.elim [] Exponent.text

namespace Numeral

variable (x : Numeral)

def text : Bytes :=
  signText x.neg ++ (Digits.text x.int ++ (fracText x.frac ++ expText x.exp))

def isFloat : Bool := x.frac ≠ [] || x.exp.isSome

def integer : Int := if x.neg then -Digits.value x.int else Digits.value x.int

def mantissa : Nat := Digits.value (x.int ++ x.frac)

def exponent : Int := x.exp.elim 0 Exponent.value

end Numeral

/-- The correctly rounded double of a magnitude, when it is finite and no nonzero
underflow. -/
def toDouble (q : ℚ) : Option Double :=
  match Double.nearest q with
  | .nan => none
  | .infinite _ => none
  | .finite neg mag => if mag = 0 ∧ q ≠ 0 then none else some (.finite neg mag)

/-- The sign of a numeral on its double. -/
def Numeral.signed (x : Numeral) (v : Double) : Double := if x.neg then v.negate else v

/-- What a numeral means when its mantissa is scaled by `10 ^ net`. -/
def Numeral.node (x : Numeral) (net : Int) : Option Num :=
  if x.isFloat then (toDouble (x.mantissa * 10 ^ net)).map fun v => .float (x.signed v)
  else if -2 ^ 53 ≤ x.integer ∧ x.integer ≤ 2 ^ 53 then some (.integer x.integer)
  else none

/-- What a numeral means. -/
def Numeral.num (x : Numeral) : Option Num := x.node (x.exponent - x.frac.length)

/-- An exponent held within `2 ^ 30`. -/
def clamp (e : Int) : Int := max (-2 ^ 30) (min e (2 ^ 30))

/-- What a numeral means with its exponent held within `2 ^ 30`, if an `int` can count its
fraction digits. -/
def Numeral.read (x : Numeral) : Option Num :=
  if x.frac.length ≤ cIntMax then x.node (clamp x.exponent - x.frac.length) else none

/-! ## Values -/

/-- A text with the whitespace around it, and what it stands for. -/
structure Padded (α : Type) where
  before : Bytes
  text : Bytes
  after : Bytes
  val : α

def Padded.bytes {α : Type} (p : Padded α) : Bytes := p.before ++ (p.text ++ p.after)

def Padded.Blank {α : Type} (p : Padded α) : Prop := Ws p.before ∧ Ws p.after

/-- A member of an object.  The text of the key is its body. -/
structure Member (α : Type) where
  key : Padded Bytes
  value : Padded (Json α)

namespace Member

variable {α : Type} (m : Member α)

def bytes : Bytes :=
  m.key.before ++ (quoted m.key.text ++ (m.key.after ++ byte ':' :: m.value.bytes))

def Blank : Prop := m.key.Blank ∧ m.value.Blank

def val : Bytes × Json α := (m.key.val, m.value.val)

end Member

/-- Texts with commas between them. -/
def commas : List Bytes → Bytes
  | [] => []
  | [x] => x
  | x :: y :: xs => x ++ byte ',' :: commas (y :: xs)

/-- The text of a value of nesting at most `n`, and its tree. -/
inductive Value {α : Type} (num : Numeral → Option α) : Nat → Bytes → Json α → Prop where
  | null {n : Nat} : Value num n (ascii "null") .null
  | bool {n : Nat} (v : Bool) : Value num n (ascii (if v then "true" else "false")) (.bool v)
  | number {n : Nat} {x : Numeral} {a : α} (h : num x = some a) : Value num n x.text (.number a)
  | string {n : Nat} {x v : Bytes} (h : StrBody x v) : Value num n (quoted x) (.string v)
  | emptyArray {n : Nat} {w : Bytes} (h : Ws w) :
      Value num (n + 1) (byte '[' :: (w ++ [byte ']'])) (.array [])
  | array {n : Nat} {es : List (Padded (Json α))} (hne : es ≠ []) (hblank : ∀ e ∈ es, e.Blank)
      (hval : ∀ e ∈ es, Value num n e.text e.val) :
      Value num (n + 1) (byte '[' :: (commas (es.map Padded.bytes) ++ [byte ']']))
        (.array (es.map Padded.val))
  | emptyObject {n : Nat} {w : Bytes} (h : Ws w) :
      Value num (n + 1) (byte '{' :: (w ++ [byte '}'])) (.object [])
  | object {n : Nat} {ms : List (Member α)} (hne : ms ≠ []) (hblank : ∀ m ∈ ms, m.Blank)
      (hkey : ∀ m ∈ ms, StrBody m.key.text m.key.val)
      (hval : ∀ m ∈ ms, Value num n m.value.text m.value.val)
      (hnodup : (ms.map fun m => m.key.val).Nodup) :
      Value num (n + 1) (byte '{' :: (commas (ms.map Member.bytes) ++ [byte '}']))
        (.object (ms.map Member.val))

/-- The byte-order mark. -/
def bom : Bytes := [0xEF, 0xBB, 0xBF]

/-- One value surrounded by whitespace, after an optional byte-order mark. -/
def Document {α : Type} (num : Numeral → Option α) (buf : Bytes) (t : Json α) : Prop :=
  ∃ w x w', Ws w ∧ Ws w' ∧ Value num maxDepth x t ∧
    (buf = w ++ (x ++ w') ∨ buf = bom ++ (w ++ (x ++ w')))

end J89

/-!
## Rendering

The writer appends to a buffer.  Here each function gives what it appends, and a
tree whose nesting is beyond `J89_MAX_DEPTH` is refused.  A number of either kind is
written by `sprintf` with `%.17g`: seventeen significant digits, correctly rounded,
without the zeros at the end of a fraction.
-/

namespace J89

open Library (Double)
open Library.Decimal (digits strip significant)

/-! ## Strings -/

/-- `w_hex_digit`. -/
def wHexDigit (v i : Nat) : UInt8 :=
  byte ("0123456789abcdef".toList.getD ((v >>> (12 - i * 4)) &&& 0xF) '0')

/-- `w_hex4`. -/
def wHex4 (v : Nat) : Bytes := [wHexDigit v 0, wHexDigit v 1, wHexDigit v 2, wHexDigit v 3]

/-- `w_escape_hex`. -/
def wEscapeHex (uc : UInt8) : Bytes := ascii "\\u" ++ wHex4 uc.toNat

/-- `w_escape_char`. -/
def wEscapeChar (c : UInt8) : Bytes :=
  if c = byte '"' then ascii "\\\""
  else if c = byte '\\' then ascii "\\\\"
  else if c = byte '\n' then ascii "\\n"
  else if c = byte '\t' then ascii "\\t"
  else if c = byte '\r' then ascii "\\r"
  else if c = byte '\x08' then ascii "\\b"
  else if c = byte '\x0C' then ascii "\\f"
  else if c < 0x20 then wEscapeHex c
  else [c]

/-- `w_escape_string`. -/
def wEscapeString (s : Bytes) : Bytes := byte '"' :: (s.flatMap wEscapeChar ++ [byte '"'])

/-! ## Numbers -/

/-- Style `f` with as many digits behind the point as `x` leaves. -/
def styleF (ds : Digits) (x : Int) : Bytes :=
  if 0 ≤ x then Digits.text (ds.take (x.toNat + 1)) ++ fracText (strip (ds.drop (x.toNat + 1)))
  else Digits.text [0] ++ fracText (strip (List.replicate (-x - 1).toNat 0 ++ ds))

/-- The exponent of style `e`: a sign and at least two digits. -/
def exponentText (x : Int) : Bytes :=
  byte 'e' :: (if x < 0 then byte '-' else byte '+') ::
    Digits.text (digits (if x.natAbs < 100 then 2 else 3) x.natAbs)

/-- Style `e`. -/
def styleE (ds : Digits) (x : Int) : Bytes :=
  Digits.text (ds.take 1) ++ (fracText (strip (ds.drop 1)) ++ exponentText x)

/-- What `%.17g` writes for a magnitude other than zero. -/
def conversionG (q : ℚ) : Bytes :=
  let (m, x) := significant 17 q
  let ds := digits 17 m.toNat
  if -4 ≤ x ∧ x < 17 then styleF ds x else styleE ds x

/-- `sprintf` with `%.17g`. -/
def sprintf : Double → Bytes
  | .nan => ascii "nan"
  | .infinite neg => signText neg ++ ascii "inf"
  | .finite neg mag => signText neg ++ if mag = 0 then ascii "0" else conversionG mag

/-- `w_render_int` and `w_render_float`. -/
def wRenderNumber : Num → Bytes
  | .integer v => sprintf (Double.ofInt v)
  | .float v => sprintf v

/-! ## Trees -/

mutual

/-- `w_render`, `depth` levels down. -/
def wRender (depth : Nat) : Json Num → Result Bytes
  | .null => .ok (ascii "null")
  | .bool v => .ok (ascii (if v then "true" else "false"))
  | .number x => .ok (wRenderNumber x)
  | .string bytes => .ok (wEscapeString bytes)
  | .array items =>
    if maxDepth < depth + 1 then fail "maximum depth exceeded"
    else do
      let out ← wRenderElems (depth + 1) 0 items
      .ok (byte '[' :: (out ++ [byte ']']))
  | .object members =>
    if maxDepth < depth + 1 then fail "maximum depth exceeded"
    else do
      let out ← wRenderMembers (depth + 1) 0 members
      .ok (byte '{' :: (out ++ [byte '}']))

/-- `w_render_elem` from the `i`th item on. -/
def wRenderElems (depth i : Nat) : List (Json Num) → Result Bytes
  | [] => .ok []
  | child :: items => do
    let out ← wRender depth child
    let rest ← wRenderElems depth (i + 1) items
    .ok ((if i ≠ 0 then [byte ','] else []) ++ (out ++ rest))

/-- `w_render_member` from the `i`th member on. -/
def wRenderMembers (depth i : Nat) : List (Bytes × Json Num) → Result Bytes
  | [] => .ok []
  | (key, value) :: members => do
    let out ← wRender depth value
    let rest ← wRenderMembers depth (i + 1) members
    .ok ((if i ≠ 0 then [byte ','] else []) ++ (wEscapeString key ++ byte ':' :: (out ++ rest)))

end

/-- `j89_render`, into an empty buffer. -/
def render (t : Json Num) : Result Bytes := wRender 0 t

end J89
