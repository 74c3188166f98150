import EightyNine.J89.Types
import EightyNine.Library.Scan
import EightyNine.U89.Utf8

/-!
# Strings

The body of a string is read one step at a time into a buffer: a raw byte, a
sequence of UTF-8, which is copied, or an escape, which is decoded.
-/

namespace J89

open Library U89

/-- `j89_hexval`. -/
def hexval (c : Int) : Int :=
  if ch '0' ≤ c ∧ c ≤ ch '9' then c - ch '0'
  else if ch 'a' ≤ c ∧ c ≤ ch 'f' then c - ch 'a' + 10
  else if ch 'A' ≤ c ∧ c ≤ ch 'F' then c - ch 'A' + 10
  else -1

/-- `j89_hex_digit`. -/
def hexDigit (v : Nat) (s : Bytes) : Result (Nat × Bytes) :=
  let h := hexval (cur s)
  if h < 0 then fail "invalid hex escape"
  else .ok (v * 16 + h.toNat, bump s)

/-- The loop of `j89_parse_hex4`. -/
def hexDigits : Nat → Nat → Bytes → Result (Nat × Bytes)
  | 0, v, s => .ok (v, s)
  | n + 1, v, s => do
    let (v, s) ← hexDigit v s
    hexDigits n v s

/-- `j89_parse_hex4`. -/
def parseHex4 (s : Bytes) : Result (Nat × Bytes) := hexDigits 4 0 s

/-- `j89_utf8_seq`: the bytes it copies, none for invalid UTF-8. -/
def utf8Seq (s : Bytes) : Option (Bytes × Bytes) :=
  let n := decodeOne s
  if n = 0 then none else some (s.take n, s.drop n)

/-- `j89_str_emit_cp`. -/
def strEmitCp (b : Bytes) (cp : Nat) : Result Bytes :=
  match utf8Encode cp with
  | [] => fail "out of memory"
  | bytes => .ok (b ++ bytes)

/-- `j89_str_pair`. -/
def strPair (unit : Nat) (s : Bytes) : Result (Nat × Bytes) :=
  if cur s ≠ ch '\\' then fail "lone high surrogate"
  else if cur (bump s) ≠ ch 'u' then fail "lone high surrogate"
  else do
    let (lo, r) ← parseHex4 (bump (bump s))
    match utf16DecodePair unit lo with
    | none => fail "bad low surrogate"
    | some cp => .ok (cp, r)

/-- `j89_str_read_cp`. -/
def strReadCp (s : Bytes) : Result (Nat × Bytes) := do
  let (unit, r) ← parseHex4 s
  if utf16IsHighSurrogate unit then strPair unit r
  else if utf16IsLowSurrogate unit then fail "lone low surrogate"
  else .ok (unit, r)

/-- `j89_str_unicode`. -/
def strUnicode (b s : Bytes) : Result (Bytes × Bytes) := do
  let (cp, r) ← strReadCp s
  let b ← strEmitCp b cp
  .ok (b, r)

/-- `j89_str_simple_val`. -/
def strSimpleVal (esc : Int) : Int :=
  if esc = ch 'n' then 0x0A
  else if esc = ch 't' then 0x09
  else if esc = ch 'r' then 0x0D
  else if esc = ch 'b' then 0x08
  else if esc = ch 'f' then 0x0C
  else if esc = ch '\\' then ch '\\'
  else if esc = ch '"' then ch '"'
  else if esc = ch '/' then ch '/'
  else -1

/-- `j89_str_dispatch`. -/
def strDispatch (b : Bytes) (esc : Int) (s : Bytes) : Result (Bytes × Bytes) :=
  if esc = ch 'u' then strUnicode b s
  else
    let val := strSimpleVal esc
    if val < 0 then fail "invalid escape"
    else .ok (b ++ [val.toNat.toUInt8], s)

/-- `j89_str_escape`. -/
def strEscape (b s : Bytes) : Result (Bytes × Bytes) :=
  let s := bump s
  strDispatch b (cur s) (bump s)

/-- `j89_str_utf8_emit`. -/
def strUtf8Emit (b s : Bytes) : Result (Bytes × Bytes) :=
  match utf8Seq s with
  | none => fail "invalid UTF-8 in string"
  | some (bytes, r) => .ok (b ++ bytes, r)

/-- `j89_str_byte`.  At the end of the input the `unsigned char` of the cursor is `FF`. -/
def strByte (b s : Bytes) : Result (Bytes × Bytes) :=
  let uc := s.headD 0xFF
  if 0x80 ≤ uc then strUtf8Emit b s else .ok (b ++ [uc], bump s)

/-- `j89_str_raw`. -/
def strRaw (b s : Bytes) : Result (Bytes × Bytes) :=
  if isControl (cur s) then fail "control character in string" else strByte b s

/-- `j89_str_step`. -/
def strStep : Step Failure Bytes UInt8 Bytes := fun b s =>
  if eof s then fail "unterminated string"
  else if cur s = ch '"' then .ok (.done b, bump s)
  else do
    let (b, r) ← (if cur s = ch '\\' then strEscape b s else strRaw b s)
    .ok (.again b, r)

/-- `j89_parse_string`. -/
def parseString (s : Bytes) : Result (Bytes × Bytes) := scan .rounds strStep [] (bump s)

end J89

/-!
# Values

The value parser descends on the levels that are left below `J89_MAX_DEPTH`.
The reader of numbers is a parameter, and `parse` is the parser with the reader of
the code.
-/

namespace J89

open Library

variable {α : Type}

/-- `j89_lit_char`. -/
def litChar (expect : Char) (s : Bytes) : Result Bytes :=
  if cur s ≠ ch expect then fail "invalid literal" else .ok (bump s)

/-- The loop of `j89_parse_lit`. -/
def litChars : List Char → Bytes → Result Bytes
  | [], s => .ok s
  | c :: tok, s => do
    let s ← litChar c s
    litChars tok s

/-- `j89_parse_lit`. -/
def parseLit (tok : List Char) (node : Json α) (s : Bytes) : Result (Json α × Bytes) := do
  let r ← litChars tok s
  .ok (node, r)

/-- `j89_consume_comma`. -/
def consumeComma (s : Bytes) : Bytes := skipWs (bump s)

/-- `j89_array_item`, with the parser of values. -/
def arrayItem (parseValue : Bytes → Result (Json α × Bytes)) :
    Step Failure (List (Json α)) UInt8 (List (Json α)) := fun childs s => do
  let (child, r) ← parseValue s
  let childs := childs ++ [child]
  let r := skipWs r
  if cur r = ch ',' then .ok (.again childs, consumeComma r)
  else if cur r = ch ']' then .ok (.done childs, bump r)
  else fail "expected , or ]"

/-- `j89_parse_array`. -/
def parseArray (parseValue : Bytes → Result (Json α × Bytes)) (s : Bytes) :
    Result (Json α × Bytes) :=
  let s := skipWs (bump s)
  if cur s = ch ']' then .ok (.array [], bump s)
  else do
    let (childs, r) ← scan .rounds (arrayItem parseValue) [] s
    .ok (.array childs, r)

/-- `j89_has_dup`. -/
def hasDup (members : List (Bytes × Json α)) (key : Bytes) : Bool :=
  members.any fun m => m.1 == key

/-- `j89_object_member`, with the parser of values. -/
def objectMember (parseValue : Bytes → Result (Json α × Bytes)) :
    Step Failure (List (Bytes × Json α)) UInt8 (List (Bytes × Json α)) := fun members s =>
  let s := skipWs s
  if cur s ≠ ch '"' then fail "expected object key"
  else do
    let (key, r) ← parseString s
    let r := skipWs r
    if cur r ≠ ch ':' then fail "expected :"
    else do
      let (value, r) ← parseValue (skipWs (bump r))
      if hasDup members key then fail "duplicate object key"
      else
        let members := members ++ [(key, value)]
        let r := skipWs r
        if cur r = ch ',' then .ok (.again members, bump r)
        else if cur r = ch '}' then .ok (.done members, bump r)
        else fail "expected , or \x7d"

/-- `j89_parse_object`. -/
def parseObject (parseValue : Bytes → Result (Json α × Bytes)) (s : Bytes) :
    Result (Json α × Bytes) :=
  let s := skipWs (bump s)
  if cur s = ch '}' then .ok (.object [], bump s)
  else do
    let (members, r) ← scan .rounds (objectMember parseValue) [] s
    .ok (.object members, r)

/-- `j89_parse_value` on a character, with the parser of nested values
(`j89_parse_nested`). -/
def parseValueAt (number : Bytes → Result (α × Bytes))
    (nested : Int → Bytes → Result (Json α × Bytes)) (s : Bytes) : Result (Json α × Bytes) :=
  let s := skipWs s
  let c := cur s
  if c = ch '{' then nested c s
  else if c = ch '[' then nested c s
  else if c = ch '"' then do
    let (bytes, r) ← parseString s
    .ok (.string bytes, r)
  else if c = ch 't' then parseLit "true".toList (.bool true) s
  else if c = ch 'f' then parseLit "false".toList (.bool false) s
  else if c = ch 'n' then parseLit "null".toList .null s
  else if c = ch '-' ∨ isDigit c then do
    let (x, r) ← number s
    .ok (.number x, r)
  else fail "unexpected character"

/-- `j89_parse_nested`, with the parser of the values one level down, if there is
a level left. -/
def parseNested (parseValue : Option (Bytes → Result (Json α × Bytes))) (c : Int) (s : Bytes) :
    Result (Json α × Bytes) :=
  match parseValue with
  | none => fail "maximum depth exceeded"
  | some parseValue =>
    if c = ch '{' then parseObject parseValue s else parseArray parseValue s

/-- `j89_parse_value`, `levels` below the maximum depth. -/
def parseValue (number : Bytes → Result (α × Bytes)) : Nat → Bytes → Result (Json α × Bytes)
  | 0 => parseValueAt number (parseNested none)
  | levels + 1 => parseValueAt number (parseNested (some (parseValue number levels)))

/-- `j89_bom_start`: the input from there on. -/
def bomStart (buf : Bytes) : Bytes :=
  match buf with
  | 0xEF :: 0xBB :: 0xBF :: s => s
  | s => s

/-- `j89_parse_bytes`, with a reader of numbers. -/
def parseBytes (number : Bytes → Result (α × Bytes)) (buf : Bytes) : Result (Json α) := do
  let (root, r) ← parseValue number maxDepth (bomStart buf)
  if eof (skipWs r) then .ok root else fail "trailing data"

/-- `j89_parse`. -/
def parse (buf : Bytes) : Result (Json Num) := parseBytes parseNumber buf

end J89
