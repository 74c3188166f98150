import Mathlib.Algebra.Group.Nat.Defs

/-!
# Server-sent events

The byte-oriented parser of `llm89_sse.c` over the buffers of `llm89_buf.c`, and the
decoding it stands for: a stream is split into lines, and the lines of an event are
read one after the other.  Memory is always granted, so a buffer is its bytes.
-/

namespace Llm89

/-! ## Buffers -/

/-- `llm_buf`. -/
structure Buf where
  data : List UInt8
  limit : Nat
  failed : Bool

/-- `llm_buf_init`. -/
def Buf.init (limit : Nat) : Buf := ⟨[], limit, false⟩

/-- `llm_buf_append`.  The length never exceeds a limit, so the difference is exact. -/
def Buf.append (b : Buf) (bytes : List UInt8) : Int × Buf :=
  if b.limit ≠ 0 ∧ bytes.length > b.limit - b.data.length then (1, { b with failed := true })
  else (0, { b with data := b.data ++ bytes })

/-- `llm_buf_reset`. -/
def Buf.reset (b : Buf) : Buf := { b with data := [], failed := false }

/-! ## The parser -/

/-- `'\n'`. -/
def lf : UInt8 := 0x0A

/-- `'\r'`. -/
def cr : UInt8 := 0x0D

/-- `':'`. -/
def colonByte : UInt8 := 0x3A

/-- `' '`. -/
def space : UInt8 := 0x20

/-- `"data"`. -/
def dataName : List UInt8 := [0x64, 0x61, 0x74, 0x61]

/-- `llm_sse_emit_fn` with its userdata, whose answer may depend on the payloads that were
emitted before.  It may be absent. -/
abbrev EmitFn := Option (List (List UInt8) → List UInt8 → Int)

/-- `llm_sse`, and the payloads it has emitted. -/
structure Sse where
  line : Buf
  data : Buf
  hasData : Bool
  afterCr : Bool
  failed : Bool
  stopped : Bool
  emitted : List (List UInt8)

/-- `llm_sse_init`. -/
def sseInit (maxEventBytes : Nat) : Sse :=
  ⟨.init maxEventBytes, .init maxEventBytes, false, false, false, false, []⟩

section

variable (emit : EmitFn)

/-- `finish_event`. -/
def finishEvent (p : Sse) : Sse :=
  let finished : Sse := { p with hasData := false, data := p.data.reset }
  if p.hasData then
    match emit with
    | some emit =>
      if emit p.emitted p.data.data ≠ 0 then
        { p with emitted := p.emitted ++ [p.data.data], stopped := true }
      else { finished with emitted := p.emitted ++ [p.data.data] }
    | none => finished
  else finished

/-- The branch of `dispatch_line` for a data field, whose value starts after the colon. -/
def dataField (p : Sse) (value : List UInt8) : Sse :=
  let v := if value.head? = some space then value.tail else value
  let joint := if p.hasData then p.data.append [lf] else (0, p.data)
  if joint.1 ≠ 0 then { p with data := joint.2, failed := true }
  else
    let appended := joint.2.append v
    if appended.1 ≠ 0 then { p with data := appended.2, failed := true }
    else { p with data := appended.2, hasData := true }

/-- `dispatch_line`. -/
def dispatchLine (p : Sse) : Sse :=
  let line := p.line.data
  let handled :=
    if line = [] then finishEvent emit p
    else if line.head? = some colonByte then p
    else
      match line.findIdx? (· == colonByte) with
      | none => p
      | some colon =>
        if colon = 4 ∧ line.take 4 = dataName then dataField p (line.drop (colon + 1)) else p
  { handled with line := p.line.reset }

/-- The loop of `llm_sse_feed` at one byte: what it returns, if it does. -/
def feedByte (p : Sse) (c : UInt8) : Option Int × Sse :=
  if p.stopped then (some (-1), p)
  else if p.failed then (some 1, p)
  else if p.afterCr ∧ c = lf then (none, { p with afterCr := false })
  else
    let p := { p with afterCr := false }
    if c = cr then (none, { dispatchLine emit p with afterCr := true })
    else if c = lf then (none, dispatchLine emit p)
    else
      let appended := p.line.append [c]
      if appended.1 ≠ 0 then (some 1, { p with line := appended.2, failed := true })
      else (none, { p with line := appended.2 })

/-- What `llm_sse_feed` returns after its loop. -/
def Sse.code (p : Sse) : Int := if p.failed then 1 else if p.stopped then -1 else 0

/-- `llm_sse_feed`. -/
def feed (p : Sse) : List UInt8 → Int × Sse
  | [] => (p.code, p)
  | c :: bytes =>
    match feedByte emit p c with
    | (some r, p) => (r, p)
    | (none, p) => feed p bytes

/-- One call of `llm_sse_feed` after the other: what they return, and the parser after them. -/
def feedAll (p : Sse) : List (List UInt8) → List Int × Sse
  | [] => ([], p)
  | chunk :: chunks =>
    let rest := feedAll (feed emit p chunk).2 chunks
    ((feed emit p chunk).1 :: rest.1, rest.2)

end

/-! ## The decoding of a stream -/

/-- The lines of a stream that ended, and what follows them.  A line ends with LF, CRLF or CR. -/
def splitLines : List UInt8 → List (List UInt8) × List UInt8
  | [] => ([], [])
  | 0x0D :: 0x0A :: s => ([] :: (splitLines s).1, (splitLines s).2)
  | c :: s =>
    if c = cr ∨ c = lf then ([] :: (splitLines s).1, (splitLines s).2)
    else
      match splitLines s with
      | ([], rest) => ([], c :: rest)
      | (line :: lines, rest) => ((c :: line) :: lines, rest)

/-- The value of a line `data:`, without one leading space.  Every other field and every
comment has none. -/
def dataValue (line : List UInt8) : Option (List UInt8) :=
  if line.take 5 = dataName ++ [colonByte] then
    some (if (line.drop 5).head? = some space then line.drop 6 else line.drop 5)
  else none

/-- The payload of an event. -/
def payload (values : List (List UInt8)) : List UInt8 := [lf].intercalate values

inductive Status where
  | running
  | failed
  | stopped
  deriving DecidableEq

/-- The values of the event that is being read, the payloads emitted, and whether decoding
goes on. -/
structure Decoding where
  values : List (List UInt8)
  events : List (List UInt8)
  status : Status

/-- A line or a payload beyond the limit.  There is none if the limit is zero. -/
def TooLong (limit : Nat) (bytes : List UInt8) : Prop := limit ≠ 0 ∧ limit < bytes.length

instance (limit : Nat) (bytes : List UInt8) : Decidable (TooLong limit bytes) :=
  inferInstanceAs (Decidable (_ ∧ _))

section

variable (limit : Nat) (emit : EmitFn)

/-- A blank line. -/
def Decoding.blank (d : Decoding) : Decoding :=
  if d.values = [] then d
  else
    match emit with
    | some emit =>
      ⟨[], d.events ++ [payload d.values],
        if emit d.events (payload d.values) = 0 then .running else .stopped⟩
    | none => ⟨[], d.events, .running⟩

/-- One more line. -/
def Decoding.line (d : Decoding) (line : List UInt8) : Decoding :=
  if d.status ≠ .running then d
  else if TooLong limit line then { d with status := .failed }
  else if line = [] then d.blank emit
  else
    match dataValue line with
    | none => d
    | some value =>
      if TooLong limit (payload (d.values ++ [value])) then { d with status := .failed }
      else { d with values := d.values ++ [value] }

/-- A line that has not ended may be too long already. -/
def Decoding.rest (d : Decoding) (rest : List UInt8) : Decoding :=
  if d.status = .running ∧ TooLong limit rest then { d with status := .failed } else d

/-- The decoding of a stream. -/
def decode (s : List UInt8) : Decoding :=
  ((splitLines s).1.foldl (Decoding.line limit emit) ⟨[], [], .running⟩).rest limit (splitLines s).2

/-- The code for a status. -/
def Status.code : Status → Int
  | .running => 0
  | .failed => 1
  | .stopped => -1

end

end Llm89
