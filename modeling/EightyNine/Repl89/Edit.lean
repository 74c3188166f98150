import EightyNine.U89.Traverse

/-!
# librepl89: the editor

`src/repl89_buf.c` and `src/repl89_edit.c`.  A buffer is the bytes in use and a
capacity.  An operation that may need memory is told whether it gets it.  What libu89
says about scalars and about grapheme clusters is `Unicode`; `Unicode.Segments` is what
its header promises of them.
-/

namespace Repl89

open List

open U89 (utf8Decode utf8Valid text)

/-- `repl89_error`. -/
inductive Error where
  | ok
  | enomem
  | eio
  | etty
  | eutf8
  | einval
  | estate
  deriving DecidableEq

/-- The classes of `u89_eaw` that the renderer tells apart. -/
inductive Eaw where
  | w
  | f
  | other
  deriving DecidableEq

/-! ## libu89 -/

/-- The functions of libu89 that the editor calls. -/
structure Unicode where
  isControl : Nat → Bool
  isMark : Nat → Bool
  defaultIgnorable : Nat → Bool
  eastAsianWidth : Nat → Eaw
  isEmojiPresentation : Nat → Bool
  graphemeNext : List UInt8 → Nat → Nat
  graphemePrev : List UInt8 → Nat → Nat
  graphemeBoundary : List UInt8 → Nat → Bool

/-- An offset between two scalars of a text. -/
def Between (s : List UInt8) (pos : Nat) : Prop :=
  ∃ as bs, s = text as ++ text bs ∧ pos = (text as).length

/-- What `u89.h` says of grapheme clusters in valid UTF-8, with the breaks before and
after a line feed. -/
structure Unicode.Segments (u : Unicode) : Prop where
  control_cr : u.isControl 0x0D = true
  between : ∀ s pos, utf8Valid s = true → u.graphemeBoundary s pos = true → Between s pos
  zero : ∀ s, utf8Valid s = true → u.graphemeBoundary s 0 = true
  stop : ∀ s, utf8Valid s = true → u.graphemeBoundary s s.length = true
  next_gt : ∀ s pos, utf8Valid s = true → pos < s.length → pos < u.graphemeNext s pos
  next_boundary : ∀ s pos, utf8Valid s = true → pos < s.length →
    u.graphemeBoundary s (u.graphemeNext s pos) = true
  next_least : ∀ s pos q, utf8Valid s = true → pos < q → u.graphemeBoundary s q = true →
    u.graphemeNext s pos ≤ q
  prev_lt : ∀ s pos, utf8Valid s = true → 0 < pos → pos ≤ s.length → u.graphemePrev s pos < pos
  prev_boundary : ∀ s pos, utf8Valid s = true → 0 < pos → pos ≤ s.length →
    u.graphemeBoundary s (u.graphemePrev s pos) = true
  after_lf : ∀ s i, utf8Valid s = true → s[i]? = some 0x0A → u.graphemeBoundary s (i + 1) = true
  before_lf : ∀ s i, utf8Valid s = true → s[i]? = some 0x0A → (0x0D : UInt8) ∉ s →
    u.graphemeBoundary s i = true

/-! ## Buffers -/

/-- `repl89_buf`: the `len` bytes in use and the capacity. -/
structure Buf where
  data : List UInt8
  cap : Nat
  le : data.length ≤ cap

namespace Buf

theorem init_le : ([] : List UInt8).length ≤ 0 := Nat.le_refl 0

/-- `repl89_buf_init`. -/
def init : Buf := ⟨[], 0, init_le⟩

/-- `repl89_buf_clear`. -/
def clear (b : Buf) : Buf := ⟨[], b.cap, Nat.zero_le _⟩

end Buf

/-- The loop of `repl89_cap_for` over `cap_more`.  It doubles from 16 on, so that 64
rounds are not used up. -/
def capLoop : Nat → Nat → Nat → Nat
  | 0, cap, _ => cap
  | k + 1, cap, rem =>
    if rem ≤ 16 then cap
    else if cap > (2 ^ 64 - 1) / 2 then cap
    else capLoop k (cap * 2) (rem / 2)

/-- `repl89_cap_for`. -/
def capFor (need : Nat) : Nat := capLoop 64 16 need

/-- `repl89_buf_reserve`: the capacity afterwards, if there is room. -/
def Buf.reserve (granted : Bool) (b : Buf) (extra : Nat) :
    Option { cap : Nat // b.data.length + extra ≤ cap } :=
  if h : extra ≤ b.cap - b.data.length then some ⟨b.cap, by have := b.le; omega⟩
  else
    let need := b.data.length + extra
    if !granted then none
    else if h : capFor need < need then some ⟨need, Nat.le_refl _⟩
    else some ⟨capFor need, Nat.le_of_not_lt h⟩

/-- `repl89_buf_insert`, at an offset within the buffer. -/
def Buf.insert (granted : Bool) (b : Buf) (pos : Nat) (p : List UInt8) : Error × Buf :=
  if p.length = 0 then (.ok, b)
  else
    match b.reserve granted p.length with
    | none => (.enomem, b)
    | some ⟨cap, h⟩ =>
      (.ok, ⟨b.data.take pos ++ p ++ b.data.drop pos, cap, by
        simp only [length_append, length_take, length_drop]
        omega⟩)

/-- `repl89_buf_delete`, of bytes within the buffer. -/
def Buf.delete (b : Buf) (pos n : Nat) : Buf :=
  if n = 0 then b
  else ⟨b.data.take pos ++ b.data.drop (pos + n), b.cap, by
    have := b.le
    simp only [length_append, length_take, length_drop]
    omega⟩

/-! ## Content policy -/

section

variable (u : Unicode)

/-- `allowed_control`. -/
def allowedControl (cp : Nat) : Bool :=
  if !u.isControl cp then true
  else if cp = 0x0A then true
  else if cp = 0x09 then true
  else false

theorem utf8Decode_lt {s : List UInt8} {pos cp next : Nat}
    (h : utf8Decode s pos = .ok (cp, next)) : pos < next := by
  obtain ⟨c, -, -, rfl⟩ := U89.utf8Decode_iff.mp h
  have := U89.utf8EncodeChar_pos c
  omega

/-- The loop of `scan_allowed`. -/
def scanAllowed (p : List UInt8) (pos : Nat) : Bool :=
  if pos < p.length then
    match _ : utf8Decode p pos with
    | .error _ => false
    | .ok (cp, next) => if !allowedControl u cp then false else scanAllowed p next
  else true
termination_by p.length - pos
decreasing_by
  rename_i hd _
  have := utf8Decode_lt hd
  omega

/-- `repl89_content_check`. -/
def contentCheck (p : List UInt8) : Error :=
  if !utf8Valid p then .eutf8
  else if !scanAllowed u p 0 then .einval
  else .ok

/-! ## The editor -/

/-- `repl89_edit`. -/
structure Edit where
  buf : Buf
  cursor : Nat

namespace Edit

/-- `repl89_edit_init`. -/
def init : Edit := ⟨Buf.init, 0⟩

/-- `repl89_edit_reset`. -/
def reset (e : Edit) : Edit := ⟨e.buf.clear, 0⟩

/-- The bytes of the editor. -/
def data (e : Edit) : List UInt8 := e.buf.data

/-- `repl89_edit_insert`. -/
def insert (granted : Bool) (e : Edit) (p : List UInt8) : Error × Edit :=
  match contentCheck u p with
  | .ok =>
    match e.buf.insert granted e.cursor p with
    | (.ok, b) => (.ok, ⟨b, e.cursor + p.length⟩)
    | (err, _) => (err, e)
  | err => (err, e)

/-- `repl89_edit_delete_prev`. -/
def deletePrev (e : Edit) : Edit :=
  if e.cursor = 0 then e
  else
    let prev := u.graphemePrev e.data e.cursor
    ⟨e.buf.delete prev (e.cursor - prev), prev⟩

/-- `repl89_edit_delete_next`. -/
def deleteNext (e : Edit) : Edit :=
  if e.cursor ≥ e.data.length then e
  else
    let next := u.graphemeNext e.data e.cursor
    ⟨e.buf.delete e.cursor (next - e.cursor), e.cursor⟩

/-- `repl89_edit_left`. -/
def left (e : Edit) : Edit :=
  if e.cursor = 0 then e else { e with cursor := u.graphemePrev e.data e.cursor }

/-- `repl89_edit_right`. -/
def right (e : Edit) : Edit :=
  if e.cursor ≥ e.data.length then e else { e with cursor := u.graphemeNext e.data e.cursor }

end Edit

/-- The loop of `line_begin`. -/
def lineBeginLoop (data : List UInt8) : Nat → Nat
  | 0 => 0
  | i + 1 => if data.getD i 0 == 0x0A then i + 1 else lineBeginLoop data i

/-- `line_begin`. -/
def lineBegin (e : Edit) : Nat := lineBeginLoop e.data e.cursor

/-- The loop of `line_end`, which runs at most to the end of the bytes. -/
def lineEndLoop (data : List UInt8) : Nat → Nat → Nat
  | 0, i => i
  | k + 1, i =>
    if i < data.length then
      if data.getD i 0 == 0x0A then i else lineEndLoop data k (i + 1)
    else i

/-- `line_end`. -/
def lineEnd (e : Edit) : Nat := lineEndLoop e.data (e.data.length - e.cursor) e.cursor

namespace Edit

/-- `repl89_edit_home`. -/
def home (e : Edit) : Edit := { e with cursor := lineBegin e }

/-- `repl89_edit_end`. -/
def toEnd (e : Edit) : Edit := { e with cursor := lineEnd e }

/-- `repl89_edit_kill_begin`. -/
def killBegin (e : Edit) : Edit :=
  let start := lineBegin e
  ⟨e.buf.delete start (e.cursor - start), start⟩

/-- `repl89_edit_kill_end`. -/
def killEnd (e : Edit) : Edit :=
  ⟨e.buf.delete e.cursor (lineEnd e - e.cursor), e.cursor⟩

end Edit

end

end Repl89
