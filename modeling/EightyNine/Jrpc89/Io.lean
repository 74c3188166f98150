import Mathlib.Algebra.Group.Nat.Defs

/-!
# Newline-delimited frames

The framing of `io.c` over the seam `jrpc89_sys_read` and `jrpc89_sys_write`.  Each
attempt at the seam is interrupted some number of times before it ends: a read takes a
byte, meets the end of the stream or fails, and a write takes some of the bytes or
fails.
-/

namespace Jrpc89

/-- `jrpc89_status`. -/
inductive Status where
  | ok
  | eof
  | einval
  | eio
  | etoolong
  | etrunc

/-- `'\n'`. -/
def newline : UInt8 := 0x0A

/-! ## The seam -/

/-- The write side of a pipe: the bytes it has taken, how often the next attempt is
interrupted and how many bytes it then takes (`none` if it fails), and the same for the
attempts after it. -/
structure Writer where
  written : List UInt8
  interrupts : Nat
  takes : Option Nat
  later : Nat → Nat × Option Nat

/-- The result of one attempt to write. -/
inductive SysWrite where
  | ok (put : Nat)
  | intr
  | err

/-- The attempt is over. -/
def Writer.next (w : Writer) : Writer :=
  { w with interrupts := (w.later 0).1, takes := (w.later 0).2, later := fun n => w.later (n + 1) }

/-- `jrpc89_sys_write`.  An attempt that is not interrupted and does not fail takes at least
one byte, and no more than there are. -/
def sysWrite (w : Writer) (buf : List UInt8) : SysWrite × Writer :=
  match w.interrupts with
  | n + 1 => (.intr, { w with interrupts := n })
  | 0 =>
    match w.takes with
    | none => (.err, w.next)
    | some n =>
      let put := max 1 (min n buf.length)
      (.ok put, { w.next with written := w.written ++ buf.take put })

/-- The read side of a pipe: what it holds, the bytes and the attempts that fail among them,
and how often the next attempt and those after it are interrupted. -/
structure Reader where
  items : List (Option UInt8)
  interrupts : Nat
  later : Nat → Nat

/-- The result of one attempt to read a byte. -/
inductive SysRead where
  | ok (c : UInt8)
  | intr
  | eof
  | err

/-- The attempt is over. -/
def Reader.next (r : Reader) : Reader :=
  { r with interrupts := r.later 0, later := fun n => r.later (n + 1) }

/-- `jrpc89_sys_read` for one byte. -/
def sysRead (r : Reader) : SysRead × Reader :=
  match r.interrupts with
  | n + 1 => (.intr, { r with interrupts := n })
  | 0 =>
    match r.items with
    | [] => (.eof, r.next)
    | none :: items => (.err, { r.next with items })
    | some c :: items => (.ok c, { r.next with items })

/-! ## Writing -/

theorem sysWrite_intr {w w' : Writer} {buf : List UInt8} (h : sysWrite w buf = (.intr, w')) :
    w'.interrupts < w.interrupts := by
  unfold sysWrite at h
  split at h
  · rename_i n hn
    rw [hn, ← (Prod.mk.inj h).2]
    exact Nat.lt_succ_self n
  · split at h <;> cases h

/-- `jrpc89_write_once`: the bytes that were taken, or a failure. -/
def writeOnce (w : Writer) (buf : List UInt8) : Option Nat × Writer :=
  match h : sysWrite w buf with
  | (.intr, w') => writeOnce w' buf
  | (.ok put, w') => (some put, w')
  | (.err, w') => (none, w')
termination_by w.interrupts
decreasing_by exact sysWrite_intr h

theorem writeOnce_pos {w w' : Writer} {buf : List UInt8} {put : Nat}
    (h : writeOnce w buf = (some put, w')) : 1 ≤ put := by
  induction w using writeOnce.induct buf with
  | case1 w w1 hstep ih =>
    rw [writeOnce] at h
    split at h
    · rename_i w2 h2
      rw [hstep] at h2
      cases h2
      exact ih h
    · rename_i h2
      rw [hstep] at h2
      cases h2
    · cases h
  | case2 w n w1 hstep =>
    rw [writeOnce] at h
    split at h
    · rename_i h2
      rw [hstep] at h2
      cases h2
    · rename_i m w2 h2
      cases h
      unfold sysWrite at h2
      split at h2
      · cases h2
      · split at h2
        · cases h2
        · cases h2
          exact Nat.le_max_left 1 _
    · cases h
  | case3 w w1 hstep =>
    rw [writeOnce] at h
    split at h
    · rename_i h2
      rw [hstep] at h2
      cases h2
    · rename_i h2
      rw [hstep] at h2
      cases h2
    · cases h

/-- `jrpc89_write_bytes`, from the bytes that are left. -/
def writeBytes (w : Writer) (buf : List UInt8) : Bool × Writer :=
  if hbuf : buf = [] then (true, w)
  else
    match h : writeOnce w buf with
    | (none, w') => (false, w')
    | (some put, w') => writeBytes w' (buf.drop put)
termination_by buf.length
decreasing_by
  have hpos := List.length_pos_iff.mpr hbuf
  have hput := writeOnce_pos h
  rw [List.length_drop]
  omega

/-- `jrpc89_fd_write_frame` on a descriptor that is not negative. -/
def fdWriteFrame (w : Writer) (json : List UInt8) : Status × Writer :=
  if json = [] then (.einval, w)
  else if json.contains newline then (.einval, w)
  else
    match writeBytes w json with
    | (false, w) => (.eio, w)
    | (true, w) =>
      match writeBytes w [newline] with
      | (false, w) => (.eio, w)
      | (true, w) => (.ok, w)

/-! ## Reading -/

theorem sysRead_intr {r r' : Reader} (h : sysRead r = (.intr, r')) : r'.interrupts < r.interrupts := by
  unfold sysRead at h
  split at h
  · rename_i n hn
    rw [hn, ← (Prod.mk.inj h).2]
    exact Nat.lt_succ_self n
  · split at h <;> cases h

/-- What `jrpc89_read_one` gives: a byte, the end of the stream or a failure. -/
inductive ReadOne where
  | byte (c : UInt8)
  | eof
  | err

/-- `jrpc89_read_one`. -/
def readOne (r : Reader) : ReadOne × Reader :=
  match h : sysRead r with
  | (.intr, r') => readOne r'
  | (.ok c, r') => (.byte c, r')
  | (.eof, r') => (.eof, r')
  | (.err, r') => (.err, r')
termination_by r.interrupts
decreasing_by exact sysRead_intr h

/-- What an attempt gives once it is not interrupted. -/
def ReadOne.ofItems : List (Option UInt8) → ReadOne
  | [] => .eof
  | none :: _ => .err
  | some c :: _ => .byte c

theorem readOne_eq (r : Reader) :
    (readOne r).1 = .ofItems r.items ∧ (readOne r).2.items = r.items.tail := by
  rcases r with ⟨items, interrupts, later⟩
  induction interrupts with
  | zero => cases items with
    | nil =>
      rw [readOne]
      exact ⟨rfl, rfl⟩
    | cons item items => cases item with
      | none | some c =>
        rw [readOne]
        exact ⟨rfl, rfl⟩
  | succ n ih =>
    rw [readOne]
    exact ih

/-- The variables of the loop of `jrpc89_fd_read_frame`. -/
structure Frame where
  buf : List UInt8
  i : Nat
  found : Bool
  toobig : Bool
  err : Bool
  eof : Bool

/-- `jrpc89_ingest`: whether the frame ends, and the variables. -/
def ingest (f : Frame) (limit : Nat) (c : UInt8) : Bool × Frame :=
  if f.toobig then (c == newline, f)
  else if c = newline then (true, { f with found := true })
  else if f.i ≥ limit then (false, { f with toobig := true })
  else (false, { f with buf := f.buf.set f.i c, i := f.i + 1 })

/-- `jrpc89_read_step`. -/
def readStep (r : Reader) (f : Frame) (limit : Nat) : Bool × Frame × Reader :=
  match readOne r with
  | (.byte c, r) => ((ingest f limit c).1, (ingest f limit c).2, r)
  | (.eof, r) => (true, { f with eof := true }, r)
  | (.err, r) => (true, { f with err := true }, r)

theorem readStep_shorter {r r' : Reader} {f f' : Frame} {limit : Nat}
    (h : readStep r f limit = (false, f', r')) : r'.items.length < r.items.length := by
  obtain ⟨hread, htail⟩ := readOne_eq r
  rcases hitems : r.items with _ | ⟨item, items⟩
  · rw [readStep] at h
    rcases hone : readOne r with ⟨_ | _ | _, r1⟩ <;> rw [hone, hitems] at hread <;> rw [hone] at h
    · cases hread
    · cases h
    · cases h
  · rw [readStep] at h
    rcases hone : readOne r with ⟨_ | _ | _, r1⟩ <;> rw [hone] at h htail
    · obtain rfl := congrArg (fun x => x.2.2) h
      rw [htail, hitems]
      exact Nat.lt_succ_self _
    · cases h
    · cases h

/-- The loop of `jrpc89_fd_read_frame`. -/
def readLoop (r : Reader) (f : Frame) (limit : Nat) : Frame × Reader :=
  if f.found then (f, r)
  else
    match h : readStep r f limit with
    | (true, f, r) => (f, r)
    | (false, f, r) => readLoop r f limit
termination_by r.items.length
decreasing_by exact readStep_shorter h

/-- What a call of `jrpc89_fd_read_frame` leaves: its status, the buffer and `*out_len`. -/
structure ReadFrame where
  status : Status
  buf : List UInt8
  outLen : Nat

/-- `jrpc89_end_status`. -/
def endStatus (i : Nat) : Status := if i = 0 then .eof else .etrunc

/-- `jrpc89_fd_read_frame` into a buffer whose capacity is its length; `*out_len` is `outLen`. -/
def fdReadFrame (r : Reader) (buf : List UInt8) (outLen : Nat) : ReadFrame × Reader :=
  if buf.length = 0 then (⟨.einval, buf, outLen⟩, r)
  else
    let (f, r) := readLoop r ⟨buf, 0, false, false, false, false⟩ (buf.length - 1)
    if f.found then (⟨.ok, f.buf.set f.i 0, f.i⟩, r)
    else
      let clear := f.buf.set 0 0
      if f.err then (⟨.eio, clear, 0⟩, r)
      else if f.toobig then (⟨.etoolong, clear, 0⟩, r)
      else if f.eof then (⟨endStatus f.i, clear, 0⟩, r)
      else (⟨.eio, clear, 0⟩, r)

end Jrpc89
