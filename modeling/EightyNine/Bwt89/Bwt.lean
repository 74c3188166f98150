import EightyNine.Bwt89.Sais

/-!
# The regular transform and its inverse

A sentinel below all bytes is appended, the suffixes are sorted, and the last column of
the sorted rotations is written without the sentinel, whose row is the `index`.  `ibwt`
puts the sentinel back, follows the LF map once to see that it passes through all rows,
and once more to write.  All `int` arithmetic is checked.
-/

namespace Bwt89

open Library Function

/-- `BWT89_SENTINEL`. -/
def sentinel : Int := 0

/-- `BWT89_ALPHA`. -/
def alpha : Int := 256

/-! ## Values -/

def rankByte (b : UInt8) : Checked Int := int.add b.toNat 1

def realSlot (k index : Nat) : Nat := if k < index then k else k + 1

def outputSlot (row orig : Nat) : Nat := if row < orig then row else row - 1

def lowerCount (freq : Int → Int) (c : Nat) : Checked Int :=
  int.forUp 0 c (fun k acc => addv acc (freq k)) 0

/-! ## The forward transform -/

def buildSymbols (s : Nat → UInt8) (n : Nat) : Checked (Int → Int) := do
  let sym ← size.forUp 0 n
    (fun i sym => do
      let c ← rankByte (s i)
      pure (update sym (i : Int) c)) fun _ => 0
  pure (update sym n sentinel)

/-- The row of the text itself. -/
def locateOrig (sa : Int → Int) (N : Nat) : Checked Nat :=
  size.forBreak 0 N (fun i _ => pure (if sa i = 0 then .done i else .yield (i + 1))) 0

def emitRow (sym : Int → Int) (p N : Int) (row orig : Nat) (out : Nat → UInt8) :
    Checked (Nat → UInt8) :=
  if row = orig then pure out
  else do
    let sum ← int.add p N
    let pos ← int.sub sum 1
    let i ← int.rem pos N
    let v ← int.sub (sym i) 1
    pure (update out (outputSlot row orig) (UInt8.ofInt v))

/-- The status, `*index` and the output. -/
structure BwtResult where
  status : Status
  index : Nat
  out : List UInt8

/-- `bwt89_bwt` on the buffers `s` and `out`, both of the length of `s`. -/
def bwt (alloc : Nat → Bool) (s : List UInt8) (index : Nat) (out : List UInt8) :
    Checked BwtResult :=
  if s.length > maxN then pure { status := .tooLarge, index := index, out := out }
  else if s.length = 0 then pure { status := .ok, index := 0, out := out }
  else do
    let n ← int.eval s.length
    let N ← int.add n 1
    if alloc 0 = false then pure { status := .nomem, index := index, out := out }
    else do
      let sym ← buildSymbols (bytesOf s) s.length
      let r ← saIs alloc 1 sym (fun _ => 0) N alpha
      if r.err ≠ 0 then pure { status := .nomem, index := index, out := out }
      else do
        let orig ← locateOrig r.sa N.toNat
        let b ← size.forUp 0 N.toNat (fun i => emitRow sym (r.sa i) N i orig) (bytesOf out)
        pure { status := .ok, index := orig, out := readBytes s.length b }

/-! ## The inverse transform -/

def buildLast (b : Nat → UInt8) (n index : Nat) : Checked (Int → Int) :=
  size.forUp 0 n
    (fun k last => do
      let c ← rankByte (b k)
      pure (update last (realSlot k index : Int) c))
    (update (fun _ => 0) (index : Int) sentinel)

def tallyLast (last : Int → Int) (N : Int) (freq : Int → Int) : Checked (Int → Int) :=
  int.forUp 0 N.toNat
    (fun i freq => do
      let c ← int.add (freq (last i)) 1
      pure (update freq (last i) c)) freq

def buildLess (freq : Int → Int) (M : Int) : Checked (Int → Int) :=
  int.forUp 0 (M + 1).toNat
    (fun c less => do
      let sum ← lowerCount freq c
      pure (update less (c : Int) sum)) fun _ => 0

def zeroOcc (M : Int) : Checked (Int → Int) :=
  int.forUp 0 (M + 1).toNat (fun c occ => pure (update occ (c : Int) 0)) fun _ => 0

/-- The LF map under construction: the symbols seen so far and `row_of`. -/
structure LfMap where
  occ : Int → Int
  rowOf : Int → Int

def mapRow (less : Int → Int) (sym i : Int) (m : LfMap) : Checked LfMap := do
  let r ← int.add (less sym) (m.occ sym)
  let c ← int.add (m.occ sym) 1
  pure { occ := update m.occ sym c, rowOf := update m.rowOf i r }

/-- The row of a walk and the output. -/
structure RowWalk where
  row : Int
  out : Nat → UInt8

def walkRow (rowOf last : Int → Int) (pos : Nat) (w : RowWalk) : Checked RowWalk :=
  let row := rowOf w.row
  if last row = sentinel then pure { w with row := -1 }
  else do
    let v ← int.sub (last row) 1
    pure { row := row, out := update w.out pos (UInt8.ofInt v) }

/-- A step that writes nothing; `-1` marks the sentinel. -/
def stepPeek (rowOf last : Int → Int) (row : Int) : Int :=
  if last (rowOf row) = sentinel then -1 else rowOf row

/-- The LF map of the rows, from the last column. -/
def buildRows (last : Int → Int) (N : Int) : Checked LfMap := do
  let freq ← zeroOcc alpha
  let freq ← tallyLast last N freq
  let less ← buildLess freq alpha
  let occ ← zeroOcc alpha
  size.forUp 0 N.toNat
    (fun i m => do
      let k ← int.eval i
      mapRow less (last i) k m) { occ := occ, rowOf := fun _ => 0 }

/-- `bwt89_ibwt` on the buffers `b` and `out`, both of the length of `b`. -/
def ibwt (alloc : Nat → Bool) (b : List UInt8) (index : Nat) (out : List UInt8) :
    Checked (Status × List UInt8) :=
  if b.length = 0 then pure (if index ≠ 0 then .badIndex else .ok, out)
  else if index > b.length then pure (.badIndex, out)
  else if b.length > maxN then pure (.tooLarge, out)
  else do
    let n ← int.eval b.length
    let N ← int.add n 1
    let _ ← int.add alpha 1
    if alloc 0 = false then pure (.nomem, out)
    else do
      let _ ← int.mul 2 N
      let last ← buildLast (bytesOf b) b.length index
      let m ← buildRows last N
      let row ← int.eval index
      let seen ← size.forBreak 0 b.length
        (fun _ row =>
          let row := stepPeek m.rowOf last row
          pure (if row < 0 then .done row else .yield row)) row
      if seen < 0 then pure (.badData, out)
      else do
        let w ← size.forBreak 0 b.length
          (fun i w => do
            let w ← walkRow m.rowOf last (b.length - 1 - i) w
            pure (if w.row < 0 then .done w else .yield w)) { row := row, out := bytesOf out }
        pure (.ok, readBytes b.length w.out)

end Bwt89
