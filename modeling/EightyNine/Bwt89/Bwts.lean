import EightyNine.Bwt89.Types

/-!
# The bijective transform and its inverse

`bbwt` cuts the input into Lyndon words by Duval's scan, sorts the conjugates of all
words by their infinite periodic strings, and writes the last byte of each.  `ibbwt`
follows the cycles of the LF map and writes each from the end of the output to the
front.  `alloc k` says whether the `k`-th allocation of a call succeeds.  An answer
`none` would be a `while` that outlives its bound or a store before the output; no
input gives it (`bbwt_bijection`).
-/

namespace Bwt89

open Library
open Function (update)

/-! ## The order of the conjugates -/

section Conjugates

variable (s : Nat → UInt8) (ws ln : Nat → Nat)

def conjByte (p d : Nat) : UInt8 :=
  s (ws p + ((p - ws p) + d) % ln p)

def diffAt (p q d : Nat) : Int :=
  if conjByte s ws ln p d < conjByte s ws ln q d then -1
  else if conjByte s ws ln p d > conjByte s ws ln q d then 1
  else 0

/-- The loop of `conjCmp` from `d` on, with `k` passes to go. -/
def conjCmpFrom (p q : Nat) : Nat → Nat → Int
  | _, 0 => 0
  | d, k + 1 => if diffAt s ws ln p q d ≠ 0 then diffAt s ws ln p q d else conjCmpFrom p q (d + 1) k

def conjCmp (p q : Nat) : Int :=
  conjCmpFrom s ws ln p q 0 (ln p + ln q)

end Conjugates

/-! ## Duval's scan -/

/-- The window of the scan: `*a`, `*b` and the `cont` of `factor_word`. -/
structure Window where
  a : Nat
  b : Nat
  cont : Bool

def duvalStep (s : Nat → UInt8) (n p : Nat) (w : Window) : Window :=
  if w.b ≥ n then { w with cont := false }
  else if s w.a > s w.b then { w with cont := false }
  else if s w.a < s w.b then { a := p, b := w.b + 1, cont := true }
  else { a := w.a + 1, b := w.b + 1, cont := true }

/-- The words found so far: `starts`, `*nw` and the position `*pp`. -/
structure Starts where
  starts : Nat → Nat
  nw : Nat
  p : Nat

def recordStart (len : Nat) (st : Starts) : Starts :=
  { starts := update st.starts st.nw st.p, nw := st.nw + 1, p := st.p + len }

def factorWord (s : Nat → UInt8) (n : Nat) (st : Starts) : Option Starts :=
  (whileLoop (·.cont) (fun w => some (duvalStep s n st.p w)) (n + 1)
      { a := st.p, b := st.p + 1, cont := true }).bind fun w =>
    whileLoop (fun st' => decide (st'.p ≤ w.a)) (fun st' => some (recordStart (w.b - w.a) st'))
      (n + 1) st

/-- The word starts and lengths of the positions, and the word `*w` of the last one. -/
structure Words where
  ws : Nat → Nat
  ln : Nat → Nat
  w : Nat

def fillWord (starts : Nat → Nat) (n i : Nat) (f : Words) : Option Words :=
  (whileLoop (fun w => decide (starts (w + 1) ≤ i)) (fun w => some (w + 1)) (n + 1) f.w).map
    fun w =>
      { ws := update f.ws i (starts w)
        ln := update f.ln i (starts (w + 1) - starts w)
        w := w }

def factorize (s : Nat → UInt8) (n : Nat) : Option Words :=
  (whileLoop (fun st => decide (st.p < n)) (factorWord s n) (n + 1)
      { starts := fun _ => 0, nw := 0, p := 0 }).bind fun st =>
    forUp 0 n (fun i f => f.bind (fillWord (update st.starts st.nw n) n i))
      (some { ws := fun _ => 0, ln := fun _ => 0, w := 0 })

/-! ## The merge sort -/

section Sorting

variable (s : Nat → UInt8) (ws ln : Nat → Nat)

def takeRight (ord : Nat → Nat) (i j mid hi : Nat) : Bool :=
  if j ≥ hi then false
  else if i ≥ mid then true
  else decide (conjCmp s ws ln (ord j) (ord i) < 0)

def copyToTmp (ord : Nat → Nat) (dst src : Nat) (tmp : Nat → Nat) : Nat → Nat :=
  update tmp dst (ord src)

def copyFromTmp (tmp : Nat → Nat) (t : Nat) (ord : Nat → Nat) : Nat → Nat :=
  update ord t (tmp t)

/-- The merge under way: `i`, `j` and the scratch array.  The `k` of the source is the
counter of its loop. -/
structure Merge where
  i : Nat
  j : Nat
  tmp : Nat → Nat

def mergeOne (ord : Nat → Nat) (mid hi k : Nat) (m : Merge) : Merge :=
  if takeRight s ws ln ord m.i m.j mid hi then
    { i := m.i, j := m.j + 1, tmp := copyToTmp ord k m.j m.tmp }
  else
    { i := m.i + 1, j := m.j, tmp := copyToTmp ord k m.i m.tmp }

/-- Both arrays of the sort. -/
structure Runs where
  ord : Nat → Nat
  tmp : Nat → Nat

def mergeRun (lo mid hi : Nat) (r : Runs) : Runs :=
  let tmp := forUp lo hi (fun t => copyToTmp r.ord t t) r.tmp
  let m := forUp lo hi (mergeOne s ws ln r.ord mid hi) { i := lo, j := mid, tmp := tmp }
  { ord := forUp lo hi (copyFromTmp m.tmp) r.ord, tmp := m.tmp }

def sortRun (lo hi : Nat) (r : Runs) : Runs :=
  if hi - lo ≤ 1 then r
  else
    let mid := lo + (hi - lo) / 2
    mergeRun s ws ln lo mid hi (sortRun mid hi (sortRun lo mid r))
termination_by hi - lo

def sortPositions (n : Nat) (r : Runs) : Runs :=
  sortRun s ws ln 0 n r

def emitConjugate (ord : Nat → Nat) (i : Nat) (out : Nat → UInt8) : Nat → UInt8 :=
  update out i (conjByte s ws ln (ord i) (ln (ord i) - 1))

end Sorting

/-! ## The LF cycles -/

/-- The `less` array under construction and the running sum `acc`. -/
structure Sums where
  less : Nat → Nat
  acc : Nat

def prefixNext (freq : Nat → Nat) (c : Nat) (t : Sums) : Sums :=
  { less := update t.less c t.acc, acc := t.acc + freq c }

/-- The LF map under construction; a row that was walked has rank `-1`. -/
structure Ranks where
  rank : Nat → Int
  less : Nat → Nat

def rankAssign (b : Nat → UInt8) (i : Nat) (r : Ranks) : Ranks :=
  { rank := update r.rank i (r.less (b i).toNat)
    less := update r.less (b i).toNat (r.less (b i).toNat + 1) }

/-- A walk along a cycle: the row, the output, the ranks, and the write index `*wi`. -/
structure Walk where
  pos : Nat
  out : Nat → UInt8
  rank : Nat → Int
  wi : Nat
  done : Bool

/-- Write one byte of a cycle, and advance or finish.  There is no store below index 0. -/
def walkOne (b : Nat → UInt8) (w : Walk) : Option Walk :=
  if w.wi = 0 then none
  else
    let nxt := w.rank w.pos
    let w' : Walk :=
      { w with
        out := update w.out (w.wi - 1) (b w.pos)
        rank := update w.rank w.pos (-1)
        wi := w.wi - 1 }
    if nxt < 0 then some { w' with done := true }
    else if w'.rank nxt.toNat < 0 then some { w' with done := true }
    else some { w' with pos := nxt.toNat }

def runCycle (b : Nat → UInt8) (n start : Nat) (w : Walk) : Option Walk :=
  whileLoop (fun w => !w.done) (walkOne b) (n + 1) { w with pos := start, done := false }

def runCycles (b : Nat → UInt8) (n : Nat) (w : Walk) : Option Walk :=
  forUp 0 n
    (fun i w => w.bind fun w => if w.rank i ≥ 0 then runCycle b n i w else some w) (some w)

/-! ## The public calls -/

/-- `bwt89_bbwt` on the buffers `s` and `out`, both of the length of `s`. -/
def bbwt (alloc : Nat → Bool) (s out : List UInt8) : Option (Status × List UInt8) :=
  let n := s.length
  if n > maxN then some (.tooLarge, out)
  else if n = 0 then some (.ok, out)
  else if !alloc 0 then some (.nomem, out)
  else if !alloc 1 then some (.nomem, out)
  else
    let src := bytesOf s
    (factorize src n).map fun f =>
      let ord := forUp 0 n (fun i ord => update ord i i) fun _ => 0
      let r := sortPositions src f.ws f.ln n { ord := ord, tmp := fun _ => 0 }
      (.ok, readBytes n (forUp 0 n (emitConjugate src f.ws f.ln r.ord) (bytesOf out)))

/-- The byte counts of `ibbwt`. -/
def countBytes (b : Nat → UInt8) (n : Nat) : Nat → Nat :=
  forUp 0 n (fun i freq => update freq (b i).toNat (freq (b i).toNat + 1)) fun _ => 0

/-- The LF map that `ibbwt` builds from the byte counts. -/
def buildRanks (b : Nat → UInt8) (n : Nat) : Ranks :=
  let sums := forUp 0 alphabet (prefixNext (countBytes b n)) { less := fun _ => 0, acc := 0 }
  forUp 0 n (rankAssign b) { rank := fun _ => 0, less := sums.less }

/-- `bwt89_ibbwt` on the buffers `b` and `out`, both of the length of `b`. -/
def ibbwt (alloc : Nat → Bool) (b out : List UInt8) : Option (Status × List UInt8) :=
  let n := b.length
  if n > maxN then some (.tooLarge, out)
  else if n = 0 then some (.ok, out)
  else if !alloc 0 then some (.nomem, out)
  else if !alloc 1 then some (.nomem, out)
  else
    let src := bytesOf b
    (runCycles src n
        { pos := 0, out := bytesOf out, rank := (buildRanks src n).rank, wi := n,
          done := false }).map fun w =>
      (.ok, readBytes n w.out)

end Bwt89

/-!
## The bijective transform in `int`

The functions of `Bwts` as the source computes them: each `int` expression is checked
against the range of the type.  The variables and arrays hold naturals as they do there,
so a difference that falls below zero where it is stored is a fault as well.
-/

namespace Bwt89.Ints

open Library
open Function (update)

/-! ## The order of the conjugates -/

section Conjugates

variable (s : Nat → UInt8) (ws ln : Nat → Nat)

def conjByte (p d : Nat) : Checked UInt8 := do
  let back ← int.sub p (ws p)
  let sum ← int.add back d
  let off ← int.rem sum (ln p)
  let pos ← int.add (ws p) off
  let pos ← toNatural pos
  pure (s pos)

def diffAt (p q d : Nat) : Checked Int := do
  let x ← conjByte s ws ln p d
  let y ← conjByte s ws ln q d
  pure (if x < y then -1 else if x > y then 1 else 0)

def conjCmp (p q : Nat) : Checked Int := do
  let lim ← int.add (ln p) (ln q)
  int.forBreak 0 lim.toNat
    (fun d _ => do
      let r ← diffAt s ws ln p q d
      pure (if r ≠ 0 then .done r else .yield 0)) 0

end Conjugates

/-! ## Duval's scan -/

def duvalStep (s : Nat → UInt8) (n p : Nat) (w : Window) : Checked Window :=
  if w.b ≥ n then pure { w with cont := false }
  else if s w.a > s w.b then pure { w with cont := false }
  else if s w.a < s w.b then do
    let b ← int.add w.b 1
    let b ← toNatural b
    pure { a := p, b := b, cont := true }
  else do
    let a ← int.add w.a 1
    let a ← toNatural a
    let b ← int.add w.b 1
    let b ← toNatural b
    pure { a := a, b := b, cont := true }

def recordStart (len : Nat) (st : Starts) : Checked Starts := do
  let nw ← int.add st.nw 1
  let nw ← toNatural nw
  let p ← int.add st.p len
  let p ← toNatural p
  pure { starts := update st.starts st.nw st.p, nw := nw, p := p }

def factorWord (s : Nat → UInt8) (n : Nat) (st : Starts) : Checked Starts := do
  let b ← int.add st.p 1
  let b ← toNatural b
  let w ← whileChecked (·.cont) (duvalStep s n st.p) (n + 1) { a := st.p, b := b, cont := true }
  let len ← int.sub w.b w.a
  let len ← toNatural len
  whileChecked (fun st' => decide (st'.p ≤ w.a)) (recordStart len) (n + 1) st

def fillWord (starts : Nat → Nat) (n i : Nat) (f : Words) : Checked Words := do
  let w ← whileChecked (fun w => decide (starts (w + 1) ≤ i))
    (fun w => do
      let w ← int.add w 1
      toNatural w) (n + 1) f.w
  let next ← int.add w 1
  let next ← toNatural next
  let len ← int.sub (starts next) (starts w)
  let len ← toNatural len
  pure { ws := update f.ws i (starts w), ln := update f.ln i len, w := w }

def factorize (s : Nat → UInt8) (n : Nat) : Checked Words := do
  let st ← whileChecked (fun st => decide (st.p < n)) (factorWord s n) (n + 1)
    { starts := fun _ => 0, nw := 0, p := 0 }
  int.forUp 0 n (fun i f => fillWord (update st.starts st.nw n) n i f)
    { ws := fun _ => 0, ln := fun _ => 0, w := 0 }

/-! ## The merge sort -/

section Sorting

variable (s : Nat → UInt8) (ws ln : Nat → Nat)

def takeRight (ord : Nat → Nat) (i j mid hi : Nat) : Checked Bool :=
  if j ≥ hi then pure false
  else if i ≥ mid then pure true
  else do
    let cmp ← conjCmp s ws ln (ord j) (ord i)
    pure (decide (cmp < 0))

def mergeOne (ord : Nat → Nat) (mid hi k : Nat) (m : Merge) : Checked Merge := do
  let right ← takeRight s ws ln ord m.i m.j mid hi
  if right then do
    let j ← int.add m.j 1
    let j ← toNatural j
    pure { i := m.i, j := j, tmp := copyToTmp ord k m.j m.tmp }
  else do
    let i ← int.add m.i 1
    let i ← toNatural i
    pure { i := i, j := m.j, tmp := copyToTmp ord k m.i m.tmp }

def mergeRun (lo mid hi : Nat) (r : Runs) : Checked Runs := do
  let tmp ← int.forUp lo hi (fun t tmp => pure (copyToTmp r.ord t t tmp)) r.tmp
  let m ← int.forUp lo hi (mergeOne s ws ln r.ord mid hi) { i := lo, j := mid, tmp := tmp }
  let ord ← int.forUp lo hi (fun t ord => pure (copyFromTmp m.tmp t ord)) r.ord
  pure { ord := ord, tmp := m.tmp }

/-- With a bound on the depth of the recursion. -/
def sortRun : Nat → (lo hi : Nat) → Runs → Checked Runs
  | 0, _, _, _ => .error .bound
  | fuel + 1, lo, hi, r => do
    let len ← int.sub hi lo
    if len ≤ 1 then pure r
    else do
      let half ← int.div len 2
      let mid ← int.add lo half
      let mid ← toNatural mid
      let r ← sortRun fuel lo mid r
      let r ← sortRun fuel mid hi r
      mergeRun s ws ln lo mid hi r

def sortPositions (n : Nat) (r : Runs) : Checked Runs :=
  sortRun s ws ln (n + 1) 0 n r

def emitConjugate (ord : Nat → Nat) (i : Nat) (out : Nat → UInt8) : Checked (Nat → UInt8) := do
  let last ← int.sub (ln (ord i)) 1
  let last ← toNatural last
  let b ← conjByte s ws ln (ord i) last
  pure (update out i b)

end Sorting

/-! ## The LF cycles -/

def prefixNext (freq : Nat → Nat) (c : Nat) (t : Sums) : Checked Sums := do
  let acc ← int.add t.acc (freq c)
  let acc ← toNatural acc
  pure { less := update t.less c t.acc, acc := acc }

def rankAssign (b : Nat → UInt8) (i : Nat) (r : Ranks) : Checked Ranks := do
  let next ← int.add (r.less (b i).toNat) 1
  let next ← toNatural next
  pure
    { rank := update r.rank i (r.less (b i).toNat)
      less := update r.less (b i).toNat next }

def walkOne (b : Nat → UInt8) (w : Walk) : Checked Walk := do
  let k ← int.sub w.wi 1
  let k ← toNatural k
  let nxt := w.rank w.pos
  let w' : Walk :=
    { w with
      out := update w.out k (b w.pos)
      rank := update w.rank w.pos (-1)
      wi := k }
  if nxt < 0 then pure { w' with done := true }
  else if w'.rank nxt.toNat < 0 then pure { w' with done := true }
  else pure { w' with pos := nxt.toNat }

def runCycle (b : Nat → UInt8) (n start : Nat) (w : Walk) : Checked Walk :=
  whileChecked (fun w => !w.done) (walkOne b) (n + 1) { w with pos := start, done := false }

def runCycles (b : Nat → UInt8) (n : Nat) (w : Walk) : Checked Walk :=
  int.forUp 0 n (fun i w => if w.rank i ≥ 0 then runCycle b n i w else pure w) w

/-! ## The public calls -/

/-- The offsets of `bbwt` into its scratch block: `2 * N`, `3 * N` and `4 * N`. -/
def blockOffsets (N : Int) : Checked Unit := do
  let _ ← int.mul 2 N
  let _ ← int.mul 3 N
  let _ ← int.mul 4 N
  pure ()

/-- `bwt89_bbwt` on the buffers `s` and `out`, both of the length of `s`. -/
def bbwt (alloc : Nat → Bool) (s out : List UInt8) : Checked (Status × List UInt8) :=
  if s.length > maxN then pure (.tooLarge, out)
  else if s.length = 0 then pure (.ok, out)
  else do
    let N ← int.eval s.length
    if alloc 0 = false then pure (.nomem, out)
    else do
      blockOffsets N
      if alloc 1 = false then pure (.nomem, out)
      else do
        let n := N.toNat
        let src := bytesOf s
        let f ← factorize src n
        let ord ← int.forUp 0 n (fun i ord => pure (update ord i i)) fun _ => 0
        let r ← sortPositions src f.ws f.ln n { ord := ord, tmp := fun _ => 0 }
        let b ← int.forUp 0 n (emitConjugate src f.ws f.ln r.ord) (bytesOf out)
        pure (.ok, readBytes n b)

def countBytes (b : Nat → UInt8) (n : Nat) : Checked (Nat → Nat) :=
  int.forUp 0 n
    (fun i freq => do
      let c ← int.add (freq (b i).toNat) 1
      let c ← toNatural c
      pure (update freq (b i).toNat c)) fun _ => 0

def buildRanks (b : Nat → UInt8) (n : Nat) : Checked Ranks := do
  let freq ← countBytes b n
  let sums ← int.forUp 0 alphabet (prefixNext freq) { less := fun _ => 0, acc := 0 }
  int.forUp 0 n (rankAssign b) { rank := fun _ => 0, less := sums.less }

/-- `bwt89_ibbwt` on the buffers `b` and `out`, both of the length of `b`. -/
def ibbwt (alloc : Nat → Bool) (b out : List UInt8) : Checked (Status × List UInt8) :=
  if b.length > maxN then pure (.tooLarge, out)
  else if b.length = 0 then pure (.ok, out)
  else do
    let N ← int.eval b.length
    if alloc 0 = false then pure (.nomem, out)
    else if alloc 1 = false then pure (.nomem, out)
    else do
      let n := N.toNat
      let src := bytesOf b
      let r ← buildRanks src n
      let w ← runCycles src n
        { pos := 0, out := bytesOf out, rank := r.rank, wi := n, done := false }
      pure (.ok, readBytes n w.out)

end Bwt89.Ints
