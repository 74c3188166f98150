import EightyNine.Bwt89.Types

/-!
# The suffix array

`saIs` is the linear-time construction: the suffixes are typed, the starts of the LMS
substrings are sorted by two induced passes and named, the string of the names is
sorted by recursion, and its order seeds the final passes.  All `int` arithmetic is
checked.  Fresh arrays hold zeros here; nothing that was not stored is used.
`alloc k` says whether the `k`-th allocation of a call succeeds.
-/

namespace Bwt89

open Library Function

/-- The type of a suffix, `enum bwt89_sa_type`. -/
inductive SaType
  | l
  | s
  deriving DecidableEq

/-! ## Values -/

def addv (a b : Int) : Checked Int := int.add a b

def classifyOne (a b : Int) (nb : SaType) : SaType :=
  if a < b then .s
  else if a > b then .l
  else nb

/-- The position starts an LMS substring. -/
def lmsStart (t : Int → SaType) (n x : Int) : Checked Bool :=
  if t x ≠ .s then pure false
  else do
    let last ← int.sub n 1
    if x = last then pure true
    else if x = 0 then pure false
    else do
      let before ← int.sub x 1
      pure (decide (t before = .l))

def findNextLms (t : Int → SaType) (n start : Int) : Checked Int := do
  let first ← int.add start 1
  int.forBreak first.toNat n.toNat
    (fun i _ => do
      let found ← lmsStart t n i
      pure (if found then .done (i : Int) else .yield n)) n

def lmsEqual (s : Int → Int) (t : Int → SaType) (n a b : Int) : Checked Bool := do
  let ea ← findNextLms t n a
  let eb ← findNextLms t n b
  let la ← int.sub ea a
  let lb ← int.sub eb b
  if la ≠ lb then pure false
  else
    int.forBreak a.toNat ea.toNat
      (fun i _ => do
        let d ← int.sub i a
        let j ← int.add b d
        pure (if s i ≠ s j then .done false else .yield true)) true

def nextName (s : Int → Int) (t : Int → SaType) (n a b cur : Int) : Checked Int := do
  let same ← lmsEqual s t n a b
  if same then pure cur else int.add cur 1

/-! ## Workers -/

def classifyTypes (s : Int → Int) (n : Int) : Checked (Int → SaType) := do
  let last ← int.sub n 1
  let first ← int.sub n 2
  int.forDown
    (fun i t => do
      let next ← int.add i 1
      pure (update t i (classifyOne (s i) (s next) (t next))))
    (first + 1).toNat (update (fun _ => .l) last .s)

def zeroRange (a : Int → Int) (len : Int) : Checked (Int → Int) :=
  int.forUp 0 len.toNat (fun i a => pure (update a i 0)) a

def fillNeg (a : Int → Int) (len : Int) : Checked (Int → Int) :=
  int.forUp 0 len.toNat (fun i a => pure (update a i (-1))) a

def countSymbols (s : Int → Int) (n : Int) (cnt : Int → Int) : Checked (Int → Int) :=
  int.forUp 0 n.toNat
    (fun i cnt => do
      let c ← int.add (cnt (s i)) 1
      pure (update cnt (s i) c)) cnt

/-- Where the bucket of each symbol starts. -/
def makeHeads (cnt : Int → Int) (K : Int) (bkt : Int → Int) : Checked (Int → Int) :=
  int.forUp 1 (K + 1).toNat
    (fun c bkt => do
      let d ← int.sub c 1
      let sum ← addv (bkt d) (cnt d)
      pure (update bkt c sum)) (update bkt 0 0)

/-- Where the bucket of each symbol ends. -/
def makeTails (cnt : Int → Int) (K : Int) (bkt : Int → Int) : Checked (Int → Int) :=
  int.forUp 1 (K + 1).toNat
    (fun c bkt => do
      let d ← int.sub c 1
      let sum ← addv (bkt d) (cnt c)
      pure (update bkt c sum)) (update bkt 0 (cnt 0))

/-- The suffix array under construction and the free places of the buckets. -/
structure Buckets where
  sa : Int → Int
  bkt : Int → Int

def placeHead (sym val : Int) (b : Buckets) : Checked Buckets := do
  let next ← int.add (b.bkt sym) 1
  pure { sa := update b.sa (b.bkt sym) val, bkt := update b.bkt sym next }

def placeTail (sym val : Int) (b : Buckets) : Checked Buckets := do
  let j ← int.sub (b.bkt sym) 1
  pure { sa := update b.sa j val, bkt := update b.bkt sym j }

/-- An array filled from the front, with its length `*k`. -/
structure Marks where
  ls : Int → Int
  k : Int

def recordLms (i : Int) (m : Marks) : Checked Marks := do
  let next ← int.add m.k 1
  pure { ls := update m.ls m.k i, k := next }

def placeLms (t : Int → SaType) (n i : Int) (m : Marks) : Checked Marks := do
  let starts ← lmsStart t n i
  if starts then recordLms i m else pure m

def appendSorted (sa : Int → Int) (t : Int → SaType) (n i : Int) (m : Marks) : Checked Marks :=
  if sa i ≥ 0 then placeLms t n (sa i) m else pure m

def seedOne (s : Int → Int) (t : Int → SaType) (n i : Int) (b : Buckets) : Checked Buckets := do
  let starts ← lmsStart t n i
  if starts then placeTail (s i) i b else pure b

def inducedLStep (s : Int → Int) (t : Int → SaType) (i : Int) (b : Buckets) : Checked Buckets :=
  if b.sa i ≤ 0 then pure b
  else do
    let prev ← int.sub (b.sa i) 1
    if t prev ≠ .l then pure b else placeHead (s prev) prev b

def inducedSStep (s : Int → Int) (t : Int → SaType) (i : Int) (b : Buckets) : Checked Buckets :=
  if b.sa i ≤ 0 then pure b
  else do
    let prev ← int.sub (b.sa i) 1
    if t prev ≠ .s then pure b else placeTail (s prev) prev b

/-- The names under assignment, kept in `sa`, and the last name `*num`. -/
structure Naming where
  sa : Int → Int
  num : Int

def nameOne (ls s : Int → Int) (t : Int → SaType) (n i : Int) (m : Naming) : Checked Naming := do
  let before ← int.sub i 1
  let nxt ← nextName s t n (ls before) (ls i) m.num
  pure { sa := update m.sa (ls i) nxt, num := nxt }

def buildS1 (sa : Int → Int) (t : Int → SaType) (n i : Int) (m : Marks) : Checked Marks := do
  let starts ← lmsStart t n i
  if starts then recordLms (sa i) m else pure m

def buildInverse (s1 sa1 : Int → Int) (m : Int) : Checked (Int → Int) :=
  int.forUp 0 m.toNat (fun r sa1 => pure (update sa1 (s1 r) r)) sa1

def finalSeedOne (s ls sa1 : Int → Int) (rank : Int) (b : Buckets) : Checked Buckets :=
  placeTail (s (ls (sa1 rank))) (ls (sa1 rank)) b

/-! ## The recursive core

The body of `sa_is_core` in four parts: the layout of the scratch block, the induced
passes that follow a seeding of the buckets, the sorting of the LMS substrings, and
their names. -/

/-- The offsets `2 * n`, `3 * n` and `4 * n` into the arena. -/
def arenaOffsets (n : Int) : Checked Unit := do
  let _ ← int.mul 2 n
  let _ ← int.mul 3 n
  let _ ← int.mul 4 n
  pure ()

/-- The passes that follow a seeding: the L suffixes upwards, then the S suffixes
downwards. -/
def induce (s : Int → Int) (t : Int → SaType) (n K : Int) (cnt : Int → Int) (b : Buckets) :
    Checked Buckets := do
  let heads ← makeHeads cnt K b.bkt
  let b ← int.forUp 0 n.toNat (fun i => inducedLStep s t i) { b with bkt := heads }
  let tails ← makeTails cnt K b.bkt
  let last ← int.sub n 1
  int.forDown (fun i => inducedSStep s t i) (last + 1).toNat { b with bkt := tails }

/-- What a level keeps: the types, the counts, the buckets, and the LMS positions in
their sorted order. -/
structure Level where
  t : Int → SaType
  cnt : Int → Int
  b : Buckets
  marks : Marks

/-- The LMS substrings sorted by induction. -/
def sortLms (s sa : Int → Int) (n K : Int) : Checked Level := do
  let t ← classifyTypes s n
  let width ← int.add K 1
  let cnt ← zeroRange (fun _ => 0) width
  let cnt ← countSymbols s n cnt
  let marks ← int.forUp 0 n.toNat (fun i => placeLms t n i) { ls := fun _ => 0, k := 0 }
  let sa ← fillNeg sa n
  let tails ← makeTails cnt K fun _ => 0
  let last ← int.sub n 1
  let b ← int.forDown (fun i => seedOne s t n i) (last + 1).toNat { sa := sa, bkt := tails }
  let b ← induce s t n K cnt b
  let marks ← int.forUp 0 n.toNat (fun i => appendSorted b.sa t n i) { marks with k := 0 }
  pure { t := t, cnt := cnt, b := b, marks := marks }

/-- The string of the names, its length, and the names in `sa`. -/
structure Named where
  names : Naming
  s1 : Marks

def nameLms (s : Int → Int) (n : Int) (l : Level) : Checked Named := do
  let sa ← fillNeg l.b.sa n
  let sa := if l.marks.k > 0 then update sa (l.marks.ls 0) 0 else sa
  let names ← int.forUp 1 l.marks.k.toNat (fun i => nameOne l.marks.ls s l.t n i)
    { sa := sa, num := 0 }
  let s1 ← int.forUp 0 n.toNat (fun i => buildS1 names.sa l.t n i) { ls := fun _ => 0, k := 0 }
  pure { names := names, s1 := s1 }

/-- The suffix array from the order of the LMS substrings. -/
def sortAll (s : Int → Int) (n K : Int) (l : Level) (sa sa1 : Int → Int) :
    Checked (Int → Int) := do
  let marks ← int.forUp 0 n.toNat (fun i => placeLms l.t n i) { l.marks with k := 0 }
  let sa ← fillNeg sa n
  let tails ← makeTails l.cnt K l.b.bkt
  let last ← int.sub marks.k 1
  let b ← int.forDown (fun rank => finalSeedOne s marks.ls sa1 rank) (last + 1).toNat
    { sa := sa, bkt := tails }
  let b ← induce s l.t n K l.cnt b
  pure b.sa

/-- The return value and the array. -/
structure SaResult where
  err : Int
  sa : Int → Int

/-- `sa_is_core`, with a bound on the depth of the recursion; `a` is the number of the
next allocation. -/
def saIsCore (alloc : Nat → Bool) : Nat → Nat → (s sa : Int → Int) → (n K : Int) → Checked SaResult
  | 0, _, _, _, _, _ => .error .bound
  | fuel + 1, a, s, sa, n, K =>
    if n = 1 then pure { err := 0, sa := update sa 0 0 }
    else if n ≤ 1 then pure { err := 0, sa := sa }
    else do
      let _ ← int.add K 1
      if alloc a = false then pure { err := 1, sa := sa }
      else do
        arenaOffsets n
        let l ← sortLms s sa n K
        let named ← nameLms s n l
        let count ← int.add named.names.num 1
        let r ← (if count = named.s1.k then do
            let sa1 ← buildInverse named.s1.ls (fun _ => 0) named.s1.k
            pure { err := 0, sa := sa1 }
          else saIsCore alloc fuel (a + 1) named.s1.ls (fun _ => 0) named.s1.k named.names.num :
          Checked SaResult)
        if r.err ≠ 0 then pure { err := r.err, sa := named.names.sa }
        else do
          let sa ← sortAll s n K l named.names.sa r.sa
          pure { err := 0, sa := sa }

def saIs (alloc : Nat → Bool) (a : Nat) (s sa : Int → Int) (n K : Int) : Checked SaResult :=
  saIsCore alloc (n.toNat + 1) a s sa n K

end Bwt89
