import EightyNine.Library.Block
import EightyNine.U89.Traverse

/-!
# Normalization

The tables that the build generates are a parameter: rows, and the pool that the
mappings point into.  The workspace and the destination are blocks that remember
what was written to them.  A null workspace comes with an empty text, and nothing
is written to it.
-/

namespace U89

open Library (Block)

/-! ## The tables -/

/-- `u89_crange`. -/
structure CRange where
  lo : Nat
  hi : Nat
  ccc : Nat

/-- `u89_mapping`. -/
structure Mapping where
  cp : Nat
  offset : Nat
  length : Nat

/-- `u89_comp`. -/
structure Comp where
  first : Nat
  second : Nat
  result : Nat

/-- The generated data.  No mapping is longer than the longest decomposition. -/
structure Tables where
  cccRanges : List CRange
  canon : List Mapping
  compat : List Mapping
  casefoldMap : List Mapping
  casefoldTurkicMap : List Mapping
  compTbl : List Comp
  mappingPool : Nat → Nat
  small : ∀ row ∈ canon ++ compat ++ casefoldMap ++ casefoldTurkicMap, row.length ≤ 18

variable (T : Tables)

/-- The scalars of a mapping. -/
def Tables.scalars (row : Mapping) : List Nat :=
  (List.range row.length).map fun k => T.mappingPool (row.offset + k)

/-! ## Ranges and classes -/

def sBase : Nat := 0xAC00
def lBase : Nat := 0x1100
def vBase : Nat := 0x1161
def tBase : Nat := 0x11A7
def lCount : Nat := 19
def vCount : Nat := 21
def tCount : Nat := 28
def nCount : Nat := vCount * tCount
def sCount : Nat := lCount * nCount

/-- `in_range`. -/
def inRange (v lo hi : Nat) : Bool :=
  if v < lo then false
  else if v ≥ hi then false
  else true

/-- `hangul_syllable`. -/
def hangulSyllable (cp : Nat) : Bool :=
  if cp < sBase then false
  else if cp ≥ sBase + sCount then false
  else true

/-- `ccc_probe`. -/
def cccProbe (row : CRange) (cp : Nat) : Int :=
  if cp < row.lo then -1
  else if cp > row.hi then 0
  else row.ccc

/-- The loop of `get_ccc`. -/
def cccOf : List CRange → Nat → Int
  | [], _ => 0
  | row :: rows, cp =>
    let code := cccProbe row cp
    if code < 0 then 0
    else if code ≠ 0 then code
    else cccOf rows cp

/-- `get_ccc`. -/
def getCcc (cp : Nat) : Int := cccOf T.cccRanges cp

/-! ## Decomposition -/

/-- `decomp_find_index` and `fold_index`: the row of the scalar. -/
def findRow : List Mapping → Nat → Option Mapping
  | [], _ => none
  | row :: rows, cp =>
    if cp < row.cp then none
    else if cp > row.cp then findRow rows cp
    else some row

/-- `decomp_emit`: what it writes to a scratch of `slots`, `none` when there is no room. -/
def decompEmit (row : Mapping) (slots : Nat) : Option (List Nat) :=
  if slots < row.length then none else some (T.scalars row)

/-- `hangul_decomp`, `[]` when the scalar is no syllable. -/
def hangulDecomp (cp slots : Nat) : Option (List Nat) :=
  if !hangulSyllable cp then some []
  else
    let sindex := cp - sBase
    let l := lBase + sindex / nCount
    let v := vBase + sindex % nCount / tCount
    let t2 := tBase + sindex % tCount
    let n := if t2 ≠ tBase then 3 else 2
    if n > slots then none
    else if n = 3 then some [l, v, t2]
    else some [l, v]

/-- `identity_decomp`. -/
def identityDecomp (cp slots : Nat) : Option (List Nat) :=
  if slots < 1 then none else some [cp]

/-- `decompose_one`. -/
def decomposeOne (cp : Nat) (compat : Bool) (slots : Nat) : Option (List Nat) :=
  match hangulDecomp cp slots with
  | none => none
  | some (c :: cs) => some (c :: cs)
  | some [] =>
    match findRow (if compat then T.compat else T.canon) cp with
    | none => identityDecomp cp slots
    | some row => decompEmit T row slots

/-! ## Canonical reordering -/

/-- `run_end`. -/
def runEnd (w : Block Nat) (count i : Nat) : Nat :=
  if i ≥ count then i
  else if getCcc T (w.get i) = 0 then i
  else runEnd w count (i + 1)
termination_by count - i

/-- `sort_step`. -/
def sortStep (w : Block Nat) (b lo : Nat) : Block Nat × Nat :=
  if b ≤ lo then (w, lo)
  else if getCcc T (w.get b) ≥ getCcc T (w.get (b - 1)) then (w, lo)
  else ((w.put b (w.get (b - 1))).put (b - 1) (w.get b), b - 1)

theorem sortStep_lt {w : Block Nat} {b lo : Nat} (h : lo < b) : (sortStep T w b lo).2 < b := by
  unfold sortStep
  split
  · exact h
  · split
    · exact h
    · exact Nat.sub_lt (by omega) Nat.one_pos

/-- The loop of `sort_insert`. -/
def sortInsert (w : Block Nat) (b lo : Nat) : Block Nat :=
  if lo < b then sortInsert (sortStep T w b lo).1 (sortStep T w b lo).2 lo else w
termination_by b
decreasing_by exact sortStep_lt T ‹_›

/-- `sort_run`. -/
def sortRun (w : Block Nat) (lo hi : Nat) : Block Nat :=
  Library.forUp (lo + 1) hi (fun a w => sortInsert T w a lo) w

/-- `reorder_advance`. -/
def reorderAdvance (w : Block Nat) (count i : Nat) : Block Nat × Nat :=
  if getCcc T (w.get i) = 0 then (w, i + 1)
  else
    let hi := runEnd T w count i
    (sortRun T w i hi, hi)

theorem le_runEnd (w : Block Nat) (count i : Nat) : i ≤ runEnd T w count i := by
  induction i using runEnd.induct T w count with
  | case1 i h => rw [runEnd, if_pos h]
  | case2 i h hc => rw [runEnd, if_neg h, if_pos hc]
  | case3 i h hc ih =>
    rw [runEnd, if_neg h, if_neg hc]
    omega

theorem lt_reorderAdvance {w : Block Nat} {count i : Nat} (h : i < count) :
    i < (reorderAdvance T w count i).2 := by
  unfold reorderAdvance
  split
  · exact Nat.lt_succ_self i
  · rename_i hc
    have := le_runEnd T w count (i + 1)
    show i < runEnd T w count i
    rw [runEnd, if_neg (by omega), if_neg hc]
    omega

/-- The loop of `reorder`. -/
def reorderFrom (w : Block Nat) (count i : Nat) : Block Nat :=
  if i < count then
    reorderFrom (reorderAdvance T w count i).1 count (reorderAdvance T w count i).2
  else w
termination_by count - i
decreasing_by
  have := lt_reorderAdvance T (w := w) ‹i < count›
  omega

/-- `reorder`. -/
def reorder (w : Block Nat) (count : Nat) : Block Nat := reorderFrom T w count 0

/-! ## Canonical composition -/

/-- `lv_pair`. -/
def lvPair (first second : Nat) : Nat :=
  if !inRange first lBase (lBase + lCount) then 0
  else if !inRange second vBase (vBase + vCount) then 0
  else sBase + ((first - lBase) * vCount + (second - vBase)) * tCount

/-- `lvt_pair`. -/
def lvtPair (first second : Nat) : Nat :=
  if !hangulSyllable first then 0
  else if (first - sBase) % tCount ≠ 0 then 0
  else if second ≤ tBase then 0
  else if second ≥ tBase + tCount then 0
  else first + (second - tBase)

/-- `hangul_pair`. -/
def hangulPair (first second : Nat) : Nat :=
  if lvPair first second ≠ 0 then lvPair first second else lvtPair first second

/-- `comp_probe`. -/
def compProbe (row : Comp) (first second : Nat) : Nat :=
  if row.first < first then 0
  else if row.first > first then 2
  else if row.second < second then 0
  else if row.second > second then 2
  else 1

/-- The loop of `compose_pair`. -/
def findPair : List Comp → Nat → Nat → Option Nat
  | [], _, _ => none
  | row :: rows, first, second =>
    let code := compProbe row first second
    if code = 1 then some row.result
    else if code = 2 then none
    else findPair rows first second

/-- `compose_pair`. -/
def composePair (first second : Nat) : Option Nat :=
  if hangulPair first second ≠ 0 then some (hangulPair first second)
  else findPair T.compTbl first second

/-- `struct cst`. -/
structure Cst where
  j : Nat
  starter : Nat
  has : Bool
  adj : Bool
  last : Int

/-- `cst_init`. -/
def cstInit : Cst where
  j := 0
  starter := 0
  has := false
  adj := false
  last := 0

/-- `cst_starter`. -/
def cstStarter (s : Cst) : Cst := { s with starter := s.j, has := true, adj := true, last := 0 }

/-- `cst_mark`. -/
def cstMark (s : Cst) (cls : Int) : Cst := { s with adj := false, last := cls }

/-- `comp_emit`. -/
def compEmit (s : Cst) (w : Block Nat) (ch : Nat) (cls : Int) : Block Nat × Cst :=
  let s0 := if cls = 0 then cstStarter s else cstMark s cls
  (w.put s.j ch, { s0 with j := s0.j + 1 })

/-- `comp_commit`. -/
def compCommit (s : Cst) (w : Block Nat) (res : Nat) : Block Nat × Cst :=
  (w.put s.starter res, { s with adj := true, last := 0 })

/-- `comp_allowed`. -/
def compAllowed (adj : Bool) (last cls : Int) : Bool :=
  if adj then true
  else if last < cls then true
  else false

/-- What `compose_step` composes the scalar with the starter into. -/
def composeTry (w : Block Nat) (ch : Nat) (s : Cst) : Option Nat :=
  let allowed := if s.has then compAllowed s.adj s.last (getCcc T ch) else false
  if allowed then composePair T (w.get s.starter) ch else none

/-- `compose_step`. -/
def composeStep (w : Block Nat) (i : Nat) (s : Cst) : Block Nat × Cst :=
  match composeTry T w (w.get i) s with
  | some res => compCommit s w res
  | none => compEmit s w (w.get i) (getCcc T (w.get i))

/-- `compose`: the workspace and how many scalars are left. -/
def compose (w : Block Nat) (count : Nat) : Block Nat × Nat :=
  let r := Library.forUp 0 count (fun i r => composeStep T r.1 i r.2) (w, cstInit)
  (r.1, r.2.j)

/-! ## The driver -/

/-- Where the decoding loop stands: the byte, the workspace and its length. -/
structure Progress where
  i : Nat
  w : Block Nat
  m : Nat

/-- `decode_append`. -/
def decodeAppend (s : List UInt8) (compat : Bool) (wcap : Nat) (p : Progress) :
    Except Status Progress :=
  match utf8Decode s p.i with
  | .error _ => .error .eutf8
  | .ok (cp, next) =>
    match decomposeOne T cp compat 32 with
    | none => .error .ework
    | some tmp =>
      if p.m + tmp.length > wcap then .error .ework
      else .ok ⟨next, p.w.putAll p.m tmp, p.m + tmp.length⟩

theorem decodeAppend_lt {s : List UInt8} {compat : Bool} {wcap : Nat} {p q : Progress}
    (h : decodeAppend T s compat wcap p = .ok q) : p.i < q.i := by
  unfold decodeAppend at h
  split at h
  · cases h
  · rename_i hd
    obtain ⟨c, _, _, rfl⟩ := utf8Decode_iff.mp hd
    have := utf8EncodeChar_pos c
    split at h
    · cases h
    · split at h
      · cases h
      · cases h
        show p.i < p.i + _
        omega

/-- The loop over the text, with the status it returns when it does not come to the end. -/
def decodeLoop (s : List UInt8) (compat : Bool) (wcap : Nat) (p : Progress) :
    Progress × Option Status :=
  if p.i < s.length then
    match _ : decodeAppend T s compat wcap p with
    | .error st => (p, some st)
    | .ok q => decodeLoop s compat wcap q
  else (p, none)
termination_by s.length - p.i
decreasing_by
  rename_i h
  have := decodeAppend_lt T h
  omega

/-- `u89_utf8_len`. -/
def utf8Len (cp : Nat) : Nat :=
  if !isScalar cp then 0
  else if cp < 0x80 then 1
  else if cp < 0x800 then 2
  else if cp < 0x10000 then 3
  else 4

/-- `out_bytes_of`. -/
def outBytesOf (w : Block Nat) (m : Nat) : Nat :=
  Library.forUp 0 m (fun i total => total + utf8Len (w.get i)) 0

/-- The loop of `u89_normalize_ex` over `enc_forward`. -/
def encodeAll (w : Block Nat) (m : Nat) (dst : Block UInt8) : Block UInt8 × Nat :=
  Library.forUp 0 m
    (fun i r => (r.1.putAll r.2 (utf8Encode (w.get i)), r.2 + (utf8Encode (w.get i)).length))
    (dst, 0)

/-- `form_compat`. -/
def formCompat (mode : Int) : Bool :=
  if mode = 2 then true
  else if mode = 3 then true
  else false

/-- `form_compose`. -/
def formCompose (mode : Int) : Bool :=
  if mode = 0 then true
  else if mode = 2 then true
  else false

/-- The values of a `size_t`. -/
def sizeLimit : Nat := 2 ^ 64

/-- `mul_overflow`. -/
def mulOverflow (a b : Nat) : Bool :=
  if a ≠ 0 then b > (sizeLimit - 1) / a else false

/-- `u89_normalize_work_bound`. -/
def normalizeWorkBound (s : List UInt8) : Except Status Nat :=
  if !utf8Valid s then .error .eutf8
  else if mulOverflow s.length 18 then .error .eoverflow
  else .ok (s.length * 18)

/-- `u89_normalize_out_bound`. -/
def normalizeOutBound (s : List UInt8) : Except Status Nat :=
  if !utf8Valid s then .error .eutf8
  else if mulOverflow s.length 72 then .error .eoverflow
  else .ok (s.length * 72)

/-- A size converted to `int`. -/
def toInt (n : Nat) : Int := Int.bmod n (2 ^ 32)

/-- What a call returns, and the blocks after it. -/
structure Outcome where
  ret : Int
  dst : Option (Block UInt8)
  work : Option (Block Nat)

/-- `u89_normalize_ex` from the decoded text on: the scalars of the result. -/
def arrange (mode : Int) (w : Block Nat) (m : Nat) : Block Nat × Nat :=
  if formCompose mode then compose T (reorder T w m) m else (reorder T w m, m)

/-- The end of `u89_normalize_ex`. -/
def deliver (c : Block Nat × Nat) (dst : Option (Block UInt8)) (dstCap : Nat) : Outcome :=
  let total := outBytesOf c.1 c.2
  match dst with
  | none =>
    if total > 0x7FFFFFFF then ⟨Status.enospc.code, none, some c.1⟩
    else ⟨toInt total, none, some c.1⟩
  | some d =>
    if dstCap < total then ⟨Status.enospc.code, some d, some c.1⟩
    else
      let e := encodeAll c.1 c.2 d
      ⟨toInt e.2, some e.1, some c.1⟩

/-- `u89_normalize_ex`. -/
def normalizeEx (mode : Int) (s : List UInt8) (dst : Option (Block UInt8)) (dstCap : Nat)
    (work : Option (Block Nat)) (workCap : Nat) : Outcome :=
  if mode < 0 then ⟨Status.einval.code, dst, work⟩
  else if mode > 3 then ⟨Status.einval.code, dst, work⟩
  else
    match work with
    | none =>
      if s.length ≠ 0 then ⟨Status.einval.code, dst, none⟩
      else ⟨0, dst, none⟩
    | some w =>
      let r := decodeLoop T s (formCompat mode) workCap ⟨0, w, 0⟩
      match r.2 with
      | some st => ⟨st.code, dst, some r.1.w⟩
      | none => deliver (arrange T mode r.1.w r.1.m) dst dstCap

end U89
