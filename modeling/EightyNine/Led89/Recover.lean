import EightyNine.Led89.Read

/-!
# libledger89: opening a ledger

`src/ledger89_recover.c`, `led89_gc_orphans` of `src/ledger89_manifest.c`, the names of
`src/ledger89_util.c` and `led89_open_io` of `src/ledger89.c`.  A directory is its
names and files in the order they are listed.  The calls of the file system succeed,
and fail only for a missing file, a read past the end of a file or a name that
`list_next` cannot hold.  What is left behind when an open fails is not modelled.
-/

namespace Led89

/-! ## Names -/

/-- `led89_hex_digit` and its digits. -/
def hexDigit (value i : Nat) : UInt8 :=
  [0x30, 0x31, 0x32, 0x33, 0x34, 0x35, 0x36, 0x37, 0x38, 0x39,
    0x61, 0x62, 0x63, 0x64, 0x65, 0x66].getD (value >>> ((15 - i) * 4) &&& 0x0F) 0

/-- `led89_hex16`. -/
def hex16 (value : Nat) : Bytes := (List.range 16).map (hexDigit value)

/-- `led89_hex_value`. -/
def hexValue (c : UInt8) : Option Nat :=
  if 0x30 ≤ c ∧ c ≤ 0x39 then some (c.toNat - 0x30)
  else if 0x61 ≤ c ∧ c ≤ 0x66 then some (c.toNat - 0x61 + 10)
  else none

/-- `led89_hex_accum`. -/
def hexAccum (value digit : Nat) : Nat := (value <<< 4) % u64Size ||| digit

/-- `led89_hex16_parse`, on what is left of the sixteen digits. -/
def hex16Parse : Bytes → Nat → Option Nat
  | [], value => some value
  | c :: b, value =>
    match hexValue c with
    | none => none
    | some digit => hex16Parse b (hexAccum value digit)

/-- `LED89_PART_PREFIX`: "part.". -/
def partPrefix : Bytes := [0x70, 0x61, 0x72, 0x74, 0x2E]

/-- `LED89_MANIFEST_PREFIX`: "MANIFEST.". -/
def manifestPrefix : Bytes := [0x4D, 0x41, 0x4E, 0x49, 0x46, 0x45, 0x53, 0x54, 0x2E]

/-- `LED89_LOCK_NAME`: "lock". -/
def lockName : Bytes := [0x6C, 0x6F, 0x63, 0x6B]

/-- `LED89_CURRENT_NAME`: "CURRENT". -/
def currentName : Bytes := [0x43, 0x55, 0x52, 0x52, 0x45, 0x4E, 0x54]

/-- `LED89_CURRENT_TMP_NAME`: "CURRENT.tmp". -/
def currentTmpName : Bytes := currentName ++ [0x2E, 0x74, 0x6D, 0x70]

/-- `led89_part_name`. -/
def partName (fileId : Nat) : Bytes := partPrefix ++ hex16 fileId

/-- `led89_manifest_name`. -/
def manifestName (generation : Nat) : Bytes := manifestPrefix ++ hex16 generation

/-- `led89_part_name_parse` and `led89_manifest_name_parse`. -/
def nameParse (start name : Bytes) : Option Nat :=
  if name.length ≠ start.length + 16 then none
  else if name.take start.length ≠ start then none
  else hex16Parse (name.drop start.length) 0

/-! ## Directories -/

abbrev Dir := List (Bytes × File)

/-- `unlink`. -/
def Dir.unlink (d : Dir) (name : Bytes) : Dir := d.filter fun e => e.1 ≠ name

/-- A file is written whole under a name, new or not. -/
def Dir.put (d : Dir) (name : Bytes) (f : File) : Dir :=
  match d.lookup name with
  | none => d ++ [(name, f)]
  | some _ => d.map fun e => if e.1 = name then (name, f) else e

/-- `io->truncate` to a size the file has. -/
def File.truncate (f : File) (size : Nat) : File where
  bytes := f.bytes.take size
  bound := by
    have h := f.bound
    rw [List.length_take]
    omega

/-- `led89_read_file`. -/
def readFile (d : Dir) (name : Bytes) : Except Err Bytes :=
  match d.lookup name with
  | none => .error .enoent
  | some f => .ok f.bytes

/-- `led89_write_new_file`; a file beyond the range of `off_t` cannot be written. -/
def writeNewFile (d : Dir) (name b : Bytes) : Except Err Dir :=
  if h : b.length < 2 ^ 63 then .ok (d.put name ⟨b, h⟩) else .error .eio

/-- `led89_current_read`. -/
def currentRead (d : Dir) : Except Err Nat := do
  let b ← readFile d currentName
  if b.length ≠ 32 then .error .ecorrupt
  else currentDecode b

/-- `led89_manifest_read`. -/
def manifestRead (d : Dir) (generation : Nat) : Except Err Manifest := do
  let b ← readFile d (manifestName generation)
  manifestDecode b

/-! ## Scanning a part -/

/-- A failed decoding is reported as `LEDGER89_ECORRUPT`. -/
def corrupt {α : Type} (r : Except Err α) : Except Err α :=
  match r with
  | .error _ => .error .ecorrupt
  | .ok a => .ok a

/-- `led89_scan_header`. -/
def scanHeader (l : Ledger) (i : Nat) (f : File) : Except Err Unit := do
  let hdr ← io (f.pread 64 0)
  let ph ← corrupt (partHeaderDecode hdr)
  if ph.uuid ≠ l.id then .error .ecorrupt
  else if ph.fileId ≠ (l.part i).desc.fileId then .error .ecorrupt
  else if ph.first ≠ (l.part i).desc.first then .error .ecorrupt
  else .ok ()

/-- What `led89_scan_baseline` and `led89_scan_marker_at` ask of a marker. -/
def markerFits (l : Ledger) (i : Nat) (isSealed : Bool) (m : Marker) (expected : Nat) : Bool :=
  m.uuid = l.id ∧ m.fileId = (l.part i).desc.fileId ∧ (isSealed = false → m.revision = l.revision) ∧
    m.end_ = expected

/-- `led89_scan_marker_at`. -/
def scanMarkerAt (l : Ledger) (i : Nat) (isSealed : Bool) (off expected : Nat) (f : File) :
    Except Err Unit := do
  let mb ← io (f.pread markerSize off)
  let m ← corrupt (markerDecode mb)
  if markerFits l i isSealed m expected then .ok () else .error .ecorrupt

/-- `led89_scan_baseline`: the marker after the header, at the part's `first`. -/
def scanBaseline (l : Ledger) (i : Nat) (isSealed : Bool) (f : File) : Except Err Unit :=
  scanMarkerAt l i isSealed partHeaderSize (l.part i).desc.first f

/-- `led89_scan_footer`. -/
def scanFooter (l : Ledger) (i size : Nat) (f : File) : Except Err SealedFooter :=
  if size < 64 + 64 + 64 then .error .ecorrupt
  else do
    let fbuf ← io (f.pread 64 (u64Left size 64))
    let sf ← corrupt (sealedFooterDecode fbuf)
    if sf.uuid ≠ l.id then .error .ecorrupt
    else if sf.fileId ≠ (l.part i).desc.fileId then .error .ecorrupt
    else if sf.first ≠ (l.part i).desc.first then .error .ecorrupt
    else if sf.end_ ≠ (l.part i).desc.end_ then .error .ecorrupt
    else if sf.records ≠ u64Left sf.end_ sf.first then .error .ecorrupt
    else .ok sf

/-- `led89_scan_batch_at`: the entry of the batch and the offset and index after it. -/
def scanBatchAt (i off limit expected : Nat) (f : File) :
    Except Err (BatchDirEntry × Nat × Nat) :=
  if atAdd off 56 > limit then .error .ecorrupt
  else do
    let hb ← io (f.pread 32 off)
    let bh ← corrupt (batchHeaderDecode hb)
    if bh.first ≠ expected then .error .ecorrupt
    else if bh.bytes > u64Left limit off then .error .ecorrupt
    else do
      let fb ← io (f.pread 24 (u64Left (atAdd off bh.bytes) 24))
      let bf ← corrupt (batchFooterDecode fb)
      if bf.count ≠ bh.count then .error .ecorrupt
      else if bf.last ≠ u64Left (atAdd expected bh.count) 1 then .error .ecorrupt
      else .ok (⟨expected, bh.count, off, bh.bytes, i⟩, atAdd off bh.bytes,
        atAdd expected bh.count)

/-- The loop of `led89_scan_batches`: the entries it adds to the directory of batches,
and the offset and index where it ends.  `chosen` is `chosen_off` when there is one. -/
def scanLoop (l : Ledger) (i : Nat) (isSealed : Bool) (limit : Nat) (chosen : Option Nat) :
    Nat → Nat → Nat → File → Except Err (List BatchDirEntry × Nat × Nat)
  | 0, off, expected, _ => .ok ([], off, expected)
  | fuel + 1, off, expected, f =>
    if off < limit then
      if atAdd off 8 > limit then .error .ecorrupt
      else do
        let mag ← io (f.pread 8 off)
        if isMarker mag then
          if atAdd off markerSize > limit then .error .ecorrupt
          else do
            scanMarkerAt l i isSealed off expected f
            if chosen = some off then .ok ([], atAdd off markerSize, expected)
            else scanLoop l i isSealed limit chosen fuel (atAdd off markerSize) expected f
        else if isBatchHeader mag then do
          let (e, off, expected) ← scanBatchAt i off limit expected f
          let (es, r) ← scanLoop l i isSealed limit chosen fuel off expected f
          .ok (e :: es, r)
        else .error .ecorrupt
    else .ok ([], off, expected)

/-- `led89_scan_batches`: the entries, and `expected_out`. -/
def scanBatches (l : Ledger) (i : Nat) (isSealed : Bool) (limit : Nat) (chosen : Option Nat)
    (f : File) : Except Err (List BatchDirEntry × Nat) := do
  let (es, off, expected) ←
    scanLoop l i isSealed limit chosen (limit + 1) 128 (l.part i).desc.first f
  let stop :=
    match chosen with
    | some chosenOff => atAdd chosenOff markerSize
    | none => limit
  if off ≠ stop then .error .ecorrupt else .ok (es, expected)

/-- `led89_scan_sealed` and the scan of its batches. -/
def scanSealed (l : Ledger) (i : Nat) (f : File) : Except Err (List BatchDirEntry × Nat) := do
  let sf ← scanFooter l i f.size f
  let (es, expected) ← scanBatches l i true (u64Left f.size 64) none f
  if expected ≠ sf.end_ then .error .ecorrupt else .ok (es, expected)

/-- The scan of the active part up to the chosen marker. -/
def scanChosen (l : Ledger) (i chosenOff : Nat) (chosen : Marker) (f : File) :
    Except Err (List BatchDirEntry × Nat) := do
  let (es, expected) ← scanBatches l i false (atAdd chosenOff markerSize) (some chosenOff) f
  if expected ≠ chosen.end_ then .error .ecorrupt else .ok (es, expected)

/-- `led89_scan_active`: the entries, the stable bytes, the index and the scan buffer. -/
def scanActive (l : Ledger) (i : Nat) (f : File) :
    Except Err (List BatchDirEntry × Nat × Nat × Scratch) :=
  match findLastMarker l f f.size l.scratch with
  | (.error _, _) => .error .ecorrupt
  | (.ok (chosen, chosenOff), s) => do
    let (es, expected) ← scanChosen l i chosenOff chosen f
    .ok (es, atAdd chosenOff markerSize, expected, s)

/-- `l->parts[i] = p`. -/
def Ledger.setPart (l : Ledger) (i : Nat) (p : Part) : Ledger :=
  { l with parts := l.parts.set i p }

/-- What `led89_part_scan` checks of every part. -/
def scanStart (l : Ledger) (i : Nat) (isSealed : Bool) (f : File) : Except Err Unit :=
  if f.size < 128 then .error .ecorrupt
  else do
    scanHeader l i f
    scanBaseline l i isSealed f

/-- The file of a part. -/
def partOpen (l : Ledger) (d : Dir) (i : Nat) : Except Err File :=
  match d.lookup (partName (l.part i).desc.fileId) with
  | none => .error .enoent
  | some f => .ok f

/-- `led89_part_scan` of a sealed part. -/
def scanSealedPart (l : Ledger) (d : Dir) (i : Nat) : Except Err Ledger := do
  let f ← partOpen l d i
  scanStart l i true f
  let (es, _) ← scanSealed l i f
  .ok { l.setPart i ⟨(l.part i).desc, true, f.size⟩ with dir := l.dir ++ es }

/-- `led89_part_scan` of the active part, with `led89_trim_active`. -/
def scanActivePart (l : Ledger) (d : Dir) (i : Nat) : Except Err (Ledger × Dir) := do
  let f ← partOpen l d i
  scanStart l i false f
  let (es, stable, expected, s) ← scanActive l i f
  let desc := { (l.part i).desc with end_ := expected }
  let bytes := if l.writable then stable else f.size
  let d :=
    if l.writable ∧ stable < f.size then d.put (partName desc.fileId) (f.truncate stable) else d
  .ok ({ l.setPart i ⟨desc, false, bytes⟩ with dir := l.dir ++ es, scratch := s }, d)

/-! ## Recovery -/

/-- `led89_scan_error`. -/
def scanError {α : Type} (r : Except Err α) : Except Err α :=
  match r with
  | .error .eio => .error .eio
  | .error .enomem => .error .enomem
  | .error _ => .error .ecorrupt
  | .ok a => .ok a

/-- `led89_u64_inc`. -/
def u64Inc (a : Nat) : Nat := atAdd a 1

/-- `led89_max_ref_id`. -/
def Manifest.maxRefId (m : Manifest) : Nat :=
  m.sealedParts.foldl (fun a d => max a d.fileId) m.active.fileId

/-- `led89_manifest_has_part`. -/
def Manifest.hasPart (m : Manifest) (fileId : Nat) : Bool :=
  m.active.fileId = fileId ∨ m.sealedParts.any (·.fileId = fileId)

/-- `list_next` into a buffer of `LED89_NAME_MAX` bytes. -/
def listNext (name : Bytes) : Except Err Unit :=
  if name.length + 1 > 32 then .error .erange else .ok ()

/-- The loop of `led89_gc_orphans`. -/
def gcLoop (keep : Manifest) : List Bytes → Nat → Dir → Except Err (Nat × Dir)
  | [], maxId, d => .ok (maxId, d)
  | name :: names, maxId, d => do
    listNext name
    if name = currentTmpName then gcLoop keep names maxId (d.unlink name)
    else
      match nameParse partPrefix name with
      | none => gcLoop keep names maxId d
      | some fileId =>
        gcLoop keep names (max maxId fileId)
          (if keep.hasPart fileId then d else d.unlink name)

/-- `led89_gc_orphans`. -/
def gcOrphans (l : Ledger) (keep : Manifest) (d : Dir) : Except Err (Ledger × Dir) := do
  let (maxId, d) ← gcLoop keep (d.map Prod.fst) keep.active.fileId d
  .ok ({ l with nextFileId := u64Inc maxId }, d)

/-- The loop of `led89_recover` over the sealed parts. -/
def scanSealedParts (d : Dir) : Nat → Nat → Ledger → Except Err Ledger
  | 0, _, l => .ok l
  | count + 1, i, l => do
    let l ← scanError (scanSealedPart l d i)
    scanSealedParts d count (i + 1) l

/-- The manifest of the current generation, as `led89_recover` reads it. -/
def recoverManifest (d : Dir) : Except Err Manifest := do
  let cur ← currentRead d
  match manifestRead d cur with
  | .error .enoent => .error .ecorrupt
  | .error e => .error e
  | .ok m => if m.generation ≠ cur then .error .ecorrupt else .ok m

/-- The handle with the topology of a manifest. -/
def Ledger.withManifest (l : Ledger) (m : Manifest) : Ledger :=
  { l with
    id := m.uuid
    revision := m.revision
    first := m.first
    generation := m.generation
    parts := m.sealedParts.map (fun d => ⟨d, true, 0⟩) ++ [⟨m.active, false, 0⟩]
    activeIndex := m.sealedParts.length }

/-- `led89_recover`. -/
def recover (l : Ledger) (d : Dir) : Except Err (Ledger × Dir) := do
  let m ← recoverManifest d
  let l ← scanSealedParts d m.sealedParts.length 0 (l.withManifest m)
  let (l, d) ← scanError (scanActivePart l d l.activeIndex)
  let end_ := (l.part l.activeIndex).desc.end_
  let l := { l with stableEnd := end_, end_ := end_, dirty := false }
  if l.writable then gcOrphans l m d
  else .ok ({ l with nextFileId := u64Inc m.maxRefId }, d)

/-! ## Creation -/

/-- The loop of `led89_clean_dir_for_create`, with `led89_create_name_kind`. -/
def cleanLoop : List Bytes → Dir → Except Err Dir
  | [], d => .ok d
  | name :: names, d => do
    listNext name
    if name = lockName then cleanLoop names d
    else if (nameParse partPrefix name).isSome ∨ (nameParse manifestPrefix name).isSome ∨
        name = currentTmpName then cleanLoop names (d.unlink name)
    else .error .ecorrupt

/-- `led89_clean_dir_for_create`. -/
def cleanDirForCreate (d : Dir) : Except Err Dir := cleanLoop (d.map Prod.fst) d

/-- The identity of a ledger, as `entropy` fills it. -/
structure Uuid where
  bytes : Bytes
  length_eq : bytes.length = 16

/-- `led89_part_create` of part 1 for index 1 of revision 0. -/
def partCreate (uuid : Bytes) (s : Scratch) (d : Dir) : Except Err (Scratch × Dir) :=
  match s.reserve partHeaderSize with
  | (.error e, _) => .error e
  | (.ok (), s) => do
    let d ← writeNewFile d (partName 1)
      (partHeaderEncode ⟨uuid, 1, 0, 1⟩ ++ markerEncode ⟨uuid, 1, 0, 1⟩)
    .ok (s, d)

/-- The manifest of a new ledger. -/
def newManifest (uuid : Bytes) : Manifest := ⟨1, uuid, 0, 1, [], ⟨1, 1, 1⟩⟩

/-- `led89_current_publish`: written under another name, then renamed. -/
def currentPublish (generation : Nat) (d : Dir) : Except Err Dir := do
  let d ← writeNewFile d currentTmpName (currentEncode generation)
  match d.lookup currentTmpName with
  | none => .error .eio
  | some f => .ok ((d.unlink currentTmpName).put currentName f)

/-- `led89_create_ledger`; `uuid` is what `entropy` answers. -/
def createLedger (uuid : Uuid) (l : Ledger) (d : Dir) : Except Err (Ledger × Dir) := do
  let (s, d) ← partCreate uuid.bytes l.scratch d
  let d ← writeNewFile d (manifestName 1) (manifestEncode (newManifest uuid.bytes))
  let d ← currentPublish 1 d
  .ok ({ l with
    id := uuid.bytes
    revision := 0
    first := 1
    stableEnd := 1
    end_ := 1
    generation := 1
    nextFileId := 2
    activeIndex := 0
    parts := [⟨⟨1, 1, 1⟩, false, 128⟩]
    scratch := s }, d)

/-! ## Opening -/

/-- The flags of an open. -/
structure Flags where
  writable : Bool
  create : Bool
  excl : Bool

/-- A handle as `calloc` makes it, with what `realloc` will answer for its buffer. -/
def newHandle (writable : Bool) (grants : Nat → Bool) : Ledger where
  writable := writable
  poisoned := false
  dirty := false
  id := List.replicate 16 0
  revision := 0
  first := 0
  stableEnd := 0
  end_ := 0
  generation := 0
  nextFileId := 0
  activeIndex := 0
  parts := []
  dir := []
  scratch := ⟨0, grants⟩

/-- `led89_acquire_lock`: a writable open creates the lock file. -/
def acquireLock (writable : Bool) (d : Dir) : Except Err Dir :=
  match d.lookup lockName with
  | some _ => .ok d
  | none => if writable then writeNewFile d lockName [] else .error .enoent

/-- `led89_open_io`. -/
def openIo (flags : Flags) (uuid : Uuid) (grants : Nat → Bool) (d : Dir) :
    Except Err (Ledger × Dir) := do
  let d ← acquireLock flags.writable d
  let l := newHandle flags.writable grants
  match recover l d with
  | .error .enoent =>
    if flags.create then do
      let d ← cleanDirForCreate d
      createLedger uuid l d
    else .error .enoent
  | .error e => .error e
  | .ok r => if flags.create ∧ flags.excl then .error .eexist else .ok r

end Led89
