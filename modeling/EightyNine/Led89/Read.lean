import EightyNine.Led89.Search

/-!
# libledger89: whole and partial reads

`src/ledger89_read.c`.  A whole read copies the record and checks its checksum in one
piece.  A partial read checks it in three: what precedes the range in chunks, the
range, and what follows it in chunks.  Both find the record with `led89_record_at`,
and a partial read is the slice of the whole one (`readAt_slice`).
-/

namespace Led89

/-! ## The record -/

/-- The loop of `led89_dir_find`. -/
def dirFindGo (dir : List BatchDirEntry) (index : Nat) : Nat → Nat → Nat → Option Nat
  | 0, _, _ => none
  | fuel + 1, lo, hi =>
    if lo < hi then
      let mid := lo + (hi - lo) / 2
      let e := dir.getD mid default
      if index < e.first then dirFindGo dir index fuel lo mid
      else if index ≥ atAdd e.first e.count then dirFindGo dir index fuel (mid + 1) hi
      else some mid
    else none

/-- `led89_dir_find`. -/
def Ledger.dirFind (l : Ledger) (index : Nat) : Option Nat :=
  dirFindGo l.dir index (l.dir.length + 1) 0 l.dir.length

/-- A read of a file, whose failure is reported as `LEDGER89_EIO`. -/
def io (r : Option Bytes) : Except Err Bytes :=
  match r with
  | none => .error .eio
  | some b => .ok b

/-- The loop of `led89_record_at` over the records before the one that is sought. -/
def skipRecords (f : File) (end_ : Nat) : Nat → Nat → Except Err Nat
  | 0, offset => .ok offset
  | skip + 1, offset =>
    if atAdd offset 8 > end_ then .error .ecorrupt
    else
      match io (f.pread 4 offset) with
      | .error e => .error e
      | .ok lenbuf =>
        let len := getU32 lenbuf 0
        if atAdd (atAdd offset 8) len > end_ then .error .ecorrupt
        else skipRecords f end_ skip (atAdd (atAdd offset 8) len)

/-- `led89_record_at`: the length bytes, the record's offset and its payload's size. -/
def recordAt (f : File) (e : BatchDirEntry) (index : Nat) : Except Err (Bytes × Nat × Nat) :=
  let end_ := atAdd e.offset e.bytes
  match skipRecords f end_ (u64Left index e.first) (atAdd e.offset 32) with
  | .error e => .error e
  | .ok offset =>
    match io (f.pread 4 offset) with
    | .error e => .error e
    | .ok lenbuf =>
      let len := getU32 lenbuf 0
      if atAdd (atAdd offset 8) len > end_ then .error .ecorrupt
      else .ok (lenbuf, offset, len)

/-! ## Whole reads -/

/-- What `led89_read_body` does once the record is found and its size reported;
`dataOut` is the capacity of the buffer, if there is one. -/
def readPayload (f : File) (lenbuf : Bytes) (record len : Nat) (dataOut : Option Nat) :
    Except Err Bytes :=
  match dataOut with
  | none => .ok []
  | some capacity =>
    if capacity < len then .error .etoosmall
    else
      match if len > 0 then io (f.pread len (atAdd record 4)) else .ok [] with
      | .error e => .error e
      | .ok data =>
        match io (f.pread 4 (atAdd (atAdd record 4) len)) with
        | .error e => .error e
        | .ok crcbuf =>
          let crc := crc32c 0 lenbuf
          let crc := if len > 0 then crc32c crc data else crc
          if crc ≠ getU32 crcbuf 0 then .error .ecorrupt else .ok data

/-- `led89_read_body`: what is copied, and what `size_out` is set to. -/
def readBody (f : File) (e : BatchDirEntry) (index : Nat) (dataOut : Option Nat) :
    Except Err Bytes × Option Nat :=
  match recordAt f e index with
  | .error e => (.error e, none)
  | .ok (lenbuf, record, len) => (readPayload f lenbuf record len dataOut, some len)

/-! ## Partial reads -/

/-- `led89_chunk_of`. -/
def chunkOf (left : Nat) : Nat := if left > 4096 then 4096 else left

/-- `led89_crc_range`, one `led89_crc_step` for each unit of fuel. -/
def crcRange (f : File) : Nat → Nat → Nat → Nat → Scratch → Except Err Nat × Scratch
  | 0, _, _, crc, s => (.ok crc, s)
  | fuel + 1, off, left, crc, s =>
    if left > 0 then
      let chunk := chunkOf left
      match s.reserve chunk with
      | (.error e, s) => (.error e, s)
      | (.ok (), s) =>
        match io (f.pread chunk off) with
        | .error e => (.error e, s)
        | .ok buf =>
          crcRange f fuel (atAdd off chunk) (u64Left left chunk) (crc32c crc buf) s
    else (.ok crc, s)

/-- What `led89_read_at_body` does once the record is found. -/
def readRange (f : File) (lenbuf : Bytes) (record len offset size : Nat) (s : Scratch) :
    Except Err Bytes × Scratch :=
  if offset > len then (.error .erange, s)
  else if size > len - offset then (.error .erange, s)
  else if size = 0 then (.ok [], s)
  else
    let payload := atAdd record 4
    match io (f.pread size (atAdd payload offset)) with
    | .error e => (.error e, s)
    | .ok data =>
      match crcRange f (offset + 1) payload offset (crc32c 0 lenbuf) s with
      | (.error e, s) => (.error e, s)
      | (.ok crc, s) =>
        let tail := u64Left (u64Left len offset) size
        match crcRange f (tail + 1) (atAdd (atAdd payload offset) size) tail
            (crc32c crc data) s with
        | (.error e, s) => (.error e, s)
        | (.ok crc, s) =>
          match io (f.pread 4 (atAdd payload len)) with
          | .error e => (.error e, s)
          | .ok crcbuf =>
            (if crc ≠ getU32 crcbuf 0 then .error .ecorrupt else .ok data, s)

/-- `led89_read_at_body`. -/
def readAtBody (f : File) (e : BatchDirEntry) (index offset size : Nat) (s : Scratch) :
    Except Err Bytes × Scratch :=
  match recordAt f e index with
  | .error e => (.error e, s)
  | .ok (lenbuf, record, len) => readRange f lenbuf record len offset size s

/-! ## The calls -/

/-- The files of the parts by their ids, and what opening one answers. -/
abbrev Files := Nat → Except Err File

/-- `led89_part_fd`. -/
def Ledger.partFd (l : Ledger) (files : Files) (i : Nat) : Except Err File :=
  files (l.part i).desc.fileId

/-- What `led89_read_impl` and `led89_read_at_impl` do first: the entry of the batch. -/
def Ledger.entry (l : Ledger) (index : Nat) : Except Err BatchDirEntry :=
  if index < l.first then .error .egone
  else if index ≥ l.end_ then .error .enoent
  else
    match l.dirFind index with
    | none => .error .ecorrupt
    | some i => .ok (l.dir.getD i default)

/-- `ledger89_read`: what is copied, what `size_out` is set to, and the handle. -/
def Ledger.read (l : Ledger) (files : Files) (index : Nat) (dataOut : Option Nat) :
    (Except Err Bytes × Option Nat) × Ledger :=
  match l.entry index with
  | .error e => ((.error e, none), l)
  | .ok e =>
    match l.partFd files e.part with
    | .error rc => ((.error rc, none), l)
    | .ok f => (readBody f e index dataOut, l)

/-- `ledger89_read_at`: what is copied, and the handle. -/
def Ledger.readAt (l : Ledger) (files : Files) (index offset size : Nat) :
    Except Err Bytes × Ledger :=
  match l.entry index with
  | .error e => (.error e, l)
  | .ok e =>
    match l.partFd files e.part with
    | .error rc => (.error rc, l)
    | .ok f =>
      let (r, s) := readAtBody f e index offset size l.scratch
      (r, { l with scratch := s })

/-! ## The checksum in pieces -/

variable {f : File} {s : Scratch}

theorem chunkOf_spec {left : Nat} (h : 0 < left) :
    0 < chunkOf left ∧ chunkOf left ≤ left ∧ chunkOf left ≤ 4096 := by
  rw [chunkOf]
  split <;> omega

/-- A chunk is refused only when the buffer has not reached its first size. -/
theorem Scratch.reserve_chunk (s : Scratch) {need : Nat} (h : need ≤ 4096) :
    (s.reserve need = (.ok (), s) ∨ s.cap < 4096) := by
  rw [Scratch.reserve]
  split
  · exact .inl rfl
  · exact .inr (by omega)

/-- A range that lies in the file is summed up, one that does not is reported. -/
theorem crcRange_spec (f : File) : ∀ (fuel off left crc : Nat) (s : Scratch), left < fuel →
    off + left < u64Size → 4096 ≤ s.cap →
    (off + left ≤ f.size → crcRange f fuel off left crc s
      = (.ok (crc32c crc (slice f.bytes off left)), s)) ∧
    (0 < left → f.size < off + left → crcRange f fuel off left crc s = (.error .eio, s)) := by
  intro fuel
  induction fuel with
  | zero => omega
  | succ fuel ih =>
    intro off left crc s hfuel hlt hcap
    rw [crcRange]
    split
    next hleft =>
      obtain ⟨hpos, hle, hchunk⟩ := chunkOf_spec hleft
      have hres : s.reserve (chunkOf left) = (.ok (), s) :=
        (s.reserve_chunk hchunk).resolve_right (by omega)
      have hadd : atAdd off (chunkOf left) = off + chunkOf left := atAdd_eq (by omega)
      have hsub : u64Left left (chunkOf left) = left - chunkOf left := u64Left_eq hle (by omega)
      dsimp only
      rw [hres]
      dsimp only
      rw [hadd, hsub]
      constructor
      · intro hin
        rw [File.pread_ok (by omega)]
        dsimp only [io]
        rw [(ih _ _ _ _ (by omega) (by omega) hcap).1 (by omega), crc32c_append, ← slice_add,
          Nat.add_sub_cancel' hle]
      · intro _ hout
        obtain hin | hout' := Nat.lt_or_ge f.size (off + chunkOf left)
        · rw [File.pread_none hpos hin]
          rfl
        · rw [File.pread_ok hout']
          dsimp only [io]
          exact (ih _ _ _ _ (by omega) (by omega) hcap).2 (by omega) (by omega)
    next hleft =>
      obtain rfl : left = 0 := by omega
      exact ⟨fun _ => by rw [slice_zero, crc32c_nil], fun h => absurd h hleft⟩

/-! ## Agreement -/

theorem io_ok {r : Option Bytes} {b : Bytes} (h : io r = .ok b) : r = some b := by
  cases r with
  | none => cases h
  | some b' => rw [Except.ok.inj h]

variable {record len : Nat} {lenbuf : Bytes}

/-- The length bytes of a record that is found lie in the file. -/
theorem recordAt_ok {e : BatchDirEntry} {index : Nat}
    (h : recordAt f e index = .ok (lenbuf, record, len)) :
    record + 4 ≤ f.size ∧ len < 2 ^ 32 := by
  rw [recordAt] at h
  split at h
  next => cases h
  next offset _ =>
    split at h
    next => cases h
    next b hb =>
      dsimp only at h
      split at h
      · cases h
      · obtain ⟨rfl, rfl, rfl⟩ : b = lenbuf ∧ offset = record ∧ getU32 b 0 = len := by
          simpa using h
        exact ⟨(File.pread_some (by decide) (io_ok hb)).1, getU32_lt b 0⟩

/-- What the checksum of a record is compared with. -/
def crcOk (f : File) (lenbuf : Bytes) (record len : Nat) : Bool :=
  crc32c 0 (lenbuf ++ slice f.bytes (record + 4) len)
    = getU32 (slice f.bytes (record + 4 + len) 4) 0

variable {capacity : Nat}

theorem readPayload_eq (hrecord : record + 4 ≤ f.size)
    (hlen : len < 2 ^ 32) (hcap : len ≤ capacity) :
    readPayload f lenbuf record len (some capacity) =
      if record + 4 + len + 4 ≤ f.size then
        if crcOk f lenbuf record len then .ok (slice f.bytes (record + 4) len)
        else .error .ecorrupt
      else .error .eio := by
  have hsize := f.size_lt
  have hpayload : atAdd record 4 = record + 4 := atAdd_eq (by simp only [u64Size]; omega)
  have hend : atAdd (record + 4) len = record + 4 + len :=
    atAdd_eq (by simp only [u64Size]; omega)
  rw [readPayload]
  dsimp only
  rw [if_neg (by omega), hpayload, hend]
  obtain hout | hin := Nat.lt_or_ge f.size (record + 4 + len + 4)
  · rw [if_neg (c := record + 4 + len + 4 ≤ f.size) (by omega)]
    obtain rfl | hpos := Nat.eq_zero_or_pos len
    · rw [if_neg (by omega), File.pread_none (by decide) hout]
      rfl
    rw [if_pos hpos]
    obtain hfar | hnear := Nat.lt_or_ge f.size (record + 4 + len)
    · rw [File.pread_none hpos hfar]
      rfl
    · rw [File.pread_ok hnear, File.pread_none (by decide) hout]
      rfl
  · rw [if_pos (c := record + 4 + len + 4 ≤ f.size) hin]
    obtain rfl | hpos := Nat.eq_zero_or_pos len
    · rw [if_neg (by omega), File.pread_ok hin]
      simp [io, crcOk]
    · rw [if_pos hpos, File.pread_ok (by omega), File.pread_ok hin]
      simp [io, crcOk, hpos, crc32c_append]

variable {offset size : Nat}

/-- A partial read of a range of the record copies its bytes when the checksum of the
whole record is right. -/
theorem readRange_eq
    (hrecord : record + 4 ≤ f.size) (hlen : len < 2 ^ 32) (hin : offset + size ≤ len)
    (hpos : 0 < size) (hcap : 4096 ≤ s.cap) :
    readRange f lenbuf record len offset size s =
      (if record + 4 + len + 4 ≤ f.size then
        if crcOk f lenbuf record len then .ok (slice f.bytes (record + 4 + offset) size)
        else .error .ecorrupt
      else .error .eio, s) := by
  have hsize := f.size_lt
  have hadd : ∀ {a n : Nat}, a + n < 2 ^ 63 + 2 ^ 32 → atAdd a n = a + n := fun h =>
    atAdd_eq (by simp only [u64Size]; omega)
  have htail : u64Left (u64Left len offset) size = len - offset - size := by
    have hleft : u64Left len offset = len - offset :=
      u64Left_eq (by omega) (by simp only [u64Size]; omega)
    rw [hleft, u64Left_eq (by omega) (by simp only [u64Size]; omega)]
  rw [readRange, if_neg (by omega), if_neg (by omega), if_neg (by omega)]
  dsimp only
  rw [htail, hadd (a := record) (by omega), hadd (a := record + 4) (n := offset) (by omega),
    hadd (a := record + 4 + offset) (by omega), hadd (a := record + 4) (n := len) (by omega)]
  obtain hfar | hnear := Nat.lt_or_ge f.size (record + 4 + offset + size)
  · rw [File.pread_none hpos hfar, if_neg (by omega)]
    rfl
  rw [File.pread_ok hnear]
  dsimp only [io]
  rw [(crcRange_spec f (offset + 1) (record + 4) offset _ s (by omega)
    (by simp only [u64Size]; omega) hcap).1 (by omega)]
  dsimp only
  have hsuffix := crcRange_spec f (len - offset - size + 1) (record + 4 + offset + size)
    (len - offset - size)
    (crc32c (crc32c (crc32c 0 lenbuf) (slice f.bytes (record + 4) offset))
      (slice f.bytes (record + 4 + offset) size)) s
    (by omega) (by simp only [u64Size]; omega) hcap
  obtain hfar | hnear := Nat.lt_or_ge f.size (record + 4 + len)
  · rw [hsuffix.2 (by omega) (by omega), if_neg (by omega)]
  rw [hsuffix.1 (by omega)]
  dsimp only
  -- the three pieces are the payload
  have hpieces : slice f.bytes (record + 4) offset
        ++ (slice f.bytes (record + 4 + offset) size
        ++ slice f.bytes (record + 4 + offset + size) (len - offset - size))
      = slice f.bytes (record + 4) len := by
    have hlen : offset + (size + (len - offset - size)) = len := by omega
    rw [← slice_add, ← slice_add, hlen]
  rw [crc32c_append, crc32c_append, crc32c_append, hpieces]
  obtain hout | hin := Nat.lt_or_ge f.size (record + 4 + len + 4)
  · rw [File.pread_none (by decide) hout, if_neg (by omega)]
  · rw [File.pread_ok hin, if_pos hin]
    simp only [crcOk, decide_eq_true_eq, ne_eq, ite_not]

/-- A partial read against the whole read of its record: it succeeds when its range
lies in the record and either is empty or belongs to a record that is read, with that
slice; otherwise it fails as the whole read does, or because of its range. -/
structure Slices (whole : Except Err Bytes × Option Nat) (offset size : Nat)
    (a : Except Err Bytes) : Prop where
  ok_iff : ∀ data, a = .ok data ↔ ∃ n, whole.2 = some n ∧ offset + size ≤ n ∧
    (size = 0 ∧ data = [] ∨ ∃ bytes, whole.1 = .ok bytes ∧ data = slice bytes offset size)
  error : ∀ e, a = .error e →
    whole.1 = .error e ∨ e = .erange ∧ ∃ n, whole.2 = some n ∧ n < offset + size

theorem Slices.failed {e : Err} :
    Slices (.error e, none) offset size (.error e) where
  ok_iff data := by
    constructor
    · intro h
      cases h
    · rintro ⟨n, hn, -⟩
      cases hn
  error e' h := .inl h

variable {r : Except Err Bytes} {n : Nat}

theorem Slices.outside (h : n < offset + size) :
    Slices (r, some n) offset size (.error .erange) where
  ok_iff data := by
    constructor
    · intro h
      cases h
    · rintro ⟨k, hk, hin, -⟩
      obtain rfl := Option.some.inj hk
      omega
  error e he := by
    obtain rfl := Except.error.inj he
    exact .inr ⟨rfl, n, rfl, h⟩

theorem Slices.empty (h : offset ≤ n) :
    Slices (r, some n) offset 0 (.ok []) where
  ok_iff data := by
    constructor
    · intro hdata
      obtain rfl := Except.ok.inj hdata
      exact ⟨n, rfl, h, .inl ⟨rfl, rfl⟩⟩
    · rintro ⟨-, -, -, ⟨-, rfl⟩ | ⟨bytes, -, rfl⟩⟩
      · rfl
      · rw [slice_zero]
  error e h := by cases h

theorem Slices.inside (hin : offset + size ≤ n)
    (hpos : 0 < size) : Slices (r, some n) offset size (r.map fun b => slice b offset size) where
  ok_iff data := by
    constructor
    · intro h
      cases r with
      | error e => cases h
      | ok bytes => exact ⟨n, rfl, hin, .inr ⟨bytes, rfl, (Except.ok.inj h).symm⟩⟩
    · rintro ⟨-, -, -, ⟨rfl, -⟩ | ⟨bytes, hr, rfl⟩⟩
      · omega
      · obtain rfl : r = .ok bytes := hr
        rfl
  error e h := by
    cases r with
    | error e' => exact .inl h
    | ok bytes => cases h

/-- Once the record is found, the two reads agree, and the partial one does not depend
on the buffer. -/
theorem readRange_slices (lenbuf : Bytes) (offset size : Nat)
    (hrecord : record + 4 ≤ f.size) (hlen : len < 2 ^ 32) (hlarge : len ≤ capacity) :
    ∃ a, (∀ s : Scratch, 4096 ≤ s.cap → readRange f lenbuf record len offset size s = (a, s)) ∧
      Slices (readPayload f lenbuf record len (some capacity), some len) offset size a := by
  obtain hout | hin := Nat.lt_or_ge len (offset + size)
  · refine ⟨.error .erange, fun s _ => ?_, .outside hout⟩
    rw [readRange]
    split
    · rfl
    · rw [if_pos (by omega)]
  obtain rfl | hpos := Nat.eq_zero_or_pos size
  · refine ⟨.ok [], fun s _ => ?_, .empty (by omega)⟩
    rw [readRange, if_neg (by omega), if_neg (by omega), if_pos rfl]
  · refine ⟨_, fun s hcap => ?_, .inside hin hpos⟩
    rw [readRange_eq hrecord hlen hin hpos hcap, readPayload_eq hrecord hlen hlarge]
    split
    · split
      · rw [Except.map, slice_slice hin]
      · rfl
    · rfl

/-- A partial read answers the same with every buffer of its first size, and leaves it. -/
theorem readAtBody_same (f : File) (e : BatchDirEntry) (index offset size : Nat) :
    ∃ a, ∀ s : Scratch, 4096 ≤ s.cap → readAtBody f e index offset size s = (a, s) := by
  cases hrec : recordAt f e index with
  | error e => exact ⟨.error e, fun s _ => by rw [readAtBody, hrec]⟩
  | ok r =>
    obtain ⟨lenbuf, record, len⟩ := r
    obtain ⟨hrecord, hlen⟩ := recordAt_ok hrec
    obtain ⟨a, ha, -⟩ := readRange_slices lenbuf offset size hrecord hlen le_rfl
    exact ⟨a, fun s hs => by rw [readAtBody, hrec]; exact ha s hs⟩

/-- With a buffer of its first size, a partial read agrees with the whole read and
leaves the handle as it is. -/
theorem Ledger.readAt_slices (l : Ledger) (files : Files) {index : Nat}
    (offset size : Nat) (hcap : 4096 ≤ l.scratch.cap)
    (hlarge : ∀ n, (l.read files index (some capacity)).1.2 = some n → n ≤ capacity) :
    Slices (l.read files index (some capacity)).1 offset size (l.readAt files index offset size).1 ∧
      (l.readAt files index offset size).2 = l := by
  rw [Ledger.read, Ledger.readAt] at *
  cases hentry : l.entry index with
  | error e => exact ⟨.failed, rfl⟩
  | ok e =>
    simp only [hentry] at hlarge ⊢
    cases hfd : l.partFd files e.part with
    | error rc => exact ⟨.failed, rfl⟩
    | ok f =>
      simp only [hfd] at hlarge ⊢
      rw [readBody, readAtBody] at *
      cases hrec : recordAt f e index with
      | error e => exact ⟨.failed, rfl⟩
      | ok r =>
        obtain ⟨lenbuf, record, len⟩ := r
        simp only [hrec] at hlarge ⊢
        obtain ⟨hrecord, hlen⟩ := recordAt_ok hrec
        obtain ⟨a, ha, hslices⟩ := readRange_slices lenbuf offset size hrecord hlen (hlarge len rfl)
        rw [ha _ hcap]
        exact ⟨hslices, rfl⟩

/-! ## Reads through another handle -/

variable (l : Ledger) (s : Scratch) (k : Nat) (files : Files) (index : Nat)

/-- A whole read looks at neither the buffer nor the next file id. -/
theorem read_scratch (dataOut : Option Nat) :
    (({ l with scratch := s, nextFileId := k } : Ledger).read files index dataOut).1
      = (l.read files index dataOut).1 := by
  show (match l.entry index with | .error e => _ | .ok e => _ : _ × Ledger).1 = _
  rw [Ledger.read]
  cases l.entry index with
  | error e => rfl
  | ok e =>
    show (match l.partFd files e.part with | .error rc => _ | .ok f => _ : _ × Ledger).1 = _
    dsimp only
    cases l.partFd files e.part with
    | error rc | ok f => rfl

/-- Nor does a partial read, when both buffers have their first size. -/
theorem readAt_scratch (hs : 4096 ≤ s.cap) (hl : 4096 ≤ l.scratch.cap) :
    (({ l with scratch := s, nextFileId := k } : Ledger).readAt files index offset size).1
      = (l.readAt files index offset size).1 := by
  show (match l.entry index with | .error e => _ | .ok e => _ : _ × Ledger).1 = _
  rw [Ledger.readAt]
  cases l.entry index with
  | error e => rfl
  | ok e =>
    show (match l.partFd files e.part with | .error rc => _ | .ok f => _ : _ × Ledger).1 = _
    dsimp only
    cases l.partFd files e.part with
    | error rc => rfl
    | ok f =>
      obtain ⟨a, ha⟩ := readAtBody_same f e index offset size
      dsimp only
      rw [ha s hs, ha _ hl]

end Led89
