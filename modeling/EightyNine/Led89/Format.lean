import Mathlib.Algebra.Group.Nat.Defs

/-!
# libledger89: formats, files and the scan buffer

`src/ledger89_crc.c`, the decoders of `src/ledger89_format.c` that recovery and
reading use, and the arithmetic and buffer helpers of `src/ledger89_util.c`.
The decoders take the bytes that their callers have read.
A file is its bytes, and reads are whole or fail, as `led89_posix_pread` makes them.
`size_t` is 64 bits wide, so that `led89_u64_to_size` never fails.
-/

namespace Led89

open List

abbrev Bytes := List UInt8

/-- The failures of the modelled functions. -/
inductive Err where
  | eio
  | enomem
  | enoent
  | egone
  | ecorrupt
  | eformat
  | erange
  | eexist
  | etoosmall
deriving DecidableEq

/-! ## Arithmetic -/

/-- The number of values of `led89_u64`. -/
def u64Size : Nat := 0x10000000000000000

/-- `led89_at_add`: the sum of two `led89_u64`. -/
def atAdd (a n : Nat) : Nat := (a + n) % u64Size

/-- `led89_u64_left`: the difference of two `led89_u64`. -/
def u64Left (total done : Nat) : Nat := (total + (u64Size - done)) % u64Size

variable {n : Nat}

theorem atAdd_eq {a : Nat} (h : a + n < u64Size) : atAdd a n = a + n :=
  Nat.mod_eq_of_lt h

theorem u64Left_eq {total done : Nat} (h : done ≤ total) (hlt : total < u64Size) :
    u64Left total done = total - done := by
  rw [u64Left, show total + (u64Size - done) = total - done + u64Size by omega,
    Nat.add_mod_right, Nat.mod_eq_of_lt (by omega)]

/-! ## Fields -/

/-- The byte at an offset. -/
def byteAt (b : Bytes) (i : Nat) : Nat := (b.getD i 0).toNat

/-- `led89_get_u32`. -/
def getU32 (b : Bytes) (i : Nat) : Nat :=
  byteAt b i ||| byteAt b (i + 1) <<< 8 ||| byteAt b (i + 2) <<< 16 ||| byteAt b (i + 3) <<< 24

/-- `led89_get_u64`. -/
def getU64 (b : Bytes) (i : Nat) : Nat := getU32 b i ||| getU32 b (i + 4) <<< 32

theorem byteAt_lt (b : Bytes) (i : Nat) : byteAt b i < 2 ^ 8 := UInt8.toNat_lt _

theorem getU32_lt (b : Bytes) (i : Nat) : getU32 b i < 2 ^ 32 := by
  have hshift : ∀ j k, j + 8 ≤ 32 → byteAt b k <<< j < 2 ^ 32 := by
    intro j k hj
    have hlt : byteAt b k * 2 ^ j < 2 ^ 8 * 2 ^ j :=
      Nat.mul_lt_mul_of_pos_right (byteAt_lt b k) (Nat.two_pow_pos j)
    rw [← Nat.pow_add] at hlt
    rw [Nat.shiftLeft_eq]
    exact Nat.lt_of_lt_of_le hlt (Nat.pow_le_pow_right (by decide) (by omega))
  have h0 := hshift 0 i (by decide)
  exact Nat.or_lt_two_pow (Nat.or_lt_two_pow (Nat.or_lt_two_pow h0 (hshift 8 _ (by decide)))
    (hshift 16 _ (by decide))) (hshift 24 _ (by decide))

/-- `led89_put_u32`. -/
def putU32 (v : Nat) : Bytes :=
  [UInt8.ofNat (v &&& 0xFF), UInt8.ofNat (v >>> 8 &&& 0xFF),
    UInt8.ofNat (v >>> 16 &&& 0xFF), UInt8.ofNat (v >>> 24 &&& 0xFF)]

/-- `led89_put_u64`. -/
def putU64 (v : Nat) : Bytes := putU32 (v &&& 0xFFFFFFFF) ++ putU32 (v >>> 32)

/-- `len` bytes from an offset on. -/
def slice (b : Bytes) (offset len : Nat) : Bytes := (b.drop offset).take len

variable {b : Bytes} {offset len : Nat}

theorem slice_slice {i : Nat} (h : i + n ≤ len) :
    slice (slice b offset len) i n = slice b (offset + i) n := by
  simp only [slice, drop_take, take_take, drop_drop]
  rw [Nat.min_eq_left (by omega)]

theorem slice_add (b : Bytes) (offset m n : Nat) :
    slice b offset (m + n) = slice b offset m ++ slice b (offset + m) n := by
  rw [slice, slice, slice, take_add, drop_drop]

@[simp] theorem slice_zero (b : Bytes) (offset : Nat) : slice b offset 0 = [] := take_zero

theorem getElem?_slice {k : Nat} (h : k < len) :
    (slice b offset len)[k]? = b[offset + k]? := by
  simp [slice, h]

/-! ## CRC-32C -/

/-- `led89_crc_table`. -/
def crcTable : List Nat :=
  [0x00000000, 0x105EC76F, 0x20BD8EDE, 0x30E349B1,
   0x417B1DBC, 0x5125DAD3, 0x61C69362, 0x7198540D,
   0x82F63B78, 0x92A8FC17, 0xA24BB5A6, 0xB21572C9,
   0xC38D26C4, 0xD3D3E1AB, 0xE330A81A, 0xF36E6F75]

/-- `led89_crc_nibble`. -/
def crcNibble (crc nibble : Nat) : Nat :=
  crc >>> 4 ^^^ crcTable.getD ((crc ^^^ nibble) &&& 0x0F) 0

/-- `led89_crc_byte`. -/
def crcByte (crc : Nat) (byte : UInt8) : Nat :=
  crcNibble (crcNibble crc (byte.toNat &&& 0x0F)) (byte.toNat >>> 4)

/-- `~` on `led89_u32`. -/
def u32Not (crc : Nat) : Nat := 0xFFFFFFFF ^^^ crc

/-- `led89_crc32c`. -/
def crc32c (crc : Nat) (data : Bytes) : Nat :=
  u32Not (data.foldl crcByte (u32Not crc))

theorem u32Not_u32Not (crc : Nat) : u32Not (u32Not crc) = crc := by
  simp [u32Not, ← Nat.xor_assoc]

theorem crc32c_append (crc : Nat) (a b : Bytes) : crc32c (crc32c crc a) b = crc32c crc (a ++ b) := by
  simp [crc32c, u32Not_u32Not]

theorem crc32c_nil (crc : Nat) : crc32c crc [] = crc := u32Not_u32Not crc

/-! ## Stable markers -/

/-- `LED89_FORMAT_VERSION`. -/
def formatVersion : Nat := 2

/-- `LED89_MARKER_MAGIC`: "LD89STB2". -/
def markerMagic : Bytes := [0x4C, 0x44, 0x38, 0x39, 0x53, 0x54, 0x42, 0x32]

/-- `led89_trailer`: "89STABLE". -/
def trailer : Bytes := [0x38, 0x39, 0x53, 0x54, 0x41, 0x42, 0x4C, 0x45]

/-- `LED89_MARKER_SIZE`. -/
def markerSize : Nat := 64

/-- `LED89_PART_HEADER_SIZE`. -/
def partHeaderSize : Nat := 64

/-- `led89_marker`. -/
structure Marker where
  uuid : Bytes
  fileId : Nat
  revision : Nat
  end_ : Nat
deriving DecidableEq

/-- `led89_is_marker`. -/
def isMarker (b : Bytes) : Bool := b.take 8 = markerMagic

/-- `led89_marker_decode`.  The trailer is not looked at. -/
def markerDecode (b : Bytes) : Except Err Marker :=
  if ¬isMarker b then .error .ecorrupt
  else if getU32 b 48 ≠ formatVersion then .error .eformat
  else if getU32 b 52 ≠ crc32c 0 (b.take 52) then .error .ecorrupt
  else .ok
    { uuid := slice b 8 16
      fileId := getU64 b 24
      revision := getU64 b 32
      end_ := getU64 b 40 }

/-- The bytes of a marker that its checksum covers. -/
def Marker.body (m : Marker) : Bytes :=
  markerMagic ++ m.uuid ++ putU64 m.fileId ++ putU64 m.revision ++ putU64 m.end_ ++
    putU32 formatVersion

/-- `led89_marker_encode`. -/
def markerEncode (m : Marker) : Bytes := m.body ++ putU32 (crc32c 0 m.body) ++ trailer

/-! ## The other structures -/

/-- `led89_part_desc`. -/
structure PartDesc where
  fileId : Nat
  first : Nat
  end_ : Nat
deriving DecidableEq, Inhabited

/-- `led89_manifest`; `sealed_count` is the length of `sealedParts`. -/
structure Manifest where
  generation : Nat
  uuid : Bytes
  revision : Nat
  first : Nat
  sealedParts : List PartDesc
  active : PartDesc

/-- `led89_part_header`. -/
structure PartHeader where
  uuid : Bytes
  fileId : Nat
  revision : Nat
  first : Nat

/-- `led89_batch_header`. -/
structure BatchHeader where
  count : Nat
  first : Nat
  bytes : Nat

/-- `led89_batch_footer`. -/
structure BatchFooter where
  count : Nat
  last : Nat

/-- `led89_sealed_footer`. -/
structure SealedFooter where
  uuid : Bytes
  fileId : Nat
  first : Nat
  end_ : Nat
  records : Nat
  digest : Nat

/-- `LED89_CURRENT_MAGIC`: "LD89CUR2". -/
def currentMagic : Bytes := [0x4C, 0x44, 0x38, 0x39, 0x43, 0x55, 0x52, 0x32]

/-- `LED89_MANIFEST_MAGIC`: "LD89MAN2". -/
def manifestMagic : Bytes := [0x4C, 0x44, 0x38, 0x39, 0x4D, 0x41, 0x4E, 0x32]

/-- `LED89_PART_MAGIC`: "LD89PRT2". -/
def partMagic : Bytes := [0x4C, 0x44, 0x38, 0x39, 0x50, 0x52, 0x54, 0x32]

/-- `LED89_BATCH_HEADER_MAGIC`: "B89" and the version. -/
def batchHeaderMagic : Bytes := [0x42, 0x38, 0x39, 0x02]

/-- `LED89_BATCH_FOOTER_MAGIC`: "b89" and the version. -/
def batchFooterMagic : Bytes := [0x62, 0x38, 0x39, 0x02]

/-- `LED89_SEALED_FOOTER_MAGIC`: "LD89SGF2". -/
def sealedFooterMagic : Bytes := [0x4C, 0x44, 0x38, 0x39, 0x53, 0x47, 0x46, 0x32]

/-- `led89_current_encode`. -/
def currentEncode (generation : Nat) : Bytes :=
  let body := currentMagic ++ putU64 generation ++ putU32 formatVersion
  body ++ putU32 (crc32c 0 body) ++ replicate 8 0

/-- `led89_current_decode`: the generation. -/
def currentDecode (b : Bytes) : Except Err Nat :=
  if b.take 8 ≠ currentMagic then .error .ecorrupt
  else if getU32 b 16 ≠ formatVersion then .error .eformat
  else if getU32 b 20 ≠ crc32c 0 (b.take 20) then .error .ecorrupt
  else .ok (getU64 b 8)

/-- `led89_manifest_encode_header`. -/
def manifestHeaderEncode (m : Manifest) : Bytes :=
  let body := manifestMagic ++ putU64 m.generation ++ m.uuid ++ putU64 m.revision ++
    putU64 m.first ++ putU32 m.sealedParts.length ++ putU32 formatVersion
  body ++ putU32 (crc32c 0 body) ++ replicate 4 0

/-- `led89_encode_desc`. -/
def encodeDesc (d : PartDesc) : Bytes := putU64 d.fileId ++ putU64 d.first ++ putU64 d.end_

/-- `led89_manifest_encode`. -/
def manifestEncode (m : Manifest) : Bytes :=
  let body := manifestHeaderEncode m ++ m.sealedParts.flatMap encodeDesc ++
    putU64 m.active.fileId ++ putU64 m.active.first
  body ++ putU32 (crc32c 0 body)

/-- `led89_manifest_bytes`. -/
def manifestBytes (sealedCount : Nat) : Nat := 64 + sealedCount * 24 + 16 + 4

/-- The loop of `led89_manifest_decode` over the descriptors, with the offset and the
`first` that the next part must have. -/
def decodeDescs (b : Bytes) : Nat → Nat → Nat → Except Err (List PartDesc × Nat × Nat)
  | 0, off, expected => .ok ([], off, expected)
  | count + 1, off, expected =>
    let d : PartDesc := ⟨getU64 b off, getU64 b (off + 8), getU64 b (off + 16)⟩
    if d.first ≠ expected then .error .ecorrupt
    else if d.end_ ≤ d.first then .error .ecorrupt
    else
      match decodeDescs b count (off + 24) d.end_ with
      | .error e => .error e
      | .ok (ds, r) => .ok (d :: ds, r)

/-- `led89_manifest_decode`. -/
def manifestDecode (b : Bytes) : Except Err Manifest :=
  if b.length < 64 + 16 + 4 then .error .ecorrupt
  else if b.take 8 ≠ manifestMagic then .error .ecorrupt
  else if getU32 b 52 ≠ formatVersion then .error .eformat
  else if getU32 b 56 ≠ crc32c 0 (b.take 56) then .error .ecorrupt
  else
    let count := getU32 b 48
    if b.length ≠ manifestBytes count then .error .ecorrupt
    else if getU32 b (b.length - 4) ≠ crc32c 0 (b.take (b.length - 4)) then .error .ecorrupt
    else
      match decodeDescs b count 64 (getU64 b 40) with
      | .error e => .error e
      | .ok (ds, off, prevEnd) =>
        let active : PartDesc := ⟨getU64 b off, getU64 b (off + 8), getU64 b (off + 8)⟩
        if active.first ≠ prevEnd then .error .ecorrupt
        else .ok
          { generation := getU64 b 8
            uuid := slice b 16 16
            revision := getU64 b 32
            first := getU64 b 40
            sealedParts := ds
            active := active }

/-- `led89_part_header_encode`. -/
def partHeaderEncode (h : PartHeader) : Bytes :=
  let body := partMagic ++ h.uuid ++ putU64 h.fileId ++ putU64 h.revision ++ putU64 h.first ++
    putU32 formatVersion ++ replicate 4 0
  body ++ putU32 (crc32c 0 body) ++ replicate 4 0

/-- `led89_part_header_decode`. -/
def partHeaderDecode (b : Bytes) : Except Err PartHeader :=
  if b.take 8 ≠ partMagic then .error .ecorrupt
  else if getU32 b 48 ≠ formatVersion then .error .eformat
  else if getU32 b 56 ≠ crc32c 0 (b.take 56) then .error .ecorrupt
  else .ok
    { uuid := slice b 8 16
      fileId := getU64 b 24
      revision := getU64 b 32
      first := getU64 b 40 }

/-- `led89_is_batch_header`. -/
def isBatchHeader (b : Bytes) : Bool := b.take 4 = batchHeaderMagic

/-- `led89_batch_header_decode`. -/
def batchHeaderDecode (b : Bytes) : Except Err BatchHeader :=
  if ¬isBatchHeader b then .error .ecorrupt
  else if getU32 b 24 ≠ crc32c 0 (b.take 24) then .error .ecorrupt
  else
    let h : BatchHeader := ⟨getU32 b 4, getU64 b 8, getU64 b 16⟩
    if h.count = 0 then .error .ecorrupt
    else if h.bytes < 56 then .error .ecorrupt
    else .ok h

/-- `led89_batch_footer_decode`. -/
def batchFooterDecode (b : Bytes) : Except Err BatchFooter :=
  if b.take 4 ≠ batchFooterMagic then .error .ecorrupt
  else .ok ⟨getU32 b 4, getU64 b 8⟩

/-- `led89_sealed_footer_decode`. -/
def sealedFooterDecode (b : Bytes) : Except Err SealedFooter :=
  if b.take 8 ≠ sealedFooterMagic then .error .ecorrupt
  else if getU32 b 60 ≠ crc32c 0 (b.take 60) then .error .ecorrupt
  else .ok
    { uuid := slice b 8 16
      fileId := getU64 b 24
      first := getU64 b 32
      end_ := getU64 b 40
      records := getU64 b 48
      digest := getU32 b 56 }

/-! ## Files -/

/-- A file, whose size is an `off_t`. -/
structure File where
  bytes : Bytes
  bound : bytes.length < 2 ^ 63

/-- `io->size`. -/
def File.size (f : File) : Nat := f.bytes.length

theorem File.size_lt (f : File) : f.size < 2 ^ 63 := f.bound

/-- `io->pread`: all `len` bytes, or a failure. -/
def File.pread (f : File) (len offset : Nat) : Option Bytes :=
  if len = 0 then some []
  else if offset + len ≤ f.size then some (slice f.bytes offset len)
  else none

variable {f : File}

theorem File.pread_none (h0 : 0 < len) (h : f.size < offset + len) :
    f.pread len offset = none := by
  rw [File.pread, if_neg (by omega), if_neg (by omega)]

theorem File.pread_some (h0 : 0 < len)
    (h : f.pread len offset = some b) : offset + len ≤ f.size ∧ b = slice f.bytes offset len := by
  rw [File.pread, if_neg (by omega)] at h
  split at h
  next hle => exact ⟨hle, (Option.some.inj h).symm⟩
  next => cases h

theorem File.pread_ok (h : offset + len ≤ f.size) :
    f.pread len offset = some (slice f.bytes offset len) := by
  rw [File.pread, if_pos h]
  split
  next h0 => simp [h0, slice]
  next => rfl

/-! ## The scan buffer -/

/-- The buffer `buf` of a handle as far as it decides on failures: its capacity, and
what `realloc` answers from now on. -/
structure Scratch where
  cap : Nat
  grants : Nat → Bool

/-- No request is refused from now on. -/
def Scratch.Granted (s : Scratch) : Prop := ∀ k, s.grants k = true

/-- `led89_next_cap`. -/
def nextCap (cap need initial : Nat) : Nat :=
  max (if cap = 0 then initial else cap * 2) need

/-- `led89_buf_reserve`. -/
def Scratch.reserve (s : Scratch) (need : Nat) : Except Err Unit × Scratch :=
  if need ≤ s.cap then (.ok (), s)
  else if s.grants 0 then
    (.ok (), ⟨nextCap s.cap need 4096, fun k => s.grants (k + 1)⟩)
  else (.error .enomem, ⟨s.cap, fun k => s.grants (k + 1)⟩)

/-- A reservation is refused by `realloc` only. -/
theorem Scratch.reserve_cases (s : Scratch) (need : Nat) :
    (∃ s', s.reserve need = (.ok (), s') ∧ (s.Granted → s'.Granted)) ∨
      (∃ s', s.reserve need = (.error .enomem, s') ∧ ¬s.Granted) := by
  rw [Scratch.reserve]
  split
  · exact .inl ⟨s, rfl, id⟩
  · split
    next => exact .inl ⟨_, rfl, fun h k => h (k + 1)⟩
    next hno => exact .inr ⟨_, rfl, fun h => hno (h 0)⟩

end Led89
