import EightyNine.Led89.Recover
import EightyNine.Library.Bits

/-!
# libledger89: what is written is read

The names of parts and the structures of a new ledger are decoded as they were
encoded.
-/

namespace Led89

open List Nat

open Library (or_shiftLeft)

/-! ## Fields -/

theorem byteAt_append_right (a b : Bytes) (i : Nat) :
    byteAt (a ++ b) (a.length + i) = byteAt b i := by
  rw [byteAt, byteAt, getD_eq_getElem?_getD, getD_eq_getElem?_getD,
    getElem?_append_right (Nat.le_add_right _ _), Nat.add_sub_cancel_left]

theorem getU32_append (a b : Bytes) (i : Nat) : getU32 (a ++ b) (a.length + i) = getU32 b i := by
  simp only [getU32, add_assoc, byteAt_append_right]

theorem getU64_append (a b : Bytes) (i : Nat) : getU64 (a ++ b) (a.length + i) = getU64 b i := by
  simp only [getU64, add_assoc, getU32_append]

theorem getU32_putU32 {v : Nat} (h : v < 2 ^ 32) (b : Bytes) : getU32 (putU32 v ++ b) 0 = v := by
  have hlow : ∀ x : Nat, x &&& 0xFF = x % 2 ^ 8 := fun x => and_two_pow_sub_one_eq_mod x 8
  have h8 := or_shiftLeft (k := 8) (a := v / 2 ^ 8 % 2 ^ 8) (x := v % 2 ^ 8) (by omega)
  have h16 := or_shiftLeft (k := 16) (a := v / 2 ^ 16 % 2 ^ 8)
    (x := v / 2 ^ 8 % 2 ^ 8 * 2 ^ 8 + v % 2 ^ 8) (by omega)
  have h24 := or_shiftLeft (k := 24) (a := v / 2 ^ 24 % 2 ^ 8)
    (x := v / 2 ^ 16 % 2 ^ 8 * 2 ^ 16 + (v / 2 ^ 8 % 2 ^ 8 * 2 ^ 8 + v % 2 ^ 8)) (by omega)
  simp only [getU32, byteAt, putU32, hlow, Nat.shiftRight_eq_div_pow, cons_append,
    nil_append, getD_cons_zero, getD_cons_succ, zero_add, UInt8.toNat_ofNat',
    mod_mod]
  rw [h8, h16, h24]
  omega

theorem length_putU32 (v : Nat) : (putU32 v).length = 4 := rfl

theorem length_putU64 (v : Nat) : (putU64 v).length = 8 := rfl

theorem getU64_putU64 {v : Nat} (h : v < 2 ^ 64) (b : Bytes) : getU64 (putU64 v ++ b) 0 = v := by
  have hlow : v &&& 0xFFFFFFFF = v % 2 ^ 32 := and_two_pow_sub_one_eq_mod v 32
  have hhigh := getU32_append (putU32 (v % 2 ^ 32)) (putU32 (v / 2 ^ 32) ++ b) 0
  rw [length_putU32, getU32_putU32 (by omega)] at hhigh
  rw [getU64, putU64, hlow, Nat.shiftRight_eq_div_pow, append_assoc,
    getU32_putU32 (by omega), hhigh, or_shiftLeft (by omega)]
  omega

theorem getU64_lt (b : Bytes) (i : Nat) : getU64 b i < 2 ^ 64 := by
  have h0 := getU32_lt b i
  have h1 := getU32_lt b (i + 4)
  rw [getU64, or_shiftLeft h0]
  omega

/-! ## Structures as their fields -/

variable {fields : List Bytes} {i k n v : Nat} {c : Bytes}

/-- A structure is what comes before a field, the field, and the rest. -/
theorem flatten_split (hk : fields[k]? = some c) :
    fields.flatten = (fields.take k).flatten ++ (c ++ (fields.drop (k + 1)).flatten) := by
  conv_lhs => rw [← take_append_drop k fields]
  rw [flatten_append, drop_eq_getElem?_toList_append, hk, Option.toList_some,
    singleton_append, flatten_cons]

theorem getU32_flatten (hk : fields[k]? = some (putU32 v)) (hi : i = (fields.take k).flatten.length)
    (hv : v < 2 ^ 32) : getU32 fields.flatten i = v := by
  have h := getU32_append (fields.take k).flatten (putU32 v ++ (fields.drop (k + 1)).flatten) 0
  rw [flatten_split hk, hi, ← add_zero (length _), h, getU32_putU32 hv]

theorem getU64_flatten (hk : fields[k]? = some (putU64 v)) (hi : i = (fields.take k).flatten.length)
    (hv : v < 2 ^ 64) : getU64 fields.flatten i = v := by
  have h := getU64_append (fields.take k).flatten (putU64 v ++ (fields.drop (k + 1)).flatten) 0
  rw [flatten_split hk, hi, ← add_zero (length _), h, getU64_putU64 hv]

theorem slice_flatten (hk : fields[k]? = some c) (hi : i = (fields.take k).flatten.length)
    (hn : n = c.length) : slice fields.flatten i n = c := by
  rw [slice, flatten_split hk, hi, hn, drop_left, take_left]

theorem take_flatten (hn : n = (fields.take k).flatten.length) :
    fields.flatten.take n = (fields.take k).flatten := by
  conv_lhs => rw [← take_append_drop k fields]
  rw [flatten_append, hn, take_left]

/-! ## The checksum -/

theorem crcNibble_lt {crc nibble : Nat} (h : crc < 2 ^ 32) : crcNibble crc nibble < 2 ^ 32 := by
  have htable : ∀ i : Nat, crcTable.getD i 0 < 2 ^ 32 := by
    intro i
    rw [getD_eq_getElem?_getD]
    cases hi : crcTable[i]? with
    | none => decide
    | some x =>
      have hmem := mem_of_getElem? hi
      have hall : ∀ x ∈ crcTable, x < 2 ^ 32 := by decide
      exact hall x hmem
  refine xor_lt_two_pow ?_ (htable _)
  exact lt_of_le_of_lt (shiftRight_le crc 4) h

theorem u32Not_lt {crc : Nat} (h : crc < 2 ^ 32) : u32Not crc < 2 ^ 32 :=
  xor_lt_two_pow (by decide) h

theorem crc32c_lt {crc : Nat} (h : crc < 2 ^ 32) (data : Bytes) : crc32c crc data < 2 ^ 32 := by
  refine u32Not_lt ?_
  have hinv : ∀ (data : Bytes) (crc : Nat), crc < 2 ^ 32 → data.foldl crcByte crc < 2 ^ 32 := by
    intro data
    induction data with
    | nil => exact fun crc h => h
    | cons x data ih => exact fun crc h => ih _ (crcNibble_lt (crcNibble_lt h))
  exact hinv data _ (u32Not_lt h)

/-! ## What is decoded -/

theorem length_markerMagic : markerMagic.length = 8 := rfl

theorem length_trailer : trailer.length = 8 := rfl

theorem markerEncode_eq (m : Marker) :
    markerEncode m = [markerMagic, m.uuid, putU64 m.fileId, putU64 m.revision, putU64 m.end_,
      putU32 formatVersion, putU32 (crc32c 0 m.body), trailer].flatten := by
  simp [markerEncode, Marker.body]

theorem length_markerEncode {m : Marker} (hu : m.uuid.length = 16) :
    (markerEncode m).length = 64 := by
  simp [markerEncode, Marker.body, hu, length_putU64, length_putU32, length_markerMagic,
    length_trailer]

theorem markerDecode_encode {m : Marker} (hu : m.uuid.length = 16) (hid : m.fileId < 2 ^ 64)
    (hrev : m.revision < 2 ^ 64) (hend : m.end_ < 2 ^ 64) : markerDecode (markerEncode m) = .ok m := by
  have hmagic : isMarker (markerEncode m) = true := by
    rw [isMarker, markerEncode_eq, take_flatten (k := 1) (by simp [length_markerMagic])]
    simp
  have hversion : getU32 (markerEncode m) 48 = formatVersion := by
    rw [markerEncode_eq]
    exact getU32_flatten (k := 5) rfl (by simp [hu, length_markerMagic, length_putU64]) (by decide)
  have hcrc : getU32 (markerEncode m) 52 = crc32c 0 m.body := by
    rw [markerEncode_eq]
    exact getU32_flatten (k := 6) rfl
      (by simp [hu, length_markerMagic, length_putU64, length_putU32]) (crc32c_lt (by decide) _)
  have hbody : (markerEncode m).take 52 = m.body := by
    rw [markerEncode_eq, take_flatten (k := 6)
      (by simp [hu, length_markerMagic, length_putU64, length_putU32])]
    simp [Marker.body]
  have huuid : slice (markerEncode m) 8 16 = m.uuid := by
    rw [markerEncode_eq]
    exact slice_flatten (k := 1) rfl (by simp [length_markerMagic]) hu.symm
  have hid' : getU64 (markerEncode m) 24 = m.fileId := by
    rw [markerEncode_eq]
    exact getU64_flatten (k := 2) rfl (by simp [hu, length_markerMagic]) hid
  have hrev' : getU64 (markerEncode m) 32 = m.revision := by
    rw [markerEncode_eq]
    exact getU64_flatten (k := 3) rfl (by simp [hu, length_markerMagic, length_putU64]) hrev
  have hend' : getU64 (markerEncode m) 40 = m.end_ := by
    rw [markerEncode_eq]
    exact getU64_flatten (k := 4) rfl (by simp [hu, length_markerMagic, length_putU64]) hend
  simp [markerDecode, hmagic, hversion, hcrc, hbody, huuid, hid', hrev', hend']

theorem slice_markerEncode {m : Marker} (hu : m.uuid.length = 16) :
    slice (markerEncode m) 56 8 = trailer := by
  rw [markerEncode_eq]
  exact slice_flatten (k := 7) rfl
    (by simp [hu, length_markerMagic, length_putU64, length_putU32]) rfl

theorem length_partMagic : partMagic.length = 8 := rfl

theorem partHeaderEncode_eq (h : PartHeader) :
    ∃ body, partHeaderEncode h = [partMagic, h.uuid, putU64 h.fileId, putU64 h.revision,
      putU64 h.first, putU32 formatVersion, replicate 4 0, putU32 (crc32c 0 body),
      replicate 4 0].flatten ∧
      body = [partMagic, h.uuid, putU64 h.fileId, putU64 h.revision, putU64 h.first,
        putU32 formatVersion, replicate 4 0].flatten := by
  refine ⟨_, ?_, rfl⟩
  simp only [partHeaderEncode, flatten_cons, flatten_nil, append_nil, append_assoc]

theorem length_partHeaderEncode {h : PartHeader} (hu : h.uuid.length = 16) :
    (partHeaderEncode h).length = 64 := by
  simp [partHeaderEncode, hu, length_putU64, length_putU32, length_partMagic]

theorem partHeaderDecode_encode {h : PartHeader} (hu : h.uuid.length = 16)
    (hid : h.fileId < 2 ^ 64) (hrev : h.revision < 2 ^ 64) (hfirst : h.first < 2 ^ 64) :
    partHeaderDecode (partHeaderEncode h) = .ok h := by
  obtain ⟨body, heq, hbody⟩ := partHeaderEncode_eq h
  have hmagic : (partHeaderEncode h).take 8 = partMagic := by
    rw [heq, take_flatten (k := 1) (by simp [length_partMagic])]
    simp
  have hversion : getU32 (partHeaderEncode h) 48 = formatVersion := by
    rw [heq]
    exact getU32_flatten (k := 5) rfl (by simp [hu, length_partMagic, length_putU64]) (by decide)
  have hcrc : getU32 (partHeaderEncode h) 56 = crc32c 0 ((partHeaderEncode h).take 56) := by
    have htake : (partHeaderEncode h).take 56 = body := by
      rw [heq, take_flatten (k := 7)
        (by simp [hu, length_partMagic, length_putU64, length_putU32]), hbody]
      rfl
    rw [htake, heq]
    exact getU32_flatten (k := 7) rfl
      (by simp [hu, length_partMagic, length_putU64, length_putU32]) (crc32c_lt (by decide) _)
  have huuid : slice (partHeaderEncode h) 8 16 = h.uuid := by
    rw [heq]
    exact slice_flatten (k := 1) rfl (by simp [length_partMagic]) hu.symm
  have hid' : getU64 (partHeaderEncode h) 24 = h.fileId := by
    rw [heq]
    exact getU64_flatten (k := 2) rfl (by simp [hu, length_partMagic]) hid
  have hrev' : getU64 (partHeaderEncode h) 32 = h.revision := by
    rw [heq]
    exact getU64_flatten (k := 3) rfl (by simp [hu, length_partMagic, length_putU64]) hrev
  have hfirst' : getU64 (partHeaderEncode h) 40 = h.first := by
    rw [heq]
    exact getU64_flatten (k := 4) rfl (by simp [hu, length_partMagic, length_putU64]) hfirst
  rw [partHeaderDecode, if_neg (not_not.2 hmagic), if_neg (not_not.2 hversion),
    if_neg (not_not.2 hcrc), huuid, hid', hrev', hfirst']

theorem length_currentMagic : currentMagic.length = 8 := rfl

theorem length_currentEncode (generation : Nat) : (currentEncode generation).length = 32 := by
  simp [currentEncode, length_putU64, length_putU32, length_currentMagic]

theorem currentDecode_encode {generation : Nat} (h : generation < 2 ^ 64) :
    currentDecode (currentEncode generation) = .ok generation := by
  have heq : currentEncode generation = [currentMagic, putU64 generation, putU32 formatVersion,
      putU32 (crc32c 0 [currentMagic, putU64 generation, putU32 formatVersion].flatten),
      replicate 8 0].flatten := by
    simp only [currentEncode, flatten_cons, flatten_nil, append_nil, append_assoc]
  have hmagic : (currentEncode generation).take 8 = currentMagic := by
    rw [heq, take_flatten (k := 1) (by simp [length_currentMagic])]
    simp
  have hversion : getU32 (currentEncode generation) 16 = formatVersion := by
    rw [heq]
    exact getU32_flatten (k := 2) rfl (by simp [length_currentMagic, length_putU64]) (by decide)
  have hcrc : getU32 (currentEncode generation) 20
      = crc32c 0 ((currentEncode generation).take 20) := by
    rw [heq, take_flatten (k := 3) (by simp [length_currentMagic, length_putU64, length_putU32])]
    exact getU32_flatten (k := 3) rfl
      (by simp [length_currentMagic, length_putU64, length_putU32]) (crc32c_lt (by decide) _)
  have hgen : getU64 (currentEncode generation) 8 = generation := by
    rw [heq]
    exact getU64_flatten (k := 1) rfl (by simp [length_currentMagic]) h
  rw [currentDecode, if_neg (not_not.2 hmagic), if_neg (not_not.2 hversion),
    if_neg (not_not.2 hcrc), hgen]

theorem length_manifestMagic : manifestMagic.length = 8 := rfl

/-- The header of the manifest of a new ledger, without its checksum. -/
def newManifestBody (uuid : Bytes) : List Bytes :=
  [manifestMagic, putU64 1, uuid, putU64 0, putU64 1, putU32 0, putU32 formatVersion]

/-- The manifest of a new ledger, without its checksum. -/
def newManifestFields (uuid : Bytes) : List Bytes :=
  newManifestBody uuid ++ [putU32 (crc32c 0 (newManifestBody uuid).flatten), replicate 4 0,
    putU64 1, putU64 1]

theorem newManifestEncode_eq (uuid : Bytes) :
    manifestEncode (newManifest uuid) =
      (newManifestFields uuid ++ [putU32 (crc32c 0 (newManifestFields uuid).flatten)]).flatten := by
  simp [manifestEncode, manifestHeaderEncode, newManifest, newManifestFields, newManifestBody]

theorem length_newManifestEncode {uuid : Bytes} (hu : uuid.length = 16) :
    (manifestEncode (newManifest uuid)).length = 84 := by
  simp [newManifestEncode_eq, newManifestFields, newManifestBody, hu, length_putU64, length_putU32,
    length_manifestMagic]

theorem newManifestDecode_encode {uuid : Bytes} (hu : uuid.length = 16) :
    manifestDecode (manifestEncode (newManifest uuid)) = .ok (newManifest uuid) := by
  have hlen := length_newManifestEncode hu
  have heq := newManifestEncode_eq uuid
  have hmagic : (manifestEncode (newManifest uuid)).take 8 = manifestMagic := by
    rw [heq, take_flatten (k := 1) (by simp [newManifestFields, newManifestBody, length_manifestMagic])]
    simp [newManifestFields, newManifestBody]
  have hversion : getU32 (manifestEncode (newManifest uuid)) 52 = formatVersion := by
    rw [heq]
    exact getU32_flatten (k := 6) rfl (by simp [newManifestFields, newManifestBody, hu,
      length_manifestMagic, length_putU64, length_putU32]) (by decide)
  have hcrc : getU32 (manifestEncode (newManifest uuid)) 56
      = crc32c 0 ((manifestEncode (newManifest uuid)).take 56) := by
    rw [heq, take_flatten (k := 7) (by simp [newManifestFields, newManifestBody, hu,
      length_manifestMagic, length_putU64, length_putU32])]
    exact getU32_flatten (k := 7) rfl (by simp [newManifestFields, newManifestBody, hu,
      length_manifestMagic, length_putU64, length_putU32]) (crc32c_lt (by decide) _)
  have hcount : getU32 (manifestEncode (newManifest uuid)) 48 = 0 := by
    rw [heq]
    exact getU32_flatten (k := 5) rfl (by simp [newManifestFields, newManifestBody, hu,
      length_manifestMagic, length_putU64]) (by decide)
  have hsum : getU32 (manifestEncode (newManifest uuid)) 80
      = crc32c 0 ((manifestEncode (newManifest uuid)).take 80) := by
    rw [heq, take_flatten (k := 11) (by simp [newManifestFields, newManifestBody, hu,
      length_manifestMagic, length_putU64, length_putU32])]
    exact getU32_flatten (k := 11) rfl (by simp [newManifestFields, newManifestBody, hu,
      length_manifestMagic, length_putU64, length_putU32]) (crc32c_lt (by decide) _)
  have huuid : slice (manifestEncode (newManifest uuid)) 16 16 = uuid := by
    rw [heq]
    exact slice_flatten (k := 2) rfl (by simp [newManifestFields, newManifestBody,
      length_manifestMagic, length_putU64]) hu.symm
  have hfield : ∀ {i k v : Nat}, (newManifestFields uuid ++
        [putU32 (crc32c 0 (newManifestFields uuid).flatten)])[k]? = some (putU64 v) →
      i = ((newManifestFields uuid ++
        [putU32 (crc32c 0 (newManifestFields uuid).flatten)]).take k).flatten.length →
      v < 2 ^ 64 → getU64 (manifestEncode (newManifest uuid)) i = v := by
    intro i k v hk hi hv
    rw [heq]
    exact getU64_flatten hk hi hv
  have hgen := hfield (i := 8) (k := 1) (v := 1) rfl (by simp [newManifestFields, newManifestBody,
    length_manifestMagic]) (by decide)
  have hrev := hfield (i := 32) (k := 3) (v := 0) rfl (by simp [newManifestFields, newManifestBody,
    hu, length_manifestMagic, length_putU64]) (by decide)
  have hfirst := hfield (i := 40) (k := 4) (v := 1) rfl (by simp [newManifestFields,
    newManifestBody, hu, length_manifestMagic, length_putU64]) (by decide)
  have hid := hfield (i := 64) (k := 9) (v := 1) rfl (by simp [newManifestFields, newManifestBody,
    hu, length_manifestMagic, length_putU64, length_putU32]) (by decide)
  have hafirst := hfield (i := 72) (k := 10) (v := 1) rfl (by simp [newManifestFields,
    newManifestBody, hu, length_manifestMagic, length_putU64, length_putU32]) (by decide)
  rw [manifestDecode, hlen]
  clear hfield heq hlen
  generalize manifestEncode (newManifest uuid) = b at *
  simp [hmagic, hversion, hcrc, hcount, hsum, huuid, hgen, hrev, hfirst, hid, hafirst, decodeDescs,
    manifestBytes, newManifest]

/-! ## Names -/

theorem hexValue_digit {d : Nat} (h : d < 16) :
    hexValue ([0x30, 0x31, 0x32, 0x33, 0x34, 0x35, 0x36, 0x37, 0x38, 0x39,
      0x61, 0x62, 0x63, 0x64, 0x65, 0x66].getD d 0) = some d := by
  revert h
  revert d
  decide

/-- The digits read so far are the high part of the number. -/
theorem hex16Parse_digits {v : Nat} (h : v < 2 ^ 64) : ∀ k ≤ 16,
    hex16Parse ((range' (16 - k) k).map (hexDigit v)) (v >>> (4 * k)) = some v := by
  intro k
  induction k with
  | zero => exact fun _ => rfl
  | succ k ih =>
    intro hk
    have hand : v >>> ((15 - (16 - (k + 1))) * 4) &&& 0x0F = v >>> (4 * k) % 2 ^ 4 := by
      rw [show (15 - (16 - (k + 1))) * 4 = 4 * k by omega]
      exact and_two_pow_sub_one_eq_mod _ 4
    have hdigit : hexValue (hexDigit v (16 - (k + 1))) = some (v >>> (4 * k) % 2 ^ 4) := by
      rw [hexDigit, hand]
      exact hexValue_digit (Nat.mod_lt _ (by decide))
    have haccum : hexAccum (v >>> (4 * (k + 1))) (v >>> (4 * k) % 2 ^ 4) = v >>> (4 * k) := by
      have hlt : v >>> (4 * k) < 2 ^ 64 := lt_of_le_of_lt (shiftRight_le _ _) h
      have hshift : v >>> (4 * (k + 1)) = v >>> (4 * k) / 2 ^ 4 := by
        rw [Nat.mul_succ, Nat.shiftRight_add, Nat.shiftRight_eq_div_pow _ 4]
      rw [hexAccum, hshift, Nat.mod_eq_of_lt, Nat.or_comm, or_shiftLeft (Nat.mod_lt _ (by decide))]
      · omega
      · rw [Nat.shiftLeft_eq, u64Size]
        omega
    rw [range'_succ, map_cons, hex16Parse, hdigit]
    dsimp only
    rw [haccum, show 16 - (k + 1) + 1 = 16 - k by omega]
    exact ih (by omega)

theorem length_hex16 (v : Nat) : (hex16 v).length = 16 := by simp [hex16]

theorem nameParse_partName {fileId : Nat} (h : fileId < 2 ^ 64) :
    nameParse partPrefix (partName fileId) = some fileId := by
  have hparse := hex16Parse_digits h 16 (Nat.le_refl _)
  rw [Nat.shiftRight_eq_zero _ _ h, Nat.sub_self, ← range_eq_range'] at hparse
  rw [nameParse, partName, if_neg (by simp [length_hex16]), if_neg (by simp), drop_left]
  exact hparse

end Led89
