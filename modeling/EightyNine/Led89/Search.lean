import EightyNine.Led89.Format
import EightyNine.Library.Backward

/-!
# libledger89: the search for the last stable marker

`led89_find_last_marker` of `src/ledger89_recover.c`.  The file is read backward in
windows of 4096 bytes that overlap by seven.  In a window the search looks for the
trailer of a marker, and decodes the 64 bytes that end with it.

The search is exact for markers with their trailer (`findLastMarker_exact`).  A
marker is decoded without its trailer, so one whose trailer is damaged still decodes
and the search passes it over (`findLastMarker_passes`).
-/

namespace Led89

open Library (lastBelow retryBelow)

/-! ## The handle -/

/-- `led89_part`, without the descriptor of its file. -/
structure Part where
  desc : PartDesc
  isSealed : Bool
  bytes : Nat
deriving DecidableEq, Inhabited

/-- `led89_batch_dir_entry`. -/
structure BatchDirEntry where
  first : Nat
  count : Nat
  offset : Nat
  bytes : Nat
  part : Nat
deriving DecidableEq, Inhabited

/-- `struct ledger89`, without its paths and its lock. -/
structure Ledger where
  writable : Bool
  poisoned : Bool
  dirty : Bool
  id : Bytes
  revision : Nat
  first : Nat
  stableEnd : Nat
  end_ : Nat
  generation : Nat
  nextFileId : Nat
  activeIndex : Nat
  parts : List Part
  dir : List BatchDirEntry
  scratch : Scratch

/-- `l->parts[i]`. -/
def Ledger.part (l : Ledger) (i : Nat) : Part := l.parts.getD i default

/-- `led89_marker_matches`. -/
def Ledger.markerMatches (l : Ledger) (m : Marker) : Bool :=
  m.uuid = l.id ∧ m.fileId = (l.part l.activeIndex).desc.fileId ∧ m.revision = l.revision

/-! ## The search -/

/-- `LED89_SCAN_CHUNK`. -/
def scanChunk : Nat := 4096

/-- `LED89_TRAILER_OVERLAP`. -/
def trailerOverlap : Nat := 7

/-- `memcmp` of eight bytes with the trailer. -/
def trailerAt (buf : Bytes) (i : Nat) : Bool := slice buf i 8 = trailer

/-- `led89_find_trailer`. -/
def findTrailer (buf : Bytes) (limit : Nat) : Option Nat := lastBelow (trailerAt buf) 8 limit

/-- `led89_trailer_moff`. -/
def trailerMoff (readLo idx : Nat) : Nat := u64Left (atAdd readLo idx) 56

/-- `led89_try_marker`. -/
def tryMarker (l : Ledger) (f : File) (moff size : Nat) : Option (Marker × Nat) :=
  if moff < partHeaderSize then none
  else if atAdd moff markerSize > size then none
  else
    match f.pread markerSize moff with
    | none => none
    | some mb =>
      match markerDecode mb with
      | .error _ => none
      | .ok m => if l.markerMatches m then some (m, moff) else none

/-- `led89_scan_hit`, made only for a trailer that has a marker's room before it. -/
def scanHit (l : Ledger) (f : File) (readLo size idx : Nat) : Option (Marker × Nat) :=
  if atAdd readLo idx ≥ 56 then tryMarker l f (trailerMoff readLo idx) size else none

/-- `led89_scan_window`. -/
def scanWindow (l : Ledger) (f : File) (readLo hi size : Nat) (s : Scratch) :
    Except Err (Option (Marker × Nat)) × Scratch :=
  let len := u64Left hi readLo
  match s.reserve len with
  | (.error e, s) => (.error e, s)
  | (.ok (), s) =>
    match f.pread len readLo with
    | none => (.error .eio, s)
    | some buf =>
      (.ok (retryBelow (findTrailer buf) (scanHit l f readLo size) (len + 1) len), s)

/-- `led89_window_lo`. -/
def windowLo (hi : Nat) : Nat :=
  if hi > atAdd partHeaderSize scanChunk then u64Left hi scanChunk else partHeaderSize

/-- `led89_window_read_lo`. -/
def windowReadLo (lo : Nat) : Nat :=
  if lo > atAdd partHeaderSize trailerOverlap then u64Left lo trailerOverlap else partHeaderSize

/-- `led89_marker_step`: what was found, and the next `pos`. -/
def markerStep (l : Ledger) (f : File) (size pos : Nat) (s : Scratch) :
    Except Err (Option (Marker × Nat) × Nat) × Scratch :=
  let lo := windowLo pos
  match scanWindow l f (windowReadLo lo) pos size s with
  | (.error e, s) => (.error e, s)
  | (.ok (some hit), s) => (.ok (some hit, pos), s)
  | (.ok none, s) => (.ok (none, if lo = partHeaderSize then 0 else lo), s)

/-- The loop of `led89_find_last_marker`.  `pos` falls from pass to pass. -/
def findLoop (l : Ledger) (f : File) (size : Nat) :
    Nat → Nat → Scratch → Except Err (Marker × Nat) × Scratch
  | 0, _, s => (.error .ecorrupt, s)
  | fuel + 1, pos, s =>
    if pos > partHeaderSize then
      match markerStep l f size pos s with
      | (.error e, s) => (.error e, s)
      | (.ok (some hit, _), s) => (.ok hit, s)
      | (.ok (none, pos), s) => findLoop l f size fuel pos s
    else (.error .ecorrupt, s)

/-- `led89_find_last_marker`. -/
def findLastMarker (l : Ledger) (f : File) (size : Nat) (s : Scratch) :
    Except Err (Marker × Nat) × Scratch :=
  findLoop l f size (size + 1) size s

/-! ## What is found -/

/-- A marker of the ledger, the active file and the revision begins at `o`, with its
trailer. -/
structure Marks (l : Ledger) (f : File) (size o : Nat) (m : Marker) : Prop where
  above : partHeaderSize ≤ o
  fits : o + markerSize ≤ size
  decodes : markerDecode (slice f.bytes o markerSize) = .ok m
  ours : l.markerMatches m
  trailed : slice f.bytes (o + 56) 8 = trailer

/-- The last of them. -/
def LastMark (l : Ledger) (f : File) (size : Nat) (m : Marker) (o : Nat) : Prop :=
  Marks l f size o m ∧ ∀ o' m', Marks l f size o' m' → o' ≤ o

variable {l : Ledger} {f : File} {size : Nat}

/-- No two trailers overlap: the bytes of the trailer are distinct. -/
theorem noOverlap_trailer (buf : Bytes) : Library.NoOverlap (trailerAt buf) 8 := by
  intro i j hi hj hij
  have hi : slice buf i 8 = trailer := of_decide_eq_true hi
  have hj : slice buf j 8 = trailer := of_decide_eq_true hj
  have hdistinct : ∀ k < 8, 0 < k → trailer[k]? ≠ trailer[0]? := by decide
  by_contra hlt
  obtain ⟨k, rfl, hk0, hk8⟩ : ∃ k, j = i + k ∧ 0 < k ∧ k < 8 :=
    ⟨j - i, by omega, by omega, by omega⟩
  have hk : trailer[k]? = buf[i + k]? := by rw [← hi, getElem?_slice hk8]
  have h0 : trailer[0]? = buf[i + k]? := by rw [← hj, getElem?_slice (by omega), Nat.add_zero]
  exact hdistinct k hk8 hk0 (hk.trans h0.symm)

theorem partHeaderSize_eq : partHeaderSize = 64 := rfl

theorem markerSize_eq : markerSize = 64 := rfl

/-- A trailer is taken up when the 64 bytes it ends are a marker of ours. -/
theorem scanHit_iff {readLo idx : Nat} {m : Marker} {o : Nat} (hsize : size ≤ f.size)
    (hlt : readLo + idx < size) :
    scanHit l f readLo size idx = some (m, o) ↔
      o + 56 = readLo + idx ∧ partHeaderSize ≤ o ∧ o + markerSize ≤ size ∧
        markerDecode (slice f.bytes o markerSize) = .ok m ∧ l.markerMatches m := by
  have hbound := f.size_lt
  have hadd : atAdd readLo idx = readLo + idx := atAdd_eq (by simp only [u64Size]; omega)
  rw [scanHit, hadd]
  split
  next h56 =>
    have hmoff : trailerMoff readLo idx = readLo + idx - 56 := by
      rw [trailerMoff, hadd, u64Left_eq h56 (by simp only [u64Size]; omega)]
    rw [hmoff, tryMarker, atAdd_eq (by simp only [u64Size, markerSize]; omega)]
    split
    next hlow =>
      constructor
      · intro h
        cases h
      · rintro ⟨ho, habove, -⟩
        omega
    next hlow =>
      split
      next hhigh =>
        constructor
        · intro h
          cases h
        · rintro ⟨ho, -, hfits, -⟩
          omega
      next hhigh =>
        rw [File.pread_ok (by omega)]
        dsimp only
        constructor
        · intro h
          split at h
          next => cases h
          next m' hm =>
            split at h
            next hours =>
              obtain ⟨rfl, rfl⟩ := Prod.mk.inj (Option.some.inj h)
              exact ⟨by omega, by omega, by omega, hm, hours⟩
            next => cases h
        · rintro ⟨ho, -, -, hm, hours⟩
          obtain rfl : o = readLo + idx - 56 := by omega
          rw [hm]
          simp [hours]
  next h56 =>
    constructor
    · intro h
      cases h
    · rintro ⟨ho, -⟩
      omega

/-- In a window of the file, a trailer is a trailer of the file. -/
theorem trailerAt_slice {readLo len i : Nat} (h : i + 8 ≤ len) :
    trailerAt (slice f.bytes readLo len) i = trailerAt f.bytes (readLo + i) := by
  rw [trailerAt, trailerAt, slice_slice h]

theorem scanWindow_spec {readLo hi : Nat} {s : Scratch} (hlo : readLo ≤ hi) (hhi : hi ≤ size)
    (hsize : size ≤ f.size) :
    (∃ s', scanWindow l f readLo hi size s = (.error .enomem, s') ∧ ¬s.Granted) ∨
      ∃ r s', scanWindow l f readLo hi size s = (.ok r, s') ∧ (s.Granted → s'.Granted) ∧
        (∀ m o, r = some (m, o) → Marks l f size o m ∧
          ∀ o' m', Marks l f size o' m' → o' + markerSize ≤ hi → o' ≤ o) ∧
        (r = none → ∀ o m, Marks l f size o m → readLo ≤ o + 56 → hi < o + markerSize) := by
  have hbound := f.size_lt
  have hlen : u64Left hi readLo = hi - readLo := u64Left_eq hlo (by simp only [u64Size]; omega)
  rw [scanWindow, hlen]
  obtain ⟨s', hs, hgrant⟩ | ⟨s', hs, hgrant⟩ := s.reserve_cases (hi - readLo)
  · rw [hs]
    dsimp only
    rw [File.pread_ok (by omega)]
    refine .inr ⟨_, s', rfl, hgrant, ?_, ?_⟩
    · intro m o hr
      obtain ⟨i, hi', ⟨hfit, htrail, -⟩, hmax⟩ :=
        Library.retryBelow_some (by omega) (noOverlap_trailer _) (Nat.lt_succ_self _) hr
      obtain ⟨ho, habove, hfits, hdec, hours⟩ := (scanHit_iff hsize (by omega)).1 hi'
      rw [trailerAt_slice hfit, ← ho] at htrail
      refine ⟨⟨habove, hfits, hdec, hours, of_decide_eq_true htrail⟩, ?_⟩
      intro o' m' hm' hin
      rw [markerSize_eq] at hin
      by_contra hgt
      have hpos : o' + 56 - readLo + 8 ≤ hi - readLo := by omega
      have hat : readLo + (o' + 56 - readLo) = o' + 56 := by omega
      have hle := hmax (a := o' + 56 - readLo) ⟨hpos, by
        rw [trailerAt_slice hpos, hat]
        exact decide_eq_true hm'.trailed, by
        rw [(scanHit_iff hsize (by omega)).2
          ⟨hat.symm, hm'.above, hm'.fits, hm'.decodes, hm'.ours⟩]
        rfl⟩
      omega
    · intro hr o m hm hin
      by_contra hle
      rw [markerSize_eq] at hle
      have hpos : o + 56 - readLo + 8 ≤ hi - readLo := by omega
      have hat : readLo + (o + 56 - readLo) = o + 56 := by omega
      have hnone := Library.retryBelow_none (by omega) (noOverlap_trailer _)
        (Nat.lt_succ_self _) hr _ hpos (by
          rw [trailerAt_slice hpos, hat]
          exact decide_eq_true hm.trailed)
      rw [(scanHit_iff hsize (by omega)).2 ⟨hat.symm, hm.above, hm.fits, hm.decodes, hm.ours⟩]
        at hnone
      cases hnone
  · rw [hs]
    exact .inl ⟨s', rfl, hgrant⟩

theorem windowLo_spec {hi : Nat} (hhi : partHeaderSize < hi) (hlt : hi < 2 ^ 63) :
    partHeaderSize ≤ windowLo hi ∧ windowLo hi < hi := by
  rw [windowLo, atAdd_eq (by decide)]
  split
  next h =>
    rw [u64Left_eq (by omega) (by simp only [u64Size]; omega)]
    simp only [partHeaderSize_eq, scanChunk] at h ⊢
    omega
  next => omega

/-- A window begins seven bytes below its part of the file, or where the parts end. -/
theorem windowReadLo_spec {lo : Nat} (hlo : partHeaderSize ≤ lo) (hlt : lo < 2 ^ 63) :
    windowReadLo lo ≤ lo ∧ (windowReadLo lo = partHeaderSize ∨ windowReadLo lo + 7 = lo) := by
  rw [windowReadLo, atAdd_eq (by decide)]
  split
  next h =>
    rw [u64Left_eq (by omega) (by simp only [u64Size]; omega)]
    simp only [partHeaderSize_eq, trailerOverlap] at h ⊢
    omega
  next => omega

/-- A step finds the last marker, or goes on where all markers that are left end. -/
theorem markerStep_spec {pos : Nat} {s : Scratch} (hpos : partHeaderSize < pos) (hle : pos ≤ size)
    (hsize : size ≤ f.size) (hall : ∀ o m, Marks l f size o m → o + markerSize ≤ pos) :
    (∃ s', markerStep l f size pos s = (.error .enomem, s') ∧ ¬s.Granted) ∨
      ∃ r pos' s', markerStep l f size pos s = (.ok (r, pos'), s') ∧ (s.Granted → s'.Granted) ∧
        (∀ m o, r = some (m, o) → LastMark l f size m o) ∧
        (r = none → pos' < pos ∧ ∀ o m, Marks l f size o m → o + markerSize ≤ pos') := by
  have hbound := f.size_lt
  obtain ⟨hlo, hlt⟩ := windowLo_spec hpos (by omega)
  obtain ⟨hread, hcase⟩ := windowReadLo_spec hlo (by omega)
  have hwindow : (∃ s', scanWindow l f (windowReadLo (windowLo pos)) pos size s
      = (.error .enomem, s') ∧ ¬s.Granted) ∨ _ := scanWindow_spec (by omega) hle hsize
  rw [markerStep]
  obtain ⟨s', hs, hrefused⟩ | ⟨r, s', hs, hgrant, hsome, hnone⟩ := hwindow
  · rw [hs]
    exact .inl ⟨s', rfl, hrefused⟩
  rw [hs]
  cases r with
  | some hit =>
    refine .inr ⟨some hit, pos, s', rfl, hgrant, ?_, fun h => by cases h⟩
    intro m o hr
    obtain ⟨hm, hmax⟩ := hsome m o hr
    exact ⟨hm, fun o' m' hm' => hmax o' m' hm' (hall o' m' hm')⟩
  | none =>
    refine .inr ⟨none, _, s', rfl, hgrant, fun m o h => (by cases h), fun _ => ⟨?_, ?_⟩⟩
    · split <;> omega
    · intro o m hm
      have hend := hall o m hm
      have habove := hm.above
      have hbelow : o + 56 < windowReadLo (windowLo pos) := by
        by_contra hge
        have := hnone rfl o m hm (by omega)
        omega
      rw [partHeaderSize_eq] at habove hcase
      rw [markerSize_eq] at hend ⊢
      split
      next h =>
        rw [partHeaderSize_eq] at h
        omega
      next => omega

theorem findLoop_spec (hsize : size ≤ f.size) : ∀ {fuel pos : Nat} {s : Scratch}, pos < fuel →
    pos ≤ size → (∀ o m, Marks l f size o m → o + markerSize ≤ pos) →
    (∃ s', findLoop l f size fuel pos s = (.error .enomem, s') ∧ ¬s.Granted) ∨
      (∃ m o s', findLoop l f size fuel pos s = (.ok (m, o), s') ∧ (s.Granted → s'.Granted) ∧
        LastMark l f size m o) ∨
      ∃ s', findLoop l f size fuel pos s = (.error .ecorrupt, s') ∧
        ∀ o m, ¬Marks l f size o m := by
  intro fuel
  induction fuel with
  | zero => omega
  | succ fuel ih =>
    intro pos s hfuel hle hall
    rw [findLoop]
    split
    next hpos =>
      obtain ⟨s', hs, hrefused⟩ | ⟨r, pos', s', hs, hgrant, hsome, hnone⟩ :=
        markerStep_spec (s := s) hpos hle hsize hall
      · rw [hs]
        exact .inl ⟨s', rfl, hrefused⟩
      rw [hs]
      cases r with
      | some hit => exact .inr (.inl ⟨hit.1, hit.2, s', rfl, hgrant, hsome hit.1 hit.2 rfl⟩)
      | none =>
        obtain ⟨hlt, hall'⟩ := hnone rfl
        obtain ⟨s'', hs', hrefused⟩ | ⟨m, o, s'', hs', hgrant', hlast⟩ | hcorrupt :=
          ih (s := s') (by omega) (by omega) hall'
        · exact .inl ⟨s'', hs', fun hg => hrefused (hgrant hg)⟩
        · exact .inr (.inl ⟨m, o, s'', hs', fun hg => hgrant' (hgrant hg), hlast⟩)
        · exact .inr (.inr hcorrupt)
    next hpos =>
      refine .inr (.inr ⟨s, rfl, fun o m hm => ?_⟩)
      have habove := hm.above
      have hend := hall o m hm
      simp only [partHeaderSize_eq, markerSize_eq] at *
      omega

/-- The search finds the last marker, or there is none, or the buffer was refused. -/
theorem findLastMarker_spec (s : Scratch) (hsize : size ≤ f.size) :
    (∃ s', findLastMarker l f size s = (.error .enomem, s') ∧ ¬s.Granted) ∨
      (∃ m o s', findLastMarker l f size s = (.ok (m, o), s') ∧ (s.Granted → s'.Granted) ∧
        LastMark l f size m o) ∨
      ∃ s', findLastMarker l f size s = (.error .ecorrupt, s') ∧ ∀ o m, ¬Marks l f size o m :=
  findLoop_spec hsize (Nat.lt_succ_self size) le_rfl fun _ _ hm => hm.fits

theorem LastMark.unique {m m' : Marker} {o o' : Nat} (h : LastMark l f size m o)
    (h' : LastMark l f size m' o') : m = m' ∧ o = o' := by
  obtain rfl : o = o' := le_antisymm (h'.2 o m h.1) (h.2 o' m' h'.1)
  have hm := h.1.decodes
  rw [h'.1.decodes] at hm
  exact ⟨(Except.ok.inj hm).symm, rfl⟩

/-- Unless `realloc` refuses the buffer of a window, the search answers with the last
marker that has its trailer, and with `LEDGER89_ECORRUPT` exactly when there is none. -/
theorem findLastMarker_exact (l : Ledger) (f : File) (size : Nat) (s : Scratch)
    (hsize : size ≤ f.size) :
    ((findLastMarker l f size s).1 = .error .enomem ∧ ¬s.Granted) ∨
      (∀ m o, (findLastMarker l f size s).1 = .ok (m, o) ↔ LastMark l f size m o) ∧
        ((findLastMarker l f size s).1 = .error .ecorrupt ↔ ∀ o m, ¬Marks l f size o m) := by
  obtain ⟨s', hs, hrefused⟩ | ⟨m, o, s', hs, -, hlast⟩ | ⟨s', hs, hnone⟩ :=
    findLastMarker_spec s hsize
  · exact .inl ⟨by rw [hs], hrefused⟩
  · refine .inr ⟨fun m' o' => ?_, ?_⟩
    · rw [hs]
      constructor
      · intro h
        obtain ⟨rfl, rfl⟩ := Prod.mk.inj (Except.ok.inj h)
        exact hlast
      · intro h
        obtain ⟨rfl, rfl⟩ := hlast.unique h
        rfl
    · rw [hs]
      constructor
      · intro h
        cases h
      · intro h
        exact absurd hlast.1 (h o m)
  · refine .inr ⟨fun m o => ?_, ?_⟩
    · rw [hs]
      constructor
      · intro h
        cases h
      · intro h
        exact absurd h.1 (hnone o m)
    · rw [hs]
      exact ⟨fun _ => hnone, fun _ => rfl⟩

/-- A handle whose active file is file 1. -/
def oneFile : Ledger where
  writable := true
  poisoned := false
  dirty := false
  id := List.replicate 16 0
  revision := 0
  first := 1
  stableEnd := 1
  end_ := 1
  generation := 1
  nextFileId := 2
  activeIndex := 0
  parts := [⟨⟨1, 1, 1⟩, false, 128⟩]
  dir := []
  scratch := ⟨0, fun _ => true⟩

/-- Its baseline marker. -/
def baseline : Marker := ⟨List.replicate 16 0, 1, 0, 1⟩

/-- Its file, with `last` as the trailer of the marker. -/
def oneMarker (last : UInt8) : File where
  bytes := List.replicate 64 0 ++ ((markerEncode baseline).take 63 ++ [last])
  bound := by simp [markerEncode, Marker.body, baseline, markerMagic, putU64, putU32, trailer]

/-- A file with one marker. -/
theorem findLastMarker_exact_one :
    (findLastMarker oneFile (oneMarker 0x45) 128 oneFile.scratch).1 = .ok (baseline, 64) := by
  obtain ⟨-, hrefused⟩ | ⟨hok, -⟩ :=
    findLastMarker_exact oneFile (oneMarker 0x45) 128 oneFile.scratch (by decide +kernel)
  · exact absurd (fun _ => rfl) hrefused
  · refine (hok baseline 64).2 ⟨⟨by decide, by decide, by decide +kernel, by decide, by decide +kernel⟩, ?_⟩
    intro o m hm
    have hfits := hm.fits
    rw [markerSize_eq] at hfits
    omega

/-- The marker of the ledger decodes when its trailer is damaged, and is not found. -/
theorem findLastMarker_passes :
    markerDecode (slice (oneMarker 0).bytes 64 markerSize) = .ok baseline ∧
      oneFile.markerMatches baseline ∧ oneFile.scratch.Granted ∧
      (findLastMarker oneFile (oneMarker 0) 128 oneFile.scratch).1 = .error .ecorrupt :=
  ⟨by decide +kernel, by decide, fun _ => rfl, by decide +kernel⟩

end Led89
