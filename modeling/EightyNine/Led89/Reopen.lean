import EightyNine.Led89.RecoverOk

/-!
# libledger89: opening again, and reading

A writable open leaves a settled directory, whether it recovers a ledger or creates
one (`openIo_settled`).  So a second open changes nothing in the directory, and its
handle reads what the first one reads (`reopen_same`).

Every open has filled a window of the scan buffer, so that no read of a handle ever
allocates.  With that, partial reads agree with whole reads (`readAt_agrees`).
-/

namespace Led89

open List Except

variable {d d' : Dir} {l l' : Ledger} {uuid : Uuid} {s : Scratch}

/-! ## A new ledger -/

variable {name : Bytes}

theorem cleanLoop_cons {names : List Bytes}
    (h : cleanLoop (name :: names) d = .ok d') :
    cleanLoop names (if name = lockName then d else d.unlink name) = .ok d' := by
  rw [cleanLoop] at h
  cases hnext : listNext name with
  | error e =>
    rw [hnext] at h
    cases h
  | ok u =>
    simp only [hnext, bind, Except.bind] at h
    split at h
    next hlock =>
      rw [if_pos hlock]
      exact h
    next hlock =>
      rw [if_neg hlock]
      split at h
      · exact h
      · cases h

theorem cleanLoop_ok : ∀ {names : List Bytes} {d : Dir}, cleanLoop names d = .ok d' →
    d' = d.filter fun e => e.1 ∉ names ∨ e.1 = lockName := by
  intro names
  induction names with
  | nil =>
    intro d h
    obtain rfl := ok.inj h
    exact (filter_eq_self.2 (by simp)).symm
  | cons name names ih =>
    intro d h
    rw [ih (cleanLoop_cons h)]
    split
    next hlock =>
      refine filter_congr fun e _ => ?_
      obtain rfl | hne := eq_or_ne e.1 name
      · simp [hlock]
      · simp [hne]
    next hlock =>
      rw [Dir.unlink, filter_filter]
      refine filter_congr fun e _ => ?_
      obtain rfl | hne := eq_or_ne e.1 name
      · simp [hlock]
      · simp [hne]

theorem cleanDirForCreate_ok (h : cleanDirForCreate d = .ok d') :
    d' = d.filter fun e => e.1 = lockName := by
  rw [cleanLoop_ok h]
  refine filter_congr fun e he => ?_
  have hmem : e.1 ∈ d.map Prod.fst := mem_map_of_mem he
  simp only [hmem, not_true_eq_false, false_or]

theorem writeNewFile_ok {b : Bytes} (h : writeNewFile d name b = .ok d') :
    ∃ hb, d' = d.put name ⟨b, hb⟩ := by
  rw [writeNewFile] at h
  split at h
  next hb => exact ⟨hb, (ok.inj h).symm⟩
  next => cases h

/-- The first part of a new ledger: its header and its baseline marker. -/
def newPart (uuid : Uuid) : Bytes :=
  partHeaderEncode ⟨uuid.bytes, 1, 0, 1⟩ ++ markerEncode ⟨uuid.bytes, 1, 0, 1⟩

theorem slice_newPart_header (uuid : Uuid) :
    slice (newPart uuid) 0 64 = partHeaderEncode ⟨uuid.bytes, 1, 0, 1⟩ := by
  have hlen : (partHeaderEncode ⟨uuid.bytes, 1, 0, 1⟩).length = 64 :=
    length_partHeaderEncode uuid.length_eq
  rw [slice, drop_zero, newPart, take_left' hlen]

theorem slice_newPart_marker (uuid : Uuid) :
    slice (newPart uuid) 64 64 = markerEncode ⟨uuid.bytes, 1, 0, 1⟩ := by
  have hlen : (partHeaderEncode ⟨uuid.bytes, 1, 0, 1⟩).length = 64 :=
    length_partHeaderEncode uuid.length_eq
  have hlen' : (markerEncode ⟨uuid.bytes, 1, 0, 1⟩).length = 64 :=
    length_markerEncode uuid.length_eq
  rw [slice, newPart, drop_left' hlen, ← hlen', take_length]

theorem length_newPart (uuid : Uuid) : (newPart uuid).length = 128 := by
  rw [newPart, length_append, length_partHeaderEncode uuid.length_eq,
    length_markerEncode uuid.length_eq]

theorem scanned_new (grants : Nat → Bool) {f : File} (hf : f.bytes = newPart uuid)
    (hfile : d.lookup (partName 1) = some f) :
    Scanned ((newHandle true grants).withManifest (newManifest uuid.bytes)) d 0 f 64
      ⟨uuid.bytes, 1, 0, 1⟩ [] 1 := by
  have hsize : f.size = 128 := by rw [File.size, hf, length_newPart]
  have hheader : f.pread 64 0 = some (partHeaderEncode ⟨uuid.bytes, 1, 0, 1⟩) := by
    rw [File.pread_ok (by omega), hf, slice_newPart_header]
  have hmarker : f.pread 64 64 = some (markerEncode ⟨uuid.bytes, 1, 0, 1⟩) := by
    rw [File.pread_ok (by omega), hf, slice_newPart_marker]
  have h0 : 0 < 2 ^ 64 := by decide
  have h1 : 1 < 2 ^ 64 := by decide
  have hdec : partHeaderDecode (partHeaderEncode ⟨uuid.bytes, 1, 0, 1⟩)
      = .ok ⟨uuid.bytes, 1, 0, 1⟩ :=
    partHeaderDecode_encode uuid.length_eq h1 h0 h1
  have hdec' : markerDecode (markerEncode ⟨uuid.bytes, 1, 0, 1⟩) = .ok ⟨uuid.bytes, 1, 0, 1⟩ :=
    markerDecode_encode uuid.length_eq h1 h0 h1
  refine ⟨hfile, ?_, ⟨le_rfl, by rw [hsize]; exact le_rfl, ?_, ?_, ?_⟩, ?_⟩
  · rw [scanStart, if_neg (by omega), scanHeader, hheader]
    simp only [io, corrupt, bind, Except.bind, hdec]
    simp [newHandle, newManifest, Ledger.withManifest, Ledger.part, scanBaseline, scanMarkerAt,
      partHeaderSize_eq, markerSize_eq, hmarker, io, corrupt, bind, Except.bind, hdec', markerFits]
  · rw [hf, markerSize_eq, slice_newPart_marker, hdec']
  · simp [Ledger.markerMatches, newHandle, newManifest, Ledger.withManifest, Ledger.part]
  · rw [hf, ← slice_slice (b := newPart uuid) (i := 56) (n := 8) (Nat.le_refl 64),
      slice_newPart_marker, slice_markerEncode uuid.length_eq]
  · have hadd : atAdd 64 markerSize = 128 := by decide
    simp [scanChosen, scanBatches, hadd, scanLoop, bind, Except.bind, newHandle, newManifest,
      Ledger.withManifest, Ledger.part]

theorem mem_unlink {e : Bytes × File} (h : e ∈ d.unlink name) :
    e ∈ d ∧ e.1 ≠ name := by
  obtain ⟨hmem, hne⟩ := mem_filter.1 h
  exact ⟨hmem, of_decide_eq_true hne⟩

variable {n : Bytes}

theorem lookup_unlink_ne (h : n ≠ name) :
    (d.unlink name).lookup n = d.lookup n :=
  lookup_filter (q := fun k => k ≠ name) (by simpa using h)

/-- What a new ledger has under a name that `currentPublish` does not touch. -/
theorem lookup_new {f1 f2 f3 f4 : File} (hn : n ≠ currentName)
    (htmp : n ≠ currentTmpName) :
    ((((d.put (partName 1) f1).put (manifestName 1) f2).put currentTmpName f3).unlink
      currentTmpName |>.put currentName f4).lookup n
      = ((d.put (partName 1) f1).put (manifestName 1) f2).lookup n := by
  rw [lookup_put_ne hn, lookup_unlink_ne htmp, lookup_put_ne htmp]

variable {grants : Nat → Bool}

/-- A ledger just created is settled. -/
theorem createLedger_settled (hd : ∀ e ∈ d, e.1 = lockName)
    (h : createLedger uuid (newHandle true grants) d = .ok (l, d')) :
    Settled d' l ∧ d'.lookup lockName = d.lookup lockName := by
  rw [createLedger, partCreate] at h
  obtain ⟨s, hs, -⟩ | ⟨s, hs, -⟩ := (newHandle true grants).scratch.reserve_cases partHeaderSize
  · simp only [hs, bind, Except.bind] at h
    cases h1 : writeNewFile d (partName 1) (newPart uuid) with
    | error e =>
      rw [newPart] at h1
      simp only [h1] at h
      cases h
    | ok d1 =>
    rw [newPart] at h1
    simp only [h1] at h
    cases h2 : writeNewFile d1 (manifestName 1) (manifestEncode (newManifest uuid.bytes)) with
    | error e =>
      simp only [h2] at h
      cases h
    | ok d2 =>
    simp only [h2, currentPublish, bind, Except.bind] at h
    cases h3 : writeNewFile d2 currentTmpName (currentEncode 1) with
    | error e =>
      simp only [h3] at h
      cases h
    | ok d3 =>
    obtain ⟨hb1, rfl⟩ := writeNewFile_ok h1
    obtain ⟨hb2, rfl⟩ := writeNewFile_ok h2
    obtain ⟨hb3, rfl⟩ := writeNewFile_ok h3
    simp only [h3, lookup_put_self] at h
    obtain ⟨rfl, rfl⟩ := Prod.mk.inj (ok.inj h)
    have hne : ∀ {a b : Bytes}, a.length ≠ b.length → a ≠ b := fun h he => h (congrArg _ he)
    have hpc : partName 1 ≠ currentName := hne (by rw [length_partName]; decide)
    have hpt : partName 1 ≠ currentTmpName := hne (by rw [length_partName]; decide)
    have hmc : manifestName 1 ≠ currentName := hne (by rw [length_manifestName]; decide)
    have hmt : manifestName 1 ≠ currentTmpName := hne (by rw [length_manifestName]; decide)
    have hpm : partName 1 ≠ manifestName 1 := hne (by rw [length_partName, length_manifestName]; decide)
    have hlp : lockName ≠ partName 1 := hne (by rw [length_partName]; decide)
    have hlm : lockName ≠ manifestName 1 := hne (by rw [length_manifestName]; decide)
    constructor
    · refine .intro (m := newManifest uuid.bytes) ?_ rfl (scanned_new grants (f := ⟨newPart uuid, hb1⟩) rfl ?_)
        ?_ ?_ (s := s) (k := 2) ?_
      · have hcur : currentDecode (currentEncode 1) = .ok 1 := currentDecode_encode (by decide)
        have hman := newManifestDecode_encode uuid.length_eq
        rw [recoverManifest, currentRead, readFile, lookup_put_self]
        simp only [bind, Except.bind, length_currentEncode, ne_eq, not_true_eq_false, if_false, hcur,
          manifestRead, readFile, lookup_new hmc hmt, lookup_put_self, hman]
        rfl
      · exact (lookup_new hpc hpt).trans ((lookup_put_ne hpm).trans lookup_put_self)
      · exact (length_newPart uuid).symm
      · intro e he
        obtain he | ⟨g, hg⟩ := mem_put he
        · rw [he]
          exact ⟨by decide, keeps_current⟩
        obtain ⟨hg, htmp⟩ := mem_unlink hg
        obtain he | ⟨g, hg⟩ := mem_put hg
        · exact absurd he htmp
        obtain he | ⟨g, hg⟩ := mem_put hg
        · rw [show e.1 = manifestName 1 from he]
          exact ⟨by rw [length_manifestName]; decide, keeps_manifest 1⟩
        obtain he | ⟨g, hg⟩ := mem_put hg
        · rw [show e.1 = partName 1 from he]
          exact ⟨by rw [length_partName]; decide, keeps_part (by decide) rfl⟩
        · rw [hd _ hg]
          exact ⟨by decide, keeps_lock⟩
      · have hsize : (⟨newPart uuid, hb1⟩ : File).size = 128 := length_newPart uuid
        rw [hsize]
        rfl
    · rw [lookup_new (by decide) (by decide), lookup_put_ne hlm, lookup_put_ne hlp]
  · simp only [hs] at h
    cases h

/-! ## Every open -/

theorem acquireLock_ok (h : acquireLock true d = .ok d') : d'.lookup lockName ≠ none := by
  rw [acquireLock] at h
  split at h
  next f hf =>
    obtain rfl := ok.inj h
    simp [hf]
  next hnone =>
    obtain ⟨hb, rfl⟩ := writeNewFile_ok h
    simp [lookup_put_self]

variable {flags : Flags}

theorem openIo_settled (hw : flags.writable = true)
    (h : openIo flags uuid grants d = .ok (l, d')) :
    Settled d' l ∧ d'.lookup lockName ≠ none := by
  rw [openIo, hw] at h
  cases hlock : acquireLock true d with
  | error e =>
    rw [hlock] at h
    cases h
  | ok d0 =>
  simp only [hlock, bind, Except.bind] at h
  have hlocked := acquireLock_ok hlock
  split at h
  next =>
    split at h
    · cases hclean : cleanDirForCreate d0 with
      | error e =>
        rw [hclean] at h
        cases h
      | ok d1 =>
        rw [hclean] at h
        have hd1 := cleanDirForCreate_ok hclean
        have hall : ∀ e ∈ d1, e.1 = lockName := by
          rw [hd1]
          exact fun e he => of_decide_eq_true (mem_filter.1 he).2
        obtain ⟨hsettled, hsame⟩ := createLedger_settled hall h
        refine ⟨hsettled, ?_⟩
        rw [hsame, hd1, lookup_filter (q := fun n => n = lockName) (by simp)]
        exact hlocked
    · cases h
  next => cases h
  next r hrec =>
    split at h
    · cases h
    · obtain rfl := ok.inj h
      obtain ⟨hsettled, m, -, hlookup⟩ := recover_settled hrec
      refine ⟨hsettled, ?_⟩
      rw [hlookup lockName keeps_lock fun heq => ?_]
      · exact hlocked
      · have hlen := congrArg length heq
        rw [length_partName] at hlen
        exact absurd hlen (by decide)

/-! ## The buffer of an open handle -/

/-- The buffer has no size yet, or its first size at least. -/
def Scratch.Sized (s : Scratch) : Prop := s.cap = 0 ∨ 4096 ≤ s.cap

variable {s' : Scratch} {need : Nat}

theorem Scratch.reserve_cap (hs : s.Sized) (hneed : 0 < need)
    (h : s.reserve need = (.ok (), s')) : 4096 ≤ s'.cap := by
  rw [Scratch.reserve] at h
  rw [Scratch.Sized] at hs
  split at h
  next hle =>
    obtain ⟨-, rfl⟩ := Prod.mk.inj h
    omega
  next hlt =>
    split at h
    · obtain ⟨-, rfl⟩ := Prod.mk.inj h
      show 4096 ≤ nextCap s.cap need 4096
      rw [nextCap]
      split <;> omega
    · cases (Prod.mk.inj h).1

theorem Scratch.reserve_large (s : Scratch) (h : 4096 ≤ s.cap) :
    4096 ≤ (s.reserve need).2.cap := by
  rw [Scratch.reserve]
  split
  · exact h
  · split
    · show 4096 ≤ nextCap s.cap need 4096
      rw [nextCap]
      split <;> omega
    · exact h

variable {f : File}

variable {size : Nat}

theorem scanWindow_cap {readLo hi : Nat} {r : Option (Marker × Nat)}
    (hs : s.Sized) (hlo : readLo < hi) (hhi : hi ≤ f.size)
    (h : scanWindow l f readLo hi size s = (.ok r, s')) : 4096 ≤ s'.cap := by
  have hsize := f.size_lt
  rw [scanWindow, u64Left_eq (by omega) (by simp only [u64Size]; omega)] at h
  obtain ⟨s1, hs1, -⟩ | ⟨s1, hs1, -⟩ := s.reserve_cases (hi - readLo)
  · rw [hs1] at h
    dsimp only at h
    rw [File.pread_ok (by omega)] at h
    obtain ⟨-, rfl⟩ := Prod.mk.inj h
    exact Scratch.reserve_cap hs (by omega) hs1
  · rw [hs1] at h
    cases (Prod.mk.inj h).1

theorem findLoop_cap {r : Marker × Nat} : ∀ {fuel pos : Nat}
    {s : Scratch}, s.Sized → pos ≤ f.size → findLoop l f size fuel pos s = (.ok r, s') →
      4096 ≤ s'.cap := by
  intro fuel
  induction fuel with
  | zero =>
    intro pos s _ _ h
    cases (Prod.mk.inj h).1
  | succ fuel ih =>
    intro pos s hs hpos h
    have hsize := f.size_lt
    rw [findLoop] at h
    split at h
    next hgt =>
      obtain ⟨hlo, hlt⟩ := windowLo_spec hgt (by omega)
      obtain ⟨hread, -⟩ := windowReadLo_spec hlo (by omega)
      rw [markerStep] at h
      cases hwin : scanWindow l f (windowReadLo (windowLo pos)) pos size s with
      | mk res s1 =>
        rw [hwin] at h
        cases res with
        | error e => cases (Prod.mk.inj h).1
        | ok found =>
          have hcap := scanWindow_cap hs (by omega) hpos hwin
          cases found with
          | some hit =>
            obtain ⟨-, rfl⟩ := Prod.mk.inj h
            exact hcap
          | none =>
            refine ih (.inr hcap) ?_ h
            split <;> omega
    next => cases (Prod.mk.inj h).1

theorem scanActivePart_cap {i : Nat} (hs : l.scratch.Sized)
    (h : scanActivePart l d i = .ok (l', d')) : 4096 ≤ l'.scratch.cap := by
  rw [scanActivePart] at h
  cases hopen : partOpen l d i with
  | error e =>
    rw [hopen] at h
    cases h
  | ok f =>
  simp only [hopen, bind, Except.bind] at h
  cases hstart : scanStart l i false f with
  | error e =>
    rw [hstart] at h
    cases h
  | ok u =>
  simp only [hstart, scanActive] at h
  cases hfind : findLastMarker l f f.size l.scratch with
  | mk res s1 =>
  rw [hfind] at h
  cases res with
  | error e => cases h
  | ok r =>
  have hcap := findLoop_cap hs le_rfl hfind
  cases hscan : scanChosen l i r.2 r.1 f with
  | error e =>
    simp only [bind, Except.bind, hscan] at h
    cases h
  | ok es =>
    simp only [bind, Except.bind, hscan] at h
    obtain ⟨rfl, -⟩ := Prod.mk.inj (ok.inj h)
    exact hcap

theorem recover_cap (hs : l.scratch.Sized) (h : recover l d = .ok (l', d')) :
    4096 ≤ l'.scratch.cap := by
  rw [recover] at h
  cases hman : recoverManifest d with
  | error e =>
    rw [hman] at h
    cases h
  | ok m =>
  simp only [hman, bind, Except.bind] at h
  cases hsealed : scanSealedParts d m.sealedParts.length 0 (l.withManifest m) with
  | error e =>
    rw [hsealed] at h
    cases h
  | ok l1 =>
  simp only [hsealed] at h
  cases hactive : scanError (scanActivePart l1 d l1.activeIndex) with
  | error e =>
    rw [hactive] at h
    cases h
  | ok r =>
  obtain ⟨l2, d2⟩ := r
  simp only [hactive] at h
  have hs1 : l1.scratch.Sized := by
    rw [(scanSealedParts_ok hsealed).1.scratch]
    exact hs
  have hcap := scanActivePart_cap hs1 (scanError_ok hactive)
  split at h
  · obtain ⟨⟨k, rfl⟩, -⟩ := gcOrphans_ok h
    exact hcap
  · obtain ⟨rfl, -⟩ := Prod.mk.inj (ok.inj h)
    exact hcap

theorem createLedger_cap (hs : l.scratch.Sized) (h : createLedger uuid l d = .ok (l', d')) :
    4096 ≤ l'.scratch.cap := by
  rw [createLedger, partCreate] at h
  obtain ⟨s, hs1, -⟩ | ⟨s, hs1, -⟩ := l.scratch.reserve_cases partHeaderSize
  · have hcap := Scratch.reserve_cap hs (by decide) hs1
    simp only [hs1, bind, Except.bind] at h
    split at h
    next => cases h
    next r hr =>
      split at hr
      · cases hr
      · obtain rfl := ok.inj hr
        split at h
        · cases h
        · split at h
          · cases h
          · obtain ⟨rfl, -⟩ := Prod.mk.inj (ok.inj h)
            exact hcap
  · simp only [hs1] at h
    cases h

/-- Every open has filled a window, or written the first part. -/
theorem openIo_cap (h : openIo flags uuid grants d = .ok (l, d')) : 4096 ≤ l.scratch.cap := by
  have hnew : (newHandle flags.writable grants).scratch.Sized := .inl rfl
  rw [openIo] at h
  cases hlock : acquireLock flags.writable d with
  | error e =>
    rw [hlock] at h
    cases h
  | ok d0 =>
  simp only [hlock, bind, Except.bind] at h
  split at h
  next =>
    split at h
    · cases hclean : cleanDirForCreate d0 with
      | error e =>
        rw [hclean] at h
        cases h
      | ok d1 =>
        rw [hclean] at h
        exact createLedger_cap hnew h
    · cases h
  next => cases h
  next r hrec =>
    split at h
    · cases h
    · obtain rfl := ok.inj h
      exact recover_cap hnew hrec

/-- The requests of a call for its buffer, one after another. -/
def Scratch.after (s : Scratch) (needs : List Nat) : Scratch :=
  needs.foldl (fun s need => (s.reserve need).2) s

/-- The handles a program can have: one that was opened, and what a call makes of one.
Whatever else a call changes, it changes the buffer by reservations only. -/
inductive Reachable : Ledger → Prop
  | opened {flags : Flags} {uuid : Uuid} {grants : Nat → Bool} {d d' : Dir} {l : Ledger}
      (h : openIo flags uuid grants d = .ok (l, d')) : Reachable l
  | call {l l' : Ledger} {needs : List Nat} (h : Reachable l)
      (hs : l'.scratch = l.scratch.after needs) : Reachable l'

theorem Reachable.cap (h : Reachable l) : 4096 ≤ l.scratch.cap := by
  induction h with
  | opened h => exact openIo_cap h
  | @call l l' needs _ hs ih =>
    rw [hs]
    clear hs
    generalize l.scratch = s at ih
    induction needs generalizing s with
    | nil => exact ih
    | cons need needs ihs => exact ihs _ (s.reserve_large ih)

/-- Through every handle, a partial read succeeds exactly when its range lies in the
record and is empty or the record can be read, and copies that slice of it; otherwise
it fails as the whole read does, or with `LEDGER89_ERANGE`.  Neither changes the handle. -/
theorem readAt_agrees (hl : Reachable l) (files : Files) (index offset size capacity : Nat)
    (hlarge : ∀ n, (l.read files index (some capacity)).1.2 = some n → n ≤ capacity) :
    Slices (l.read files index (some capacity)).1 offset size (l.readAt files index offset size).1 ∧
      (l.read files index (some capacity)).2 = l ∧ (l.readAt files index offset size).2 = l := by
  obtain ⟨hslices, hsame⟩ := l.readAt_slices files offset size hl.cap hlarge
  refine ⟨hslices, ?_, hsame⟩
  rw [Ledger.read]
  split
  · rfl
  · split <;> rfl

/-! ## Opening again -/

/-- The files of the parts of a directory. -/
def Dir.files (d : Dir) : Files := fun fileId =>
  match d.lookup (partName fileId) with
  | none => .error .enoent
  | some f => .ok f

/-- Opening again after a writable open succeeds with the same state, changes nothing
in the directory, and every read answers the same. -/
theorem reopen_same {flags : Flags} {grants : Nat → Bool} (hw : flags.writable = true)
    (h : openIo flags uuid grants d = .ok (l, d')) (create : Bool) (uuid' : Uuid) :
    ∃ l', openIo ⟨true, create, false⟩ uuid' (fun _ => true) d' = .ok (l', d') ∧
      l'.id = l.id ∧ l'.revision = l.revision ∧ l'.first = l.first ∧ l'.stableEnd = l.stableEnd ∧
      l'.end_ = l.end_ ∧ (∀ index dataOut,
        (l'.read d'.files index dataOut).1 = (l.read d'.files index dataOut).1) ∧
      ∀ index offset size,
        (l'.readAt d'.files index offset size).1 = (l.readAt d'.files index offset size).1 := by
  obtain ⟨hsettled, hlock⟩ := openIo_settled hw h
  obtain ⟨s, k, hrec⟩ := settled_recover hsettled (fun _ => true) fun _ => rfl
  have hacquire : acquireLock true d' = .ok d' := by
    rw [acquireLock]
    split
    next => rfl
    next hnone => exact absurd hnone hlock
  have hopen : openIo ⟨true, create, false⟩ uuid' (fun _ => true) d'
      = .ok ({ l with scratch := s, nextFileId := k }, d') := by
    rw [openIo]
    simp only [hacquire, bind, Except.bind, hrec, Bool.false_eq_true, and_false, if_false]
  exact ⟨_, hopen, rfl, rfl, rfl, rfl, rfl, fun index dataOut => read_scratch l s k _ index dataOut,
    fun index offset size => readAt_scratch l s k _ index (openIo_cap hopen) (openIo_cap h)⟩

/-- An identity of zeros. -/
def zeroUuid : Uuid := ⟨replicate 16 0, rfl⟩

theorem openIo_empty : ∃ l d', openIo ⟨true, true, false⟩ zeroUuid (fun _ => true) []
    = .ok (l, d') := by
  have hok : (openIo ⟨true, true, false⟩ zeroUuid (fun _ => true) []).isOk = true := by
    decide +kernel
  cases h : openIo ⟨true, true, false⟩ zeroUuid (fun _ => true) [] with
  | error e =>
    rw [h] at hok
    cases hok
  | ok r => exact ⟨r.1, r.2, rfl⟩

/-- The file of a part with the record "hello" in a batch at 128. -/
def helloFile : File where
  bytes := replicate 160 0 ++ (putU32 5 ++ [0x68, 0x65, 0x6C, 0x6C, 0x6F] ++
    putU32 (crc32c 0 (putU32 5 ++ [0x68, 0x65, 0x6C, 0x6C, 0x6F]))) ++ replicate 24 0
  bound := by decide +kernel

/-- The directory of a new ledger, where three bytes are torn off at the end of its part and no
manifest names another part. -/
def tornDir : Dir :=
  match openIo ⟨true, true, false⟩ zeroUuid (fun _ => true) [] with
  | .error _ => []
  | .ok (_, d) => (partName 9, helloFile) :: d.map fun e =>
    if h : e.1 = partName 1 ∧ (e.2.bytes ++ [1, 2, 3]).length < 2 ^ 63 then (e.1, ⟨_, h.2⟩) else e

/-- The first open cuts the tail off and unlinks the part. -/
theorem reopen_same_torn : (tornDir.lookup (partName 1)).map File.size = some 131 ∧
    ∃ l d' l', openIo ⟨true, false, false⟩ zeroUuid (fun _ => true) tornDir
      = .ok (l, d') ∧
    (d'.length + 1, (d'.lookup (partName 1)).map File.size) = (tornDir.length, some 128) ∧
    openIo ⟨true, true, false⟩ zeroUuid (fun _ => true) d' = .ok (l', d') ∧ l'.end_ = l.end_ := by
  refine ⟨by decide +kernel, ?_⟩
  have hrun : (openIo ⟨true, false, false⟩ zeroUuid (fun _ => true) tornDir).toOption.map
      (fun r => (r.2.length + 1, (r.2.lookup (partName 1)).map File.size))
      = some (tornDir.length, some 128) := by
    decide +kernel
  cases h : openIo ⟨true, false, false⟩ zeroUuid (fun _ => true) tornDir with
  | error e =>
    rw [h] at hrun
    cases hrun
  | ok r =>
    rw [h] at hrun
    obtain ⟨l', hopen, -, -, -, -, hend, -⟩ := reopen_same rfl h true zeroUuid
    exact ⟨r.1, r.2, l', rfl, Option.some.inj hrun, hopen, hend⟩

theorem needs_nil (s : Scratch) : s = s.after [] := rfl

/-- A handle whose only record is that one. -/
def helloLedger (s : Scratch) : Ledger :=
  { newHandle true fun _ => true with
    first := 1
    end_ := 2
    parts := [⟨⟨1, 1, 2⟩, false, 197⟩]
    dir := [⟨1, 1, 128, 69, 0⟩]
    scratch := s }

/-- The middle of a record. -/
theorem readAt_agrees_hello : ∃ l : Ledger, Reachable l ∧
    (l.readAt (fun _ => .ok helloFile) 1 1 3).1 = .ok [0x65, 0x6C, 0x6C] := by
  obtain ⟨l, d', h⟩ := openIo_empty
  have hl : Reachable (helloLedger l.scratch) := .call (.opened h) (needs_nil _)
  have hread : ((helloLedger l.scratch).read (fun _ => .ok helloFile) 1 (some 5)).1
      = (.ok [0x68, 0x65, 0x6C, 0x6C, 0x6F], some 5) := by
    have hscratch := read_scratch (helloLedger ⟨0, fun _ => true⟩) l.scratch 0
      (fun _ => .ok helloFile) 1 (some 5)
    refine Eq.trans hscratch ?_
    decide +kernel
  refine ⟨helloLedger l.scratch, hl, ?_⟩
  obtain ⟨hslices, -⟩ := readAt_agrees hl (fun _ => .ok helloFile) 1 1 3 5 (by
    rw [hread]
    intro n hn
    exact (Option.some.inj hn).symm.le)
  rw [hread] at hslices
  exact (hslices.ok_iff _).2 ⟨5, rfl, by decide, .inr ⟨_, rfl, rfl⟩⟩

end Led89
