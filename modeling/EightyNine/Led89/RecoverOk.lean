import EightyNine.Library.Locality
import EightyNine.Led89.FormatOk

/-!
# libledger89: a scan looks no further than its limit

The scan of a part up to a limit reads nothing beyond the limit (`scanChosen_local`),
so it answers the same when the file is cut off there.
-/

namespace Led89

open Library (Local)

/-- Reads below a limit answer the same. -/
def SameBelow (limit : Nat) (f g : File) : Prop :=
  ∀ len off, off + len ≤ limit → f.pread len off = g.pread len off

theorem size_truncate {f : File} {limit : Nat} (h : limit ≤ f.size) :
    (f.truncate limit).size = limit := by
  simp only [File.size, File.truncate, List.length_take] at *
  omega

/-- A file that is cut off at a limit is the same below it. -/
theorem sameBelow_truncate {f : File} {limit : Nat} (h : limit ≤ f.size) :
    SameBelow limit f (f.truncate limit) := by
  intro len off hle
  have hsize := size_truncate h
  rw [File.pread_ok (by omega), File.pread_ok (by omega)]
  have hslice : slice (slice f.bytes 0 limit) off len = slice f.bytes (0 + off) len :=
    slice_slice hle
  rw [Nat.zero_add] at hslice
  rw [← hslice]
  rfl

variable {g : File} {off len : Nat}

theorem SameBelow.slice_eq {f : File} {limit : Nat} (h : SameBelow limit f g)
    (hf : limit ≤ f.size) (hg : limit ≤ g.size) (hin : off + len ≤ limit) :
    slice g.bytes off len = slice f.bytes off len := by
  have heq := h len off hin
  rw [File.pread_ok (by omega), File.pread_ok (by omega)] at heq
  exact (Option.some.inj heq).symm

variable {l : Ledger} {i limit : Nat}

theorem pread_local (h : off + len ≤ limit) :
    Local (SameBelow limit) fun f => io (f.pread len off) := by
  intro f g hfg
  show io (f.pread len off) = io (g.pread len off)
  rw [hfg len off h]

theorem scanHeader_local (h : 64 ≤ limit) : Local (SameBelow limit) (scanHeader l i) := by
  refine .bind (pread_local h) fun _ hdr _ => ?_
  exact .const _

variable {isSealed : Bool} {expected : Nat}

theorem scanMarkerAt_local (h : off + markerSize ≤ limit) :
    Local (SameBelow limit) (scanMarkerAt l i isSealed off expected) := by
  refine .bind (pread_local h) fun _ mb _ => ?_
  exact .const _

theorem scanBaseline_local (h : 128 ≤ limit) :
    Local (SameBelow limit) (scanBaseline l i isSealed) :=
  scanMarkerAt_local h

theorem batchHeaderDecode_ok {b : Bytes} {h : BatchHeader} (hok : batchHeaderDecode b = .ok h) :
    56 ≤ h.bytes := by
  rw [batchHeaderDecode] at hok
  split at hok
  · cases hok
  · split at hok
    · cases hok
    · dsimp only at hok
      split at hok
      · cases hok
      · split at hok
        next => cases hok
        next hle =>
          obtain rfl := Except.ok.inj hok
          exact Nat.le_of_not_lt hle

variable {α : Type} {r : Except Err α} {a : α}

theorem corrupt_ok (h : corrupt r = .ok a) : r = .ok a := by
  cases r with
  | error e => cases h
  | ok b => exact h

theorem scanBatchAt_local (hoff : off < limit) (hlimit : limit < 2 ^ 63) :
    Local (SameBelow limit) (scanBatchAt i off limit expected) := by
  have hadd : ∀ n, off + n < u64Size → atAdd off n = off + n := fun n h => atAdd_eq h
  refine .ite (fun _ => .const _) fun hroom => ?_
  rw [hadd 56 (by simp only [u64Size]; omega)] at hroom
  refine .bind (pread_local (by omega)) fun _ hb _ => ?_
  refine .bind (.const _) fun _ bh hbh => ?_
  have hbytes := batchHeaderDecode_ok (corrupt_ok hbh)
  refine .ite (fun _ => .const _) fun _ => ?_
  refine .ite (fun _ => .const _) fun hfit => ?_
  rw [u64Left_eq (by omega) (by simp only [u64Size]; omega)] at hfit
  have hend : u64Left (atAdd off bh.bytes) 24 = off + bh.bytes - 24 := by
    rw [hadd _ (by simp only [u64Size]; omega), u64Left_eq (by omega) (by simp only [u64Size]; omega)]
  rw [hend]
  refine .bind (pread_local (by omega)) fun _ fb _ => ?_
  exact .const _

variable {chosen : Option Nat}

theorem scanLoop_local (hlimit : limit < 2 ^ 63) :
    ∀ {fuel off expected : Nat},
      Local (SameBelow limit) (scanLoop l i isSealed limit chosen fuel off expected) := by
  intro fuel
  induction fuel with
  | zero => intro off expected; exact .const _
  | succ fuel ih =>
    intro off expected
    refine .ite (fun hoff => ?_) fun _ => .const _
    refine .ite (fun _ => .const _) fun hroom => ?_
    rw [atAdd_eq (by simp only [u64Size]; omega)] at hroom
    refine .bind (pread_local (by omega)) fun _ mag _ => ?_
    refine .ite (fun _ => ?_) fun _ => .ite (fun _ => ?_) fun _ => .const _
    · refine .ite (fun _ => .const _) fun hfit => ?_
      rw [atAdd_eq (by simp only [u64Size, markerSize]; omega)] at hfit
      refine .bind (scanMarkerAt_local (by omega)) fun _ _ _ => ?_
      exact .ite (fun _ => .const _) fun _ => ih
    · refine .bind (scanBatchAt_local hoff hlimit) fun _ r _ => ?_
      refine .bind ih fun _ r' _ => ?_
      exact .const _

theorem scanBatches_local (hlimit : limit < 2 ^ 63) :
    Local (SameBelow limit) (scanBatches l i isSealed limit chosen) := by
  refine .bind (scanLoop_local hlimit) fun _ r _ => ?_
  exact .const _

variable {o : Nat}

/-- The scan up to the chosen marker reads nothing beyond it. -/
theorem scanChosen_local {m : Marker} (hlimit : o + markerSize < 2 ^ 63) :
    Local (SameBelow (o + markerSize)) (scanChosen l i o m) := by
  have hadd : atAdd o markerSize = o + markerSize := atAdd_eq (by simp only [u64Size]; omega)
  refine .bind ?_ fun _ r _ => .const _
  rw [hadd]
  exact scanBatches_local hlimit

end Led89

/-!
# libledger89: recovery settles the directory

A writable open trims the active part after the marker it chose and removes the files
that the manifest does not name.  What it leaves is settled (`Settled`): the last
marker of the active part is at its end, and every name is kept.  A settled directory
is opened again as it is (`settled_recover`).
-/

namespace Led89

open List Except

/-! ## Directories -/

variable {d d' : Dir} {name n : Bytes} {f : File}

theorem lookup_filter {q : Bytes → Bool} (h : q n = true) :
    (d.filter fun e => q e.1).lookup n = d.lookup n := by
  induction d with
  | nil => rfl
  | cons e d ih =>
    obtain ⟨k, g⟩ := e
    cases hk : n == k with
    | true =>
      obtain rfl := eq_of_beq hk
      simp [h]
    | false =>
      cases hq : q k with
      | true => simp only [filter_cons, hq, if_true, lookup_cons, hk, ih]
      | false => simp [hq, lookup_cons, hk, ih]

theorem lookup_append (d d' : Dir) (n : Bytes) :
    (d ++ d').lookup n = (d.lookup n).or (d'.lookup n) := by
  induction d with
  | nil => rfl
  | cons e d ih =>
    obtain ⟨k, g⟩ := e
    cases hk : n == k with
    | true => simp [lookup_cons, hk]
    | false => simp [lookup_cons, hk, ih]

theorem lookup_replace_ne (h : n ≠ name) :
    (d.map fun e => if e.1 = name then (name, f) else e).lookup n = d.lookup n := by
  induction d with
  | nil => rfl
  | cons e d ih =>
    obtain ⟨k, g⟩ := e
    rw [map_cons]
    split
    next hk =>
      obtain rfl : k = name := hk
      have hne : (n == k) = false := beq_eq_false_iff_ne.2 h
      simp only [lookup_cons, hne, ih]
    next hk => simp only [lookup_cons, ih]

theorem lookup_replace_self (h : d.lookup name ≠ none) :
    (d.map fun e => if e.1 = name then (name, f) else e).lookup name = some f := by
  induction d with
  | nil => exact absurd rfl h
  | cons e d ih =>
    obtain ⟨k, g⟩ := e
    rw [map_cons]
    split
    next hk => simp
    next hk =>
      have hne : (name == k) = false := beq_eq_false_iff_ne.2 fun he => hk he.symm
      simp only [lookup_cons, hne] at h ⊢
      exact ih h

theorem lookup_put_self : (d.put name f).lookup name = some f := by
  rw [Dir.put]
  split
  next hnone => simp [lookup_append, hnone]
  next hsome => exact lookup_replace_self (by simp [hsome])

theorem lookup_put_ne (h : n ≠ name) : (d.put name f).lookup n = d.lookup n := by
  rw [Dir.put]
  split
  next hnone =>
    have hne : (n == name) = false := beq_eq_false_iff_ne.2 h
    simp [lookup_append, lookup_cons, hne]
  next hsome => exact lookup_replace_ne h

theorem mem_put {e : Bytes × File} (h : e ∈ d.put name f) : e.1 = name ∨ ∃ g, (e.1, g) ∈ d := by
  rw [Dir.put] at h
  split at h
  · obtain h | h := mem_append.1 h
    · exact .inr ⟨e.2, h⟩
    · exact .inl (by simp at h; rw [h])
  · obtain ⟨e', he', rfl⟩ := mem_map.1 h
    split
    · exact .inl rfl
    · exact .inr ⟨e'.2, he'⟩

/-! ## Removing orphans -/

/-- The names that `led89_gc_orphans` keeps. -/
def Manifest.keeps (m : Manifest) (name : Bytes) : Bool :=
  name ≠ currentTmpName ∧ ((nameParse partPrefix name).all m.hasPart)

theorem listNext_ok {name : Bytes} {u : Unit} (h : listNext name = .ok u) : name.length ≤ 31 := by
  rw [listNext] at h
  split at h
  · cases h
  · omega

variable {m : Manifest}

theorem gcLoop_cons (names : List Bytes) (maxId : Nat) (h : listNext name = .ok ()) :
    ∃ k, gcLoop m (name :: names) maxId d =
      gcLoop m names k (if m.keeps name then d else d.unlink name) := by
  rw [gcLoop, h, Manifest.keeps]
  show ∃ k, (if name = currentTmpName then _ else _) = _
  split
  next htmp => exact ⟨maxId, by simp [htmp]⟩
  next htmp =>
    cases hparse : nameParse partPrefix name with
    | none => exact ⟨maxId, by simp [htmp]⟩
    | some fileId => exact ⟨max maxId fileId, by simp [htmp]⟩

theorem gcLoop_ok {k : Nat} : ∀ {names : List Bytes} {maxId : Nat} {d : Dir},
    gcLoop m names maxId d = .ok (k, d') →
      (∀ n ∈ names, n.length ≤ 31) ∧ d' = d.filter fun e => e.1 ∉ names ∨ m.keeps e.1 := by
  intro names
  induction names with
  | nil =>
    intro maxId d h
    obtain ⟨-, rfl⟩ := Prod.mk.inj (ok.inj h)
    exact ⟨by simp, (filter_eq_self.2 (by simp)).symm⟩
  | cons name names ih =>
    intro maxId d h
    cases hnext : listNext name with
    | error e =>
      rw [gcLoop, hnext] at h
      cases h
    | ok u =>
      obtain ⟨k1, hk1⟩ := gcLoop_cons (m := m) (d := d) names maxId hnext
      rw [hk1] at h
      obtain ⟨hshort, rfl⟩ := ih h
      refine ⟨forall_mem_cons.2 ⟨listNext_ok hnext, hshort⟩, ?_⟩
      split
      next hkeeps =>
        refine filter_congr fun e _ => ?_
        obtain rfl | hne := eq_or_ne e.1 name
        · simp [hkeeps]
        · simp [hne]
      next hkeeps =>
        rw [Dir.unlink, filter_filter]
        refine filter_congr fun e _ => ?_
        obtain rfl | hne := eq_or_ne e.1 name
        · simp [hkeeps]
        · simp [hne]

theorem gcLoop_kept : ∀ (names : List Bytes) (maxId : Nat),
    (∀ n ∈ names, n.length ≤ 31 ∧ m.keeps n = true) → ∃ k, gcLoop m names maxId d = .ok (k, d) := by
  intro names
  induction names with
  | nil => exact fun maxId _ => ⟨maxId, rfl⟩
  | cons name names ih =>
    intro maxId h
    obtain ⟨⟨hshort, hkeeps⟩, hrest⟩ := forall_mem_cons.1 h
    have hnext : listNext name = .ok () := by
      rw [listNext, if_neg (by omega)]
    obtain ⟨k1, hk1⟩ := gcLoop_cons (m := m) (d := d) names maxId hnext
    rw [hk1, if_pos hkeeps]
    exact ih k1 hrest

/-- Every entry has a name that is listed and kept. -/
def AllKept (m : Manifest) (d : Dir) : Prop := ∀ e ∈ d, e.1.length ≤ 31 ∧ m.keeps e.1 = true

theorem gcOrphans_ok {l l' : Ledger} (h : gcOrphans l m d = .ok (l', d')) :
    (∃ k, l' = { l with nextFileId := k }) ∧ AllKept m d' ∧ d' = d.filter fun e => m.keeps e.1 := by
  rw [gcOrphans] at h
  cases hloop : gcLoop m (d.map Prod.fst) m.active.fileId d with
  | error e =>
    rw [hloop] at h
    cases h
  | ok r =>
    obtain ⟨k, d1⟩ := r
    rw [hloop] at h
    obtain ⟨hl, hd⟩ := Prod.mk.inj (ok.inj h)
    obtain ⟨hshort, hfilter⟩ := gcLoop_ok hloop
    have heq : d' = d.filter fun e => m.keeps e.1 := by
      rw [← hd, hfilter]
      refine filter_congr fun e he => ?_
      have hmem : e.1 ∈ d.map Prod.fst := mem_map_of_mem he
      simp only [hmem, not_true_eq_false, false_or, Bool.decide_eq_true]
    refine ⟨⟨_, hl.symm⟩, fun e he => ?_, heq⟩
    rw [heq] at he
    obtain ⟨hmem, hkeeps⟩ := mem_filter.1 he
    exact ⟨hshort _ (mem_map_of_mem hmem), hkeeps⟩

theorem gcOrphans_kept {l : Ledger} (h : AllKept m d) :
    ∃ k, gcOrphans l m d = .ok ({ l with nextFileId := k }, d) := by
  obtain ⟨k, hk⟩ := gcLoop_kept (m := m) (d := d) (d.map Prod.fst) m.active.fileId (by
    intro n hn
    obtain ⟨e, he, rfl⟩ := mem_map.1 hn
    exact h e he)
  exact ⟨_, by rw [gcOrphans, hk]; rfl⟩

/-! ## The manifest -/

theorem decodeDescs_ok {b : Bytes} {off' e' : Nat} : ∀ {count off expected : Nat}
    {ds : List PartDesc}, decodeDescs b count off expected = .ok (ds, off', e') →
      expected ≤ e' ∧ ∀ p ∈ ds, p.first < e' ∧ p.fileId < 2 ^ 64 := by
  intro count
  induction count with
  | zero =>
    intro off expected ds h
    obtain ⟨rfl, -, rfl⟩ : [] = ds ∧ off = off' ∧ expected = e' := by simpa [decodeDescs] using h
    exact ⟨le_rfl, by simp⟩
  | succ count ih =>
    intro off expected ds h
    rw [decodeDescs] at h
    dsimp only at h
    split at h
    next => cases h
    next hfirst =>
      split at h
      next => cases h
      next hend =>
        split at h
        next => cases h
        next ds' r hrec =>
          obtain ⟨rfl, rfl⟩ := Prod.mk.inj (ok.inj h)
          obtain ⟨hle, hall⟩ := ih hrec
          refine ⟨by omega, forall_mem_cons.2 ⟨⟨?_, getU64_lt _ _⟩, hall⟩⟩
          show getU64 b (off + 8) < e'
          omega

/-- What a manifest says of its parts once it is read. -/
structure Manifest.Sound (m : Manifest) : Prop where
  below : ∀ p ∈ m.sealedParts, p.first < m.active.first ∧ p.fileId < 2 ^ 64
  active_lt : m.active.fileId < 2 ^ 64

theorem manifestDecode_sound {b : Bytes} (h : manifestDecode b = .ok m) : m.Sound := by
  rw [manifestDecode] at h
  split at h
  · cases h
  next =>
  split at h
  · cases h
  next =>
  split at h
  · cases h
  next =>
  split at h
  · cases h
  next =>
  dsimp only at h
  split at h
  · cases h
  next =>
  split at h
  · cases h
  next =>
  split at h
  next => cases h
  next ds off prevEnd hds =>
  split at h
  next => cases h
  next hactive =>
    obtain rfl := ok.inj h
    refine ⟨?_, getU64_lt _ _⟩
    intro p hp
    obtain ⟨hlt, hid⟩ := (decodeDescs_ok hds).2 p hp
    refine ⟨?_, hid⟩
    show p.first < getU64 b (off + 8)
    rw [not_not.1 hactive]
    exact hlt

/-- The manifest of a directory is found under the names of its generation. -/
theorem recoverManifest_ok (h : recoverManifest d = .ok m) :
    ∃ g, currentRead d = .ok g ∧ manifestRead d g = .ok m := by
  rw [recoverManifest] at h
  cases hcur : currentRead d with
  | error e =>
    rw [hcur] at h
    cases h
  | ok g =>
    rw [hcur] at h
    simp only [bind, Except.bind] at h
    split at h
    next => cases h
    next => cases h
    next m' hm =>
      split at h
      · cases h
      · obtain rfl := ok.inj h
        exact ⟨g, rfl, hm⟩

theorem recoverManifest_sound (h : recoverManifest d = .ok m) : m.Sound := by
  obtain ⟨g, -, hm⟩ := recoverManifest_ok h
  rw [manifestRead] at hm
  cases hread : readFile d (manifestName g) with
  | error e =>
    rw [hread] at hm
    cases hm
  | ok b =>
    rw [hread] at hm
    exact manifestDecode_sound hm

/-- The manifest stays as long as the files that it is read from do. -/
theorem recoverManifest_congr (hcur : d'.lookup currentName = d.lookup currentName)
    (hman : ∀ g, d'.lookup (manifestName g) = d.lookup (manifestName g)) :
    recoverManifest d' = recoverManifest d := by
  have hread : ∀ g, manifestRead d' g = manifestRead d g := by
    intro g
    rw [manifestRead, manifestRead, readFile, readFile, hman]
  simp only [recoverManifest, currentRead, readFile, hcur, hread]

theorem length_manifestName (g : Nat) : (manifestName g).length = 25 := by
  simp [manifestName, manifestPrefix, length_hex16]

theorem length_partName (i : Nat) : (partName i).length = 21 := by
  simp [partName, partPrefix, length_hex16]

/-- Only names of the length of a part's name are removed, and the temporary one. -/
theorem keeps_of_length {name : Bytes} (h21 : name.length ≠ 21) (htmp : name ≠ currentTmpName) :
    m.keeps name = true := by
  have hnone : nameParse partPrefix name = none := by
    rw [nameParse, if_pos]
    simpa [partPrefix] using h21
  simp [Manifest.keeps, htmp, hnone]

theorem keeps_current : m.keeps currentName = true :=
  keeps_of_length (by decide) (by decide)

theorem keeps_lock : m.keeps lockName = true :=
  keeps_of_length (by decide) (by decide)

theorem keeps_manifest (g : Nat) : m.keeps (manifestName g) = true := by
  refine keeps_of_length (by rw [length_manifestName]; decide) fun h => ?_
  have hlen := congrArg List.length h
  rw [length_manifestName] at hlen
  exact absurd hlen (by decide)

theorem keeps_part {i : Nat} (hi : i < 2 ^ 64) (h : m.hasPart i = true) :
    m.keeps (partName i) = true := by
  have htmp : partName i ≠ currentTmpName := by
    intro h
    have hlen := congrArg List.length h
    rw [length_partName] at hlen
    exact absurd hlen (by decide)
  simp [Manifest.keeps, htmp, nameParse_partName hi, h]

/-! ## Scanning the sealed parts -/

variable {l l' : Ledger} {i : Nat} {b : Bool} {s : Scratch}

/-- The header of a part's file gives the part's first index. -/
def HeaderFirst (f : File) (first : Nat) : Prop :=
  ∃ ph, partHeaderDecode (slice f.bytes 0 64) = .ok ph ∧ ph.first = first

theorem HeaderFirst.unique {a c : Nat} (h : HeaderFirst f a) (h' : HeaderFirst f c) : a = c := by
  obtain ⟨ph, hph, rfl⟩ := h
  obtain ⟨ph', hph', rfl⟩ := h'
  rw [hph] at hph'
  rw [ok.inj hph']

theorem scanHeader_ok (h : scanHeader l i f = .ok ()) : HeaderFirst f (l.part i).desc.first := by
  rw [scanHeader] at h
  cases hread : io (f.pread 64 0) with
  | error e =>
    rw [hread] at h
    cases h
  | ok hdr =>
    rw [hread] at h
    obtain ⟨-, rfl⟩ := File.pread_some (by decide) (io_ok hread)
    cases hdec : corrupt (partHeaderDecode (slice f.bytes 0 64)) with
    | error e =>
      simp only [bind, Except.bind, hdec] at h
      cases h
    | ok ph =>
      simp only [bind, Except.bind, hdec] at h
      split at h
      · cases h
      · split at h
        · cases h
        · split at h
          next => cases h
          next hfirst => exact ⟨ph, corrupt_ok hdec, not_not.1 hfirst⟩

theorem scanStart_ok (h : scanStart l i b f = .ok ()) :
    128 ≤ f.size ∧ HeaderFirst f (l.part i).desc.first := by
  rw [scanStart] at h
  split at h
  next => cases h
  next hsize =>
    cases hheader : scanHeader l i f with
    | error e =>
      rw [hheader] at h
      cases h
    | ok u => exact ⟨by omega, scanHeader_ok hheader⟩

/-- A handle after parts of it were scanned: its parts have been opened and closed. -/
structure Alike (l l' : Ledger) : Prop where
  writable : l'.writable = l.writable
  id : l'.id = l.id
  revision : l'.revision = l.revision
  activeIndex : l'.activeIndex = l.activeIndex
  scratch : l'.scratch = l.scratch
  length : l'.parts.length = l.parts.length
  desc : ∀ j, (l'.part j).desc = (l.part j).desc

theorem Alike.refl (l : Ledger) : Alike l l := ⟨rfl, rfl, rfl, rfl, rfl, rfl, fun _ => rfl⟩

theorem Alike.trans {l'' : Ledger} (h : Alike l l') (h' : Alike l' l'') : Alike l l'' where
  writable := h'.writable.trans h.writable
  id := h'.id.trans h.id
  revision := h'.revision.trans h.revision
  activeIndex := h'.activeIndex.trans h.activeIndex
  scratch := h'.scratch.trans h.scratch
  length := h'.length.trans h.length
  desc j := (h'.desc j).trans (h.desc j)

variable {p : Part}

theorem part_setPart (l : Ledger) (hi : i < l.parts.length) : (l.setPart i p).part i = p := by
  simp [Ledger.part, Ledger.setPart, hi]

variable {j : Nat}

theorem part_setPart_ne (l : Ledger) (hj : i ≠ j) :
    (l.setPart i p).part j = l.part j := by
  simp [Ledger.part, Ledger.setPart, getD_eq_getElem?_getD, List.getElem?_set_ne hj]

theorem setPart_length (hi : l.parts.length ≤ i) : (l.setPart i p).parts = l.parts :=
  set_eq_of_length_le hi

theorem desc_setPart (l : Ledger) (hp : p.desc = (l.part i).desc) (j : Nat) :
    ((l.setPart i p).part j).desc = (l.part j).desc := by
  obtain rfl | hj := eq_or_ne i j
  · obtain hi | hi := Nat.lt_or_ge i l.parts.length
    · rw [part_setPart l hi, hp]
    · rw [Ledger.part, setPart_length hi, Ledger.part]
  · rw [part_setPart_ne l hj]

theorem scanSealedPart_ok (h : scanSealedPart l d i = .ok l') :
    ∃ f es, d.lookup (partName (l.part i).desc.fileId) = some f ∧
      HeaderFirst f (l.part i).desc.first ∧
      l' = { l.setPart i ⟨(l.part i).desc, true, f.size⟩ with dir := l.dir ++ es } := by
  rw [scanSealedPart, partOpen] at h
  cases hfile : d.lookup (partName (l.part i).desc.fileId) with
  | none =>
    simp only [hfile, bind, Except.bind] at h
    cases h
  | some f =>
    simp only [hfile, bind, Except.bind] at h
    cases hstart : scanStart l i true f with
    | error e =>
      simp only [hstart] at h
      cases h
    | ok u =>
      simp only [hstart] at h
      cases hscan : scanSealed l i f with
      | error e =>
        simp only [hscan] at h
        cases h
      | ok r =>
        simp only [hscan] at h
        exact ⟨f, r.1, rfl, (scanStart_ok hstart).2, (ok.inj h).symm⟩

theorem scanSealedPart_alike (h : scanSealedPart l d i = .ok l') : Alike l l' := by
  obtain ⟨f, es, -, -, rfl⟩ := scanSealedPart_ok h
  exact ⟨rfl, rfl, rfl, rfl, rfl, length_set, desc_setPart l rfl⟩

theorem scanError_ok (h : scanError r = .ok a) : r = .ok a := by
  cases r with
  | error e => cases e <;> cases h
  | ok x => exact h

theorem scanSealedParts_ok : ∀ {count i : Nat} {l : Ledger},
    scanSealedParts d count i l = .ok l' → Alike l l' ∧
      ∀ j, i ≤ j → j < i + count → ∃ f, d.lookup (partName (l.part j).desc.fileId) = some f ∧
        HeaderFirst f (l.part j).desc.first := by
  intro count
  induction count with
  | zero =>
    intro i l h
    obtain rfl := ok.inj h
    exact ⟨.refl l, fun j hi hj => by omega⟩
  | succ count ih =>
    intro i l h
    rw [scanSealedParts] at h
    cases hscan : scanError (scanSealedPart l d i) with
    | error e =>
      rw [hscan] at h
      cases h
    | ok l1 =>
      rw [hscan] at h
      have hpart := scanError_ok hscan
      have halike := scanSealedPart_alike hpart
      obtain ⟨halike', hfiles⟩ := ih h
      refine ⟨halike.trans halike', fun j hi hj => ?_⟩
      obtain rfl | hne := eq_or_ne i j
      · obtain ⟨f, -, hf, hfirst, -⟩ := scanSealedPart_ok hpart
        exact ⟨f, hf, hfirst⟩
      · have hf := hfiles j (by omega) (by omega)
        rw [halike.desc j] at hf
        exact hf

theorem scanLoop_scratch {limit : Nat} : ∀ {fuel off expected : Nat},
    scanLoop { l with scratch := s } i b limit chosen fuel off expected f
      = scanLoop l i b limit chosen fuel off expected f := by
  intro fuel
  induction fuel with
  | zero => exact rfl
  | succ fuel ih =>
    intro off expected
    simp only [scanLoop, ih]
    rfl

theorem scanBatches_scratch {limit : Nat} :
    scanBatches { l with scratch := s } i b limit chosen f = scanBatches l i b limit chosen f := by
  simp only [scanBatches, scanLoop_scratch]
  rfl

/-- The scan of a sealed part has nothing to do with the buffer. -/
theorem scanSealedPart_same (h : scanSealedPart l d i = .ok l')
    (hd : d'.lookup (partName (l.part i).desc.fileId) = d.lookup (partName (l.part i).desc.fileId)) :
    scanSealedPart { l with scratch := s } d' i = .ok { l' with scratch := s } := by
  have hopen : partOpen { l with scratch := s } d' i = partOpen l d i := by
    rw [partOpen, partOpen, ← hd]
    rfl
  have hsealed : ∀ f, scanSealed { l with scratch := s } i f = scanSealed l i f := by
    intro f
    rw [scanSealed, scanSealed, scanBatches_scratch]
    rfl
  rw [scanSealedPart] at h ⊢
  rw [hopen]
  cases hfile : partOpen l d i with
  | error e =>
    rw [hfile] at h
    cases h
  | ok f =>
    rw [hfile] at h
    change (scanStart l i true f >>= fun _ => scanSealed l i f >>= _) = _ at h
    show (scanStart l i true f >>= fun _ => scanSealed { l with scratch := s } i f >>= _) = _
    rw [hsealed]
    cases hstart : scanStart l i true f with
    | error e =>
      rw [hstart] at h
      cases h
    | ok u =>
      rw [hstart] at h
      cases hscan : scanSealed l i f with
      | error e =>
        rw [hscan] at h
        cases h
      | ok r =>
        rw [hscan] at h
        obtain rfl := ok.inj h
        rfl

theorem scanSealedParts_same : ∀ {count i : Nat} {l : Ledger},
    scanSealedParts d count i l = .ok l' →
    (∀ j, i ≤ j → j < i + count → d'.lookup (partName (l.part j).desc.fileId)
      = d.lookup (partName (l.part j).desc.fileId)) →
    scanSealedParts d' count i { l with scratch := s } = .ok { l' with scratch := s } := by
  intro count
  induction count with
  | zero =>
    intro i l h _
    obtain rfl := ok.inj h
    rfl
  | succ count ih =>
    intro i l h hd
    rw [scanSealedParts] at h ⊢
    cases hscan : scanError (scanSealedPart l d i) with
    | error e =>
      rw [hscan] at h
      cases h
    | ok l1 =>
      rw [hscan] at h
      have hpart := scanError_ok hscan
      rw [scanSealedPart_same hpart (hd i (by omega) (by omega))]
      refine ih h fun j hi hj => ?_
      rw [(scanSealedPart_alike hpart).desc j]
      exact hd j (by omega) (by omega)

/-! ## Scanning the active part -/

/-- What the scan of the active part has found. -/
structure Scanned (l : Ledger) (d : Dir) (i : Nat) (f : File) (o : Nat) (chosen : Marker)
    (es : List BatchDirEntry) (expected : Nat) : Prop where
  file : d.lookup (partName (l.part i).desc.fileId) = some f
  start : scanStart l i false f = .ok ()
  mark : Marks l f f.size o chosen
  scan : scanChosen l i o chosen f = .ok (es, expected)

/-- The active part after its scan. -/
def Ledger.withActive (l : Ledger) (i bytes : Nat) (es : List BatchDirEntry) (expected : Nat)
    (s : Scratch) : Ledger :=
  { l.setPart i ⟨{ (l.part i).desc with end_ := expected }, false, bytes⟩ with
    dir := l.dir ++ es
    scratch := s }

theorem scanActivePart_ok (hw : l.writable = true) (h : scanActivePart l d i = .ok (l', d')) :
    ∃ f o chosen es expected s, Scanned l d i f o chosen es expected ∧
      l' = l.withActive i (o + markerSize) es expected s ∧
      d' = if o + markerSize < f.size then
        d.put (partName (l.part i).desc.fileId) (f.truncate (o + markerSize)) else d := by
  rw [scanActivePart, partOpen] at h
  cases hfile : d.lookup (partName (l.part i).desc.fileId) with
  | none =>
    simp only [hfile, bind, Except.bind] at h
    cases h
  | some f =>
    simp only [hfile, bind, Except.bind] at h
    cases hstart : scanStart l i false f with
    | error e =>
      simp only [hstart] at h
      cases h
    | ok u =>
      simp only [hstart, scanActive] at h
      obtain ⟨s, hs, -⟩ | ⟨chosen, o, s, hs, -, hlast⟩ | ⟨s, hs, -⟩ :=
        findLastMarker_spec (l := l) (f := f) l.scratch le_rfl
      · simp only [hs] at h
        cases h
      · have hsize := f.size_lt
        have hfits := hlast.1.fits
        have hadd : atAdd o markerSize = o + markerSize :=
          atAdd_eq (by simp only [u64Size]; omega)
        simp only [hs, bind, Except.bind] at h
        cases hscan : scanChosen l i o chosen f with
        | error e =>
          simp only [hscan] at h
          cases h
        | ok r =>
          obtain ⟨es, expected⟩ := r
          simp only [hscan, hadd, hw, true_and, if_true] at h
          obtain ⟨hl, hd⟩ := Prod.mk.inj (ok.inj h)
          exact ⟨f, o, chosen, es, expected, s, ⟨hfile, hstart, hlast.1, hscan⟩, hl.symm, hd.symm⟩
      · simp only [hs] at h
        cases h

variable {es : List BatchDirEntry}

/-- A marker at the end of the file is found, and nothing is trimmed. -/
theorem scanActivePart_settled {chosen : Marker}
    (h : Scanned l d i f o chosen es expected) (hend : o + markerSize = f.size)
    (hs : s.Granted) :
    ∃ s', scanActivePart { l with scratch := s } d i
      = .ok (l.withActive i f.size es expected s', d) := by
  have hmarks : ∀ {o : Nat} {m : Marker}, Marks { l with scratch := s } f f.size o m ↔
      Marks l f f.size o m := fun {o m} =>
    ⟨fun h => ⟨h.above, h.fits, h.decodes, h.ours, h.trailed⟩,
      fun h => ⟨h.above, h.fits, h.decodes, h.ours, h.trailed⟩⟩
  have hlast : LastMark { l with scratch := s } f f.size chosen o := by
    refine ⟨hmarks.2 h.mark, fun o' m' h' => ?_⟩
    have hfits := h'.fits
    omega
  have hsize := f.size_lt
  have hadd : atAdd o markerSize = f.size := by
    rw [← hend]
    exact atAdd_eq (by simp only [u64Size]; omega)
  have hchosen : scanChosen { l with scratch := s } i o chosen f = .ok (es, expected) := by
    rw [← h.scan, scanChosen, scanChosen, scanBatches_scratch]
  obtain ⟨s', hfind, hrefused⟩ | ⟨m', o', s', hfind, -, hlast'⟩ | ⟨s', hfind, hnone⟩ :=
    findLastMarker_spec (l := { l with scratch := s }) (f := f) s le_rfl
  · exact absurd hs hrefused
  · obtain ⟨rfl, rfl⟩ := hlast.unique hlast'
    have hopen : partOpen { l with scratch := s } d i = .ok f := by
      have hfile : d.lookup (partName (Ledger.part { l with scratch := s } i).desc.fileId) = some f :=
        h.file
      rw [partOpen, hfile]
    have hstart : scanStart { l with scratch := s } i false f = .ok () := h.start
    refine ⟨s', ?_⟩
    rw [scanActivePart, hopen]
    simp only [bind, Except.bind, hstart, scanActive, hfind, hchosen, hadd, Nat.lt_irrefl, and_false,
      if_false, ite_self]
    rfl
  · exact absurd hlast.1 (hnone _ _)

/-! ## Settled directories -/

/-- The handle that recovery makes of the scanned parts. -/
def Ledger.finish (l : Ledger) (bytes : Nat) (es : List BatchDirEntry) (expected : Nat)
    (s : Scratch) (nextFileId : Nat) : Ledger :=
  { l.withActive l.activeIndex bytes es expected s with
    stableEnd := expected
    end_ := expected
    dirty := false
    nextFileId := nextFileId }

/-- The directory is as recovery leaves it for this handle. -/
inductive Settled (d : Dir) (l : Ledger) : Prop
  | intro {m : Manifest} {grants : Nat → Bool} {l1 : Ledger} {f : File} {o : Nat} {chosen : Marker}
      {es : List BatchDirEntry} {expected : Nat} {s : Scratch} {k : Nat}
      (manifest : recoverManifest d = .ok m)
      (sealedParts : scanSealedParts d m.sealedParts.length 0
        ((newHandle true grants).withManifest m) = .ok l1)
      (active : Scanned l1 d l1.activeIndex f o chosen es expected)
      (ends : o + markerSize = f.size)
      (kept : AllKept m d)
      (handle : l = l1.finish f.size es expected s k)

theorem withManifest_active (m : Manifest) (l : Ledger) :
    (l.withManifest m).activeIndex < (l.withManifest m).parts.length ∧
      ((l.withManifest m).part (l.withManifest m).activeIndex).desc = m.active := by
  simp [Ledger.withManifest, Ledger.part, getD_eq_getElem?_getD]

theorem withManifest_sealed (m : Manifest) (l : Ledger) (h : j < m.sealedParts.length) :
    ((l.withManifest m).part j).desc ∈ m.sealedParts := by
  have hget : ((l.withManifest m).part j).desc = m.sealedParts[j] := by
    simp [Ledger.withManifest, Ledger.part, getD_eq_getElem?_getD, List.getElem?_append_left, h]
  rw [hget]
  exact getElem_mem h

theorem part_withActive (l : Ledger) (bytes expected : Nat) (es : List BatchDirEntry) (s : Scratch)
    (h : l.activeIndex < l.parts.length) :
    (l.withActive l.activeIndex bytes es expected s).part l.activeIndex
      = ⟨{ (l.part l.activeIndex).desc with end_ := expected }, false, bytes⟩ :=
  part_setPart l h

/-- A settled directory is opened as it is, into the same handle. -/
theorem settled_recover (h : Settled d l) (grants : Nat → Bool) (hg : ∀ k, grants k = true) :
    ∃ s k, recover (newHandle true grants) d
      = .ok ({ l with scratch := s, nextFileId := k }, d) := by
  obtain @⟨m, grants', l1, f, o, chosen, es, expected, s, k, hman, hsealed, hactive, hend, hkept,
    rfl⟩ := h
  obtain ⟨halike, -⟩ := scanSealedParts_ok hsealed
  have hsame : scanSealedParts d m.sealedParts.length 0 ((newHandle true grants).withManifest m)
      = .ok { l1 with scratch := ⟨0, grants⟩ } :=
    scanSealedParts_same (s := ⟨0, grants⟩) hsealed fun _ _ _ => rfl
  obtain ⟨s', hscan⟩ := scanActivePart_settled hactive hend (s := ⟨0, grants⟩) hg
  obtain ⟨hidx, -⟩ := withManifest_active m (newHandle true grants')
  rw [← halike.activeIndex, ← halike.length] at hidx
  obtain ⟨k', hgc⟩ := gcOrphans_kept (l := { l1.withActive l1.activeIndex f.size es expected s' with
    stableEnd := expected, end_ := expected, dirty := false }) hkept
  refine ⟨s', k', ?_⟩
  rw [recover, hman]
  simp only [bind, Except.bind, hsame, hscan, scanError]
  rw [show (l1.withActive l1.activeIndex f.size es expected s').activeIndex = l1.activeIndex from rfl,
    part_withActive l1 f.size expected es s' hidx]
  exact (if_pos halike.writable).trans hgc

/-- The file cut off after the chosen marker is scanned alike. -/
theorem Scanned.cut {chosen : Marker}
    (h : Scanned l d i f o chosen es expected) (hsame : SameBelow (o + markerSize) f g)
    (hg : g.size = o + markerSize)
    (hfile : d'.lookup (partName (l.part i).desc.fileId) = some g) :
    Scanned l d' i g o chosen es expected := by
  have habove := h.mark.above
  have hfits := h.mark.fits
  have hsize := f.size_lt
  have h128 : 128 ≤ o + markerSize := by
    rw [partHeaderSize_eq] at habove
    rw [markerSize_eq]
    omega
  have hslice : ∀ off len, off + len ≤ o + markerSize →
      slice g.bytes off len = slice f.bytes off len := fun off len hin =>
    hsame.slice_eq hfits (by omega) hin
  refine ⟨hfile, ?_, ⟨habove, by omega, ?_, h.mark.ours, ?_⟩, ?_⟩
  · have hlocal : Library.Local (SameBelow (o + markerSize)) fun f =>
        scanHeader l i f >>= fun _ => scanBaseline l i false f :=
      .bind (scanHeader_local (by omega)) fun _ _ _ => scanBaseline_local h128
    have hstart := h.start
    rw [scanStart, if_neg (by omega)] at hstart ⊢
    exact (hlocal f g hsame).symm.trans hstart
  · rw [hslice o markerSize le_rfl]
    exact h.mark.decodes
  · rw [hslice (o + 56) 8 (by rw [markerSize_eq])]
    exact h.mark.trailed
  · rw [← scanChosen_local (by omega) f g hsame]
    exact h.scan

theorem keeps_active (h : m.Sound) : m.keeps (partName m.active.fileId) = true :=
  keeps_part h.active_lt (by simp [Manifest.hasPart])

theorem keeps_sealed (h : m.Sound) {p : PartDesc} (hp : p ∈ m.sealedParts) :
    m.keeps (partName p.fileId) = true := by
  refine keeps_part (h.below p hp).2 ?_
  simp only [Manifest.hasPart, decide_eq_true_eq, any_eq_true]
  exact .inr ⟨p, hp, rfl⟩

/-- A recovery settles the directory and keeps every other file of the manifest. -/
theorem recover_settled {grants : Nat → Bool} (h : recover (newHandle true grants) d = .ok (l, d')) :
    Settled d' l ∧ ∃ m, recoverManifest d = .ok m ∧ ∀ n, m.keeps n = true →
      n ≠ partName m.active.fileId → d'.lookup n = d.lookup n := by
  rw [recover] at h
  cases hman : recoverManifest d with
  | error e =>
    rw [hman] at h
    cases h
  | ok m =>
  simp only [hman, bind, Except.bind] at h
  cases hsealed : scanSealedParts d m.sealedParts.length 0 ((newHandle true grants).withManifest m) with
  | error e =>
    rw [hsealed] at h
    cases h
  | ok l1 =>
  simp only [hsealed] at h
  cases hactive : scanError (scanActivePart l1 d l1.activeIndex) with
  | error e =>
    rw [hactive] at h
    cases h
  | ok r =>
  obtain ⟨l2, d2⟩ := r
  simp only [hactive] at h
  have hsound := recoverManifest_sound hman
  obtain ⟨halike, hfiles⟩ := scanSealedParts_ok hsealed
  obtain ⟨hidx, hdesc⟩ := withManifest_active m (newHandle true grants)
  rw [← halike.activeIndex, ← halike.desc] at hdesc
  rw [← halike.activeIndex, ← halike.length] at hidx
  have hw : l1.writable = true := halike.writable
  obtain ⟨f, o, chosen, es, expected, s, hscan, rfl, hd2⟩ :=
    scanActivePart_ok hw (scanError_ok hactive)
  have hfits := hscan.mark.fits
  rw [show (l1.withActive l1.activeIndex (o + markerSize) es expected s).activeIndex
    = l1.activeIndex from rfl, part_withActive l1 (o + markerSize) expected es s hidx] at h
  have hgc := (if_pos hw).symm.trans h
  obtain ⟨⟨k, rfl⟩, hkept, hfilter⟩ := gcOrphans_ok hgc
  -- what stays under a name that is kept
  have hlookup : ∀ n, m.keeps n = true → n ≠ partName m.active.fileId →
      d'.lookup n = d.lookup n := by
    intro n hn hne
    rw [hfilter, lookup_filter hn, hd2]
    split
    · rw [hdesc, lookup_put_ne hne]
    · rfl
  -- the active part's file is no sealed part's: their headers differ
  have hne : ∀ p ∈ m.sealedParts, ∀ g, d.lookup (partName p.fileId) = some g →
      HeaderFirst g p.first → partName p.fileId ≠ partName m.active.fileId := by
    intro p hp g hg hfirst heq
    have hfile := hscan.file
    rw [hdesc, ← heq, hg] at hfile
    obtain rfl := Option.some.inj hfile
    have hactivefirst := (scanStart_ok hscan.start).2
    rw [hdesc] at hactivefirst
    have hlt := (hsound.below p hp).1
    rw [hfirst.unique hactivefirst] at hlt
    exact Nat.lt_irrefl _ hlt
  have hsealed' : scanSealedParts d' m.sealedParts.length 0 ((newHandle true grants).withManifest m)
      = .ok l1 := by
    have hsame : scanSealedParts d' m.sealedParts.length 0
        { (newHandle true grants).withManifest m with scratch := ⟨0, grants⟩ }
          = .ok { l1 with scratch := ⟨0, grants⟩ } := by
      refine scanSealedParts_same hsealed fun j _ hj => ?_
      have hmem := withManifest_sealed m (newHandle true grants) (j := j) (by omega)
      obtain ⟨g, hg, hfirst⟩ := hfiles j (Nat.zero_le j) hj
      exact hlookup _ (keeps_sealed hsound hmem) (hne _ hmem g hg hfirst)
    have hscratch : l1 = { l1 with scratch := ⟨0, grants⟩ } := by
      have h : scanSealedParts d m.sealedParts.length 0
          { (newHandle true grants).withManifest m with scratch := ⟨0, grants⟩ }
            = .ok { l1 with scratch := ⟨0, grants⟩ } :=
        scanSealedParts_same hsealed fun _ _ _ => rfl
      exact ok.inj (hsealed.symm.trans h)
    rw [hscratch]
    exact hsame
  have hman' : recoverManifest d' = .ok m := by
    rw [← hman]
    refine recoverManifest_congr (hlookup _ keeps_current ?_) fun g =>
      hlookup _ (keeps_manifest g) ?_
    · intro heq
      have hlen := congrArg List.length heq
      rw [length_partName] at hlen
      exact absurd hlen (by decide)
    · intro heq
      have hlen := congrArg List.length heq
      rw [length_partName, length_manifestName] at hlen
      exact absurd hlen (by decide)
  have hlookup2 : d'.lookup (partName (l1.part l1.activeIndex).desc.fileId)
      = d2.lookup (partName (l1.part l1.activeIndex).desc.fileId) := by
    rw [hfilter, lookup_filter (by rw [hdesc]; exact keeps_active hsound)]
  refine ⟨?_, m, rfl, hlookup⟩
  obtain hlt | hge := Nat.lt_or_ge (o + markerSize) f.size
  · rw [if_pos hlt] at hd2
    have hsize := size_truncate (f := f) (Nat.le_of_lt hlt)
    have hcut : Scanned l1 d' l1.activeIndex (f.truncate (o + markerSize)) o chosen es expected := by
      refine hscan.cut (sameBelow_truncate (Nat.le_of_lt hlt)) hsize ?_
      rw [hlookup2, hd2, lookup_put_self]
    refine .intro hman' hsealed' hcut hsize.symm hkept (s := s) (k := k) ?_
    rw [hsize]
    rfl
  · have hsize : f.size = o + markerSize := le_antisymm hge hfits
    have hcut : Scanned l1 d' l1.activeIndex f o chosen es expected := by
      refine hscan.cut (fun _ _ _ => rfl) hsize ?_
      rw [hlookup2, hd2, if_neg (by omega)]
      exact hscan.file
    refine .intro hman' hsealed' hcut hsize.symm hkept (s := s) (k := k) ?_
    rw [hsize]
    rfl

end Led89
