import EightyNine.Bpf.Mem

/-!
# What an access touches

An access that is not refused touches the bytes of one region, which permits it
(`memLoad_ok`, `memStore_ok`), and a store changes no others (`SameExcept`).
-/

namespace Bpf

open List

/-! ## Memories that differ in some bytes -/

/-- `m'` has the regions of `m`, and the bytes of `m` but for those in `written`. -/
structure SameExcept (written : Ptr → Prop) (m m' : Memory) : Prop where
  length_eq : m'.length = m.length
  region : ∀ (j : Nat) (r : Region), m[j]? = some r → ∃ r' : Region, m'[j]? = some r' ∧
    r'.base = r.base ∧ r'.len = r.len ∧ r'.acc = r.acc ∧
      ∀ k, ¬ written ⟨j, k⟩ → r'.bytes k = r.bytes k

variable {written written' : Ptr → Prop} {m m' m'' : Memory}

theorem SameExcept.refl (m : Memory) : SameExcept written m m :=
  ⟨rfl, fun _ r h => ⟨r, h, rfl, rfl, rfl, fun _ _ => rfl⟩⟩

theorem SameExcept.trans (h : SameExcept written m m') (h' : SameExcept written m' m'') :
    SameExcept written m m'' := by
  refine ⟨h'.length_eq.trans h.length_eq, fun j r hr => ?_⟩
  obtain ⟨r', hr', hbase, hlen, hacc, hbytes⟩ := h.region j r hr
  obtain ⟨r'', hr'', hbase', hlen', hacc', hbytes'⟩ := h'.region j r' hr'
  exact ⟨r'', hr'', hbase'.trans hbase, hlen'.trans hlen, hacc'.trans hacc,
    fun k hk => (hbytes' k hk).trans (hbytes k hk)⟩

theorem SameExcept.mono (h : SameExcept written m m') (hw : ∀ p, written p → written' p) :
    SameExcept written' m m' := by
  refine ⟨h.length_eq, fun j r hr => ?_⟩
  obtain ⟨r', hr', hbase, hlen, hacc, hbytes⟩ := h.region j r hr
  exact ⟨r', hr', hbase, hlen, hacc, fun k hk => hbytes k fun hw' => hk (hw _ hw')⟩

theorem setByte_same (m : Memory) (p : Ptr) (v : Byte) :
    SameExcept (fun q => q = p) m (m.setByte p v) := by
  refine ⟨length_modify .., fun j r hr => ?_⟩
  rw [Memory.setByte, getElem?_modify, hr, Option.map_eq_map, Option.map_some]
  split
  next hj =>
    refine ⟨_, rfl, rfl, rfl, rfl, fun k hk => if_neg fun he => hk ?_⟩
    rw [he, ← hj]
  next => exact ⟨r, rfl, rfl, rfl, rfl, fun _ _ => rfl⟩

variable {p : Ptr} {width : Nat} {acc : Access}

theorem mem_touches {t : Touch} :
    t ∈ touches p width acc ↔ ∃ k < width, t = ⟨⟨p.region, p.offset + k⟩, acc⟩ := by
  simp only [touches, mem_map, mem_range, eq_comm]

theorem writeLe_same (m : Memory) (p : Ptr) (v : Word) (width : Nat) :
    SameExcept (fun q => ⟨q, .write⟩ ∈ touches p width .write) m (writeLe m p v width) := by
  induction width with
  | zero => exact .refl m
  | succ k ih =>
    rw [writeLe]
    refine (ih.mono fun q hq => ?_).trans ((setByte_same _ _ _).mono ?_)
    · obtain ⟨l, hl, h⟩ := mem_touches.mp hq
      exact mem_touches.mpr ⟨l, Nat.lt_succ_of_lt hl, h⟩
    · rintro q rfl
      exact mem_touches.mpr ⟨k, Nat.lt_succ_self k, rfl⟩

/-! ## The resolver -/

variable {addr bytes : Word}

theorem Region.holds_iff {r : Region} : r.holds addr bytes = true ↔
    r.base ≤ addr ∧ addr - r.base ≤ r.len ∧ bytes ≤ r.len - (addr - r.base) := by
  rw [Region.holds, decide_eq_true_iff]

/-- The pointer the resolver returns is that of the first region that holds the interval. -/
theorem resolveFrom_ok : ∀ {j : Nat} {m : Memory},
    resolveFrom addr bytes acc j m = .ok p → ∃ (k : Nat) (r : Region), m[k]? = some r ∧
      r.holds addr bytes = true ∧ acc ∈ r.acc ∧ p = ⟨j + k, (addr - r.base).toNat⟩
  | _, [], h => by cases h
  | j, r :: rest, h => by
    rw [resolveFrom] at h
    split at h
    next hholds =>
      split at h
      next hacc =>
        cases h
        exact ⟨0, r, rfl, hholds, hacc, rfl⟩
      next => cases h
    next =>
      obtain ⟨k, r', hr', hholds, hacc, rfl⟩ := resolveFrom_ok h
      exact ⟨k + 1, r', hr', hholds, hacc, by rw [Nat.add_right_comm, Nat.add_assoc]⟩

/-- The access does not decide where the resolver looks. -/
theorem resolveFrom_region {acc' : Access} {p' : Ptr} :
    ∀ {j : Nat} {m : Memory}, resolveFrom addr bytes acc j m = .ok p →
      resolveFrom addr bytes acc' j m = .ok p' → p = p'
  | _, [], h, _ => by cases h
  | j, r :: rest, h, h' => by
    rw [resolveFrom] at h h'
    split at h
    next hholds =>
      rw [if_pos hholds] at h'
      split at h
      · split at h'
        · cases h
          cases h'
          rfl
        · cases h'
      · cases h
    next hholds =>
      rw [if_neg hholds] at h'
      exact resolveFrom_region h h'

/-- The touched bytes lie in one region, which permits their access. -/
def Permitted (m : Memory) (touched : List Touch) : Prop :=
  ∃ j, ∀ t ∈ touched, t.ptr.region = j ∧ ∃ r, m[j]? = some r ∧ t.ptr.offset < r.len.toNat ∧
    t.acc ∈ r.acc

theorem Permitted.nil (m : Memory) : Permitted m [] := ⟨0, nofun⟩

theorem memResolve_permitted {m : Memory}
    (hw : width < 2 ^ 64) (h : memResolve m addr (BitVec.ofNat 64 width) acc = .ok p) :
    ∀ t ∈ touches p width acc, t.ptr.region = p.region ∧ ∃ r, m[p.region]? = some r ∧
      t.ptr.offset < r.len.toNat ∧ t.acc ∈ r.acc := by
  obtain ⟨k, r, hr, hholds, hacc, rfl⟩ := resolveFrom_ok h
  obtain ⟨hbase, hdelta, hbytes⟩ := Region.holds_iff.mp hholds
  rw [Nat.zero_add]
  intro t ht
  obtain ⟨l, hl, rfl⟩ := mem_touches.mp ht
  refine ⟨rfl, r, hr, ?_, hacc⟩
  -- the interval ends before the region does, without wrapping
  have hsum : (addr - r.base).toNat + width ≤ r.len.toNat := by
    have hle : width ≤ (r.len - (addr - r.base)).toNat := by
      have := BitVec.le_def.mp hbytes
      rwa [BitVec.toNat_ofNat, Nat.mod_eq_of_lt hw] at this
    have hsub := BitVec.toNat_sub_of_le hdelta
    have hdelta' := BitVec.le_def.mp hdelta
    omega
  show (addr - r.base).toNat + l < r.len.toNat
  omega

/-! ## Loads and stores -/

theorem leWidth_lt (h : leWidthOk width = true) : width < 2 ^ 64 := by
  simp only [leWidthOk, decide_eq_true_eq] at h
  omega

variable {v : Word} {touched : List Touch}

theorem memLoad_ok (h : memLoad m addr width = .ok (v, touched)) :
    leWidthOk width = true ∧
      ∃ p, memResolve m addr (BitVec.ofNat 64 width) .read = .ok p ∧
        v = readLe m p width ∧ touched = touches p width .read := by
  rw [memLoad] at h
  split at h
  next => cases h
  next hw =>
    split at h
    next => cases h
    next p hp =>
      cases h
      exact ⟨by simpa using hw, p, hp, rfl, rfl⟩

theorem memStore_ok (h : memStore m addr width v = .ok (m', touched)) :
    leWidthOk width = true ∧
      ∃ p, memResolve m addr (BitVec.ofNat 64 width) .write = .ok p ∧
        m' = writeLe m p v width ∧ touched = touches p width .write := by
  rw [memStore] at h
  split at h
  next => cases h
  next hw =>
    split at h
    next => cases h
    next p hp =>
      cases h
      exact ⟨by simpa using hw, p, hp, rfl, rfl⟩

theorem memLoad_permitted (h : memLoad m addr width = .ok (v, touched)) : Permitted m touched := by
  obtain ⟨hw, p, hp, -, rfl⟩ := memLoad_ok h
  exact ⟨p.region, memResolve_permitted (leWidth_lt hw) hp⟩

theorem memStore_permitted
    (h : memStore m addr width v = .ok (m', touched)) : Permitted m touched := by
  obtain ⟨hw, p, hp, -, rfl⟩ := memStore_ok h
  exact ⟨p.region, memResolve_permitted (leWidth_lt hw) hp⟩

/-- A load and a store at one address stay in one region. -/
theorem memLoadStore_permitted {w : Word} {loaded stored : List Touch}
    (hl : memLoad m addr width = .ok (v, loaded))
    (hs : memStore m addr width w = .ok (m', stored)) : Permitted m (loaded ++ stored) := by
  obtain ⟨hw, p, hp, -, rfl⟩ := memLoad_ok hl
  obtain ⟨-, q, hq, -, rfl⟩ := memStore_ok hs
  obtain rfl : p = q := resolveFrom_region hp hq
  refine ⟨p.region, fun t ht => ?_⟩
  rcases mem_append.mp ht with ht | ht
  · exact memResolve_permitted (leWidth_lt hw) hp t ht
  · exact memResolve_permitted (leWidth_lt hw) hq t ht

theorem memStore_same (h : memStore m addr width v = .ok (m', touched)) :
    SameExcept (fun q => ⟨q, .write⟩ ∈ touched) m m' := by
  obtain ⟨-, p, -, rfl, rfl⟩ := memStore_ok h
  exact writeLe_same m p v width

/-! ## Fresh memory -/

/-- The region of a configuration. -/
def regionOf (fresh : Nat → Byte) (rc : RegionCfg) : Region :=
  { base := rc.guest, len := rc.len, acc := kindAcc rc.kind, bytes := initBytes fresh rc }

variable {fresh : Nat → Byte} {cfg : List RegionCfg}

theorem addRegions_ok : ∀ {m m' : Memory},
    cfg.foldlM (addRegion fresh) m = .ok m' → m' = m ++ cfg.map (regionOf fresh) := by
  induction cfg with
  | nil =>
    intro m m' h
    cases h
    rw [map_nil, append_nil]
  | cons rc rest ih =>
    intro m m' h
    rw [foldlM_cons, addRegion] at h
    split at h
    · rw [ih h, map_cons, append_assoc]
      rfl
    · cases h

theorem memoryCreate_ok {m : Memory}
    (h : memoryCreate fresh cfg = .ok m) : m = cfg.map (regionOf fresh) := by
  rw [memoryCreate] at h
  split at h
  · cases h
  · exact addRegions_ok h

end Bpf
