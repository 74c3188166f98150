import EightyNine.Bpf.Eval
import EightyNine.Bpf.MemOk
import EightyNine.Library.Bits

/-!
# Memory as a partial byte map

To a guest, memory is a partial map from addresses to bytes, with areas that permit
accesses.  A load gives the little-endian number of the bytes at its address, a store
writes the bytes of a number, and an access that does not lie in one area with its
permission is refused and changes nothing.  `run_refines` says that the regions of the
resolver are such a memory, over any sequence of accesses.

A fresh memory holds the initial bytes of its configuration, then zeros, except where a
length is given without the bytes to copy (`view_create_iff`).
-/

namespace Bpf

open List BitVec

/-! ## The byte map -/

/-- A mapped interval with the access it permits. -/
structure Area where
  base : Nat
  len : Nat
  acc : List Access

/-- An address in the area. -/
def Area.Covers (a : Area) (x : Nat) : Prop := a.base ≤ x ∧ x < a.base + a.len

instance areaCovers (a : Area) (x : Nat) : Decidable (a.Covers x) :=
  inferInstanceAs (Decidable (a.base ≤ x ∧ x < a.base + a.len))

/-- The `width` bytes from `addr` on lie in one area, which permits the access. -/
def InArea (as : List Area) (addr width : Nat) (acc : Access) : Prop :=
  ∃ a ∈ as, a.base ≤ addr ∧ addr + width ≤ a.base + a.len ∧ acc ∈ a.acc

instance inAreaDecidable (as : List Area) (addr width : Nat) (acc : Access) :
    Decidable (InArea as addr width acc) :=
  inferInstanceAs (Decidable (∃ a ∈ as, a.base ≤ addr ∧ addr + width ≤ a.base + a.len ∧
    acc ∈ a.acc))

/-- The areas are apart, off address zero, and end before the address space does. -/
structure WellMapped (as : List Area) : Prop where
  nonzero : ∀ a ∈ as, 0 < a.base
  below : ∀ a ∈ as, a.base + a.len < 2 ^ 64
  apart : as.Pairwise fun a b => ∀ x, ¬ (a.Covers x ∧ b.Covers x)

/-- A partial map from addresses to bytes. -/
abbrev ByteMap := Nat → Option Byte

/-- The little-endian number of the `width` bytes from `addr` on. -/
def ByteMap.value (b : ByteMap) (addr : Nat) : Nat → Nat
  | 0 => 0
  | k + 1 => b.value addr k + ((b (addr + k)).getD 0).toNat * 256 ^ k

/-- The map with the low `width` bytes of `v` from `addr` on. -/
def ByteMap.store (b : ByteMap) (addr width v : Nat) : ByteMap := fun x =>
  if addr ≤ x ∧ x < addr + width then some (UInt8.ofNat (v / 256 ^ (x - addr))) else b x

/-- An access of one, two, four or eight bytes. -/
inductive MemOp where
  | load (addr : Word) (size : Size)
  | store (addr : Word) (size : Size) (v : Word)

/-- What an access gives back. -/
inductive Answer where
  | refused
  | loaded (v : Nat)
  | stored
deriving DecidableEq

/-- An access of the byte map. -/
def ByteMap.step (as : List Area) (b : ByteMap) : MemOp → ByteMap × Answer
  | .load addr size =>
    if InArea as addr.toNat (sizeBytes size) .read then
      (b, .loaded (b.value addr.toNat (sizeBytes size)))
    else (b, .refused)
  | .store addr size v =>
    if InArea as addr.toNat (sizeBytes size) .write then
      (b.store addr.toNat (sizeBytes size) v.toNat, .stored)
    else (b, .refused)

/-! ## The regions as a byte map -/

/-- The interval of a region. -/
def Region.area (r : Region) : Area := ⟨r.base.toNat, r.len.toNat, r.acc⟩

/-- The intervals of a memory. -/
def Memory.areas (m : Memory) : List Area := m.map Region.area

/-- The byte map of the regions. -/
def Memory.view (m : Memory) : ByteMap := fun x =>
  (m.find? fun r => r.area.Covers x).map fun r => r.bytes (x - r.base.toNat)

/-- An access of the regions. -/
def Memory.step (m : Memory) : MemOp → Memory × Answer
  | .load addr size =>
    match memLoad m addr (sizeBytes size) with
    | .ok r => (m, .loaded r.1.toNat)
    | .error _ => (m, .refused)
  | .store addr size v =>
    match memStore m addr (sizeBytes size) v with
    | .ok r => (r.1, .stored)
    | .error _ => (m, .refused)

/-- Accesses in order, with their answers. -/
def answers {σ : Type} (step : σ → MemOp → σ × Answer) : σ → List MemOp → σ × List Answer
  | s, [] => (s, [])
  | s, op :: ops =>
    let r := step s op
    let rest := answers step r.1 ops
    (rest.1, r.2 :: rest.2)

/-! ## Bytes of a number -/

/-- The little-endian number of `k` bytes. -/
def leSum (byte : Nat → Byte) : Nat → Nat
  | 0 => 0
  | k + 1 => leSum byte k + (byte k).toNat * 256 ^ k

theorem leSum_lt (byte : Nat → Byte) (k : Nat) : leSum byte k < 256 ^ k := by
  induction k with
  | zero => exact Nat.one_pos
  | succ k ih =>
    have hbyte : (byte k).toNat * 256 ^ k ≤ 255 * 256 ^ k :=
      Nat.mul_le_mul_right _ (Nat.le_of_lt_succ (byte k).toNat_lt)
    rw [leSum, Nat.pow_succ]
    omega

variable {k : Nat}

theorem leValue_toNat (byte : Nat → Byte) (h : k ≤ 8) :
    (leValue byte k).toNat = leSum byte k := by
  induction k with
  | zero => rfl
  | succ k ih =>
    have hb : (byte k).toNat < 256 := (byte k).toNat_lt
    have hpow : 2 ^ (8 * k) = 256 ^ k := Nat.pow_mul 2 8 k
    have hfit : (byte k).toNat * 2 ^ (8 * k) < 2 ^ 64 := by
      have hle : 2 ^ (8 * k + 8) ≤ 2 ^ 64 := Nat.pow_le_pow_right (by decide) (by omega)
      have hmul : (byte k).toNat * 2 ^ (8 * k) < 256 * 2 ^ (8 * k) :=
        Nat.mul_lt_mul_of_pos_right hb (Nat.two_pow_pos _)
      rw [Nat.pow_add] at hle
      omega
    have hlow : leSum byte k < 2 ^ (8 * k) := by
      rw [hpow]
      exact leSum_lt byte k
    have hmod : (byte k).toNat % 2 ^ 64 = (byte k).toNat := Nat.mod_eq_of_lt (by omega)
    rw [leValue, toNat_or, ih (by omega), toNat_shiftLeft, toNat_ofNat,
      hmod, Nat.shiftLeft_eq, Nat.mod_eq_of_lt hfit, ← Nat.shiftLeft_eq,
      Library.or_shiftLeft hlow, leSum, hpow, Nat.add_comm]

theorem leByte_eq (v : Word) (k : Nat) : leByte v k = UInt8.ofNat (v.toNat / 256 ^ k) := by
  rw [leByte, toNat_ushiftRight, Nat.shiftRight_eq_div_pow, Nat.pow_mul]

/-! ## Stores -/

/-- The bytes of a region after a store at `offset`. -/
def Region.written (r : Region) (offset width : Nat) (v : Word) : Region :=
  { r with bytes := fun j =>
      if offset ≤ j ∧ j < offset + width then leByte v (j - offset) else r.bytes j }

theorem writeLe_eq (m : Memory) (p : Ptr) (v : Word) (width : Nat) :
    writeLe m p v width = m.modify p.region fun r => r.written p.offset width v := by
  induction width with
  | zero =>
    have hsame : (fun r : Region => r.written p.offset 0 v) = id := by
      funext r
      have hbytes : (fun j => if p.offset ≤ j ∧ j < p.offset + 0 then leByte v (j - p.offset)
          else r.bytes j) = r.bytes := by
        funext j
        rw [if_neg (by omega)]
      rw [Region.written, hbytes]
      rfl
    rw [writeLe, hsame, modify_id]
  | succ k ih =>
    rw [writeLe, ih, Memory.setByte, modify_modify_eq]
    congr 1
    funext r
    simp only [Function.comp, Region.written, Region.mk.injEq, true_and]
    funext j
    by_cases hj : j = p.offset + k
    · rw [if_pos hj, if_pos (by omega), hj, Nat.add_sub_cancel_left]
    · rw [if_neg hj]
      by_cases hin : p.offset ≤ j ∧ j < p.offset + k
      · rw [if_pos hin, if_pos (by omega)]
      · rw [if_neg hin, if_neg (by omega)]

/-! ## The view -/

variable {r : Region} {addr : Word} {width : Nat}

theorem Region.holds_nat (hw : width < 2 ^ 64) : r.holds addr (BitVec.ofNat 64 width) = true ↔
      r.area.base ≤ addr.toNat ∧ addr.toNat + width ≤ r.area.base + r.area.len := by
  have hmod : width % 2 ^ 64 = width := Nat.mod_eq_of_lt hw
  simp only [Region.area]
  rw [Region.holds_iff, le_def, le_def, le_def, toNat_ofNat, hmod]
  constructor
  · rintro ⟨hbase, hdelta, hbytes⟩
    rw [toNat_sub_of_le (le_def.mpr hbase)] at hdelta
    rw [toNat_sub_of_le (le_def.mpr (by
      rwa [toNat_sub_of_le (le_def.mpr hbase)])),
      toNat_sub_of_le (le_def.mpr hbase)] at hbytes
    omega
  · rintro ⟨hbase, hend⟩
    have hsub := toNat_sub_of_le (le_def.mpr hbase)
    have hdelta : (addr - r.base).toNat ≤ r.len.toNat := by omega
    refine ⟨hbase, hdelta, ?_⟩
    rw [toNat_sub_of_le (le_def.mpr hdelta)]
    omega

variable {m : Memory} {x : Nat}

theorem view_of_mem (h : WellMapped m.areas)
    (hr : m[k]? = some r) (hx : r.area.Covers x) :
    m.view x = some (r.bytes (x - r.base.toNat)) := by
  obtain ⟨-, -, hapart⟩ := h
  have hfind : m.find? (fun r => r.area.Covers x) = some r := by
    induction m generalizing k with
    | nil => cases hr
    | cons r' rest ih =>
      rw [Memory.areas, map_cons, pairwise_cons] at hapart
      cases k with
      | zero =>
        obtain rfl := Option.some.inj hr
        exact find?_cons_of_pos (p := fun r : Region => decide (r.area.Covers x))
          (decide_eq_true hx)
      | succ k =>
        rw [getElem?_cons_succ] at hr
        have hmem := mem_map_of_mem (f := Region.area) (mem_of_getElem? hr)
        have hnot : ¬ r'.area.Covers x := fun h' => hapart.1 _ hmem x ⟨h', hx⟩
        rw [find?_cons_of_neg (by rwa [decide_eq_true_eq])]
        exact ih hr hapart.2
  rw [Memory.view, hfind, Option.map_some]

theorem view_none (h : ∀ a ∈ m.areas, ¬ a.Covers x) :
    m.view x = none := by
  have hfind : m.find? (fun r => r.area.Covers x) = none := by
    rw [find?_eq_none]
    intro r hr
    rw [decide_eq_true_eq]
    exact h _ (mem_map_of_mem hr)
  rw [Memory.view, hfind]
  rfl

theorem covers_unique (h : WellMapped m.areas) {j : Nat} {r' : Region}
    (hr : m[j]? = some r) (hr' : m[k]? = some r') (hx : r.area.Covers x)
    (hx' : r'.area.Covers x) : j = k := by
  obtain ⟨-, -, hapart⟩ := h
  induction m generalizing j k with
  | nil => cases hr
  | cons a rest ih =>
    rw [Memory.areas, map_cons, pairwise_cons] at hapart
    cases j with
    | zero =>
      cases k with
      | zero => rfl
      | succ k =>
        obtain rfl := Option.some.inj hr
        rw [getElem?_cons_succ] at hr'
        have hmem := mem_map_of_mem (f := Region.area) (mem_of_getElem? hr')
        exact absurd ⟨hx, hx'⟩ (hapart.1 _ hmem x)
    | succ j =>
      rw [getElem?_cons_succ] at hr
      cases k with
      | zero =>
        obtain rfl := Option.some.inj hr'
        have hmem := mem_map_of_mem (f := Region.area) (mem_of_getElem? hr)
        exact absurd ⟨hx', hx⟩ (hapart.1 _ hmem x)
      | succ k =>
        rw [getElem?_cons_succ] at hr'
        rw [ih hr hr' hapart.2]

variable {acc : Access}

/-- The areas decide where the resolver finds an access, and that it does. -/
theorem memResolve_fits (h : WellMapped m.areas)
    (hpos : 0 < width) (hw : width < 2 ^ 64)
    (hfit : InArea m.areas addr.toNat width acc) :
    ∃ p, memResolve m addr (BitVec.ofNat 64 width) acc = .ok p := by
  rw [memResolve]
  generalize 0 = j
  obtain ⟨-, -, hapart⟩ := h
  induction m generalizing j with
  | nil =>
    obtain ⟨a, ha, -⟩ := hfit
    cases ha
  | cons r rest ih =>
    rw [Memory.areas, map_cons] at hfit hapart
    rw [pairwise_cons] at hapart
    have hnat : r.holds addr (BitVec.ofNat 64 width) = true ↔ _ := r.holds_nat hw
    obtain ⟨a, ha, hlow, hhigh, hacc⟩ := hfit
    rw [resolveFrom]
    rcases mem_cons.mp ha with rfl | ha
    · rw [if_pos (hnat.mpr ⟨hlow, hhigh⟩), if_pos (show acc ∈ r.acc from hacc)]
      exact ⟨_, rfl⟩
    · rw [if_neg fun hholds => ?_]
      · exact ih ⟨a, ha, hlow, hhigh, hacc⟩ (j + 1) hapart.2
      · obtain ⟨hlow', hhigh'⟩ := hnat.mp hholds
        exact hapart.1 a ha addr.toNat ⟨⟨hlow', by omega⟩, ⟨hlow, by omega⟩⟩

variable {p : Ptr}

/-- A resolved access fits, and its pointer is the offset into the region that covers it. -/
theorem memResolve_found (hw : width < 2 ^ 64)
    (hp : memResolve m addr (BitVec.ofNat 64 width) acc = .ok p) :
    InArea m.areas addr.toNat width acc ∧ ∃ r, m[p.region]? = some r ∧
      p.offset = addr.toNat - r.base.toNat ∧ r.area.base ≤ addr.toNat ∧
      addr.toNat + width ≤ r.area.base + r.area.len := by
  obtain ⟨k, r, hr, hholds, hacc, rfl⟩ := resolveFrom_ok hp
  have hmem := mem_map_of_mem (f := Region.area) (mem_of_getElem? hr)
  obtain ⟨hlow, hhigh⟩ := (r.holds_nat hw).mp hholds
  refine ⟨⟨r.area, hmem, hlow, hhigh, hacc⟩, r, ?_, ?_, hlow, hhigh⟩
  · rwa [Nat.zero_add]
  · exact toNat_sub_of_le (le_def.mpr hlow)

theorem sizeBytes_bounds (s : Size) : 0 < sizeBytes s ∧ sizeBytes s ≤ 8 ∧
    leWidthOk (sizeBytes s) = true := by
  cases s <;> exact ⟨by decide, by decide, by decide⟩

/-! ## One access -/

theorem readLe_view (h : WellMapped m.areas) {addr : Nat}
    (hr : m[p.region]? = some r) (hoff : p.offset = addr - r.base.toNat)
    (hlow : r.area.base ≤ addr) (hhigh : addr + width ≤ r.area.base + r.area.len)
    (hw : width ≤ 8) : (readLe m p width).toNat = m.view.value addr width := by
  rw [readLe, leValue_toNat _ hw]
  induction width with
  | zero => rfl
  | succ k ih =>
    have hx : r.area.Covers (addr + k) := ⟨by omega, by omega⟩
    have hview := view_of_mem h hr hx
    have hsub : addr + k - r.base.toNat = p.offset + k := by
      have hbase : r.base.toNat ≤ addr := hlow
      omega
    rw [leSum, ByteMap.value, ih (by omega) (by omega), hview, hsub, Memory.byteAt, hr]
    rfl

theorem modify_written_areas (m : Memory) (k offset width : Nat) (v : Word) :
    Memory.areas (m.modify k fun r => r.written offset width v) = m.areas := by
  rw [Memory.areas, Memory.areas]
  refine ext_getElem? fun j => ?_
  rw [getElem?_map, getElem?_map, getElem?_modify]
  cases m[j]? with
  | none => rfl
  | some r =>
    simp only [Option.map_eq_map, Option.map_some]
    split <;> rfl

theorem writeLe_view (h : WellMapped m.areas) {v : Word}
    {addr : Nat} (hr : m[p.region]? = some r) (hoff : p.offset = addr - r.base.toNat)
    (hlow : r.area.base ≤ addr) (hhigh : addr + width ≤ r.area.base + r.area.len) :
    (writeLe m p v width).view = m.view.store addr width v.toNat := by
  have hareas := modify_written_areas m p.region p.offset width v
  rw [writeLe_eq]
  funext x
  have hbase : r.base.toNat ≤ addr := hlow
  have hstored : addr ≤ x ∧ x < addr + width → r.area.Covers x := fun hx =>
    ⟨by omega, by omega⟩
  have h' : WellMapped (Memory.areas (m.modify p.region fun r => r.written p.offset width v)) := by
    rwa [hareas]
  by_cases hcov : ∃ (k : Nat) (r' : Region), m[k]? = some r' ∧ r'.area.Covers x
  · obtain ⟨k, r', hk, hx⟩ := hcov
    have hk' := getElem?_modify (fun r => r.written p.offset width v) p.region m k
    rw [hk, Option.map_eq_map, Option.map_some] at hk'
    by_cases hreg : p.region = k
    · subst hreg
      obtain rfl := Option.some.inj (hr.symm.trans hk)
      rw [if_pos rfl] at hk'
      have hxbase : r.base.toNat ≤ x := hx.1
      rw [view_of_mem h' hk' hx, ByteMap.store, view_of_mem h hk hx]
      by_cases hin : addr ≤ x ∧ x < addr + width
      · have hsub : x - r.base.toNat - p.offset = x - addr := by omega
        rw [if_pos hin]
        refine congrArg some ((if_pos ?_).trans ?_)
        · show p.offset ≤ x - r.base.toNat ∧ x - r.base.toNat < p.offset + width
          omega
        · rw [leByte_eq]
          exact congrArg (fun n => UInt8.ofNat (v.toNat / 256 ^ n)) hsub
      · rw [if_neg hin]
        refine congrArg some (if_neg ?_)
        show ¬ (p.offset ≤ x - r.base.toNat ∧ x - r.base.toNat < p.offset + width)
        omega
    · rw [if_neg hreg] at hk'
      rw [view_of_mem h' hk' hx, ByteMap.store, view_of_mem h hk hx, if_neg]
      exact fun hin => hreg (covers_unique h hr hk (hstored hin) hx)
  · have hnone : ∀ a ∈ m.areas, ¬ a.Covers x := by
      intro a ha hx
      obtain ⟨r', hr', rfl⟩ := mem_map.mp ha
      obtain ⟨k, hk⟩ := mem_iff_getElem?.mp hr'
      exact hcov ⟨k, r', hk, hx⟩
    rw [view_none (by rwa [hareas]), ByteMap.store, view_none hnone, if_neg]
    exact fun hin => hnone _ (mem_map_of_mem (mem_of_getElem? hr)) (hstored hin)

/-- One access of the regions is one access of their byte map. -/
theorem step_refines (h : WellMapped m.areas) (op : MemOp) :
    (m.step op).1.areas = m.areas ∧
      ByteMap.step m.areas m.view op = ((m.step op).1.view, (m.step op).2) := by
  cases op with
  | load addr size =>
    obtain ⟨hpos, hle, hok⟩ := sizeBytes_bounds size
    have hw : sizeBytes size < 2 ^ 64 := leWidth_lt hok
    rw [Memory.step, ByteMap.step, memLoad, hok]
    by_cases hfit : InArea m.areas addr.toNat (sizeBytes size) .read
    · obtain ⟨p, hp⟩ := memResolve_fits h hpos hw hfit
      obtain ⟨-, r, hr, hoff, hlow, hhigh⟩ := memResolve_found hw hp
      rw [if_pos hfit, hp, ← readLe_view h hr hoff hlow hhigh hle]
      exact ⟨rfl, rfl⟩
    · rw [if_neg hfit]
      cases hp : memResolve m addr (BitVec.ofNat 64 (sizeBytes size)) .read with
      | error e => exact ⟨rfl, rfl⟩
      | ok p => exact absurd (memResolve_found hw hp).1 hfit
  | store addr size v =>
    obtain ⟨hpos, hle, hok⟩ := sizeBytes_bounds size
    have hw : sizeBytes size < 2 ^ 64 := leWidth_lt hok
    rw [Memory.step, ByteMap.step, memStore, hok]
    by_cases hfit : InArea m.areas addr.toNat (sizeBytes size) .write
    · obtain ⟨p, hp⟩ := memResolve_fits h hpos hw hfit
      obtain ⟨-, r, hr, hoff, hlow, hhigh⟩ := memResolve_found hw hp
      rw [if_pos hfit, hp, ← writeLe_view h hr hoff hlow hhigh]
      refine ⟨?_, rfl⟩
      show (writeLe m p v (sizeBytes size)).areas = m.areas
      rw [writeLe_eq]
      exact modify_written_areas m p.region p.offset (sizeBytes size) v
    · rw [if_neg hfit]
      cases hp : memResolve m addr (BitVec.ofNat 64 (sizeBytes size)) .write with
      | error e => exact ⟨rfl, rfl⟩
      | ok p => exact absurd (memResolve_found hw hp).1 hfit

/-- Any accesses of the regions, in order, answer as those of their byte map. -/
theorem run_refines (h : WellMapped m.areas) (ops : List MemOp) :
    answers (ByteMap.step m.areas) m.view ops
      = ((answers Memory.step m ops).1.view, (answers Memory.step m ops).2) := by
  induction ops generalizing m with
  | nil => rfl
  | cons op ops ih =>
    obtain ⟨hareas, hstep⟩ := step_refines h op
    have hrest := ih (m := (m.step op).1) (by rwa [hareas])
    rw [hareas] at hrest
    simp only [answers, hstep, hrest]

/-! ## Fresh memory -/

/-- The interval of a configuration. -/
def RegionCfg.area (rc : RegionCfg) : Area := ⟨rc.guest.toNat, rc.len.toNat, kindAcc rc.kind⟩

/-- The byte a configuration asks for: those of `init` first, then zeros, and zeros only where
nothing is supplied. -/
def RegionCfg.initial (rc : RegionCfg) (k : Nat) : Byte :=
  match rc.init with
  | some bytes => if k < rc.initLen then bytes k else 0
  | none => 0

/-- The byte map some configurations ask for. -/
def initialMap (cfg : List RegionCfg) : ByteMap := fun x =>
  (cfg.find? fun rc => rc.area.Covers x).map fun rc => rc.initial (x - rc.guest.toNat)

theorem baseOk_iff {base len : Word} :
    baseOk base len = true ↔ 0 < base.toNat ∧ base.toNat + len.toNat < 2 ^ 64 := by
  have hb := base.isLt
  have hsub : (0 - base).toNat = (2 ^ 64 - base.toNat) % 2 ^ 64 := by
    rw [toNat_sub]
    exact congrArg (· % 2 ^ 64) (Nat.add_zero _)
  rw [baseOk, decide_eq_true_eq, lt_def, hsub]
  omega

theorem intervalsOverlap_false {a alen b blen : Word} (ha : a.toNat + alen.toNat < 2 ^ 64)
    (hb : b.toNat + blen.toNat < 2 ^ 64) (h : intervalsOverlap a alen b blen = false) (x : Nat) :
    ¬ ((a.toNat ≤ x ∧ x < a.toNat + alen.toNat) ∧ b.toNat ≤ x ∧ x < b.toNat + blen.toNat) := by
  have hae : (a + alen).toNat = a.toNat + alen.toNat := by
    rw [toNat_add, Nat.mod_eq_of_lt ha]
  have hbe : (b + blen).toNat = b.toNat + blen.toNat := by
    rw [toNat_add, Nat.mod_eq_of_lt hb]
  rw [intervalsOverlap] at h
  split at h
  next hle =>
    have hend := of_decide_eq_false h
    rw [gt_iff_lt, lt_def, hae] at hend
    omega
  next hle =>
    have hend := of_decide_eq_false h
    rw [gt_iff_lt, lt_def, hbe] at hend
    rw [le_def] at hle
    omega

variable {fresh : Nat → Byte} {m' : Memory} {rc : RegionCfg}

/-- The checks of one configuration against the regions before it. -/
theorem addRegion_ok (h : addRegion fresh m rc = .ok m') :
    m' = m ++ [regionOf fresh rc] ∧ baseOk rc.guest rc.len = true ∧ rc.len ≠ 0 ∧
      rc.initLen ≤ rc.len.toNat ∧
      ∀ r ∈ m, intervalsOverlap rc.guest rc.len r.base r.len = false := by
  rw [addRegion] at h
  split at h
  next hc =>
    cases h
    refine ⟨rfl, hc.1, hc.2.1, hc.2.2.1, fun r hr => ?_⟩
    have hall := all_eq_true.mp hc.2.2.2 r hr
    rwa [Bool.not_eq_true'] at hall
  next => cases h

theorem addRegion_mapped
    (h : addRegion fresh m rc = .ok m') (hm : WellMapped m.areas) : WellMapped m'.areas := by
  obtain ⟨rfl, hbase, hlen, -, hover⟩ := addRegion_ok h
  obtain ⟨hpos, hbelow⟩ := baseOk_iff.mp hbase
  have happ : Memory.areas (m ++ [regionOf fresh rc]) = m.areas ++ [rc.area] := by
    rw [Memory.areas, map_append]
    rfl
  rw [happ]
  refine ⟨fun a ha => ?_, fun a ha => ?_, ?_⟩
  · rcases mem_append.mp ha with ha | ha
    · exact hm.nonzero a ha
    · obtain rfl := mem_singleton.mp ha
      exact hpos
  · rcases mem_append.mp ha with ha | ha
    · exact hm.below a ha
    · obtain rfl := mem_singleton.mp ha
      exact hbelow
  · rw [pairwise_append]
    refine ⟨hm.apart, pairwise_singleton _ _, fun a ha b hb x hx => ?_⟩
    obtain rfl := mem_singleton.mp hb
    obtain ⟨r, hr, rfl⟩ := mem_map.mp ha
    exact intervalsOverlap_false hbelow (hm.below _ ha) (hover r hr) x ⟨hx.2, hx.1⟩

variable {cfg : List RegionCfg}

theorem addRegions_mapped : ∀ {m m' : Memory},
    cfg.foldlM (addRegion fresh) m = .ok m' → WellMapped m.areas → WellMapped m'.areas := by
  induction cfg with
  | nil =>
    intro m m' h hm
    cases h
    exact hm
  | cons rc rest ih =>
    intro m m' h hm
    rw [foldlM_cons] at h
    cases hadd : addRegion fresh m rc with
    | error e =>
      rw [hadd] at h
      cases h
    | ok m'' =>
      rw [hadd] at h
      exact ih h (addRegion_mapped hadd hm)

theorem memoryCreate_mapped
    (h : memoryCreate fresh cfg = .ok m) : WellMapped m.areas ∧ m.areas = cfg.map RegionCfg.area := by
  have hareas : m.areas = cfg.map RegionCfg.area := by
    rw [memoryCreate_ok h, Memory.areas, map_map]
    rfl
  refine ⟨?_, hareas⟩
  rw [memoryCreate] at h
  split at h
  · cases h
  · exact addRegions_mapped h ⟨fun a ha => absurd ha not_mem_nil,
      fun a ha => absurd ha not_mem_nil, List.Pairwise.nil⟩

/-- What the allocator hands out does not decide whether a configuration is accepted. -/
theorem addRegions_fresh {fresh' : Nat → Byte} :
    ∀ {m m' n : Memory}, (m.map fun r => (r.base, r.len)) = (m'.map fun r => (r.base, r.len)) →
      cfg.foldlM (addRegion fresh) m = .ok n → ∃ n', cfg.foldlM (addRegion fresh') m' = .ok n' := by
  induction cfg with
  | nil =>
    intro m m' n _ _
    exact ⟨m', rfl⟩
  | cons rc rest ih =>
    intro m m' n hsame h
    rw [foldlM_cons] at h
    cases hadd : addRegion fresh m rc with
    | error e =>
      rw [hadd] at h
      cases h
    | ok m'' =>
      rw [hadd] at h
      obtain ⟨rfl, hbase, hlen, hinit, hover⟩ := addRegion_ok hadd
      have hall : m'.all (fun r => ! intervalsOverlap rc.guest rc.len r.base r.len) = true := by
        rw [all_eq_true]
        intro r hr
        have hmem : (r.base, r.len) ∈ m.map fun r => (r.base, r.len) := by
          rw [hsame]
          exact mem_map_of_mem hr
        obtain ⟨r0, hr0, heq⟩ := mem_map.mp hmem
        have hfalse := hover r0 hr0
        rw [(Prod.mk.inj heq).1, (Prod.mk.inj heq).2] at hfalse
        rw [hfalse]
        rfl
      have hadd' : addRegion fresh' m' rc = .ok (m' ++ [regionOf fresh' rc]) := by
        rw [addRegion, if_pos ⟨hbase, hlen, hinit, hall⟩]
        rfl
      have hsame' : (m ++ [regionOf fresh rc]).map (fun r => (r.base, r.len)) =
          (m' ++ [regionOf fresh' rc]).map fun r => (r.base, r.len) := by
        rw [map_append, map_append, hsame]
        rfl
      obtain ⟨n', hn'⟩ := ih hsame' h
      exact ⟨n', by rw [foldlM_cons, hadd']; exact hn'⟩

theorem addRegions_initLen : ∀ {m n : Memory},
    cfg.foldlM (addRegion fresh) m = .ok n → ∀ rc ∈ cfg, rc.initLen ≤ rc.len.toNat := by
  induction cfg with
  | nil =>
    intro m n _ rc hrc
    cases hrc
  | cons rc rest ih =>
    intro m n h rc' hrc'
    rw [foldlM_cons] at h
    cases hadd : addRegion fresh m rc with
    | error e =>
      rw [hadd] at h
      cases h
    | ok m' =>
      rw [hadd] at h
      rcases mem_cons.mp hrc' with rfl | hrest
      · exact (addRegion_ok hadd).2.2.2.1
      · exact ih h rc' hrest

theorem memoryCreate_initLen
    (h : memoryCreate fresh cfg = .ok m) : ∀ rc ∈ cfg, rc.initLen ≤ rc.len.toNat := by
  rw [memoryCreate] at h
  split at h
  · cases h
  · exact addRegions_initLen h

theorem memoryCreate_fresh (h : memoryCreate fresh cfg = .ok m) (fresh' : Nat → Byte) :
    ∃ m', memoryCreate fresh' cfg = .ok m' := by
  rw [memoryCreate] at h ⊢
  split at h
  next => cases h
  next hn =>
    rw [if_neg hn]
    exact addRegions_fresh rfl h

theorem view_create (h : memoryCreate fresh cfg = .ok m) (x : Nat) :
    m.view x = (cfg.find? fun rc => rc.area.Covers x).map fun rc =>
      initBytes fresh rc (x - rc.guest.toNat) := by
  rw [memoryCreate_ok h, Memory.view, find?_map, Option.map_map]
  rfl

/-- A fresh memory is the one its configuration asks for exactly where no length is given without
the bytes. -/
theorem view_create_iff {fresh₀ : Nat → Byte} {m₀ : Memory}
    (h : memoryCreate fresh₀ cfg = .ok m₀) :
    (∀ fresh m, memoryCreate fresh cfg = .ok m → m.view = initialMap cfg)
      ↔ ∀ rc ∈ cfg, rc.init = none → rc.initLen = 0 := by
  constructor
  · intro hview rc hrc hinit
    by_contra hlen
    -- the allocator hands out a byte that is not zero
    obtain ⟨m, hm⟩ := memoryCreate_fresh h fun _ => 1
    obtain ⟨hmapped, -⟩ := memoryCreate_mapped hm
    have hle := memoryCreate_initLen h rc hrc
    have hregion : ∀ {k : Nat} {rc' : RegionCfg}, cfg[k]? = some rc' →
        m[k]? = some (regionOf (fun _ => 1) rc') := by
      intro k rc' hk
      rw [memoryCreate_ok hm, getElem?_map, hk]
      rfl
    obtain ⟨k, hk⟩ := mem_iff_getElem?.mp hrc
    have hcov : rc.area.Covers rc.guest.toNat :=
      ⟨Nat.le_refl _, Nat.lt_add_of_pos_right (by show 0 < rc.len.toNat; omega)⟩
    have hone : m.view rc.guest.toNat = some 1 := by
      rw [view_of_mem hmapped (hregion hk) hcov]
      refine congrArg some ?_
      show initBytes (fun _ => 1) rc (rc.guest.toNat - rc.guest.toNat) = 1
      rw [Nat.sub_self, initBytes, if_pos (Nat.pos_of_ne_zero hlen), hinit]
    have hasked := congrFun (hview _ m hm) rc.guest.toNat
    rw [hone, initialMap] at hasked
    cases hfind : cfg.find? fun rc' => rc'.area.Covers rc.guest.toNat with
    | none =>
      rw [hfind] at hasked
      cases hasked
    | some rc' =>
      obtain ⟨k', hk'⟩ := mem_iff_getElem?.mp (mem_of_find?_eq_some hfind)
      have hsome := find?_some hfind
      have hcov' : rc'.area.Covers rc.guest.toNat := of_decide_eq_true hsome
      obtain rfl := covers_unique hmapped (hregion hk) (hregion hk') hcov hcov'
      obtain rfl := Option.some.inj (hk.symm.trans hk')
      rw [hfind, Option.map_some, RegionCfg.initial, hinit] at hasked
      have hne : (1 : Byte) ≠ 0 := by decide
      exact hne (Option.some.inj hasked)
  · intro hcond fresh m hm
    funext x
    rw [view_create hm, initialMap]
    cases hfind : cfg.find? fun rc => rc.area.Covers x with
    | none => rfl
    | some rc =>
      have hrc := mem_of_find?_eq_some hfind
      refine congrArg some ?_
      show initBytes fresh rc (x - rc.guest.toNat) = rc.initial (x - rc.guest.toNat)
      rw [initBytes, RegionCfg.initial]
      cases hi : rc.init with
      | some bytes => rfl
      | none => rw [hcond rc hrc hi, if_neg (Nat.not_lt_zero _)]

/-! ## The whole memory -/

/-- A fresh memory as its header describes it: areas as configured, mapped apart, the bytes the
configuration asks for, and from then on a byte map under any accesses. -/
structure MemoryCorrect (cfg : List RegionCfg) (m : Memory) : Prop where
  areas : m.areas = cfg.map RegionCfg.area
  mapped : WellMapped m.areas
  initial : m.view = initialMap cfg
  refines : ∀ ops, (answers Memory.step m ops).2
    = (answers (ByteMap.step (cfg.map RegionCfg.area)) (initialMap cfg) ops).2

/-- Every accepted memory is mapped apart and is the byte map of its regions under any accesses.
It is the memory asked for, whatever the allocator hands out, exactly where no region gives a
length without the bytes to copy. -/
theorem memory_correct_iff {fresh₀ : Nat → Byte} {cfg : List RegionCfg} {m₀ : Memory}
    (h : memoryCreate fresh₀ cfg = .ok m₀) :
    (∀ fresh m, memoryCreate fresh cfg = .ok m → WellMapped m.areas ∧
        m.areas = cfg.map RegionCfg.area ∧ ∀ ops, (answers Memory.step m ops).2
          = (answers (ByteMap.step (cfg.map RegionCfg.area)) m.view ops).2)
    ∧ ((∀ fresh m, memoryCreate fresh cfg = .ok m → MemoryCorrect cfg m)
      ↔ ∀ rc ∈ cfg, rc.init = none → rc.initLen = 0) := by
  have hall : ∀ fresh m, memoryCreate fresh cfg = .ok m → WellMapped m.areas ∧
      m.areas = cfg.map RegionCfg.area ∧ ∀ ops, (answers Memory.step m ops).2
        = (answers (ByteMap.step (cfg.map RegionCfg.area)) m.view ops).2 := by
    intro fresh m hm
    obtain ⟨hmapped, hareas⟩ := memoryCreate_mapped hm
    refine ⟨hmapped, hareas, fun ops => ?_⟩
    rw [← hareas, run_refines hmapped]
  refine ⟨hall, fun hcorrect => ?_, fun hcond fresh m hm => ?_⟩
  · exact (view_create_iff h).mp fun fresh m hm => (hcorrect fresh m hm).initial
  · obtain ⟨hmapped, hareas, hrun⟩ := hall fresh m hm
    have hview := (view_create_iff h).mpr hcond fresh m hm
    exact ⟨hareas, hmapped, hview, fun ops => by rw [hrun ops, hview]⟩

/-- A stack of sixteen bytes. -/
def stackCfg : RegionCfg where
  kind := .stack
  guest := 4096
  len := 16
  init := none
  initLen := 0

/-- A store of two bytes over the end of one of eight is read back in the next load. -/
theorem memory_correct_stack : ∃ m, memoryCreate (fun _ => 0xAA) [stackCfg] = .ok m ∧
    (answers Memory.step m [.store 4096 .dw 0x0102030405060708, .store 4102 .h 0xFFFE,
      .load 4096 .dw, .load 4110 .w]).2
      = [.stored, .stored, .loaded 0xFFFE030405060708, .refused] := by
  have hm : memoryCreate (fun _ => 0xAA) [stackCfg] = .ok [regionOf (fun _ => 0xAA) stackCfg] := rfl
  refine ⟨_, hm, ?_⟩
  have hcorrect := (memory_correct_iff hm).2.mpr
    (fun rc hrc _ => by rw [mem_singleton.mp hrc]; rfl) _ _ hm
  exact (hcorrect.refines _).trans (by decide +kernel)

/-- Eight bytes announced without a pointer to them: the memory holds what the allocator left. -/
theorem memory_stale : ¬ ∀ (fresh : Nat → Byte) (cfg : List RegionCfg) (m : Memory),
    memoryCreate fresh cfg = .ok m → MemoryCorrect cfg m := by
  intro h
  have hview := (h (fun _ => 0xAA) [{ stackCfg with initLen := 8 }] _ rfl).initial
  have hbyte := congrFun hview 4096
  exact absurd hbyte (by decide +kernel)

end Bpf
