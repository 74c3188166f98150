import EightyNine.Bpf.DecodeOk
import EightyNine.Bpf.Program
import EightyNine.Library.Outcome
import Mathlib.Data.List.Induction

/-!
# The loader resolves control flow exactly

A program that is loaded tiles its bytes, and the target of each of its branches is
the instruction at the slot the branch names (`load_exact`).
-/

namespace Bpf

open List

open Library (bind_ok forM_ok)

/-! ## Slots -/

/-- The first slots of instructions, when the first of them is at `s`. -/
def slotsFrom : Nat → List Insn → List Nat
  | _, [] => []
  | s, i :: rest => s :: slotsFrom (s + insnSlots i) rest

/-- The first slot of every instruction of a program. -/
def startSlots (ins : List Insn) : List Nat := slotsFrom 0 ins

theorem insnSlots_pos (i : Insn) : 0 < insnSlots i := by
  rw [insnSlots]
  split <;> omega

@[simp] theorem slotsFrom_length (s : Nat) (ins : List Insn) :
    (slotsFrom s ins).length = ins.length := by
  induction ins generalizing s with
  | nil => rfl
  | cons i rest ih => rw [slotsFrom, length_cons, length_cons, ih]

variable {t : Nat} {ins : List Insn}

theorem le_of_mem_slotsFrom {s : Nat} (h : t ∈ slotsFrom s ins) : s ≤ t := by
  induction ins generalizing s with
  | nil => cases h
  | cons i rest ih =>
    rcases mem_cons.mp h with rfl | h
    · exact Nat.le_refl _
    · exact Nat.le_trans (Nat.le_add_right _ _) (ih h)

theorem slotsFrom_sorted (s : Nat) (ins : List Insn) : (slotsFrom s ins).Pairwise (· < ·) := by
  induction ins generalizing s with
  | nil => exact .nil
  | cons i rest ih =>
    refine .cons (fun t ht => ?_) (ih _)
    have := le_of_mem_slotsFrom ht
    have := insnSlots_pos i
    omega

theorem startSlots_inj {j k : Nat} (hj : (startSlots ins)[j]? = some t)
    (hk : (startSlots ins)[k]? = some t) : j = k := by
  have hnodup : (startSlots ins).Nodup := (slotsFrom_sorted 0 ins).imp Nat.ne_of_lt
  have hlt : j < (startSlots ins).length := (List.getElem?_eq_some_iff.mp hj).1
  exact (List.getElem?_inj hlt hnodup).mp (hj.trans hk.symm)

/-! ## The slot pass -/

/-- What the slot pass records for instructions from slot `s` on. -/
structure Slotted (s : Nat) (ins : List Insn) (recs : List PRec) : Prop where
  length_eq : recs.length = ins.length
  slot_eq : recs.map PRec.slot = slotsFrom s ins
  call_eq : recs.map PRec.isCallLocal = ins.map isLocalCall
  noTarget : ∀ r ∈ recs, r.hasTarget = false ∧ r.target = 0

variable {raw : List Byte}

theorem slotPass_ok :
    ∀ {s : Nat} {recs : List PRec}, slotPass raw (8 * s) ins = .ok recs → Slotted s ins recs := by
  induction ins with
  | nil =>
    intro s recs h
    cases h
    exact ⟨rfl, rfl, rfl, nofun⟩
  | cons i rest ih =>
    intro s recs h
    have hs : (8 * s) >>> 3 = s := by rw [Nat.shiftRight_eq_div_pow]; omega
    have hcons : ∀ {recs' : List PRec}, slotPass raw (8 * (s + insnSlots i)) rest = .ok recs' →
        recs = { slot := (8 * s) >>> 3, target := 0, hasTarget := false,
                 isCallLocal := isLocalCall i } :: recs' → Slotted s (i :: rest) recs := by
      rintro recs' hrest rfl
      have hr := ih hrest
      refine ⟨?_, ?_, ?_, ?_⟩
      · rw [length_cons, length_cons, hr.length_eq]
      · rw [map_cons, hr.slot_eq, slotsFrom, hs]
      · rw [map_cons, map_cons, hr.call_eq]
      · intro r hmem
        rcases mem_cons.mp hmem with rfl | hmem
        · exact ⟨rfl, rfl⟩
        · exact hr.noTarget r hmem
    rw [slotPass] at h
    split at h
    next hwide =>
      have hw : 8 * s + 16 = 8 * (s + insnSlots i) := by rw [insnSlots, if_pos hwide]; omega
      split at h
      · cases h
      · obtain ⟨recs', hrest, hrecs⟩ := map_cons_ok h
        exact hcons (hw ▸ hrest) hrecs
    next hwide =>
      have hw : 8 * s + 8 = 8 * (s + insnSlots i) := by rw [insnSlots, if_neg hwide]; omega
      obtain ⟨recs', hrest, hrecs⟩ := map_cons_ok h
      exact hcons (hw ▸ hrest) hrecs

variable {suf : List Byte}

theorem checkWideRes_ok {pre : List Byte} (h : checkWideRes (pre ++ suf) pre.length = .ok ()) :
    ∀ k < 4, suf[8 + k]? = some 0 := by
  have hget : ∀ k, (pre ++ suf)[pre.length + k]? = suf[k]? := by
    intro k
    rw [List.getElem?_append_right (Nat.le_add_right _ _), Nat.add_sub_cancel_left]
  simp only [checkWideRes, hget] at h
  intro k hk
  split at h
  · cases h
  split at h
  · cases h
  split at h
  · cases h
  split at h
  · cases h
  have : k = 0 ∨ k = 1 ∨ k = 2 ∨ k = 3 := by omega
  rcases this with rfl | rfl | rfl | rfl <;> simp_all

/-- The instructions encode to the bytes they were decoded from. -/
theorem Tiles.bytes_eq (h : Tiles suf ins) :
    ∀ {pre : List Byte} {recs : List PRec}, slotPass (pre ++ suf) pre.length ins = .ok recs →
      suf = ins.flatMap Insn.bytes ∧ ∀ i ∈ ins, decode i.bytes 1 = .ok [i] := by
  induction h with
  | nil => exact fun _ => ⟨rfl, forall_mem_nil _⟩
  | @basic op regs o0 o1 i0 i1 i2 i3 rest ins narrow _ ih =>
    intro pre recs h
    rw [slotPass, basicInsn_isWide, if_neg Bool.false_ne_true] at h
    obtain ⟨recs', hrest, -⟩ := map_cons_ok h
    have hbytes := basicInsn_bytes op regs o0 o1 i0 i1 i2 i3
    have hpre : pre ++ op :: regs :: o0 :: o1 :: i0 :: i1 :: i2 :: i3 :: rest =
        (pre ++ [op, regs, o0, o1, i0, i1, i2, i3]) ++ rest := by
      rw [append_assoc]
      rfl
    have hlen : pre.length + 8 = (pre ++ [op, regs, o0, o1, i0, i1, i2, i3]).length := by
      rw [length_append]
      rfl
    rw [hpre, hlen] at hrest
    obtain ⟨hsuf, hins⟩ := ih hrest
    refine ⟨?_, ?_⟩
    · rw [flatMap_cons, hbytes, ← hsuf]
      rfl
    · intro i hi
      rcases mem_cons.mp hi with rfl | hi
      · rw [hbytes]
        exact decode_of_tiles (.basic narrow .nil) (Nat.le_refl _)
      · exact hins i hi
  | @wide op regs o0 o1 i0 i1 i2 i3 c0 c1 c2 c3 n0 n1 n2 n3 rest ins wide _ ih =>
    intro pre recs h
    have hwide : (wideInsn (baseInsn op regs o0 o1 i0 i1 i2 i3) (readU32le n0 n1 n2 n3)).isWide =
        true := rfl
    rw [slotPass, if_pos hwide] at h
    split at h
    next => cases h
    next hres =>
      obtain ⟨recs', hrest, -⟩ := map_cons_ok h
      have hzero := checkWideRes_ok hres
      obtain rfl : c0 = 0 := Option.some.inj (hzero 0 (by omega))
      obtain rfl : c1 = 0 := Option.some.inj (hzero 1 (by omega))
      obtain rfl : c2 = 0 := Option.some.inj (hzero 2 (by omega))
      obtain rfl : c3 = 0 := Option.some.inj (hzero 3 (by omega))
      have hbytes := wideInsn_bytes op regs o0 o1 i0 i1 i2 i3 n0 n1 n2 n3
      have hpre : pre ++ op :: regs :: o0 :: o1 :: i0 :: i1 :: i2 :: i3 ::
            0 :: 0 :: 0 :: 0 :: n0 :: n1 :: n2 :: n3 :: rest =
          (pre ++ [op, regs, o0, o1, i0, i1, i2, i3, 0, 0, 0, 0, n0, n1, n2, n3]) ++ rest := by
        rw [append_assoc]
        rfl
      have hlen : pre.length + 16 =
          (pre ++ [op, regs, o0, o1, i0, i1, i2, i3, 0, 0, 0, 0, n0, n1, n2, n3]).length := by
        rw [length_append]
        rfl
      rw [hpre, hlen] at hrest
      obtain ⟨hsuf, hins⟩ := ih hrest
      refine ⟨?_, ?_⟩
      · rw [flatMap_cons, hbytes, ← hsuf]
        rfl
      · intro i hi
        rcases mem_cons.mp hi with rfl | hi
        · rw [hbytes]
          exact decode_of_tiles (.wide wide .nil) (Nat.le_refl _)
        · exact hins i hi

/-! ## Resolution -/

/-- The branches of the instruction set and what they add to the slot after them: the
immediate for `JA` of class `JMP32` and for a local call, the offset otherwise. -/
def Insn.delta (i : Insn) : Option Int :=
  match i.cls with
  | .jmp =>
    if i.code = jmpExit then none
    else if i.code = jmpCall then (if i.srcReg = 1 then some i.imm else none)
    else some i.offset
  | .jmp32 => if i.code = jmpJa then some i.imm else some i.offset
  | _ => none

/-- The first slot of instruction `j` is `t`. -/
def StartsAt (ins : List Insn) (j : Nat) (t : Int) : Prop :=
  ∃ s, (startSlots ins)[j]? = some s ∧ (s : Int) = t

theorem branchDelta_eq (i : Insn) :
    (branchDelta i).map (fun isImm => if isImm then i.imm else i.offset) = i.delta := by
  unfold branchDelta Insn.delta isLocalCall jmpJa jmpCall jmpExit
  cases hcls : i.cls <;> grind

variable {slots : List Nat}

theorem slotIndex_eq :
    (∀ idx, slotIndex slots t = some idx → slots[idx]? = some t) ∧
      (slotIndex slots t = none → t ∉ slots) := by
  induction slots using List.reverseRecOn with
  | nil => exact ⟨nofun, fun _ => not_mem_nil⟩
  | append_singleton slots s ih =>
    have hstep : slotIndex (slots ++ [s]) t =
        if s = t then some slots.length else slotIndex slots t := by
      rw [slotIndex, zipIdx_append, foldl_append]
      simp [slotIndex]
    rw [hstep]
    split
    next hst =>
      refine ⟨fun idx h => ?_, nofun⟩
      cases h
      rw [List.getElem?_concat_length, hst]
    next hst =>
      refine ⟨fun idx h => ?_, fun h => ?_⟩
      · have hget := ih.1 idx h
        rw [List.getElem?_append_left (List.getElem?_eq_some_iff.mp hget).1, hget]
      · rw [mem_append, mem_singleton]
        rintro (hmem | rfl)
        · exact ih.2 h hmem
        · exact hst rfl

variable {total : Nat}

/-- A resolved target is the index of the instruction at the slot of the branch. -/
theorem resolveInsn_ok {i : Insn} {r r' : PRec}
    (h : resolveInsn slots total i r = .ok r') :
    r'.slot = r.slot ∧ r'.isCallLocal = r.isCallLocal ∧ match i.delta with
      | none => r' = r
      | some d => r'.hasTarget = true ∧
          ∃ t : Nat, slots[r'.target]? = some t ∧ (t : Int) = (r.slot + insnSlots i : Nat) + d := by
  have hdelta := branchDelta_eq i
  rw [resolveInsn] at h
  cases hb : branchDelta i with
  | none =>
    rw [hb] at h hdelta
    rw [← hdelta]
    cases h
    exact ⟨rfl, rfl, rfl⟩
  | some isImm =>
    rw [hb] at h hdelta
    rw [← hdelta]
    simp only at h
    split at h
    next => cases h
    next hneg =>
      split at h
      · cases h
      · cases hidx : slotIndex slots (targetSlot i isImm r.slot).toNat with
        | none =>
          rw [hidx] at h
          cases h
        | some idx =>
          rw [hidx] at h
          cases h
          refine ⟨rfl, rfl, rfl, _, slotIndex_eq.1 idx hidx, ?_⟩
          rw [Int.toNat_of_nonneg (Int.not_lt.mp hneg), targetSlot]

theorem resolve_ok :
    ∀ {recs recs' : List PRec}, recs.length = ins.length →
      resolve slots total ins recs = .ok recs' →
      recs'.map PRec.slot = recs.map PRec.slot ∧
      recs'.map PRec.isCallLocal = recs.map PRec.isCallLocal ∧
        ∀ (k : Nat) (i : Insn) (r' : PRec), ins[k]? = some i → recs'[k]? = some r' →
          ∃ r, recs[k]? = some r ∧ resolveInsn slots total i r = .ok r' := by
  induction ins with
  | nil =>
    intro recs recs' hlen h
    obtain rfl := length_eq_zero_iff.mp hlen
    cases h
    exact ⟨rfl, rfl, fun k i r hi => by cases hi⟩
  | cons i is ih =>
    intro recs recs' hlen h
    cases recs with
    | nil => cases hlen
    | cons r rs =>
      rw [resolve] at h
      cases hr : resolveInsn slots total i r with
      | error e =>
        rw [hr] at h
        cases h
      | ok r' =>
        rw [hr] at h
        obtain ⟨rs', hrs, rfl⟩ := map_cons_ok h
        obtain ⟨hslot, hcall, hget⟩ := ih (Nat.succ.inj hlen) hrs
        obtain ⟨hslot', hcall', -⟩ := resolveInsn_ok hr
        refine ⟨?_, ?_, ?_⟩
        · rw [map_cons, map_cons, hslot, hslot']
        · rw [map_cons, map_cons, hcall, hcall']
        · intro k j s hj hs
          cases k with
          | zero =>
            cases hj
            cases hs
            exact ⟨r, rfl, hr⟩
          | succ k => exact hget k j s hj hs

/-! ## Accepted programs -/

/-- What the loader has checked of a program it accepts, pass by pass. -/
structure Accepted (raw : List Byte) (p : Program) : Prop where
  decoded : decode raw (raw.length >>> 3) = .ok p.ins
  count : p.n = p.ins.length
  valid : ∀ i ∈ p.ins, validateInsn i = .ok ()
  checked : ∀ i ∈ p.ins, checkInsn i = .ok ()
  passes : ∃ recs, slotPass raw 0 p.ins = .ok recs ∧
    resolve (recs.map PRec.slot) (raw.length >>> 3) p.ins recs = .ok p.recs

theorem validate_ok : ∀ {c c' : BitVec 32},
    ins.foldlM (fun conf i => (validateInsn i).map fun _ => conf ||| insnConf i) c =
      (.ok c' : Except Err _) → ∀ i ∈ ins, validateInsn i = .ok () := by
  induction ins with
  | nil => exact fun _ => forall_mem_nil _
  | cons i rest ih =>
    intro c c' h j hj
    rw [foldlM_cons] at h
    cases hi : validateInsn i with
    | error e =>
      rw [hi] at h
      cases h
    | ok _ =>
      rw [hi] at h
      rcases mem_cons.mp hj with rfl | hj
      · exact hi
      · exact ih h j hj

variable {p : Program}

theorem loadProgram_ok {prof : Option Profile}
    (h : loadProgram raw prof = .ok p) : Accepted raw p := by
  unfold loadProgram at h
  obtain ⟨_, -, h⟩ := bind_ok h
  obtain ⟨_, -, h⟩ := bind_ok h
  obtain ⟨ins, hdecode, h⟩ := bind_ok h
  obtain ⟨_, -, h⟩ := bind_ok h
  obtain ⟨recs, hslot, h⟩ := bind_ok h
  obtain ⟨_, hvalid, h⟩ := bind_ok h
  obtain ⟨_, hcheck, h⟩ := bind_ok h
  obtain ⟨_, -, h⟩ := bind_ok h
  obtain ⟨recs', hresolve, h⟩ := bind_ok h
  cases h
  exact
    { decoded := hdecode
      count := rfl
      valid := validate_ok hvalid
      checked := forM_ok hcheck
      passes := ⟨recs, hslot, hresolve⟩ }

/-- The records of an accepted program, with every branch resolved. -/
structure Resolved (ins : List Insn) (recs : List PRec) : Prop where
  slot_eq : recs.map PRec.slot = startSlots ins
  call_eq : recs.map PRec.isCallLocal = ins.map isLocalCall
  target : ∀ (k : Nat) (i : Insn) (r : PRec) (d : Int), ins[k]? = some i → recs[k]? = some r →
    i.delta = some d →
    r.hasTarget = true ∧
      ∀ j, StartsAt ins j ((r.slot + insnSlots i : Nat) + d) ↔ j = r.target
  noTarget : ∀ (k : Nat) (i : Insn) (r : PRec), ins[k]? = some i → recs[k]? = some r →
    i.delta = none → r.hasTarget = false

variable {recs : List PRec}

theorem Resolved.length_eq (h : Resolved ins recs) :
    recs.length = ins.length := by
  have := congrArg List.length h.call_eq
  rwa [length_map, length_map] at this

theorem Accepted.resolved (h : Accepted raw p) :
    Resolved p.ins p.recs := by
  obtain ⟨recs, hpass, hresolve⟩ := h.passes
  have hs : Slotted 0 p.ins recs := slotPass_ok hpass
  obtain ⟨hslot, hcall, hget⟩ := resolve_ok hs.length_eq hresolve
  rw [hs.slot_eq] at hresolve hslot
  refine ⟨hslot, hcall.trans hs.call_eq, ?_, ?_⟩
  · intro k i r d hi hr hd
    obtain ⟨r₀, hr₀, hres⟩ := hget k i r hi hr
    obtain ⟨hrs, -, hm⟩ := resolveInsn_ok hres
    rw [hd] at hm
    obtain ⟨htarget, t, ht, htd⟩ := hm
    rw [hs.slot_eq] at ht
    refine ⟨htarget, fun j => ⟨?_, ?_⟩⟩
    · rintro ⟨s, hj, hsd⟩
      rw [hrs] at hsd
      have hst : s = t := Int.ofNat_inj.mp (hsd.trans htd.symm)
      exact startSlots_inj (hst ▸ hj) ht
    · rintro rfl
      exact ⟨t, ht, by rw [htd, hrs]⟩
  · intro k i r hi hr hd
    obtain ⟨r₀, hr₀, hres⟩ := hget k i r hi hr
    obtain ⟨-, -, hm⟩ := resolveInsn_ok hres
    rw [hd] at hm
    rw [show r = r₀ from hm]
    exact (hs.noTarget r₀ (mem_of_getElem? hr₀)).1

/-! ## The loader -/

/-- Instructions that lie in the bytes one after the other, with nothing in between,
each the decoding of its own eight or sixteen bytes. -/
structure Tiled (raw : List Byte) (ins : List Insn) : Prop where
  decoded : decode raw (raw.length >>> 3) = .ok ins
  bytes : raw = ins.flatMap Insn.bytes
  reads : ∀ i ∈ ins, decode i.bytes 1 = .ok [i]
  width : ∀ i ∈ ins, i.bytes.length = 8 * insnSlots i
  reserved : ∀ i ∈ ins, i.isWide = true → (i.bytes.drop 8).take 4 = [0, 0, 0, 0]

/-- Some branch leads to a slot where no instruction starts. -/
def Strays (ins : List Insn) : Prop :=
  ∃ (k : Nat) (i : Insn) (s : Nat) (d : Int), ins[k]? = some i ∧ (startSlots ins)[k]? = some s ∧
    i.delta = some d ∧ ∀ j, ¬ StartsAt ins j ((s + insnSlots i : Nat) + d)

theorem Accepted.tiled (h : Accepted raw p) :
    Tiled raw p.ins := by
  obtain ⟨recs, hpass, -⟩ := h.passes
  have hnil : slotPass ([] ++ raw) ([] : List Byte).length p.ins = .ok recs := hpass
  obtain ⟨hbytes, hreads⟩ := (decode_ok h.decoded).bytes_eq hnil
  refine ⟨h.decoded, hbytes, hreads, fun i _ => ?_, fun i _ hwide => ?_⟩
  · rw [Insn.bytes_length, insnSlots]
    split <;> rfl
  · rw [Insn.bytes, if_pos hwide]
    rfl

theorem Resolved.not_strays (h : Resolved ins recs) :
    ¬ Strays ins := by
  rintro ⟨k, i, s, d, hi, hs, hd, hnone⟩
  rw [← h.slot_eq, List.getElem?_map, Option.map_eq_some_iff] at hs
  obtain ⟨r, hr, rfl⟩ := hs
  exact hnone r.target (((h.target k i r d hi hr hd).2 _).mpr rfl)

/-- The loader accepts exactly the control flow the bytes describe.  The instructions
of an accepted program tile its bytes and determine them, and the target of each
branch and local call is the one instruction at its slot.  A program with a stray
branch is rejected, and a rejection leaves `out` alone. -/
theorem load_exact (raw : List Byte) (prof : Option Profile) (out : Option Program) :
    (∀ out', programLoad raw prof out = (none, out') →
      ∃ p, out' = some p ∧ Tiled raw p.ins ∧ Resolved p.ins p.recs ∧
        ∀ raw' prof' p', programLoad raw' prof' out = (none, some p') → p'.ins = p.ins →
          raw' = raw) ∧
    (∀ ins, decode raw (raw.length >>> 3) = .ok ins → Strays ins →
      ∃ e, programLoad raw prof out = (some e, out)) ∧
    (∀ e out', programLoad raw prof out = (some e, out') → out' = out) := by
  have hload : ∀ {raw prof out'}, programLoad raw prof out = (none, out') →
      ∃ p, out' = some p ∧ Accepted raw p := by
    intro raw prof out' h
    rw [programLoad] at h
    split at h
    next => cases h
    next p hp =>
      cases h
      exact ⟨p, rfl, loadProgram_ok hp⟩
  refine ⟨?_, ?_, ?_⟩
  · intro out' h
    obtain ⟨p, rfl, hp⟩ := hload h
    refine ⟨p, rfl, hp.tiled, hp.resolved, ?_⟩
    intro raw' prof' p' h' hins
    obtain ⟨q, hq, hp'⟩ := hload h'
    cases hq
    rw [hp'.tiled.bytes, hp.tiled.bytes, hins]
  · intro ins hins hstray
    rw [programLoad]
    cases hp : loadProgram raw prof with
    | error e => exact ⟨e, rfl⟩
    | ok p =>
      have ha := loadProgram_ok hp
      obtain rfl : ins = p.ins := Except.ok.inj (hins.symm.trans ha.decoded)
      exact absurd hstray ha.resolved.not_strays
  · intro e out' h
    rw [programLoad] at h
    split at h
    · cases h
      rfl
    · cases h

/-- `JA +2; LDDW r0, 7; EXIT`. -/
def skipWide : List Byte :=
  [5, 0, 2, 0, 0, 0, 0, 0, 0x18, 0, 0, 0, 7, 0, 0, 0, 0, 0, 0, 0, 0, 0, 0, 0,
    0x95, 0, 0, 0, 0, 0, 0, 0]

/-- The jump over the wide instruction goes to the third instruction. -/
theorem load_exact_skipWide : ∃ p, programLoad skipWide none none = (none, some p) ∧
    p.recs.map PRec.target = [2, 0, 0] ∧ Tiled skipWide p.ins ∧ Resolved p.ins p.recs := by
  have hload : ∃ p, programLoad skipWide none none = (none, some p) ∧
      p.recs.map PRec.target = [2, 0, 0] := ⟨_, rfl, rfl⟩
  obtain ⟨p, hp, htarget⟩ := hload
  obtain ⟨_, ⟨⟩, htiled, hresolved, -⟩ := (load_exact skipWide none none).1 _ hp
  exact ⟨p, hp, htarget, htiled, hresolved⟩

end Bpf
