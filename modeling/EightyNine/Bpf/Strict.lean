import EightyNine.Bpf.LoadOk

/-!
# What the loader lets through

The loader means to reject every instruction RFC 9669 does not define.  Each of its
checks tests some fields of some classes, and `Loose` lists the instructions that
none of them mentions.
-/

namespace Bpf

open List

/-- The immediates of the defined atomic operations, with or without `FETCH`. -/
def atomicImms : List Nat :=
  [0x00, 0x01, 0x40, 0x41, 0x50, 0x51, 0xA0, 0xA1, 0xE0, 0xE1, 0xF0, 0xF1]

/-- The forms RFC 9669 defines, by class. -/
def Insn.Defined (i : Insn) : Prop :=
  match i.cls with
  | .ld => i.isWide = true ∧ i.mode = modeImm ∧ i.size = .dw
  | .ldx => i.mode = modeMem ∨ (i.mode = modeMemsx ∧ i.size ≠ .dw)
  | .st => i.mode = modeMem
  | .stx => i.mode = modeMem ∨
      (i.mode = modeAtomic ∧ (i.size = .w ∨ i.size = .dw) ∧ atomicImm i ∈ atomicImms)
  | .alu | .alu64 => i.code = aluDiv ∨ i.code = aluMod → i.offset = 0 ∨ i.offset = 1
  | .jmp32 => i.code ≠ jmpCall ∧ i.code ≠ jmpExit
  | .jmp => True

/-- The instructions no check mentions. -/
inductive Loose (i : Insn) : Prop
  | narrowImm (cls : i.cls = .ld) (mode : i.mode = modeImm) (size : i.size ≠ .dw)
  | ldMode (cls : i.cls = .ld) (mode : i.mode ∈ [modeMem, modeMemsx, 5, modeAtomic, 7])
  | ldxMode (cls : i.cls = .ldx) (mode : i.mode ∈ [5, modeAtomic, 7])
  | stMode (cls : i.cls = .st) (mode : i.mode ∈ [modeMemsx, 5, modeAtomic, 7])
  | stxMode (cls : i.cls = .stx) (mode : i.mode ∈ [modeMemsx, 5, 7])
  | highImm (cls : i.cls = .stx) (mode : i.mode = modeAtomic) (imm : 256 ≤ atomicImm i)
  | jmp32Code (cls : i.cls = .jmp32) (code : i.code = jmpCall ∨ i.code = jmpExit)
  | divOffset (cls : i.cls = .alu ∨ i.cls = .alu64) (code : i.code = aluDiv ∨ i.code = aluMod)
      (offset : i.offset ≠ 0 ∧ i.offset ≠ 1)

/-! ## Facts about decoded instructions -/

/-- What the decoder guarantees of the fields the checks look at. -/
structure Insn.Decoded (i : Insn) : Prop where
  mode_lt : i.mode < 8
  wide : i.cls = .ld → i.mode = modeImm → i.isWide = true

theorem isWideLd_eq {op : Byte} (hc : clsOf op.toNat = .ld) :
    isWideLd op.toNat = decide (op.toNat >>> 5 = modeImm) := by
  rw [isWideLd, hc]

theorem Tiles.decoded {raw : List Byte} {ins : List Insn} (h : Tiles raw ins) :
    ∀ i ∈ ins, i.Decoded := by
  induction h with
  | nil => exact forall_mem_nil _
  | @basic op regs o0 o1 i0 i1 i2 i3 rest ins narrow _ ih =>
    intro i hi
    rcases mem_cons.mp hi with rfl | hi
    · have hop := op.toNat_lt
      have hshift : op.toNat >>> 5 < 8 := by rw [Nat.shiftRight_eq_div_pow]; omega
      have hcls : (baseInsn op regs o0 o1 i0 i1 i2 i3).cls = clsOf op.toNat := rfl
      have hopc : (baseInsn op regs o0 o1 i0 i1 i2 i3).opcode = op.toNat := rfl
      rw [basicInsn]
      split
      next h =>
        refine ⟨by simp, fun hld => ?_⟩
        rw [hld] at h
        cases h
      next =>
        refine ⟨hshift, fun hld hmode => ?_⟩
        rw [isWideLd_eq hld, decide_eq_false_iff_not] at narrow
        exact absurd hmode narrow
    · exact ih i hi
  | wide _ _ ih =>
    intro i hi
    rcases mem_cons.mp hi with rfl | hi
    · exact ⟨by simp [wideInsn, modeImm], fun _ _ => rfl⟩
    · exact ih i hi

/-! ## The checks -/

/-- What the checks establish of an instruction of a memory class. -/
theorem validateMem_ok {i : Insn} (h : validateMem i = .ok ()) :
    i.mode ≠ modeAbs ∧ i.mode ≠ modeInd ∧ (i.mode = modeImm → i.cls = .ld) ∧
      (i.mode = modeAtomic → i.size = .w ∨ i.size = .dw) ∧
      (i.mode = modeMemsx → i.size ≠ .dw) := by
  unfold validateMem modeAbs modeInd modeImm modeAtomic modeMemsx at *
  cases hs : i.size <;> grind

theorem checkAtomic_ok {i : Insn} (h : checkInsn i = .ok ()) (hc : i.cls = .stx)
    (hm : i.mode = modeAtomic) : atomicOp i ∈ [0x00, 0x40, 0x50, 0xA0, 0xE0, 0xF0] := by
  rw [checkInsn] at h
  split at h
  · cases h
  · split at h
    next => cases h
    next ha =>
      rw [checkAtomic] at ha
      split at ha
      next => cases ha
      next hn =>
        by_contra hop
        exact hn ⟨hc, hm, hop⟩

/-- The operation of an atomic decides its immediate up to the high bits. -/
theorem atomicImm_mem_iff {i : Insn} (h : atomicOp i ∈ [0x00, 0x40, 0x50, 0xA0, 0xE0, 0xF0]) :
    atomicImm i ∈ atomicImms ↔ atomicImm i < 256 := by
  have hsmall : ∀ n < 256, n &&& 0xFE ∈ [0x00, 0x40, 0x50, 0xA0, 0xE0, 0xF0] →
      n ∈ atomicImms := by decide +kernel
  constructor
  · intro hmem
    have hbound : ∀ n ∈ atomicImms, n < 256 := by decide
    exact hbound _ hmem
  · exact fun hlt => hsmall _ hlt h

theorem validateMem_of_validateInsn {i : Insn} (h : validateInsn i = .ok ())
    (hc : i.cls.isAluOrJmp = false) : validateMem i = .ok () := by
  rw [validateInsn] at h
  split at h
  · cases h
  · cases hcls : i.cls <;> simp_all [Cls.isAluOrJmp]

theorem Loose.not_defined {i : Insn} (h : Loose i) : ¬ i.Defined := by
  intro hi
  unfold Insn.Defined modeImm modeMem modeMemsx modeAtomic at *
  cases h with
  | narrowImm cls mode size => rw [cls] at hi; exact size hi.2.2
  | ldMode cls mode => rw [cls] at hi; simp [modeMem, modeMemsx, modeAtomic, hi.2.1] at mode
  | ldxMode cls mode => rw [cls] at hi; simp [modeAtomic] at mode; omega
  | stMode cls mode => rw [cls] at hi; simp [modeMemsx, modeAtomic] at mode; omega
  | stxMode cls mode => rw [cls] at hi; simp [modeMemsx] at mode; omega
  | highImm cls mode imm =>
    rw [cls] at hi
    have hbound : ∀ n ∈ atomicImms, n < 256 := by decide
    rcases hi with hi | hi
    · rw [modeAtomic] at mode
      omega
    · have := hbound _ hi.2.2
      omega
  | jmp32Code cls code => rw [cls] at hi; omega
  | divOffset cls code offset =>
    rcases cls with cls | cls
    · rw [cls] at hi
      have := hi code
      omega
    · rw [cls] at hi
      have := hi code
      omega

/-- An instruction that passes the checks is defined unless it is one of the loose
ones. -/
theorem defined_iff {i : Insn} (hd : i.Decoded) (hv : validateInsn i = .ok ())
    (hc : checkInsn i = .ok ()) : i.Defined ↔ ¬ Loose i := by
  refine ⟨fun hi hl => hl.not_defined hi, fun hl => ?_⟩
  have hlt := hd.mode_lt
  have hmem : i.cls.isAluOrJmp = false → _ := fun h =>
    validateMem_ok (validateMem_of_validateInsn hv h)
  have hmodes : ∀ {l : List Nat}, i.mode ∉ l → ∀ m ∈ l, i.mode ≠ m := fun h m hm he =>
    h (he ▸ hm)
  cases hcls : i.cls with
  | ld =>
    obtain ⟨habs, hind, -⟩ := hmem (by rw [hcls]; rfl)
    have hmode : i.mode = modeImm := by
      by_contra hne
      refine hl (.ldMode hcls ?_)
      simp only [modeAbs, modeInd, modeImm, modeMem, modeMemsx, modeAtomic, mem_cons] at *
      omega
    have hsize : i.size = .dw := by
      by_contra hne
      exact hl (.narrowImm hcls hmode hne)
    simp only [Insn.Defined, hcls]
    exact ⟨hd.wide hcls hmode, hmode, hsize⟩
  | ldx =>
    obtain ⟨habs, hind, himm, -, hsx⟩ := hmem (by rw [hcls]; rfl)
    simp only [Insn.Defined, hcls]
    have hmode : i.mode = modeMem ∨ i.mode = modeMemsx := by
      by_contra hne
      refine hl (.ldxMode hcls ?_)
      rw [hcls] at himm
      simp only [modeAbs, modeInd, modeImm, modeMem, modeMemsx, modeAtomic, mem_cons] at *
      grind
    exact hmode.imp_right fun h => ⟨h, hsx h⟩
  | st =>
    obtain ⟨habs, hind, himm, -⟩ := hmem (by rw [hcls]; rfl)
    simp only [Insn.Defined, hcls]
    by_contra hne
    refine hl (.stMode hcls ?_)
    rw [hcls] at himm
    simp only [modeAbs, modeInd, modeImm, modeMem, modeMemsx, modeAtomic, mem_cons] at *
    grind
  | stx =>
    obtain ⟨habs, hind, himm, hat, -⟩ := hmem (by rw [hcls]; rfl)
    simp only [Insn.Defined, hcls]
    have hmode : i.mode = modeMem ∨ i.mode = modeAtomic := by
      by_contra hne
      refine hl (.stxMode hcls ?_)
      rw [hcls] at himm
      simp only [modeAbs, modeInd, modeImm, modeMem, modeMemsx, modeAtomic, mem_cons] at *
      grind
    refine hmode.imp_right fun h => ⟨h, hat h, ?_⟩
    rw [atomicImm_mem_iff (checkAtomic_ok hc hcls h)]
    by_contra hge
    exact hl (.highImm hcls h (Nat.le_of_not_lt hge))
  | alu =>
    simp only [Insn.Defined, hcls]
    intro hcode
    by_contra hoff
    exact hl (.divOffset (.inl hcls) hcode (not_or.mp hoff))
  | alu64 =>
    simp only [Insn.Defined, hcls]
    intro hcode
    by_contra hoff
    exact hl (.divOffset (.inr hcls) hcode (not_or.mp hoff))
  | jmp32 =>
    simp only [Insn.Defined, hcls]
    exact not_or.mp fun hcode => hl (.jmp32Code hcls hcode)
  | jmp => simp only [Insn.Defined, hcls]

/-- The instructions of an accepted program are all defined exactly when none of them
is loose. -/
theorem load_strict_iff {raw : List Byte} {prof : Option Profile} {p : Program}
    (h : loadProgram raw prof = .ok p) :
    (∀ i ∈ p.ins, i.Defined) ↔ ∀ i ∈ p.ins, ¬ Loose i := by
  have ha := loadProgram_ok h
  have hi : ∀ i ∈ p.ins, (i.Defined ↔ ¬ Loose i) := fun i hi =>
    defined_iff ((decode_ok ha.decoded).decoded i hi) (ha.valid i hi) (ha.checked i hi)
  exact ⟨fun hall i him => (hi i him).mp (hall i him),
    fun hall i him => (hi i him).mpr (hall i him)⟩

/-- `MOV r0, 7; EXIT`. -/
def returnSeven : List Byte :=
  [0xb7, 0, 0, 0, 7, 0, 0, 0, 0x95, 0, 0, 0, 0, 0, 0, 0]

def returnSevenProgram : Program where
  n := 2
  conf := 3
  ins := [⟨0xb7, .alu64, aluMov, .k, 0, .w, 0, 0, 0, 7, false, 0⟩,
    ⟨0x95, .jmp, jmpExit, .k, 0, .w, 0, 0, 0, 0, false, 0⟩]
  recs := [⟨0, 0, false, false⟩, ⟨1, 0, false, false⟩]

theorem load_returnSeven : loadProgram returnSeven none = .ok returnSevenProgram := by
  decide +kernel

theorem load_strict_returnSeven :
    (∀ i ∈ returnSevenProgram.ins, i.Defined) ↔ ∀ i ∈ returnSevenProgram.ins, ¬ Loose i :=
  load_strict_iff load_returnSeven

/-- A load of class `LD` with mode `MEM`, which RFC 9669 does not define, is accepted. -/
theorem load_ldMem : ∃ p, loadProgram [0x60, 0, 0, 0, 0, 0, 0, 0] none = .ok p ∧
    ¬ ∀ i ∈ p.ins, i.Defined :=
  ⟨{ n := 1
     conf := 1
     ins := [⟨0x60, .ld, 0, .k, modeMem, .w, 0, 0, 0, 0, false, 0⟩]
     recs := [⟨0, 0, false, false⟩] }, by decide +kernel, by simp [Insn.Defined]⟩

end Bpf
