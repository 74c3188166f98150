import EightyNine.Bpf.Terminal

/-!
# What a step leaves alone

A step keeps the capability table and the import gate.  Only a local call and the return
from one change the saved frames or their number.  `Vm.Calls` and `Vm.Exits` name the two,
and `vmStep_cases` says what each of them does, and that any other step keeps the frames.
-/

namespace Bpf

open Option

variable {fp : Word} {vm : Vm} {i : Insn} {pi : ProgInsn} {r : Stepped}

/-! ## What instructions keep -/

/-- The capability table and the gate are as before. -/
structure Vm.SameGate (vm vm' : Vm) : Prop where
  caps : vm'.caps = vm.caps
  reqType : vm'.reqType = vm.reqType
  reqRights : vm'.reqRights = vm.reqRights
  hasReq : vm'.hasReq = vm.hasReq

/-- The saved frames are as before, too. -/
structure Vm.Keeps (vm vm' : Vm) : Prop extends vm.SameGate vm' where
  frames : vm'.frames = vm.frames
  retn : vm'.retn = vm.retn

theorem Vm.Keeps.refl (vm : Vm) : vm.Keeps vm := ⟨⟨rfl, rfl, rfl, rfl⟩, rfl, rfl⟩

theorem execAlu_keeps (h : execAlu vm i = some r) : vm.Keeps r.vm := by
  rw [execAlu] at h
  split at h
  · cases h
    exact .refl vm
  · cases halu : bpfAlu vm.regs i with
    | none =>
      rw [halu] at h
      cases h
    | some regs =>
      rw [halu] at h
      cases h
      exact ⟨⟨rfl, rfl, rfl, rfl⟩, rfl, rfl⟩

theorem execLdimm_keeps (h : execLdimm vm i = some r) : vm.Keeps r.vm := by
  rw [execLdimm] at h
  split at h
  · cases h
    exact .refl vm
  · cases hset : vm.regs.set i.dstReg (ldimmValue i) with
    | none =>
      rw [hset] at h
      cases h
    | some regs =>
      rw [hset] at h
      cases h
      exact ⟨⟨rfl, rfl, rfl, rfl⟩, rfl, rfl⟩

theorem execLdx_keeps (h : execLdx vm i = some r) : vm.Keeps r.vm := by
  rw [execLdx] at h
  split at h
  · cases h
    exact .refl vm
  · obtain ⟨addr, -, h⟩ := bind_eq_some_iff.mp h
    split at h
    · cases h
      exact .refl vm
    · obtain ⟨regs, -, h⟩ := bind_eq_some_iff.mp h
      cases h
      exact ⟨⟨rfl, rfl, rfl, rfl⟩, rfl, rfl⟩

theorem execStore_keeps {val : Word} (h : execStore vm i val = some r) : vm.Keeps r.vm := by
  obtain ⟨addr, -, h⟩ := bind_eq_some_iff.mp h
  split at h
  · cases h
    exact .refl vm
  · cases h
    exact ⟨⟨rfl, rfl, rfl, rfl⟩, rfl, rfl⟩

theorem execAtomic_keeps (h : execAtomic vm i = some r) : vm.Keeps r.vm := by
  rw [execAtomic] at h
  obtain ⟨addr, -, h⟩ := bind_eq_some_iff.mp h
  obtain ⟨src, -, h⟩ := bind_eq_some_iff.mp h
  obtain ⟨r0, -, h⟩ := bind_eq_some_iff.mp h
  rw [← atomicWidth] at h
  simp only at h
  cases hload : memLoad vm.mem addr (atomicWidth i) with
  | error e =>
    simp only [hload] at h
    cases h
    exact .refl vm
  | ok p =>
    simp only [hload] at h
    cases hstore : memStore vm.mem addr (atomicWidth i) (atomicValues i p.1 src r0).1 with
    | error e =>
      simp only [hstore] at h
      cases h
      exact .refl vm
    | ok q =>
      simp only [hstore] at h
      obtain ⟨regs, -, h⟩ := bind_eq_some_iff.mp h
      cases h
      exact ⟨⟨rfl, rfl, rfl, rfl⟩, rfl, rfl⟩

theorem execHelper_keeps {im : BitVec 32} (h : execHelper vm im = some r) : vm.Keeps r.vm := by
  rw [execHelper] at h
  obtain ⟨hv, -, h⟩ := bind_eq_some_iff.mp h
  split at h
  · cases h
    exact .refl vm
  · cases h
    exact ⟨⟨rfl, rfl, rfl, rfl⟩, rfl, rfl⟩

/-! ## Local calls and returns -/

/-- Class `JMP` or `JMP32`. -/
def Insn.isJump (i : Insn) : Prop := i.cls = .jmp ∨ i.cls = .jmp32

/-- The next step executes a local call. -/
structure Vm.Calls (vm : Vm) (pi : ProgInsn) : Prop where
  live : vm.Live pi
  jump : pi.insn.isJump
  code : pi.insn.code = jmpCall
  src : pi.insn.srcReg = 1

/-- The next step executes an `EXIT`. -/
structure Vm.Exits (vm : Vm) (pi : ProgInsn) : Prop where
  live : vm.Live pi
  jump : pi.insn.isJump
  code : pi.insn.code = jmpExit

/-- A register by its number. -/
def Vm.reg (vm : Vm) (k : Nat) : Word := (vm.regs.get k).getD 0

/-- The frame a local call saves. -/
def Vm.frame (vm : Vm) : Frame where
  retp := vm.pc + 1
  s6 := vm.reg 6
  s7 := vm.reg 7
  s8 := vm.reg 8
  s9 := vm.reg 9
  s10 := vm.reg 10

/-- What a local call does. -/
structure Vm.Called (vm : Vm) (target : Nat) (r : Stepped) : Prop extends vm.SameGate r.vm where
  running : r.state = .running
  pc : r.vm.pc = target
  regs : r.vm.regs = vm.regs
  retn : r.vm.retn = vm.retn + 1
  saved : ∀ h : vm.retn < vmCallDepth, r.vm.frames = Function.update vm.frames ⟨vm.retn, h⟩ vm.frame

/-- What the return to the frame `f` does. -/
structure Vm.Returned (vm : Vm) (f : Frame) (r : Stepped) : Prop extends vm.SameGate r.vm where
  running : r.state = .running
  pc : r.vm.pc = f.retp
  regs : restoreRegs vm.regs f = some r.vm.regs
  retn : r.vm.retn = vm.retn - 1
  frames : r.vm.frames = vm.frames

theorem execLocalCall_full {target : Nat} (h : execLocalCall vm target = some r)
    (hfull : vmCallDepth ≤ vm.retn) : r = vm.refused := by
  rw [execLocalCall, if_pos hfull] at h
  exact (some.inj h).symm

theorem execLocalCall_called {target : Nat} (h : execLocalCall vm target = some r)
    (hroom : vm.retn < vmCallDepth) : vm.Called target r := by
  rw [execLocalCall_room target hroom] at h
  cases h
  exact ⟨⟨rfl, rfl, rfl, rfl⟩, rfl, rfl, rfl, rfl, fun _ => rfl⟩

theorem execExit_top (h : execExit vm = some r) (h0 : vm.retn = 0) :
    r = ⟨.returned, { vm with state := .returned }, []⟩ := by
  rw [execExit, if_neg (by omega)] at h
  exact (some.inj h).symm

theorem execExit_returned (h : execExit vm = some r) (hpos : 0 < vm.retn) :
    ∃ hk : vm.retn - 1 < vmCallDepth, vm.Returned (vm.frames ⟨vm.retn - 1, hk⟩) r := by
  rw [execExit, if_pos hpos] at h
  obtain ⟨f, hf, h⟩ := bind_eq_some_iff.mp h
  obtain ⟨regs, hregs, h⟩ := bind_eq_some_iff.mp h
  rw [Frames.get] at hf
  split at hf
  next hk =>
    obtain rfl := some.inj hf
    cases h
    exact ⟨hk, ⟨rfl, rfl, rfl, rfl⟩, rfl, rfl, hregs, rfl, rfl⟩
  next => cases hf

/-! ## One step -/

/-- What one step of a machine is. -/
inductive StepCases (vm : Vm) (r : Stepped) : Prop
  | deep (pi : ProgInsn) (calls : vm.Calls pi) (full : vmCallDepth ≤ vm.retn) (state : r.state = .trapped)
      (kept : r.vm = { vm with budget := vm.budget - 1 })
  | call (pi : ProgInsn) (calls : vm.Calls pi) (room : vm.retn < vmCallDepth) (called : vm.Called pi.target r)
  | top (pi : ProgInsn) (exits : vm.Exits pi) (none : vm.retn = 0) (state : r.state = .returned)
      (keeps : vm.Keeps r.vm)
  | ret (pi : ProgInsn) (exits : vm.Exits pi) (pos : 0 < vm.retn) (hk : vm.retn - 1 < vmCallDepth)
      (returned : vm.Returned (vm.frames ⟨vm.retn - 1, hk⟩) r)
  | other (calls : ∀ pi, ¬ vm.Calls pi) (exits : ∀ pi, ¬ vm.Exits pi) (keeps : vm.Keeps r.vm)

theorem execJmp_keeps {is32 : Bool} (h : execJmp vm pi is32 = some r)
    (hexit : pi.insn.code ≠ jmpExit) (hcall : ¬ (pi.insn.code = jmpCall ∧ pi.insn.srcReg = 1)) :
    vm.Keeps r.vm := by
  rw [execJmp] at h
  split at h
  · cases h
    exact ⟨⟨rfl, rfl, rfl, rfl⟩, rfl, rfl⟩
  split at h
  next hc =>
    split at h
    next hs => exact absurd ⟨hc, hs⟩ hcall
    next => exact execHelper_keeps h
  next =>
    obtain ⟨d, -, h⟩ := bind_eq_some_iff.mp h
    obtain ⟨s, -, h⟩ := bind_eq_some_iff.mp h
    split at h
    · cases h
      exact ⟨⟨rfl, rfl, rfl, rfl⟩, rfl, rfl⟩
    · cases h
      exact ⟨⟨rfl, rfl, rfl, rfl⟩, rfl, rfl⟩

theorem execInsn_keeps (h : execInsn vm pi = some r) (hjump : ¬ pi.insn.isJump) :
    vm.Keeps r.vm := by
  rw [execInsn] at h
  split at h
  next => exact execAlu_keeps h
  next => exact execAlu_keeps h
  next => exact execLdimm_keeps h
  next => exact execLdx_keeps h
  next => exact execStore_keeps h
  next =>
    split at h
    · exact execAtomic_keeps h
    · obtain ⟨val, -, h⟩ := bind_eq_some_iff.mp h
      exact execStore_keeps h
  next hcls => exact absurd (.inl hcls) hjump
  next hcls => exact absurd (.inr hcls) hjump

theorem execInsn_jump (h : execInsn vm pi = some r) (hjump : pi.insn.isJump) :
    ∃ is32, execJmp vm pi is32 = some r := by
  rw [execInsn] at h
  rcases hjump with hcls | hcls <;> rw [hcls] at h
  · exact ⟨false, h⟩
  · exact ⟨true, h⟩

/-- A step that executes no instruction keeps the frames and the gate. -/
theorem vmStep_idle_keeps (h : ∀ pi, ¬ vm.Live pi) (hr : vmStep vm = some r) : vm.Keeps r.vm := by
  have hkept : ∀ state, r = ⟨state, { vm with state := state }, []⟩ → vm.Keeps r.vm := by
    intro state hr
    rw [hr]
    exact ⟨⟨rfl, rfl, rfl, rfl⟩, rfl, rfl⟩
  by_cases hlive : vm.state = .running ∨ vm.state = .exhausted
  · rw [vmStep_of_live hlive, stepLive] at hr
    split at hr
    next => exact hkept _ (some.inj hr).symm
    next hpc =>
      split at hr
      next => exact hkept _ (some.inj hr).symm
      next hbudget =>
        cases hget : programGet vm.prog vm.pc with
        | error e =>
          simp only [hget] at hr
          cases hr
          exact ⟨⟨rfl, rfl, rfl, rfl⟩, rfl, rfl⟩
        | ok pi => exact absurd ⟨hlive, Nat.lt_of_not_le hpc, hbudget, hget⟩ (h pi)
  · rw [vmStep] at hr
    cases hs : vm.state with
    | running => exact absurd (.inl hs) hlive
    | exhausted => exact absurd (.inr hs) hlive
    | _ =>
      simp only [hs] at hr
      cases hr
      exact .refl vm

theorem Vm.Live.insn_eq {qi : ProgInsn} (h : vm.Live pi) (h' : vm.Live qi) : qi = pi :=
  Except.ok.inj (h'.get.symm.trans h.get)

theorem vmStep_cases (hr : vmStep vm = some r) : StepCases vm r := by
  by_cases hlive : ∃ pi, vm.Live pi
  · obtain ⟨pi, hl⟩ := hlive
    have hexec := (vmStep_live hl).symm.trans hr
    by_cases hjump : pi.insn.isJump
    · obtain ⟨is32, hexec⟩ := execInsn_jump hexec hjump
      by_cases hexit : pi.insn.code = jmpExit
      · have hexits : vm.Exits pi := ⟨hl, hjump, hexit⟩
        have hja : pi.insn.code ≠ jmpJa := by rw [hexit]; decide
        rw [execJmp, if_neg hja, if_pos hexit] at hexec
        rcases Nat.eq_zero_or_pos vm.retn with h0 | hpos
        · obtain rfl := execExit_top hexec h0
          exact .top pi hexits h0 rfl ⟨⟨rfl, rfl, rfl, rfl⟩, rfl, rfl⟩
        · obtain ⟨hk, hret⟩ := execExit_returned hexec hpos
          exact .ret pi hexits hpos hk
            ⟨⟨hret.caps, hret.reqType, hret.reqRights, hret.hasReq⟩, hret.running, hret.pc,
              hret.regs, hret.retn, hret.frames⟩
      · by_cases hcall : pi.insn.code = jmpCall ∧ pi.insn.srcReg = 1
        · have hcalls : vm.Calls pi := ⟨hl, hjump, hcall.1, hcall.2⟩
          have hja : pi.insn.code ≠ jmpJa := by rw [hcall.1]; decide
          rw [execJmp, if_neg hja, if_neg hexit, if_pos hcall.1, if_pos hcall.2] at hexec
          rcases Nat.lt_or_ge vm.retn vmCallDepth with hroom | hfull
          · have hcalled := execLocalCall_called hexec hroom
            exact .call pi hcalls hroom
              ⟨⟨hcalled.caps, hcalled.reqType, hcalled.reqRights, hcalled.hasReq⟩,
                hcalled.running, hcalled.pc, hcalled.regs, hcalled.retn, hcalled.saved⟩
          · obtain rfl := execLocalCall_full hexec hfull
            exact .deep pi hcalls hfull rfl rfl
        · have hk := execJmp_keeps hexec hexit hcall
          refine .other (fun qi hq => hcall ?_) (fun qi hq => hexit ?_)
            ⟨⟨hk.caps, hk.reqType, hk.reqRights, hk.hasReq⟩, hk.frames, hk.retn⟩
          · obtain rfl := hl.insn_eq hq.live
            exact ⟨hq.code, hq.src⟩
          · obtain rfl := hl.insn_eq hq.live
            exact hq.code
    · have hk := execInsn_keeps hexec hjump
      refine .other (fun qi hq => hjump ?_) (fun qi hq => hjump ?_)
        ⟨⟨hk.caps, hk.reqType, hk.reqRights, hk.hasReq⟩, hk.frames, hk.retn⟩
      · obtain rfl := hl.insn_eq hq.live
        exact hq.jump
      · obtain rfl := hl.insn_eq hq.live
        exact hq.jump
  · have hidle : ∀ pi, ¬ vm.Live pi := fun pi hl => hlive ⟨pi, hl⟩
    exact .other (fun pi hq => hidle pi hq.live) (fun pi hq => hidle pi hq.live)
      (vmStep_idle_keeps hidle hr)

end Bpf
