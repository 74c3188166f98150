import EightyNine.Bpf.Sandbox

/-!
# Terminal states

A step returns a state and stores one.  They differ when an instruction is refused,
which returns `TRAPPED` and stores nothing, and when a machine that was `EXHAUSTED` has
got a new budget, which runs on without storing `RUNNING`.  `terminal_iff` says that a
run keeps the contract of `bpf_vm_step` exactly when neither happens.
-/

namespace Bpf

open Option

/-! ## The states that go wrong -/

/-- The resolver refuses an access at the address in `reg` plus `off`. -/
def Vm.denied (vm : Vm) (reg : Nat) (off : Int) (width : Nat) (acc : Access) : Bool :=
  match effAddr vm.regs reg off with
  | none => false
  | some addr =>
    match memResolve vm.mem addr (BitVec.ofNat 64 width) acc with
    | .ok _ => false
    | .error _ => true

/-- The width of an atomic access. -/
def atomicWidth (i : Insn) : Nat := if i.size = .w then 4 else 8

/-- The machine refuses the instruction: a denied access, a call too deep, or a helper
call the import gate does not admit. -/
def Vm.faults (vm : Vm) (pi : ProgInsn) : Bool :=
  let i := pi.insn
  match i.cls with
  | .ldx => vm.denied i.srcReg i.offset (sizeBytes i.size) .read
  | .st => vm.denied i.dstReg i.offset (sizeBytes i.size) .write
  | .stx =>
    if i.mode = modeAtomic then
      vm.denied i.dstReg i.offset (atomicWidth i) .read ||
        vm.denied i.dstReg i.offset (atomicWidth i) .write
    else vm.denied i.dstReg i.offset (sizeBytes i.size) .write
  | .jmp | .jmp32 =>
    i.code = jmpCall ∧
      if i.srcReg = 1 then vm.retn ≥ vmCallDepth
      else vm.hasReq ∧ ! gateOk vm (vm.regs ⟨1, by decide⟩)
  | _ => false

/-- The instruction ends the program or calls a helper. -/
def Vm.parks (vm : Vm) (pi : ProgInsn) : Bool :=
  let i := pi.insn
  match i.cls with
  | .jmp | .jmp32 =>
    (i.code = jmpExit ∧ vm.retn = 0) ∨ (i.code = jmpCall ∧ i.srcReg ≠ 1)
  | _ => false

/-- The next step executes an instruction. -/
structure Vm.Live (vm : Vm) (pi : ProgInsn) : Prop where
  state : vm.state = .running ∨ vm.state = .exhausted
  pc : vm.pc < vm.n
  budget : vm.budget ≠ 0
  get : programGet vm.prog vm.pc = .ok pi

/-- The next step returns another state than it stores: it refuses its instruction, or
it runs on from `EXHAUSTED`. -/
def Vm.Diverges (vm : Vm) : Prop :=
  ∃ pi, vm.Live pi ∧
    (vm.faults pi = true ∨ (vm.state = .exhausted ∧ vm.parks pi = false))

/-! ## What the instructions return and store -/

/-- The states an instruction returns and stores. -/
structure Vm.Answers (vm : Vm) (pi : ProgInsn) (r : Stepped) : Prop where
  faults : vm.faults pi = true → r.state = .trapped ∧ r.vm.state = vm.state
  parks : vm.faults pi = false → vm.parks pi = true → r.vm.state = r.state
  runs : vm.faults pi = false → vm.parks pi = false →
    r.state = .running ∧ r.vm.state = vm.state

variable {fp : Word} {vm : Vm} {i : Insn} {pi : ProgInsn} {r : Stepped}

theorem Vm.Answers.of_fault (hp : vm.parks pi = false) (hs : r.vm.state = vm.state)
    (hr : r.state = if vm.faults pi then .trapped else .running) : vm.Answers pi r where
  faults := fun h => ⟨by rw [hr, if_pos h], hs⟩
  parks := fun _ h => absurd h (Bool.eq_false_iff.mp hp)
  runs := fun h _ => ⟨by rw [hr, if_neg (Bool.eq_false_iff.mp h)], hs⟩

theorem leWidthOk_sizeBytes (s : Size) : leWidthOk (sizeBytes s) = true := by
  cases s <;> rfl

theorem leWidthOk_atomicWidth (i : Insn) : leWidthOk (atomicWidth i) = true := by
  rw [atomicWidth]
  split <;> rfl

theorem Vm.denied_eq {n : Nat} (hn : n < nreg) (off : Int) (width : Nat) (acc : Access) :
    vm.denied n off width acc =
      match memResolve vm.mem (vm.regs ⟨n, hn⟩ + seI32 off) (BitVec.ofNat 64 width) acc with
      | .ok _ => false
      | .error _ => true := by
  rw [Vm.denied, effAddr_eq hn]

/-- The classes that write their destination do not write the frame pointer. -/
theorem Insn.Safe.dst_ne (hi : i.Safe) (hcls : i.cls ∈ [Cls.alu, .alu64, .ld, .ldx]) :
    i.dstReg ≠ 10 := by
  intro h10
  have := hi.r10
  cases hc : i.cls <;> simp_all [writesR10]

theorem execAlu_state (hi : i.Safe) (hcls : i.cls = .alu ∨ i.cls = .alu64)
    (h : execAlu vm i = some r) : r.state = .running ∧ r.vm.state = vm.state := by
  have h10 : i.dstReg ≠ 10 := hi.dst_ne (by rcases hcls with hcls | hcls <;> simp [hcls])
  obtain ⟨v, hv⟩ := bpfAlu_some hi (by rcases hcls with hcls | hcls <;> rw [hcls] <;> rfl) vm.regs
  rw [execAlu, if_neg h10, hv] at h
  cases h
  exact ⟨rfl, rfl⟩

theorem execLdimm_state (hi : i.Safe) (hcls : i.cls = .ld) (h : execLdimm vm i = some r) :
    r.state = .running ∧ r.vm.state = vm.state := by
  have h10 : i.dstReg ≠ 10 := hi.dst_ne (by simp [hcls])
  rw [execLdimm, if_neg h10, Regs.set_eq _ hi.dst] at h
  cases h
  exact ⟨rfl, rfl⟩

theorem execLdx_state (hi : i.Safe) (hcls : i.cls = .ldx) (h : execLdx vm i = some r) :
    (r.state = if vm.denied i.srcReg i.offset (sizeBytes i.size) .read then .trapped
      else .running) ∧ r.vm.state = vm.state := by
  have h10 : i.dstReg ≠ 10 := hi.dst_ne (by simp [hcls])
  rw [execLdx, if_neg h10] at h
  simp only [effAddr_eq hi.src, Regs.set_eq _ hi.dst, bind_eq_bind, bind_some,
    memLoad, leWidthOk_sizeBytes, Bool.not_true, Bool.false_eq_true, if_false] at h
  rw [Vm.denied_eq hi.src]
  cases hm : memResolve vm.mem (vm.regs ⟨i.srcReg, hi.src⟩ + seI32 i.offset)
      (BitVec.ofNat 64 (sizeBytes i.size)) .read with
  | error e | ok p =>
    rw [hm] at h
    cases h
    exact ⟨rfl, rfl⟩

theorem execStore_state (hi : i.Safe) {val : Word} (h : execStore vm i val = some r) :
    (r.state = if vm.denied i.dstReg i.offset (sizeBytes i.size) .write then .trapped
      else .running) ∧ r.vm.state = vm.state := by
  simp only [execStore, effAddr_eq hi.dst, bind_eq_bind, bind_some, memStore,
    leWidthOk_sizeBytes, Bool.not_true, Bool.false_eq_true, if_false] at h
  rw [Vm.denied_eq hi.dst]
  cases hm : memResolve vm.mem (vm.regs ⟨i.dstReg, hi.dst⟩ + seI32 i.offset)
      (BitVec.ofNat 64 (sizeBytes i.size)) .write with
  | error e | ok p =>
    rw [hm] at h
    cases h
    exact ⟨rfl, rfl⟩

theorem execAtomic_state (hi : i.Safe) (hcls : i.cls = .stx) (hmode : i.mode = modeAtomic)
    (h : execAtomic vm i = some r) :
    (r.state = if vm.denied i.dstReg i.offset (atomicWidth i) .read ||
        vm.denied i.dstReg i.offset (atomicWidth i) .write then .trapped else .running) ∧
      r.vm.state = vm.state := by
  simp only [execAtomic, effAddr_eq hi.dst, Regs.get_eq hi.src,
    Regs.get_eq (show 0 < nreg by decide), bind_eq_bind, bind_some] at h
  rw [← atomicWidth] at h
  simp only [memLoad, memStore, leWidthOk_atomicWidth, Bool.not_true, Bool.false_eq_true,
    if_false] at h
  rw [Vm.denied_eq hi.dst, Vm.denied_eq hi.dst]
  cases hl : memResolve vm.mem (vm.regs ⟨i.dstReg, hi.dst⟩ + seI32 i.offset)
      (BitVec.ofNat 64 (atomicWidth i)) .read with
  | error e =>
    rw [hl] at h
    cases h
    exact ⟨rfl, rfl⟩
  | ok p =>
    rw [hl] at h
    cases hs : memResolve vm.mem (vm.regs ⟨i.dstReg, hi.dst⟩ + seI32 i.offset)
        (BitVec.ofNat 64 (atomicWidth i)) .write with
    | error e =>
      simp only [hs] at h
      cases h
      exact ⟨rfl, rfl⟩
    | ok q =>
      simp only [hs] at h
      obtain ⟨regs, hregs, -⟩ := atomicRegs_some hi hcls hmode vm.regs
        (atomicValues i (readLe vm.mem p (atomicWidth i)) (vm.regs ⟨i.srcReg, hi.src⟩)
          (vm.regs ⟨0, by decide⟩)).2
      rw [hregs] at h
      cases h
      exact ⟨rfl, rfl⟩

/-! ## Jumps -/

/-- A jump faults, parks or runs on. -/
theorem execJmp_answers (h : vm.Framed fp) (hi : pi.insn.Safe)
    (hcls : pi.insn.cls = .jmp ∨ pi.insn.cls = .jmp32) {is32 : Bool}
    (hr : execJmp vm pi is32 = some r) : vm.Answers pi r := by
  have hfaults : vm.faults pi = decide (pi.insn.code = jmpCall ∧
      if pi.insn.srcReg = 1 then vm.retn ≥ vmCallDepth
      else vm.hasReq ∧ ! gateOk vm (vm.regs ⟨1, by decide⟩)) := by
    rcases hcls with hcls | hcls <;> simp only [Vm.faults, hcls]
  have hparks : vm.parks pi = decide ((pi.insn.code = jmpExit ∧ vm.retn = 0) ∨
      (pi.insn.code = jmpCall ∧ pi.insn.srcReg ≠ 1)) := by
    rcases hcls with hcls | hcls <;> simp only [Vm.parks, hcls]
  -- an instruction that is neither a call nor a return goes on
  have hruns : ∀ {vm' : Vm}, pi.insn.code ≠ jmpCall →
      (pi.insn.code = jmpExit → vm.retn ≠ 0) → vm'.state = vm.state →
      vm.Answers pi (vm'.ran []) := by
    intro vm' hcall hexit hs
    refine .of_fault ?_ hs ?_
    · rw [hparks]
      simp [hcall]
      exact hexit
    · rw [hfaults]
      simp [hcall, Vm.ran]
  rw [execJmp] at hr
  split at hr
  next hja =>
    cases hr
    exact hruns (by rw [hja]; decide) (fun he => absurd (hja.symm.trans he) (by decide)) rfl
  split at hr
  next hexit =>
    have hcall : pi.insn.code ≠ jmpCall := by rw [hexit]; decide
    rw [execExit] at hr
    split at hr
    next hpos =>
      have hdepth := h.depth
      have hk : vm.retn - 1 < vmCallDepth := by omega
      obtain ⟨regs, hregs, -⟩ := restoreRegs_some vm.regs (vm.frames ⟨_, hk⟩)
      simp only [Frames.get_eq hk, hregs, bind_eq_bind, bind_some] at hr
      cases hr
      exact hruns hcall (fun _ => Nat.ne_of_gt hpos) rfl
    next hzero =>
      cases hr
      have hparked : vm.parks pi = true := by
        rw [hparks]
        simp [hexit, Nat.eq_zero_of_not_pos hzero]
      have hfine : vm.faults pi = false := by
        rw [hfaults]
        simp [hcall]
      exact ⟨fun hf => absurd (hfine.symm.trans hf) Bool.false_ne_true, fun _ _ => rfl,
        fun _ hp => absurd (hp.symm.trans hparked) Bool.false_ne_true⟩
  split at hr
  next hcall =>
    split at hr
    next hlocal =>
      have hp : vm.parks pi = false := by
        rw [hparks]
        simp [hcall, hlocal, jmpCall, jmpExit]
      have hf : vm.faults pi = decide (vm.retn ≥ vmCallDepth) := by
        rw [hfaults]
        simp [hcall, hlocal]
      rcases Nat.lt_or_ge vm.retn vmCallDepth with hroom | hfull
      · cases (execLocalCall_room _ hroom).symm.trans hr
        exact .of_fault hp rfl (by rw [hf, decide_eq_false (Nat.not_le_of_lt hroom)]; rfl)
      · cases (if_pos hfull).symm.trans hr
        exact .of_fault hp rfl (by rw [hf, decide_eq_true hfull]; rfl)
    next hhelper =>
      have hp : vm.parks pi = true := by
        rw [hparks]
        simp [hcall, hhelper]
      have hf : vm.faults pi = decide (vm.hasReq ∧ ! gateOk vm (vm.regs ⟨1, by decide⟩)) := by
        rw [hfaults]
        simp [hcall, hhelper]
      simp only [execHelper, Regs.get_eq (show 1 < nreg by decide), bind_eq_bind,
        bind_some] at hr
      split at hr
      next hgate =>
        cases hr
        have hfault : vm.faults pi = true := hf.trans (decide_eq_true hgate)
        exact ⟨fun _ => ⟨rfl, rfl⟩, fun hn => absurd (hn.symm.trans hfault) Bool.false_ne_true,
          fun hn => absurd (hn.symm.trans hfault) Bool.false_ne_true⟩
      next hgate =>
        cases hr
        have hfine : vm.faults pi = false := hf.trans (decide_eq_false hgate)
        exact ⟨fun hn => absurd (hfine.symm.trans hn) Bool.false_ne_true, fun _ _ => rfl,
          fun _ hn => absurd (hn.symm.trans hp) Bool.false_ne_true⟩
  next hja hexit hcall =>
    obtain ⟨s, hs⟩ := srcOperand_some hi vm.regs (jmpImm is32 pi.insn.imm)
    simp only [hs, Regs.get_eq hi.dst, bind_eq_bind, bind_some] at hr
    split at hr
    · cases hr
      exact hruns hcall (fun he => absurd he hexit) rfl
    · cases hr
      exact hruns hcall (fun he => absurd he hexit) rfl

theorem execInsn_answers (h : vm.Framed fp) (hi : pi.insn.Safe)
    (hr : execInsn vm pi = some r) : vm.Answers pi r := by
  rw [execInsn] at hr
  split at hr
  next hcls =>
    obtain ⟨hstate, hs⟩ := execAlu_state hi (.inl hcls) hr
    exact .of_fault (by simp [Vm.parks, hcls]) hs (by simp [Vm.faults, hcls, hstate])
  next hcls =>
    obtain ⟨hstate, hs⟩ := execAlu_state hi (.inr hcls) hr
    exact .of_fault (by simp [Vm.parks, hcls]) hs (by simp [Vm.faults, hcls, hstate])
  next hcls =>
    obtain ⟨hstate, hs⟩ := execLdimm_state hi hcls hr
    exact .of_fault (by simp [Vm.parks, hcls]) hs (by simp [Vm.faults, hcls, hstate])
  next hcls =>
    obtain ⟨hstate, hs⟩ := execLdx_state hi hcls hr
    exact .of_fault (by simp [Vm.parks, hcls]) hs (by simp [Vm.faults, hcls, hstate])
  next hcls =>
    obtain ⟨hstate, hs⟩ := execStore_state hi hr
    exact .of_fault (by simp [Vm.parks, hcls]) hs (by simp [Vm.faults, hcls, hstate])
  next hcls =>
    split at hr
    next hmode =>
      obtain ⟨hstate, hs⟩ := execAtomic_state hi hcls hmode hr
      exact .of_fault (by simp [Vm.parks, hcls]) hs (by simp [Vm.faults, hcls, hmode, hstate])
    next hmode =>
      rw [Regs.get_eq hi.src, bind_some] at hr
      obtain ⟨hstate, hs⟩ := execStore_state hi hr
      exact .of_fault (by simp [Vm.parks, hcls]) hs (by simp [Vm.faults, hcls, hmode, hstate])
  next hcls => exact execJmp_answers h hi (.inl hcls) hr
  next hcls => exact execJmp_answers h hi (.inr hcls) hr

/-! ## Steps and runs -/

theorem vmStep_of_live (hs : vm.state = .running ∨ vm.state = .exhausted) :
    vmStep vm = stepLive vm := by
  rw [vmStep]
  rcases hs with hs | hs <;> rw [hs]

theorem vmStep_live (hl : vm.Live pi) :
    vmStep vm = execInsn { vm with budget := vm.budget - 1 } pi := by
  rw [vmStep_of_live hl.state, stepLive, if_neg (Nat.not_le_of_lt hl.pc), if_neg hl.budget]
  simp only [hl.get]

/-- A step that executes no instruction reports what it stores. -/
theorem vmStep_idle (h : ∀ pi, ¬ vm.Live pi) (hr : vmStep vm = some r) :
    r.vm.state = r.state := by
  cases hs : vm.state with
  | returned | trapped | waiting =>
    rw [vmStep, hs] at hr
    cases hr
    exact hs
  | _ =>
    have hlive : vm.state = .running ∨ vm.state = .exhausted := by simp [hs]
    rw [vmStep_of_live hlive, stepLive] at hr
    split at hr
    next =>
      cases hr
      rfl
    next hpc =>
      split at hr
      next =>
        cases hr
        rfl
      next hbudget =>
        simp only at hr
        split at hr
        next =>
          cases hr
          rfl
        next pi hget => exact absurd ⟨hlive, Nat.lt_of_not_le hpc, hbudget, hget⟩ (h pi)

/-- A step reports the state it stores, unless the machine diverges. -/
theorem vmStep_reports_iff (hp : vm.prog.Safe) (hn : vm.n = vm.prog.n) (h : vm.Framed fp)
    (hr : vmStep vm = some r) : r.vm.state = r.state ↔ ¬ vm.Diverges := by
  by_cases hl : ∃ pi, vm.Live pi
  · obtain ⟨pi, hl⟩ := hl
    obtain ⟨pi', hget, -, hi⟩ := hp.get (hn ▸ hl.pc)
    obtain rfl : pi' = pi := Except.ok.inj (hget.symm.trans hl.get)
    rw [vmStep_live hl] at hr
    have hspent : Vm.Framed fp { vm with budget := vm.budget - 1 } := ⟨h.r10, h.depth, h.saved⟩
    have ha := execInsn_answers hspent hi hr
    have hdiv : vm.Diverges ↔
        (vm.faults pi' = true ∨ (vm.state = .exhausted ∧ vm.parks pi' = false)) := by
      constructor
      · rintro ⟨pi, hpi, hd⟩
        obtain rfl : pi' = pi := Except.ok.inj (hl.get.symm.trans hpi.get)
        exact hd
      · exact fun hd => ⟨pi', hl, hd⟩
    rw [hdiv]
    cases hf : vm.faults pi' with
    | true =>
      obtain ⟨hstate, hs⟩ := ha.faults hf
      have hs' : r.vm.state = vm.state := hs
      rw [hstate, hs']
      rcases hl.state with he | he <;> simp [he]
    | false =>
      cases hk : vm.parks pi' with
      | true => simp [ha.parks hf hk]
      | false =>
        obtain ⟨hstate, hs⟩ := ha.runs hf hk
        have hs' : r.vm.state = vm.state := hs
        rw [hstate, hs']
        rcases hl.state with he | he <;> simp [he]
  · have hidle : ∀ pi, ¬ vm.Live pi := fun pi hpi => hl ⟨pi, hpi⟩
    have hnd : ¬ vm.Diverges := fun ⟨pi, hpi, _⟩ => hidle pi hpi
    exact iff_of_true (vmStep_idle hidle hr) hnd

/-- A stored terminal state. -/
def Vm.Done (vm : Vm) : Prop := vm.state = .trapped ∨ vm.state = .returned

theorem Vm.Done.step (h : vm.Done) : vmStep vm = some ⟨vm.state, vm, []⟩ := by
  rw [vmStep]
  rcases h with h | h <;> rw [h]

theorem Vm.Done.event (h : vm.Done) {ev : Event} {vm' : Vm} (hev : vm.event ev = some vm') :
    vm'.state = vm.state := by
  cases ev with
  | step =>
    rw [Vm.event, h.step] at hev
    cases hev
    rfl
  | regCap type rights =>
    cases hev
    rw [Vm.host, vmRegCap]
    cases capsAlloc vm.caps type rights <;> rfl
  | revokeCap handle =>
    cases hev
    rw [Vm.host, vmRevokeCap]
    cases capsRevoke vm.caps handle <;> rfl
  | setImportGate type rights | setBudget budget =>
    cases hev
    rfl
  | complete status =>
    cases hev
    have hnw : vm.state ≠ .waiting := by rcases h with h | h <;> simp [h]
    rw [Vm.host, vmComplete, if_pos hnw]

theorem Vm.Done.run (events : List Event) : ∀ {vm vm' : Vm}, vm.Done →
    vm.run events = some vm' → vm'.state = vm.state := by
  induction events with
  | nil =>
    intro vm vm' _ h
    cases h
    rfl
  | cons ev events ih =>
    intro vm vm' hd h
    rw [Vm.run, List.foldlM_cons] at h
    cases hev : vm.event ev with
    | none =>
      rw [hev] at h
      cases h
    | some vm₁ =>
      rw [hev] at h
      have hs := hd.event hev
      exact (ih (hs ▸ hd : vm₁.state = _ ∨ vm₁.state = _) h).trans hs

/-! ## The contract -/

/-- After each step of the run the stored state is the one the step returned. -/
def Vm.Reports (vm₀ : Vm) (events : List Event) : Prop :=
  ∀ pre vm r, pre ++ [.step] <+: events → vm₀.run pre = some vm → vmStep vm = some r →
    r.vm.state = r.state

/-- Once a step of the run has returned `TRAPPED` or `RETURNED`, every later step
returns that state again and changes nothing. -/
def Vm.Stays (vm₀ : Vm) (events : List Event) : Prop :=
  ∀ pre mid vm r vm' r', pre ++ .step :: (mid ++ [.step]) <+: events →
    vm₀.run pre = some vm → vmStep vm = some r → r.state = .trapped ∨ r.state = .returned →
    r.vm.run mid = some vm' → vmStep vm' = some r' → r'.state = r.state ∧ r'.vm = vm'

/-- A run keeps the contract of `bpf_vm_step` exactly when none of its steps is taken
from a machine that diverges. -/
theorem terminal_iff {raw : List Byte} {prof : Option Profile} {p : Program}
    {fresh : Nat → Byte} {frames : Frames} {cfg : List RegionCfg} {budget : Word} {vm₀ : Vm}
    (hload : loadProgram raw prof = .ok p)
    (hcreate : vmCreate fresh frames p cfg budget = .ok vm₀) (events : List Event) :
    (vm₀.Reports events ∧ vm₀.Stays events) ↔
      ∀ pre vm, pre ++ [.step] <+: events → vm₀.run pre = some vm → ¬ vm.Diverges := by
  have hp : p.Safe := (loadProgram_ok hload).safe
  have hstep : ∀ {pre vm}, vm₀.run pre = some vm →
      ∃ r, vmStep vm = some r ∧ (r.vm.state = r.state ↔ ¬ vm.Diverges) := by
    intro pre vm hrun
    obtain ⟨vm', hrun', hinv⟩ := Vm.Inv.run hp pre (vmCreate_inv hcreate)
    obtain rfl : vm = vm' := some.inj (hrun.symm.trans hrun')
    obtain ⟨r, hr, -, -⟩ := hinv.step hp
    exact ⟨r, hr, vmStep_reports_iff (hinv.prog ▸ hp) (hinv.prog ▸ hinv.count) hinv.framed hr⟩
  constructor
  · rintro ⟨hreports, -⟩ pre vm hpre hrun
    obtain ⟨r, hr, hiff⟩ := hstep hrun
    exact hiff.mp (hreports pre vm r hpre hrun hr)
  · intro h
    have hreports : vm₀.Reports events := by
      intro pre vm r hpre hrun hr
      obtain ⟨r', hr', hiff⟩ := hstep hrun
      obtain rfl : r = r' := some.inj (hr.symm.trans hr')
      exact hiff.mpr (h pre vm hpre hrun)
    refine ⟨hreports, ?_⟩
    intro pre mid vm r vm' r' hpre hrun hr hterm hmid hr'
    have hfirst : pre ++ [.step] <+: events := by
      refine List.IsPrefix.trans ?_ hpre
      rw [show pre ++ Event.step :: (mid ++ [.step]) = (pre ++ [.step]) ++ (mid ++ [.step]) by simp]
      exact List.prefix_append _ _
    have hstored := hreports pre vm r hfirst hrun hr
    have hdone : r.vm.Done := by rwa [Vm.Done, hstored]
    have hs := Vm.Done.run mid hdone hmid
    have hdone' : vm'.Done := by rwa [Vm.Done, hs]
    rw [hdone'.step] at hr'
    cases hr'
    exact ⟨hs.trans hstored, rfl⟩

theorem terminal_returnSeven :
    (returnSevenVm.Reports [.step, .step, .step] ∧ returnSevenVm.Stays [.step, .step, .step]) ↔
      ∀ pre vm, pre ++ [.step] <+: [.step, .step, .step] → returnSevenVm.run pre = some vm →
        ¬ vm.Diverges :=
  terminal_iff load_returnSeven create_returnSeven [.step, .step, .step]

/-- `LDX r0, [r1]` without any memory: the step returns `TRAPPED` and the machine stays
`RUNNING`. -/
theorem deniedLoad_running : ∃ p vm₀,
    loadProgram [0x79, 0x10, 0, 0, 0, 0, 0, 0] none = .ok p ∧
      vmCreate blankBytes blankFrames p [] 10 = .ok vm₀ ∧ ¬ vm₀.Reports [.step] := by
  let p : Program :=
    { n := 1
      conf := 3
      ins := [⟨0x79, .ldx, 0, .k, modeMem, .dw, 1, 0, 0, 0, false, 0⟩]
      recs := [⟨0, 0, false, false⟩] }
  have hload : loadProgram [0x79, 0x10, 0, 0, 0, 0, 0, 0] none = .ok p := by decide +kernel
  refine ⟨p, _, hload, rfl, fun h => ?_⟩
  have hstate := h [] _ _ (List.prefix_refl _) rfl rfl
  exact absurd hstate (by decide)

end Bpf
