import EightyNine.Bpf.Terminal

/-!
# The two interpreters

The first interpreter adds a delta to the index of an instruction, treats `CALL` and
`EXIT` of class `JMP32` as conditions that never hold, and leaves the registers of a
callee as they are.  The virtual machine follows the resolved targets, calls and
returns in both classes, and restores `r6` to `r9`.  As long as a run meets none of
these differences (`Vm.Regular`), the two go in lockstep (`agree`).
-/

namespace Bpf

open Function Nat Option BitVec

/-! ## Where the interpreters part -/

/-- The instruction jumps: always, or because its condition holds. -/
def Vm.takes (vm : Vm) (pi : ProgInsn) : Bool :=
  let i := pi.insn
  if i.code = jmpJa ∨ i.code = jmpCall then true
  else
    let is32 := i.cls = .jmp32
    match vm.regs.get i.dstReg, srcOperand vm.regs i (jmpImm is32 i.imm) with
    | some d, some s => bpfCondTaken i.code is32 d s
    | _, _ => false

/-- The return from a local call finds `r6` to `r9` as the call has left them. -/
def Vm.Kept (vm : Vm) : Prop :=
  ∀ k (hk : k < vmCallDepth), vm.retn = k + 1 →
    (vm.frames ⟨k, hk⟩).s6 = vm.regs ⟨6, by decide⟩ ∧
    (vm.frames ⟨k, hk⟩).s7 = vm.regs ⟨7, by decide⟩ ∧
    (vm.frames ⟨k, hk⟩).s8 = vm.regs ⟨8, by decide⟩ ∧
    (vm.frames ⟨k, hk⟩).s9 = vm.regs ⟨9, by decide⟩

/-- The next instruction means the same to both interpreters: it is no `CALL` or `EXIT`
of class `JMP32`, a jump it takes crosses no wide instruction, and a return it makes
restores what is there. -/
structure Vm.Regular (vm : Vm) (pi : ProgInsn) : Prop where
  jmp32 : pi.insn.cls = .jmp32 → pi.insn.code ≠ jmpCall ∧ pi.insn.code ≠ jmpExit
  jump : ∀ d, pi.insn.delta = some d → vm.takes pi = true → (pi.target : Int) = vm.pc + 1 + d
  kept : pi.insn.cls = .jmp → pi.insn.code = jmpExit → vm.Kept

/-- No memory access and no helper call. -/
def Insn.Plain (i : Insn) : Prop :=
  i.cls ≠ .ldx ∧ i.cls ≠ .st ∧ i.cls ≠ .stx ∧
    (i.cls = .jmp → i.code = jmpCall → i.srcReg = 1)

/-! ## Runs to the end -/

/-- The first interpreter, stepped while it runs, returns with these registers. -/
inductive Machine.Returns : Machine → Regs → Prop
  | done {m m' : Machine} (step : bpfStep m = some (.returned, m')) : Returns m m'.regs
  | more {m m' : Machine} {regs : Regs} (step : bpfStep m = some (.running, m'))
      (rest : Returns m' regs) : Returns m regs

/-- The virtual machine, stepped while it runs, returns with these registers. -/
inductive Vm.Returns : Vm → Regs → Prop
  | done {vm : Vm} {r : Stepped} (step : vmStep vm = some r) (state : r.state = .returned) :
      Returns vm r.vm.regs
  | more {vm : Vm} {r : Stepped} {regs : Regs} (step : vmStep vm = some r)
      (state : r.state = .running) (rest : Returns r.vm regs) : Returns vm regs

/-- The machines a run passes through. -/
inductive Vm.Passes (vm : Vm) : Vm → Prop
  | refl : Passes vm vm
  | snoc {vm' : Vm} {r : Stepped} (init : Passes vm vm') (step : vmStep vm' = some r)
      (state : r.state = .running) : Passes vm r.vm

/-! ## Lockstep -/

/-- The two machines are at the same point of the program `p`. -/
structure Rel (p : Program) (fp : Word) (vm : Vm) (m : Machine) : Prop where
  prog : vm.prog = p
  count : vm.n = p.n
  framed : vm.Framed fp
  running : vm.state = .running
  halted : m.halted = false
  prog_eq : m.prog = p.ins
  count_eq : m.n = p.n
  pc_eq : m.pc.toNat = vm.pc
  regs_eq : m.regs = vm.regs
  depth_eq : m.stackTop = vm.retn
  budget_eq : m.budget = vm.budget.toNat
  stack_eq : ∀ k (hk : k < vmCallDepth), k < vm.retn →
    (m.stack ⟨k, hk⟩).toNat = (vm.frames ⟨k, hk⟩).retp

/-- What a step of each returns, for machines that stay together. -/
inductive Together (p : Program) (fp : Word) : Stepped → Status × Machine → Prop
  | ran {vm : Vm} {touched : List Touch} {m : Machine} (rel : Rel p fp vm m) :
      Together p fp (vm.ran touched) (.running, m)
  | returned {vm : Vm} {m : Machine} (regs : m.regs = vm.regs) :
      Together p fp ⟨.returned, vm, []⟩ (.returned, m)
  | failed {r : Stepped} {s : Status} {m : Machine}
      (vm : r.state ≠ .running ∧ r.state ≠ .returned) (machine : s ≠ .running ∧ s ≠ .returned) :
      Together p fp r (s, m)

variable {p : Program} {fp : Word} {vm : Vm} {m : Machine} {pi : ProgInsn} {i : Insn}

variable {regs : Regs} {t : Nat} {pc : BitVec 32}

theorem Rel.goto (h : Rel p fp vm m) (h10 : regs r10 = fp)
    (hpc : pc.toNat = t) :
    Together p fp ({ vm with regs := regs, pc := t }.ran [])
      (.running, { m with regs := regs, pc := pc }) :=
  .ran
    { h with
      framed := ⟨h10, h.framed.depth, h.framed.saved⟩
      pc_eq := hpc
      regs_eq := rfl }

theorem Rel.next_pc (h : Rel p fp vm m) (hn : p.n < 2 ^ 32) (hpc : vm.pc < p.n) :
    (m.pc + 1).toNat = vm.pc + 1 := by
  have hp := h.pc_eq
  rw [toNat_add, hp]
  exact mod_eq_of_lt (by show vm.pc + 1 < _; omega)

variable {d : Int}

/-- A jump over as many instructions as slots leads both to the target. -/
theorem Rel.jump_pc (h : Rel p fp vm m) (ht : t < 2 ^ 32)
    (hd : (t : Int) = vm.pc + 1 + d) : (m.pc + 1 + BitVec.ofInt 32 d).toNat = t := by
  have hint : BitVec.ofInt 32 (t : Int) = m.pc + 1 + BitVec.ofInt 32 d := by
    rw [hd, ← h.pc_eq, ofInt_add, ofInt_add, ofInt_natCast,
      ofNat_toNat, setWidth_eq]
    rfl
  rw [← hint, ofInt_natCast, toNat_ofNat, mod_eq_of_lt ht]

/-- What the two need of the next instruction. -/
structure Fits (p : Program) (vm : Vm) (pi : ProgInsn) : Prop where
  size : p.n < 2 ^ 32
  pc : vm.pc < p.n
  safe : pi.insn.Safe
  plain : pi.insn.Plain
  regular : vm.Regular pi
  target : ∀ d, pi.insn.delta = some d → pi.target < p.n

/-- Both execute an instruction that writes registers, and go on to the next one. -/
theorem Rel.advance (h : Rel p fp vm m) (hf : Fits p vm pi) (h10 : regs r10 = fp) :
    Together p fp ((stepAdvance { vm with regs := regs }).ran [])
      (.running, { m with regs := regs }.next) :=
  h.goto h10 (h.next_pc hf.size hf.pc)

theorem Rel.moved (h : Rel p fp vm m) (hpc : pc.toNat = t) :
    Together p fp ({ vm with pc := t }.ran []) (.running, { m with pc := pc }) :=
  .ran { h with framed := ⟨h.framed.r10, h.framed.depth, h.framed.saved⟩, pc_eq := hpc }

theorem Rel.jump (h : Rel p fp vm m) (hf : Fits p vm pi) (hd : pi.insn.delta = some d)
    (ht : vm.takes pi = true) :
    Together p fp ({ vm with pc := pi.target }.ran []) (.running, m.jump d) := by
  have hlt : pi.target < 2 ^ 32 := lt_trans (hf.target d hd) hf.size
  exact h.moved (h.jump_pc hlt (hf.regular.jump d hd ht))

/-! ## The instructions -/

variable {r : Stepped}

theorem execAlu_together (h : Rel p fp vm m) (hf : Fits p vm pi)
    (hcls : pi.insn.cls = .alu ∨ pi.insn.cls = .alu64)
    (hr : execAlu vm pi.insn = some r) :
    ∃ sm, (bpfAlu m.regs pi.insn).map
        (fun regs => (Status.running, { m with regs := regs }.next)) = some sm ∧
      Together p fp r sm := by
  have h10 : pi.insn.dstReg ≠ 10 :=
    hf.safe.dst_ne (by rcases hcls with hcls | hcls <;> simp [hcls])
  obtain ⟨v, hv⟩ := bpfAlu_some hf.safe
    (by rcases hcls with hcls | hcls <;> rw [hcls] <;> rfl) vm.regs
  rw [execAlu, if_neg h10, hv] at hr
  cases hr
  rw [h.regs_eq, hv]
  exact ⟨_, rfl, h.advance hf ((update_r10 hf.safe.dst h10).trans h.framed.r10)⟩

theorem execLdimm_together (h : Rel p fp vm m) (hf : Fits p vm pi) (hcls : pi.insn.cls = .ld)
    (hr : execLdimm vm pi.insn = some r) :
    ∃ sm, memStep m pi.insn = some sm ∧ Together p fp r sm := by
  have h10 : pi.insn.dstReg ≠ 10 := hf.safe.dst_ne (by simp [hcls])
  rw [execLdimm, if_neg h10, Regs.set_eq _ hf.safe.dst] at hr
  cases hr
  rw [memStep, hcls]
  simp only [h.regs_eq, Regs.set_eq _ hf.safe.dst, bind_eq_bind, bind_some]
  exact ⟨_, rfl, h.advance hf ((update_r10 hf.safe.dst h10).trans h.framed.r10)⟩

theorem restoreRegs_same {f : Frame} (h6 : f.s6 = regs ⟨6, by decide⟩)
    (h7 : f.s7 = regs ⟨7, by decide⟩) (h8 : f.s8 = regs ⟨8, by decide⟩)
    (h9 : f.s9 = regs ⟨9, by decide⟩) (h10 : f.s10 = regs r10) :
    restoreRegs regs f = some regs := by
  have hset : ∀ {k : Nat} (hk : k < nreg), regs.set k (regs ⟨k, hk⟩) = some regs := fun hk => by
    rw [Regs.set_eq _ hk, update_eq_self]
  simp only [restoreRegs, h6, h7, h8, h9, h10, r10, hset, bind_eq_bind, bind_some]

variable {k : Nat}

theorem Stack.get_eq {s : Stack} (h : k < stackN) : s.get k = some (s ⟨k, h⟩) :=
  dif_pos h

theorem Stack.set_eq {s : Stack} (v : BitVec 32) (h : k < stackN) :
    s.set k v = some (update s ⟨k, h⟩ v) := dif_pos h

theorem execExit_together (h : Rel p fp vm m) (hkept : vm.Kept)
    (hr : execExit vm = some r) : ∃ sm, stepExit m = some sm ∧ Together p fp r sm := by
  have hdepth := h.framed.depth
  rw [execExit] at hr
  rw [stepExit, h.depth_eq]
  split at hr
  next hpos =>
    have hk : vm.retn - 1 < vmCallDepth := by omega
    have hlt : vm.retn - 1 < vm.retn := by omega
    obtain ⟨h6, h7, h8, h9⟩ := hkept _ hk (by omega)
    have h10 : (vm.frames ⟨vm.retn - 1, hk⟩).s10 = vm.regs r10 :=
      (h.framed.saved ⟨_, hk⟩ hlt).trans h.framed.r10.symm
    simp only [Frames.get_eq hk, restoreRegs_same h6 h7 h8 h9 h10, bind_eq_bind,
      bind_some] at hr
    cases hr
    rw [if_pos hpos, Stack.get_eq hk]
    refine ⟨_, rfl, .ran ?_⟩
    exact
      { h with
        framed := ⟨h.framed.r10, le_trans (sub_le _ _) hdepth,
          fun k hk => h.framed.saved k (lt_of_lt_of_le hk (sub_le _ _))⟩
        pc_eq := h.stack_eq _ hk hlt
        depth_eq := rfl
        stack_eq := fun k hk hlt =>
          h.stack_eq k hk (lt_of_lt_of_le hlt (sub_le _ _)) }
  next hzero =>
    cases hr
    rw [if_neg hzero]
    exact ⟨_, rfl, .returned h.regs_eq⟩

theorem execLocalCall_together (h : Rel p fp vm m) (hf : Fits p vm pi) (hcls : pi.insn.cls = .jmp)
    (hcode : pi.insn.code = jmpCall) (hsrc : pi.insn.srcReg = 1)
    (hr : execLocalCall vm pi.target = some r) :
    ∃ sm, stepCall m pi.insn = some sm ∧ Together p fp r sm := by
  obtain ⟨r', hr', hs⟩ := execLocalCall_safe h.framed pi.target
  obtain rfl : r = r' := some.inj (hr.symm.trans hr')
  rw [stepCall, if_pos hsrc, h.depth_eq]
  rcases Nat.lt_or_ge vm.retn vmCallDepth with hk | hfull
  case inr =>
    cases (if_pos hfull).symm.trans hr
    rw [if_pos (show vm.retn ≥ stackN from hfull)]
    exact ⟨_, rfl, .failed ⟨by simp [Vm.refused], by simp [Vm.refused]⟩ ⟨by simp, by simp⟩⟩
  case inl =>
    have hdelta : pi.insn.delta = some pi.insn.imm := by
      rw [Insn.delta, hcls]
      simp [hcode, hsrc, jmpCall, jmpExit]
    have htakes : vm.takes pi = true := by simp [Vm.takes, hcode]
    have hlt : pi.target < 2 ^ 32 := lt_trans (hf.target _ hdelta) hf.size
    cases (execLocalCall_room _ hk).symm.trans hr
    rw [if_neg (show ¬ vm.retn ≥ stackN from Nat.not_le_of_lt hk), Stack.set_eq _ (show vm.retn < stackN from hk)]
    refine ⟨_, rfl, .ran ?_⟩
    exact
      { h with
        framed := ⟨hs.r10, hs.depth, hs.saved⟩
        pc_eq := h.jump_pc hlt (hf.regular.jump _ hdelta htakes)
        depth_eq := rfl
        stack_eq := by
          intro k hk' hlt
          show (update m.stack _ _ _).toNat = (update vm.frames _ _ _).retp
          rcases lt_or_eq_of_le (le_of_lt_succ hlt) with hlt | rfl
          · have hne : (⟨k, hk'⟩ : Fin vmCallDepth) ≠ ⟨vm.retn, hk⟩ := by
              intro he
              exact Nat.ne_of_lt hlt (congrArg Fin.val he)
            have hne' : (⟨k, hk'⟩ : Fin stackN) ≠ ⟨vm.retn, hk⟩ := hne
            rw [update_of_ne hne', update_of_ne hne]
            exact h.stack_eq k hk' hlt
          · rw [update_self, update_self]
            exact h.next_pc hf.size hf.pc }

theorem stepCond_together (h : Rel p fp vm m) (hf : Fits p vm pi)
    (hdelta : pi.insn.delta = some pi.insn.offset) (hja : pi.insn.code ≠ jmpJa)
    (hcall : pi.insn.code ≠ jmpCall) {is32 : Bool} (hwidth : is32 = decide (pi.insn.cls = .jmp32))
    {d s : Word} (hd : vm.regs.get pi.insn.dstReg = some d)
    (hs : srcOperand vm.regs pi.insn (jmpImm is32 pi.insn.imm) = some s)
    (hr : (if bpfCondTaken pi.insn.code is32 d s then some ({ vm with pc := pi.target }.ran [])
      else some ((stepAdvance vm).ran [])) = some r) :
    ∃ sm, stepCond m pi.insn is32 = some sm ∧ Together p fp r sm := by
  have htakes : vm.takes pi = bpfCondTaken pi.insn.code is32 d s := by
    subst hwidth
    simp only [Vm.takes, hja, hcall, or_false, if_false, hd, hs]
  simp only [stepCond, h.regs_eq, hd, hs, bind_eq_bind, bind_some]
  refine ⟨_, rfl, ?_⟩
  cases hb : bpfCondTaken pi.insn.code is32 d s with
  | true =>
    rw [hb] at hr
    cases hr
    exact h.jump hf hdelta (htakes.trans hb)
  | false =>
    rw [hb] at hr
    cases hr
    exact h.moved (h.next_pc hf.size hf.pc)

theorem execJmp_together (h : Rel p fp vm m) (hf : Fits p vm pi) (hcls : pi.insn.cls = .jmp)
    (hr : execJmp vm pi false = some r) :
    ∃ sm, stepInsn m pi.insn = some sm ∧ Together p fp r sm := by
  rw [execJmp] at hr
  rw [stepInsn, hcls]
  split at hr
  next hja =>
    cases hr
    have hdelta : pi.insn.delta = some pi.insn.offset := by
      rw [Insn.delta, hcls]
      simp [hja, jmpJa, jmpCall, jmpExit]
    exact ⟨_, if_pos hja, h.jump hf hdelta (by simp [Vm.takes, hja])⟩
  next hja =>
    split at hr
    next hexit =>
      simp only [if_neg hja, if_pos hexit]
      exact execExit_together h (hf.regular.kept hcls hexit) hr
    next hexit =>
      split at hr
      next hcall =>
        have hsrc : pi.insn.srcReg = 1 := hf.plain.2.2.2 hcls hcall
        rw [if_pos hsrc] at hr
        simp only [if_neg hja, if_neg hexit, if_pos hcall]
        exact execLocalCall_together h hf hcls hcall hsrc hr
      next hcall =>
        have hdelta : pi.insn.delta = some pi.insn.offset := by
          rw [Insn.delta, hcls]
          simp [hcall, hexit]
        obtain ⟨s, hs⟩ := srcOperand_some hf.safe vm.regs (jmpImm false pi.insn.imm)
        have hd := Regs.get_eq (r := vm.regs) hf.safe.dst
        simp only [hs, hd, bind_eq_bind, bind_some] at hr
        simp only [if_neg hja, if_neg hexit, if_neg hcall]
        exact stepCond_together h hf hdelta hja hcall (by simp [hcls]) hd hs hr

theorem execJmp32_together (h : Rel p fp vm m) (hf : Fits p vm pi) (hcls : pi.insn.cls = .jmp32)
    (hr : execJmp vm pi true = some r) :
    ∃ sm, stepInsn m pi.insn = some sm ∧ Together p fp r sm := by
  obtain ⟨hcall, hexit⟩ := hf.regular.jmp32 hcls
  simp only [execJmp, if_neg hexit, if_neg hcall] at hr
  rw [stepInsn, hcls]
  split at hr
  next hja =>
    cases hr
    have hdelta : pi.insn.delta = some pi.insn.imm := by
      rw [Insn.delta, hcls]
      exact if_pos hja
    exact ⟨_, if_pos hja, h.jump hf hdelta (by simp [Vm.takes, hja])⟩
  next hja =>
    have hdelta : pi.insn.delta = some pi.insn.offset := by
      rw [Insn.delta, hcls]
      exact if_neg hja
    obtain ⟨s, hs⟩ := srcOperand_some hf.safe vm.regs (jmpImm true pi.insn.imm)
    have hd := Regs.get_eq (r := vm.regs) hf.safe.dst
    simp only [hs, hd, bind_eq_bind, bind_some] at hr
    simp only [if_neg hja]
    exact stepCond_together h hf hdelta hja hcall (by simp [hcls]) hd hs hr

theorem execInsn_together (h : Rel p fp vm m) (hf : Fits p vm pi)
    (hr : execInsn vm pi = some r) :
    ∃ sm, stepInsn m pi.insn = some sm ∧ Together p fp r sm := by
  obtain ⟨hldx, hst, hstx, -⟩ := hf.plain
  rw [execInsn] at hr
  cases hcls : pi.insn.cls with
  | alu =>
    rw [hcls] at hr
    rw [stepInsn, hcls]
    exact execAlu_together h hf (.inl hcls) hr
  | alu64 =>
    rw [hcls] at hr
    rw [stepInsn, hcls]
    exact execAlu_together h hf (.inr hcls) hr
  | ld =>
    rw [hcls] at hr
    rw [stepInsn, hcls]
    exact execLdimm_together h hf hcls hr
  | ldx => exact absurd hcls hldx
  | st => exact absurd hcls hst
  | stx => exact absurd hcls hstx
  | jmp =>
    rw [hcls] at hr
    exact execJmp_together h hf hcls hr
  | jmp32 =>
    rw [hcls] at hr
    exact execJmp32_together h hf hcls hr

/-! ## Steps and runs -/

/-- What the lockstep needs of a loaded program. -/
structure Program.Simple (p : Program) : Prop where
  safe : p.Safe
  size : p.n < 2 ^ 32
  plain : ∀ i ∈ p.ins, i.Plain
  target : ∀ k pi d, programGet p k = .ok pi → pi.insn.delta = some d → pi.target < p.n

theorem Program.Simple.fits (hp : p.Simple) (h : Rel p fp vm m) (hlive : vm.Live pi)
    (hregular : vm.Regular pi) : Fits p vm pi := by
  have hpc : vm.pc < p.n := h.count ▸ hlive.pc
  have hget : programGet p vm.pc = .ok pi := h.prog ▸ hlive.get
  obtain ⟨pi', hget', hins, hi⟩ := hp.safe.get hpc
  obtain rfl : pi' = pi := Except.ok.inj (hget'.symm.trans hget)
  exact
    { size := hp.size
      pc := hpc
      safe := hi
      plain := hp.plain _ (List.mem_of_getElem? hins)
      regular := hregular
      target := fun d => hp.target _ _ d hget }

theorem vmStep_together (hp : p.Simple) (h : Rel p fp vm m)
    (hregular : ∀ pi, vm.Live pi → vm.Regular pi) (hr : vmStep vm = some r) :
    ∃ sm, bpfStep m = some sm ∧ Together p fp r sm := by
  have hstop : ∀ {state : VmState} {s : Status}, state ≠ .running ∧ state ≠ .returned →
      s ≠ .running ∧ s ≠ .returned → some (vm.stop state) = some r → some (s, m) = bpfStep m →
      ∃ sm, bpfStep m = some sm ∧ Together p fp r sm := by
    rintro state s hv hm ⟨⟩ hs
    exact ⟨_, hs.symm, .failed hv hm⟩
  rw [vmStep_of_live (.inl h.running)] at hr
  rw [stepLive, h.count] at hr
  have hm : bpfStep m = if vm.pc ≥ p.n then some (.err, m)
      else if (vm.budget.toNat : Int) ≤ 0 then some (.exhausted, m)
      else (p.ins[vm.pc]?).bind fun i =>
        stepInsn { m with budget := (vm.budget.toNat : Int) - 1 } i := by
    rw [bpfStep, h.halted, if_neg Bool.false_ne_true, h.pc_eq, h.count_eq, h.budget_eq, h.prog_eq]
  split at hr
  next hpc =>
    rw [if_pos hpc] at hm
    exact hstop (by simp) (by simp) hr hm.symm
  next hpc =>
    rw [if_neg hpc] at hm
    split at hr
    next hbudget =>
      rw [if_pos (by rw [hbudget]; rfl)] at hm
      exact hstop (by simp) (by simp) hr hm.symm
    next hbudget =>
      have hpos : 0 < vm.budget.toNat := by bv_omega
      obtain ⟨pi, hget, hins, -⟩ := hp.safe.get (Nat.lt_of_not_le hpc)
      have hlive : vm.Live pi :=
        ⟨.inl h.running, h.count ▸ Nat.lt_of_not_le hpc, hbudget, h.prog ▸ hget⟩
      have hf := hp.fits h hlive (hregular pi hlive)
      rw [if_neg (by omega), hins, bind_some] at hm
      rw [hm]
      simp only [h.prog, hget] at hr
      have hspent : Rel p fp { vm with budget := vm.budget - 1 }
          { m with budget := (vm.budget.toNat : Int) - 1 } :=
        { h with
          framed := ⟨h.framed.r10, h.framed.depth, h.framed.saved⟩
          budget_eq := by
            show (vm.budget.toNat : Int) - 1 = (vm.budget - 1).toNat
            bv_omega }
      refine execInsn_together hspent ?_ (h.prog ▸ h.count ▸ hr)
      exact { hf with regular := ⟨hf.regular.jmp32, hf.regular.jump, hf.regular.kept⟩ }

variable {vm' : Vm}

theorem Vm.Passes.head (step : vmStep vm = some r) (state : r.state = .running)
    (h : r.vm.Passes vm') : vm.Passes vm' := by
  induction h with
  | refl => exact .snoc .refl step state
  | snoc _ step state ih => exact .snoc ih step state

variable {s : Status} {m' : Machine}

theorem Together.returned_iff
    (h : Together p fp r (s, m')) : r.state = .returned ↔ s = .returned := by
  cases h with
  | ran rel => exact ⟨nofun, nofun⟩
  | returned regs => exact ⟨fun _ => rfl, fun _ => rfl⟩
  | failed vm machine => exact ⟨fun h => absurd h vm.2, fun h => absurd h machine.2⟩

theorem Together.running (h : Together p fp r (s, m')) (hs : r.state = .running ∨ s = .running) :
    r.state = .running ∧ s = .running ∧ Rel p fp r.vm m' := by
  cases h with
  | ran rel => exact ⟨rfl, rfl, rel⟩
  | returned regs => exact absurd hs (by simp)
  | failed vm machine => exact absurd hs (by simp [vm.1, machine.1])

theorem Together.regs_eq
    (h : Together p fp r (s, m')) (hs : s = .returned) : m'.regs = r.vm.regs := by
  cases h with
  | ran rel => cases hs
  | returned regs => exact regs
  | failed vm machine => exact absurd hs machine.2

theorem Machine.Returns.of_vm (hp : p.Simple) (h : vm.Returns regs) :
    ∀ {m : Machine}, Rel p fp vm m →
      (∀ vm' pi, vm.Passes vm' → vm'.Live pi → vm'.Regular pi) → Machine.Returns m regs := by
  induction h with
  | done step state =>
    intro m hrel hregular
    obtain ⟨⟨s, m'⟩, hm, ht⟩ := vmStep_together hp hrel (fun pi => hregular _ pi .refl) step
    obtain rfl := ht.returned_iff.mp state
    rw [← ht.regs_eq rfl]
    exact .done hm
  | more step state _ ih =>
    intro m hrel hregular
    obtain ⟨⟨s, m'⟩, hm, ht⟩ := vmStep_together hp hrel (fun pi => hregular _ pi .refl) step
    obtain ⟨-, rfl, hrel'⟩ := ht.running (.inl state)
    exact .more hm (ih hrel' fun vm' pi hpass => hregular vm' pi (hpass.head step state))

theorem Vm.Returns.of_machine (hp : p.Simple) (h : Machine.Returns m regs) :
    ∀ {vm : Vm}, Rel p fp vm m →
      (∀ vm' pi, vm.Passes vm' → vm'.Live pi → vm'.Regular pi) → vm.Returns regs := by
  have htotal : ∀ {vm : Vm} {m : Machine}, Rel p fp vm m → ∃ r, vmStep vm = some r := by
    intro vm m hrel
    obtain ⟨r, hr, -⟩ := vmStep_safe (hrel.prog ▸ hp.safe) (hrel.prog ▸ hrel.count) hrel.framed
    exact ⟨r, hr⟩
  induction h with
  | @done m m' step =>
    intro vm hrel hregular
    obtain ⟨r, hr⟩ := htotal hrel
    obtain ⟨sm, hm, ht⟩ := vmStep_together hp hrel (fun pi => hregular _ pi .refl) hr
    obtain rfl : sm = (.returned, m') := some.inj (hm.symm.trans step)
    rw [ht.regs_eq rfl]
    exact .done hr (ht.returned_iff.mpr rfl)
  | @more m m' regs step _ ih =>
    intro vm hrel hregular
    obtain ⟨r, hr⟩ := htotal hrel
    obtain ⟨sm, hm, ht⟩ := vmStep_together hp hrel (fun pi => hregular _ pi .refl) hr
    obtain rfl : sm = (.running, m') := some.inj (hm.symm.trans step)
    obtain ⟨state, -, hrel'⟩ := ht.running (.inr rfl)
    exact .more hr state (ih hrel' fun vm' pi hpass => hregular vm' pi (hpass.head hr state))

theorem Vm.Returns.unique {regs' : Regs} (h : vm.Returns regs) (h' : vm.Returns regs') :
    regs = regs' := by
  induction h with
  | done step state =>
    cases h' with
    | done step' _ =>
      obtain rfl := some.inj (step.symm.trans step')
      rfl
    | more step' state' _ =>
      obtain rfl := some.inj (step.symm.trans step')
      cases state.symm.trans state'
  | more step state _ ih =>
    cases h' with
    | done step' state' =>
      obtain rfl := some.inj (step.symm.trans step')
      cases state.symm.trans state'
    | more step' _ rest =>
      obtain rfl := some.inj (step.symm.trans step')
      exact ih rest

/-! ## Loaded programs -/

theorem length_le_bytes (ins : List Insn) : ins.length ≤ (ins.flatMap Insn.bytes).length := by
  induction ins with
  | nil => exact le_refl _
  | cons i rest ih =>
    have hi : 1 ≤ i.bytes.length := by
      rw [Insn.bytes_length]
      split <;> decide
    rw [List.flatMap_cons, List.length_append, List.length_cons]
    omega

theorem Accepted.simple {raw : List Byte} (h : Accepted raw p) (hlen : raw.length < 2 ^ 32)
    (hplain : ∀ i ∈ p.ins, i.Plain) : p.Simple where
  safe := h.safe
  size := by
    rw [h.count]
    refine lt_of_le_of_lt (length_le_bytes p.ins) ?_
    rwa [← h.tiled.bytes]
  plain := hplain
  target := by
    intro k pi d hget hd
    rw [programGet] at hget
    split at hget
    next i r hi hr =>
      cases hget
      obtain ⟨s, hs, -⟩ := ((h.resolved.target k i r d hi hr hd).2 r.target).mpr rfl
      have hlt := (List.getElem?_eq_some_iff.mp hs).1
      rwa [startSlots, slotsFrom_length, ← h.count] at hlt
    next => cases hget

/-- A machine over the same instructions, with the registers and the budget of a
virtual machine. -/
def Vm.machine (vm : Vm) (stack : Stack) : Machine :=
  { machineInit stack vm.prog.ins vm.prog.n with regs := vm.regs, budget := vm.budget.toNat }

/-- The two interpreters return together, and with equal registers, in every run that
meets no instruction on which they part. -/
theorem agree {raw : List Byte} {prof : Option Profile} {fresh : Nat → Byte} {frames : Frames}
    {cfg : List RegionCfg} {budget : Word} (hload : loadProgram raw prof = .ok p)
    (hlen : raw.length < 2 ^ 32) (hplain : ∀ i ∈ p.ins, i.Plain)
    (hcreate : vmCreate fresh frames p cfg budget = .ok vm)
    (hregular : ∀ vm' pi, vm.Passes vm' → vm'.Live pi → vm'.Regular pi) (stack : Stack) :
    ((∃ regs, (vm.machine stack).Returns regs) ↔ ∃ regs, vm.Returns regs) ∧
      ∀ regs regs', (vm.machine stack).Returns regs → vm.Returns regs' → regs = regs' := by
  have hp : p.Simple := (loadProgram_ok hload).simple hlen hplain
  have hrel : Rel p (vm.regs r10) vm (vm.machine stack) := by
    have hinv := vmCreate_inv hcreate
    rw [vmCreate] at hcreate
    split at hcreate
    next => cases hcreate
    next mem hmem =>
      cases hcreate
      exact
        { prog := rfl
          count := rfl
          framed := hinv.framed
          running := rfl
          halted := rfl
          prog_eq := rfl
          count_eq := rfl
          pc_eq := rfl
          regs_eq := rfl
          depth_eq := rfl
          budget_eq := rfl
          stack_eq := fun k _ hk => absurd hk (not_lt_zero k) }
  refine ⟨⟨?_, ?_⟩, ?_⟩
  · rintro ⟨regs, h⟩
    exact ⟨regs, Vm.Returns.of_machine hp h hrel hregular⟩
  · rintro ⟨regs, h⟩
    exact ⟨regs, Machine.Returns.of_vm hp h hrel hregular⟩
  · intro regs regs' h h'
    exact (Vm.Returns.of_machine hp h hrel hregular).unique h'

/-- The two steps of `returnSeven`. -/
theorem returnSeven_passes (h : returnSevenVm.Passes vm') :
    vm' = returnSevenVm ∨ ∃ r, vmStep returnSevenVm = some r ∧ vm' = r.vm := by
  induction h with
  | refl => exact .inl rfl
  | snoc _ step state ih =>
    rcases ih with rfl | ⟨r, hr, rfl⟩
    · exact .inr ⟨_, step, rfl⟩
    · cases hr
      cases step
      cases state

theorem agree_returnSeven :
    ((∃ regs, (returnSevenVm.machine fun _ => 0).Returns regs) ↔
        ∃ regs, returnSevenVm.Returns regs) ∧
      ∀ regs regs', (returnSevenVm.machine fun _ => 0).Returns regs →
        returnSevenVm.Returns regs' → regs = regs' := by
  refine agree load_returnSeven (by decide)
    (by simp [returnSevenProgram, Insn.Plain, jmpExit, jmpCall]) create_returnSeven ?_ fun _ => 0
  intro vm' pi hpass hlive
  rcases returnSeven_passes hpass with rfl | ⟨r, hr, rfl⟩
  · obtain ⟨-, -, -, hget⟩ := hlive
    cases hget
    exact
      { jmp32 := fun h => by cases h
        jump := fun _ h => by cases h
        kept := fun h => by cases h }
  · cases hr
    obtain ⟨-, -, -, hget⟩ := hlive
    cases hget
    exact
      { jmp32 := fun h => by cases h
        jump := fun _ h => by cases h
        kept := fun _ _ k _ hk => by cases hk }

/-- `MOV r0, 7`, a jump over a wide load, the load, and `EXIT`. -/
def jumpOverWide : List Byte :=
  [0xb7, 0, 0, 0, 7, 0, 0, 0, 0x05, 0, 2, 0, 0, 0, 0, 0,
    0x18, 1, 0, 0, 1, 0, 0, 0, 0, 0, 0, 0, 0, 0, 0, 0, 0x95, 0, 0, 0, 0, 0, 0, 0]

def jumpOverWideProgram : Program where
  n := 4
  conf := 3
  ins := [⟨0xb7, .alu64, aluMov, .k, 0, .w, 0, 0, 0, 7, false, 0⟩,
    ⟨0x05, .jmp, jmpJa, .k, 0, .w, 0, 0, 2, 0, false, 0⟩,
    ⟨0x18, .ld, 0, .k, modeImm, .dw, 0, 1, 0, 1, true, 0⟩,
    ⟨0x95, .jmp, jmpExit, .k, 0, .w, 0, 0, 0, 0, false, 0⟩]
  recs := [⟨0, 0, false, false⟩, ⟨1, 3, true, false⟩, ⟨2, 0, false, false⟩, ⟨4, 0, false, false⟩]

/-- The virtual machine returns from `jumpOverWide`, and the machine jumps past the
end of the program. -/
theorem jumpOverWide_parts : ∃ vm,
    loadProgram jumpOverWide none = .ok jumpOverWideProgram ∧
      (∀ i ∈ jumpOverWideProgram.ins, i.Plain) ∧
      vmCreate blankBytes blankFrames jumpOverWideProgram [] 10 = .ok vm ∧
      ¬ ((∃ regs, (vm.machine fun _ => 0).Returns regs) ↔ ∃ regs, vm.Returns regs) := by
  have hplain : ∀ i ∈ jumpOverWideProgram.ins, i.Plain := by
    simp [jumpOverWideProgram, Insn.Plain, jmpJa, jmpExit, jmpCall]
  refine ⟨_, by decide +kernel, hplain, rfl, fun h => ?_⟩
  obtain ⟨regs, hret⟩ := h.mpr ⟨_, .more rfl rfl (.more rfl rfl (.done rfl rfl))⟩
  cases hret with
  | done step => cases step
  | more step rest =>
    cases step
    cases rest with
    | done step => cases step
    | more step rest =>
      cases step
      cases rest with
      | done step | more step rest => cases step

end Bpf
