import EightyNine.Bpf.MemOk
import EightyNine.Bpf.Strict
import EightyNine.Bpf.Vm

/-!
# The sandbox

Whatever the program and whatever the host does in between, a machine stays within
its arrays and within the access its regions permit, and keeps its frame pointer and
its read-only memory (`sandbox`).  One lemma for each instruction says what a step may
do (`Safe`), and `Vm.Inv` is what every step and every host call preserves.
-/

namespace Bpf

open Function Option List

/-! ## Registers -/

/-- The frame pointer. -/
def r10 : Fin nreg := ⟨10, by decide⟩

variable {r : Regs}

theorem Regs.get_eq {i : Nat} (h : i < nreg) : r.get i = some (r ⟨i, h⟩) := dif_pos h

theorem Regs.set_eq {i : Nat} (v : Word) (h : i < nreg) :
    r.set i v = some (update r ⟨i, h⟩ v) := dif_pos h

theorem update_r10 {i : Nat} {v : Word} (h : i < nreg) (h10 : i ≠ 10) :
    update r ⟨i, h⟩ v r10 = r r10 :=
  update_of_ne (fun he => h10 (congrArg Fin.val he).symm) _ _

/-! ## Checked instructions -/

/-- What the loader guarantees of every instruction. -/
structure Insn.Safe (i : Insn) : Prop where
  src : i.srcReg < nreg
  dst : i.dstReg < nreg
  code : i.cls.isAluOrJmp = true → i.code < 0x0E
  r10 : writesR10 i = false

theorem Insn.safe_of_checks {i : Insn} (hv : validateInsn i = .ok ())
    (hc : checkInsn i = .ok ()) : i.Safe := by
  have hreg : i.srcReg < nreg ∧ i.dstReg < nreg := by
    rw [validateInsn] at hv
    split at hv
    next => cases hv
    next hr =>
      simp only [regErr] at hr
      split at hr
      next => cases hr
      next hsrc =>
        split at hr
        next => cases hr
        next hdst =>
          simp only [nreg]
          omega
  rw [checkInsn] at hc
  split at hc
  next => cases hc
  next hcode =>
    split at hc
    · cases hc
    · split at hc
      next => cases hc
      next hr10 =>
        refine ⟨hreg.1, hreg.2, fun h => ?_, Bool.eq_false_iff.mpr hr10⟩
        rw [checkOpcode] at hcode
        split at hcode
        next => cases hcode
        next hn =>
          by_contra hge
          exact hn ⟨h, Nat.le_of_not_lt hge⟩

/-- A program whose records match its instructions, all of them checked. -/
structure Program.Safe (p : Program) : Prop where
  count : p.n = p.ins.length
  recs : p.recs.length = p.ins.length
  safe : ∀ i ∈ p.ins, i.Safe

theorem Accepted.safe {raw : List Byte} {p : Program} (h : Accepted raw p) : p.Safe :=
  ⟨h.count, h.resolved.length_eq, fun i hi => Insn.safe_of_checks (h.valid i hi) (h.checked i hi)⟩

variable {k : Nat}

theorem Program.Safe.get {p : Program} (h : p.Safe) (hk : k < p.n) :
    ∃ pi, programGet p k = .ok pi ∧ p.ins[k]? = some pi.insn ∧ pi.insn.Safe := by
  rw [h.count] at hk
  have hi : p.ins[k]? = some p.ins[k] := getElem?_eq_getElem hk
  have hk' : k < p.recs.length := by rwa [h.recs]
  have hr : p.recs[k]? = some p.recs[k] := getElem?_eq_getElem hk'
  exact ⟨_, by rw [programGet, hi, hr], hi, h.safe _ (getElem_mem hk)⟩

/-! ## What a step may do -/

/-- What every step of a machine with frame pointer `fp` guarantees. -/
structure Safe (fp : Word) (vm : Vm) (r : Stepped) : Prop where
  prog : r.vm.prog = vm.prog
  count : r.vm.n = vm.n
  r10 : r.vm.regs r10 = fp
  depth : r.vm.retn ≤ vmCallDepth
  saved : ∀ k : Fin vmCallDepth, k.val < r.vm.retn → (r.vm.frames k).s10 = fp
  touched : Permitted vm.mem r.touched
  mem : SameExcept (fun q => ⟨q, .write⟩ ∈ r.touched) vm.mem r.vm.mem
  trapped : r.state = .trapped → r.vm.regs = vm.regs ∧ r.vm.mem = vm.mem ∧ r.vm.pc = vm.pc ∧
    r.vm.frames = vm.frames ∧ r.vm.retn = vm.retn

/-- The frame pointer of a machine, in its register and in its frames. -/
structure Vm.Framed (fp : Word) (vm : Vm) : Prop where
  r10 : vm.regs r10 = fp
  depth : vm.retn ≤ vmCallDepth
  saved : ∀ k : Fin vmCallDepth, k.val < vm.retn → (vm.frames k).s10 = fp

variable {fp : Word} {vm : Vm} {i : Insn} {pi : ProgInsn} {n : Nat}

theorem Vm.Framed.safe_of_eq (h : vm.Framed fp) {r : Stepped} (hprog : r.vm.prog = vm.prog)
    (hn : r.vm.n = vm.n) (hregs : r.vm.regs = vm.regs) (hretn : r.vm.retn = vm.retn)
    (hframes : r.vm.frames = vm.frames) (hmem : r.vm.mem = vm.mem)
    (hpc : r.state = .trapped → r.vm.pc = vm.pc) (htouched : Permitted vm.mem r.touched) :
    Safe fp vm r where
  prog := hprog
  count := hn
  r10 := by rw [hregs, h.r10]
  depth := by rw [hretn]; exact h.depth
  saved := by rw [hretn, hframes]; exact h.saved
  touched := htouched
  mem := by rw [hmem]; exact .refl _
  trapped := fun ht => ⟨hregs, hmem, hpc ht, hframes, hretn⟩

variable {touched : List Touch}

theorem Vm.Framed.refused (h : vm.Framed fp)
    (ht : Permitted vm.mem touched) : Safe fp vm { vm.refused with touched := touched } :=
  h.safe_of_eq rfl rfl rfl rfl rfl rfl (fun _ => rfl) ht

theorem Vm.Framed.stop (h : vm.Framed fp) (state : VmState) : Safe fp vm (vm.stop state) :=
  h.safe_of_eq rfl rfl rfl rfl rfl rfl (fun _ => rfl) (.nil _)

/-- An instruction that writes registers and memory, and goes on. -/
theorem Vm.Framed.ran (h : vm.Framed fp) {regs : Regs} {mem : Memory} {pc : Nat}
    (hregs : regs Bpf.r10 = fp) (ht : Permitted vm.mem touched)
    (hmem : SameExcept (fun q => ⟨q, .write⟩ ∈ touched) vm.mem mem) :
    Safe fp vm ({ vm with regs := regs, mem := mem, pc := pc }.ran touched) where
  prog := rfl
  count := rfl
  r10 := hregs
  depth := h.depth
  saved := h.saved
  touched := ht
  mem := hmem
  trapped := nofun

/-! ## The instructions -/

theorem aluOp_some {w : Nat} {code : Nat} (hcode : code < 0x0E) (hend : code ≠ aluEnd)
    (hneg : code ≠ aluNeg) (hmov : code ≠ aluMov) (off : Int) (a b : BitVec w) :
    ∃ r, aluOp code off a b = some r := by
  unfold aluEnd at hend
  unfold aluNeg at hneg
  unfold aluMov at hmov
  have hcases : code = 0 ∨ code = 1 ∨ code = 2 ∨ code = 3 ∨ code = 4 ∨ code = 5 ∨ code = 6 ∨
      code = 7 ∨ code = 9 ∨ code = 10 ∨ code = 12 := by omega
  rcases hcases with rfl | rfl | rfl | rfl | rfl | rfl | rfl | rfl | rfl | rfl | rfl <;>
    exact ⟨_, rfl⟩

theorem aluResult_some (hcode : i.code < 0x0E) (dst src : Word) :
    ∃ r, aluResult i dst src = some r := by
  rw [aluResult]
  split
  next => exact ⟨_, rfl⟩
  next hend =>
    split
    next => exact ⟨_, rfl⟩
    next hneg =>
      split
      next => exact ⟨_, rfl⟩
      next hmov =>
        split
        · exact aluOp_some hcode hend hneg hmov _ _ _
        · obtain ⟨r, hr⟩ := aluOp_some hcode hend hneg hmov i.offset (dst.setWidth 32)
            (src.setWidth 32)
          exact ⟨_, by rw [hr]; rfl⟩

theorem srcOperand_some (hi : i.Safe) (regs : Regs) (imm : Word) :
    ∃ v, srcOperand regs i imm = some v := by
  rw [srcOperand]
  cases i.source with
  | k => exact ⟨_, rfl⟩
  | x => exact ⟨_, Regs.get_eq hi.src⟩

/-- An `ALU` instruction writes its destination register. -/
theorem bpfAlu_some (hi : i.Safe) (hcls : i.cls.isAluOrJmp = true) (regs : Regs) :
    ∃ v, bpfAlu regs i = some (update regs ⟨i.dstReg, hi.dst⟩ v) := by
  obtain ⟨src, hsrc⟩ := srcOperand_some hi regs (seI32 i.imm)
  obtain ⟨v, hv⟩ := aluResult_some (hi.code hcls) (regs ⟨i.dstReg, hi.dst⟩) src
  simp only [bpfAlu, Regs.get_eq hi.dst, hsrc, hv, Regs.set_eq _ hi.dst, bind_eq_bind,
    bind_some]
  exact ⟨v, rfl⟩

theorem execAlu_safe (h : vm.Framed fp) (hi : i.Safe) (hcls : i.cls.isAluOrJmp = true) :
    ∃ r, execAlu vm i = some r ∧ Safe fp vm r := by
  rw [execAlu]
  split
  next => exact ⟨_, rfl, h.refused (.nil _)⟩
  next h10 =>
    obtain ⟨v, hv⟩ := bpfAlu_some hi hcls vm.regs
    exact ⟨_, by rw [hv]; rfl, h.ran ((update_r10 hi.dst h10).trans h.r10) (.nil _) (.refl _)⟩

theorem execLdimm_safe (h : vm.Framed fp) (hi : i.Safe) :
    ∃ r, execLdimm vm i = some r ∧ Safe fp vm r := by
  rw [execLdimm]
  split
  next => exact ⟨_, rfl, h.refused (.nil _)⟩
  next h10 =>
    exact ⟨_, by rw [Regs.set_eq _ hi.dst]; rfl,
      h.ran ((update_r10 hi.dst h10).trans h.r10) (.nil _) (.refl _)⟩

theorem effAddr_eq (hreg : n < nreg) (regs : Regs) (off : Int) :
    effAddr regs n off = some (regs ⟨n, hreg⟩ + seI32 off) := by
  rw [effAddr, Regs.get_eq hreg]
  rfl

theorem execLdx_safe (h : vm.Framed fp) (hi : i.Safe) :
    ∃ r, execLdx vm i = some r ∧ Safe fp vm r := by
  rw [execLdx]
  split
  next => exact ⟨_, rfl, h.refused (.nil _)⟩
  next h10 =>
    simp only [effAddr_eq hi.src, Regs.set_eq _ hi.dst, bind_eq_bind, bind_some]
    split
    next => exact ⟨_, rfl, h.refused (.nil _)⟩
    next v touched hload =>
      refine ⟨_, rfl, h.ran ((update_r10 hi.dst h10).trans h.r10) (memLoad_permitted hload) ?_⟩
      exact .refl _

theorem execStore_safe (h : vm.Framed fp) (hi : i.Safe) (val : Word) :
    ∃ r, execStore vm i val = some r ∧ Safe fp vm r := by
  simp only [execStore, effAddr_eq hi.dst, bind_eq_bind, bind_some]
  split
  next => exact ⟨_, rfl, h.refused (.nil _)⟩
  next mem touched hstore =>
    exact ⟨_, rfl, h.ran h.r10 (memStore_permitted hstore) (memStore_same hstore)⟩

theorem atomicRegs_some (hi : i.Safe) (hcls : i.cls = .stx) (hmode : i.mode = modeAtomic)
    (regs : Regs) (old : Word) : ∃ regs', atomicRegs regs i old = some regs' ∧
      regs' r10 = regs r10 := by
  have hw : atomicWritesSrc i = true → i.srcReg ≠ 10 := by
    intro hw hsrc
    have := hi.r10
    simp [writesR10, hcls, hmode, hw, hsrc] at this
  rw [atomicRegs]
  split
  next =>
    exact ⟨_, Regs.set_eq old (by decide), update_r10 (by decide) (by decide)⟩
  next hcmp =>
    split
    next hfetch =>
      refine ⟨_, Regs.set_eq old hi.src, update_r10 hi.src (hw ?_)⟩
      simp [atomicWritesSrc, hfetch, hcmp]
    next => exact ⟨_, rfl, rfl⟩

theorem execAtomic_safe (h : vm.Framed fp) (hi : i.Safe) (hcls : i.cls = .stx)
    (hmode : i.mode = modeAtomic) : ∃ r, execAtomic vm i = some r ∧ Safe fp vm r := by
  simp only [execAtomic, effAddr_eq hi.dst, Regs.get_eq hi.src,
    Regs.get_eq (show 0 < nreg by decide), bind_eq_bind, bind_some]
  split
  next => exact ⟨_, rfl, h.refused (.nil _)⟩
  next old loaded hload =>
    split
    next => exact ⟨_, rfl, h.refused (memLoad_permitted hload)⟩
    next mem stored hstore =>
      obtain ⟨regs, hregs, h10⟩ := atomicRegs_some hi hcls hmode vm.regs
        (atomicValues i old (vm.regs ⟨i.srcReg, hi.src⟩) (vm.regs ⟨0, by decide⟩)).2
      refine ⟨_, by rw [hregs]; rfl, h.ran (h10.trans h.r10)
        (memLoadStore_permitted hload hstore) ((memStore_same hstore).mono fun q hq => ?_)⟩
      exact mem_append.mpr (.inr hq)

/-! ## Calls and jumps -/

variable {f : Frames}

theorem Frames.get_eq (h : k < vmCallDepth) : f.get k = some (f ⟨k, h⟩) :=
  dif_pos h

theorem Frames.set_eq (v : Frame) (h : k < vmCallDepth) :
    f.set k v = some (update f ⟨k, h⟩ v) := dif_pos h

theorem restoreRegs_some (regs : Regs) (f : Frame) :
    ∃ regs', restoreRegs regs f = some regs' ∧ regs' r10 = f.s10 := by
  simp only [restoreRegs, Regs.set_eq _ (show 6 < nreg by decide),
    Regs.set_eq _ (show 7 < nreg by decide), Regs.set_eq _ (show 8 < nreg by decide),
    Regs.set_eq _ (show 9 < nreg by decide), Regs.set_eq _ (show 10 < nreg by decide),
    bind_eq_bind, bind_some]
  refine ⟨_, rfl, ?_⟩
  rw [r10, update_self]

/-- A return restores the frame pointer the call has saved. -/
theorem execExit_safe (h : vm.Framed fp) : ∃ r, execExit vm = some r ∧ Safe fp vm r := by
  have hdepth := h.depth
  rw [execExit]
  split
  next hpos =>
    have hk : vm.retn - 1 < vmCallDepth := by omega
    have hlt : vm.retn - 1 < vm.retn := by omega
    obtain ⟨regs, hregs, h10⟩ := restoreRegs_some vm.regs (vm.frames ⟨_, hk⟩)
    simp only [Frames.get_eq hk, hregs, bind_eq_bind, bind_some]
    refine ⟨_, rfl, ?_⟩
    exact
      { prog := rfl
        count := rfl
        r10 := h10.trans (h.saved ⟨_, hk⟩ hlt)
        depth := Nat.le_trans (Nat.sub_le _ _) hdepth
        saved := fun k hlt => h.saved k (Nat.lt_of_lt_of_le hlt (Nat.sub_le _ _))
        touched := .nil _
        mem := .refl _
        trapped := nofun }
  next => exact ⟨_, rfl, h.stop .returned⟩

/-- A local call with room for its frame. -/
theorem execLocalCall_room (target : Nat) (h : vm.retn < vmCallDepth) :
    execLocalCall vm target = some (Vm.ran { vm with
      frames := update vm.frames ⟨vm.retn, h⟩ ⟨vm.pc + 1, vm.regs ⟨6, by decide⟩,
        vm.regs ⟨7, by decide⟩, vm.regs ⟨8, by decide⟩, vm.regs ⟨9, by decide⟩, vm.regs r10⟩
      retn := vm.retn + 1
      pc := target } []) := by
  simp only [execLocalCall, if_neg (Nat.not_le_of_lt h), Regs.get_eq (show 6 < nreg by decide),
    Regs.get_eq (show 7 < nreg by decide), Regs.get_eq (show 8 < nreg by decide),
    Regs.get_eq (show 9 < nreg by decide), Regs.get_eq (show 10 < nreg by decide),
    Frames.set_eq _ h, bind_eq_bind, bind_some]
  rfl

theorem execLocalCall_safe (h : vm.Framed fp) (target : Nat) :
    ∃ r, execLocalCall vm target = some r ∧ Safe fp vm r := by
  rcases Nat.lt_or_ge vm.retn vmCallDepth with hk | hfull
  case inr => exact ⟨_, if_pos hfull, h.refused (.nil _)⟩
  case inl =>
    refine ⟨_, execLocalCall_room target hk, ?_⟩
    exact
      { prog := rfl
        count := rfl
        r10 := h.r10
        depth := hk
        saved := by
          intro k hlt
          rcases Decidable.eq_or_ne k ⟨vm.retn, hk⟩ with rfl | hne
          · exact (congrArg Frame.s10 (update_self _ _ _)).trans h.r10
          · have hval : k.val ≠ vm.retn := fun he => hne (Fin.ext he)
            have hlt' : k.val < vm.retn + 1 := hlt
            exact (congrArg Frame.s10 (update_of_ne hne _ _)).trans (h.saved k (by omega))
        touched := .nil _
        mem := .refl _
        trapped := nofun }

theorem execHelper_safe (h : vm.Framed fp) (im : BitVec 32) :
    ∃ r, execHelper vm im = some r ∧ Safe fp vm r := by
  simp only [execHelper, Regs.get_eq (show 1 < nreg by decide), bind_eq_bind, bind_some]
  split
  · exact ⟨_, rfl, h.refused (.nil _)⟩
  · exact ⟨_, rfl, h.safe_of_eq rfl rfl rfl rfl rfl rfl nofun (.nil _)⟩

theorem execJmp_safe (h : vm.Framed fp) (hi : pi.insn.Safe) (is32 : Bool) :
    ∃ r, execJmp vm pi is32 = some r ∧ Safe fp vm r := by
  have hran : ∀ pc, Safe fp vm ({ vm with pc := pc }.ran []) := fun pc =>
    h.ran h.r10 (.nil _) (.refl _)
  rw [execJmp]
  split
  · exact ⟨_, rfl, hran _⟩
  split
  · exact execExit_safe h
  split
  · split
    · exact execLocalCall_safe h _
    · exact execHelper_safe h _
  · obtain ⟨s, hs⟩ := srcOperand_some hi vm.regs (jmpImm is32 pi.insn.imm)
    simp only [hs, Regs.get_eq hi.dst, bind_eq_bind, bind_some]
    split <;> exact ⟨_, rfl, hran _⟩

/-! ## A step -/

theorem execInsn_safe (h : vm.Framed fp) (hi : pi.insn.Safe) :
    ∃ r, execInsn vm pi = some r ∧ Safe fp vm r := by
  rw [execInsn]
  split
  next hcls => exact execAlu_safe h hi (by rw [hcls]; rfl)
  next hcls => exact execAlu_safe h hi (by rw [hcls]; rfl)
  next => exact execLdimm_safe h hi
  next => exact execLdx_safe h hi
  next => exact execStore_safe h hi _
  next hcls =>
    split
    next hmode => exact execAtomic_safe h hi hcls hmode
    next =>
      rw [Regs.get_eq hi.src]
      exact execStore_safe h hi _
  next => exact execJmp_safe h hi false
  next => exact execJmp_safe h hi true

theorem stepLive_safe (hp : vm.prog.Safe) (hn : vm.n = vm.prog.n) (h : vm.Framed fp) :
    ∃ r, stepLive vm = some r ∧ Safe fp vm r := by
  rw [stepLive]
  split
  next => exact ⟨_, rfl, h.stop .trapped⟩
  next hpc =>
    split
    · exact ⟨_, rfl, h.stop .exhausted⟩
    · obtain ⟨pi, hget, -, hi⟩ := hp.get (hn ▸ Nat.lt_of_not_le hpc)
      have hspent : Vm.Framed fp { vm with budget := vm.budget - 1 } :=
        ⟨h.r10, h.depth, h.saved⟩
      obtain ⟨r, hr, hs⟩ := execInsn_safe hspent hi
      simp only [hget]
      exact ⟨r, hr, hs.prog, hs.count, hs.r10, hs.depth, hs.saved, hs.touched, hs.mem, hs.trapped⟩

theorem vmStep_safe (hp : vm.prog.Safe) (hn : vm.n = vm.prog.n) (h : vm.Framed fp) :
    ∃ r, vmStep vm = some r ∧ Safe fp vm r := by
  have hsame : ∀ state, Safe fp vm ⟨state, vm, []⟩ := fun state =>
    h.safe_of_eq rfl rfl rfl rfl rfl rfl (fun _ => rfl) (.nil _)
  rw [vmStep]
  split
  · exact ⟨_, rfl, hsame _⟩
  · exact ⟨_, rfl, hsame _⟩
  · exact ⟨_, rfl, hsame _⟩
  · exact stepLive_safe hp hn h
  · exact stepLive_safe hp hn h

/-! ## Runs -/

/-- The host calls change neither the frames nor the frame pointer. -/
theorem Vm.Framed.host (h : vm.Framed fp) (ev : Event) : (vm.host ev).Framed fp := by
  cases ev with
  | step => exact h
  | regCap type rights =>
    rw [Vm.host, vmRegCap]
    cases capsAlloc vm.caps type rights with
    | error _ => exact h
    | ok c => exact ⟨h.r10, h.depth, h.saved⟩
  | revokeCap handle =>
    rw [Vm.host, vmRevokeCap]
    cases capsRevoke vm.caps handle with
    | error _ => exact h
    | ok c => exact ⟨h.r10, h.depth, h.saved⟩
  | setImportGate type rights | setBudget budget => exact ⟨h.r10, h.depth, h.saved⟩
  | complete status =>
    rw [Vm.host, vmComplete]
    split
    next vm' hvm =>
      split at hvm
      · cases hvm
      · cases hvm
        exact ⟨h.r10, h.depth, h.saved⟩
    next => exact h

theorem Vm.host_eq (vm : Vm) (ev : Event) :
    (vm.host ev).prog = vm.prog ∧ (vm.host ev).n = vm.n ∧ (vm.host ev).mem = vm.mem := by
  cases ev with
  | step | setImportGate type rights | setBudget budget => exact ⟨rfl, rfl, rfl⟩
  | regCap type rights =>
    rw [Vm.host, vmRegCap]
    cases capsAlloc vm.caps type rights <;> exact ⟨rfl, rfl, rfl⟩
  | revokeCap handle =>
    rw [Vm.host, vmRevokeCap]
    cases capsRevoke vm.caps handle <;> exact ⟨rfl, rfl, rfl⟩
  | complete status =>
    rw [Vm.host, vmComplete]
    split
    next vm' hvm =>
      split at hvm
      · cases hvm
      · cases hvm
        exact ⟨rfl, rfl, rfl⟩
    next => exact ⟨rfl, rfl, rfl⟩

/-- A byte of a region the guest may write. -/
def Writable (cfg : List RegionCfg) (q : Ptr) : Prop :=
  ∃ rc, cfg[q.region]? = some rc ∧ Access.write ∈ kindAcc rc.kind

/-- The touched bytes lie in one region of the configuration, which permits them. -/
def PermittedBy (cfg : List RegionCfg) (touched : List Touch) : Prop :=
  ∃ j, ∀ t ∈ touched, t.ptr.region = j ∧ ∃ rc, cfg[j]? = some rc ∧
    t.ptr.offset < rc.len.toNat ∧ t.acc ∈ kindAcc rc.kind

/-- What every event preserves of a machine for the program `p` and the regions `cfg`. -/
structure Vm.Inv (p : Program) (fresh : Nat → Byte) (cfg : List RegionCfg) (fp : Word)
    (vm : Vm) : Prop where
  prog : vm.prog = p
  count : vm.n = p.n
  framed : vm.Framed fp
  mem : SameExcept (Writable cfg) (cfg.map (regionOf fresh)) vm.mem

variable {p : Program} {fresh : Nat → Byte} {cfg : List RegionCfg}

variable {j : Nat}

/-- The regions of a machine are those of its configuration. -/
theorem Vm.Inv.region (h : vm.Inv p fresh cfg fp) {r : Region}
    (hr : vm.mem[j]? = some r) : ∃ rc, cfg[j]? = some rc ∧ r.len = rc.len ∧
      r.acc = kindAcc rc.kind := by
  have hlt : j < (cfg.map (regionOf fresh)).length := by
    rw [← h.mem.length_eq]
    exact (List.getElem?_eq_some_iff.mp hr).1
  rw [length_map] at hlt
  have hrc : cfg[j]? = some cfg[j] := getElem?_eq_getElem hlt
  have hmap : (cfg.map (regionOf fresh))[j]? = some (regionOf fresh cfg[j]) := by
    rw [getElem?_map, hrc, map_some]
  obtain ⟨r', hr', -, hlen, hacc, -⟩ := h.mem.region j _ hmap
  obtain rfl : r = r' := some.inj (hr.symm.trans hr')
  exact ⟨cfg[j], hrc, hlen, hacc⟩

theorem Vm.Inv.permitted (h : vm.Inv p fresh cfg fp)
    (ht : Permitted vm.mem touched) : PermittedBy cfg touched := by
  obtain ⟨j, hj⟩ := ht
  refine ⟨j, fun t ht => ?_⟩
  obtain ⟨hregion, r, hr, hoff, hacc⟩ := hj t ht
  obtain ⟨rc, hrc, hlen, haccs⟩ := h.region hr
  exact ⟨hregion, rc, hrc, hlen ▸ hoff, haccs ▸ hacc⟩

theorem Vm.Inv.step (hp : p.Safe) (h : vm.Inv p fresh cfg fp) :
    ∃ r, vmStep vm = some r ∧ Safe fp vm r ∧ r.vm.Inv p fresh cfg fp := by
  obtain ⟨r, hr, hs⟩ := vmStep_safe (h.prog ▸ hp) (h.prog ▸ h.count) h.framed
  refine ⟨r, hr, hs, hs.prog.trans h.prog, hs.count.trans h.count,
    ⟨hs.r10, hs.depth, hs.saved⟩, h.mem.trans (hs.mem.mono fun q hq => ?_)⟩
  obtain ⟨j, hj⟩ := h.permitted hs.touched
  obtain ⟨rfl, rc, hrc, -, hacc⟩ := hj _ hq
  exact ⟨rc, hrc, hacc⟩

theorem Vm.Inv.event (hp : p.Safe) (h : vm.Inv p fresh cfg fp) (ev : Event) :
    ∃ vm', vm.event ev = some vm' ∧ vm'.Inv p fresh cfg fp := by
  have hhost : (vm.host ev).Inv p fresh cfg fp := by
    obtain ⟨hprog, hn, hmem⟩ := vm.host_eq ev
    exact ⟨hprog.trans h.prog, hn.trans h.count, h.framed.host ev, hmem ▸ h.mem⟩
  cases ev with
  | step =>
    obtain ⟨r, hr, -, hinv⟩ := h.step hp
    exact ⟨r.vm, by rw [Vm.event, hr]; rfl, hinv⟩
  | _ => exact ⟨_, rfl, hhost⟩

theorem Vm.Inv.run (hp : p.Safe) (events : List Event) : ∀ {vm : Vm}, vm.Inv p fresh cfg fp →
    ∃ vm', vm.run events = some vm' ∧ vm'.Inv p fresh cfg fp := by
  induction events with
  | nil => exact fun {vm} h => ⟨vm, rfl, h⟩
  | cons ev events ih =>
    intro vm h
    obtain ⟨vm', hev, h'⟩ := h.event hp ev
    obtain ⟨vm'', hrun, h''⟩ := ih h'
    exact ⟨vm'', by rw [Vm.run, foldlM_cons, hev]; exact hrun, h''⟩

theorem vmCreate_inv {frames : Frames} {budget : Word}
    (h : vmCreate fresh frames p cfg budget = .ok vm) :
    vm.Inv p fresh cfg (vm.regs r10) := by
  rw [vmCreate] at h
  split at h
  next => cases h
  next mem hmem =>
    cases h
    obtain rfl := memoryCreate_ok hmem
    exact ⟨rfl, rfl, ⟨rfl, Nat.zero_le _, fun k hk => absurd hk (Nat.not_lt_zero _)⟩, .refl _⟩

/-- The bytes of a read-only region are those it was created with. -/
theorem Vm.Inv.readonly (h : vm.Inv p fresh cfg fp) {rc : RegionCfg}
    (hrc : cfg[j]? = some rc) (hkind : rc.kind = .input ∨ rc.kind = .const) (k : Nat) :
    vm.mem.byteAt ⟨j, k⟩ = initBytes fresh rc k := by
  have hmap : (cfg.map (regionOf fresh))[j]? = some (regionOf fresh rc) := by
    rw [getElem?_map, hrc, map_some]
  obtain ⟨r', hr', -, -, -, hbytes⟩ := h.mem.region j _ hmap
  have hro : ¬ Writable cfg ⟨j, k⟩ := by
    rintro ⟨rc', hrc', hacc⟩
    obtain rfl : rc = rc' := some.inj (hrc.symm.trans hrc')
    rcases hkind with hk | hk <;> rw [hk] at hacc <;> simp [kindAcc] at hacc
  rw [Memory.byteAt, hr']
  exact hbytes k hro

/-- In every state a machine reaches, by steps and host calls in any order, the frame
pointer is the initial one, the calls are no deeper than the stack, and the read-only
memory is as it was created.  The next step stays within the arrays, touches bytes of
one region that permits the access and changes no others, and changes nothing of the
guest if it traps. -/
theorem sandbox {raw : List Byte} {prof : Option Profile} {frames : Frames} {budget : Word}
    {vm₀ : Vm} (hload : loadProgram raw prof = .ok p)
    (hcreate : vmCreate fresh frames p cfg budget = .ok vm₀) (events : List Event) :
    ∃ vm, vm₀.run events = some vm ∧ vm.regs r10 = vm₀.regs r10 ∧
      vm.retn ≤ vmCallDepth ∧
      (∀ (j : Nat) (rc : RegionCfg), cfg[j]? = some rc → rc.kind = .input ∨ rc.kind = .const →
        ∀ k < rc.len.toNat, vm.mem.byteAt ⟨j, k⟩ = initBytes fresh rc k) ∧
      ∃ r, vmStep vm = some r ∧
        PermittedBy cfg r.touched ∧
        SameExcept (fun q => ⟨q, .write⟩ ∈ r.touched) vm.mem r.vm.mem ∧
        (r.state = .trapped → r.vm.regs = vm.regs ∧ r.vm.mem = vm.mem ∧ r.vm.pc = vm.pc ∧
          r.vm.frames = vm.frames ∧ r.vm.retn = vm.retn) := by
  have hp : p.Safe := (loadProgram_ok hload).safe
  obtain ⟨vm, hrun, hinv⟩ := Vm.Inv.run hp events (vmCreate_inv hcreate)
  obtain ⟨r, hr, hs, -⟩ := hinv.step hp
  exact ⟨vm, hrun, hinv.framed.r10, hinv.framed.depth,
    fun j rc hrc hkind k _ => hinv.readonly hrc hkind k,
    r, hr, hinv.permitted hs.touched, hs.mem, hs.trapped⟩

/-- An input region of one byte and a stack of eight. -/
def smallRegions : List RegionCfg :=
  [⟨.input, 0x1000, 1, some fun _ => 42, 1⟩, ⟨.stack, 0x2000, 8, none, 0⟩]

def blankFrames : Frames := fun _ => ⟨0, 0, 0, 0, 0, 0⟩

def blankBytes (_ : Nat) : Byte := 0

/-- The machine of `returnSeven` over the small regions. -/
def returnSevenVm : Vm where
  prog := returnSevenProgram
  n := 2
  pc := 0
  budget := 10
  regs := entryRegs 0x1000 1 0x2000
  frames := blankFrames
  retn := 0
  state := .running
  ctxBase := 0x1000
  ctxLen := 1
  mem := smallRegions.map (regionOf blankBytes)
  caps := capsCreate vmCaps
  reqType := 0
  reqRights := 0
  hasReq := false
  pendingImport := 0

theorem create_returnSeven :
    vmCreate blankBytes blankFrames returnSevenProgram smallRegions 10 = .ok returnSevenVm := rfl

/-- A local call that stores to the stack, then a helper call with handle 0. -/
def work : List Byte :=
  [0x85, 0x10, 0, 0, 3, 0, 0, 0, 0xb7, 1, 0, 0, 0, 0, 0, 0, 0x85, 0, 0, 0, 5, 0, 0, 0,
    0x95, 0, 0, 0, 0, 0, 0, 0, 0x7b, 0x1a, 0, 0, 0, 0, 0, 0, 0x95, 0, 0, 0, 0, 0, 0, 0]

def workProgram : Program where
  n := 6
  conf := 3
  ins := [⟨0x85, .jmp, jmpCall, .k, 0, .w, 1, 0, 0, 3, false, 0⟩,
    ⟨0xb7, .alu64, aluMov, .k, 0, .w, 0, 1, 0, 0, false, 0⟩,
    ⟨0x85, .jmp, jmpCall, .k, 0, .w, 0, 0, 0, 5, false, 0⟩,
    ⟨0x95, .jmp, jmpExit, .k, 0, .w, 0, 0, 0, 0, false, 0⟩,
    ⟨0x7b, .stx, 0, .k, 3, .dw, 1, 10, 0, 0, false, 0⟩,
    ⟨0x95, .jmp, jmpExit, .k, 0, .w, 0, 0, 0, 0, false, 0⟩]
  recs := [⟨0, 4, true, true⟩, ⟨1, 0, false, false⟩, ⟨2, 0, false, false⟩, ⟨3, 0, false, false⟩,
    ⟨4, 0, false, false⟩, ⟨5, 0, false, false⟩]

theorem load_work : loadProgram work none = .ok workProgram := by decide +kernel

def workVm : Vm := { returnSevenVm with prog := workProgram, n := 6 }

theorem create_work : vmCreate blankBytes blankFrames workProgram smallRegions 10 = .ok workVm := rfl

/-- The step after the local call writes the stack. -/
theorem sandbox_work :
    ((workVm.run [.step]).bind vmStep).map (fun r => r.touched.length) = some 8 ∧
    ∃ vm, workVm.run [.step] = some vm ∧ vm.regs r10 = 0x2000 ∧
      vm.retn ≤ vmCallDepth ∧
      (∀ (j : Nat) (rc : RegionCfg), smallRegions[j]? = some rc →
        rc.kind = .input ∨ rc.kind = .const →
        ∀ k < rc.len.toNat, vm.mem.byteAt ⟨j, k⟩ = initBytes blankBytes rc k) ∧
      ∃ r, vmStep vm = some r ∧
        PermittedBy smallRegions r.touched ∧
        SameExcept (fun q => ⟨q, .write⟩ ∈ r.touched) vm.mem r.vm.mem ∧
        (r.state = .trapped → r.vm.regs = vm.regs ∧ r.vm.mem = vm.mem ∧ r.vm.pc = vm.pc ∧
          r.vm.frames = vm.frames ∧ r.vm.retn = vm.retn) :=
  ⟨by decide +kernel, sandbox load_work create_work [.step]⟩

end Bpf
