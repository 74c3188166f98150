import EightyNine.Bpf.Step

/-!
# Local calls are bracketed

`Vm.callers` follows a run and keeps the machines that entered a local call and were not
returned to yet, innermost first.  `Saves` says that the frames of a machine are those of
its callers; `calls_bracketed` reads off what an `EXIT` and a local call do.
-/

namespace Bpf

open Option List

/-- The instruction the next step executes. -/
def Vm.fetch (vm : Vm) : Option ProgInsn :=
  if (vm.state = .running ∨ vm.state = .exhausted) ∧ vm.pc < vm.n ∧ vm.budget ≠ 0 then
    (programGet vm.prog vm.pc).toOption
  else none

def ProgInsn.isLocalCall (pi : ProgInsn) : Bool :=
  (pi.insn.cls = .jmp ∨ pi.insn.cls = .jmp32) ∧ pi.insn.code = jmpCall ∧ pi.insn.srcReg = 1

def ProgInsn.isExit (pi : ProgInsn) : Bool :=
  (pi.insn.cls = .jmp ∨ pi.insn.cls = .jmp32) ∧ pi.insn.code = jmpExit

/-- The pending callers after a step of `vm` that returned `r`.  A local call that goes on
makes its machine a caller, and an `EXIT` takes the innermost caller away. -/
def Vm.callersStep (vm : Vm) (r : Stepped) (callers : List Vm) : List Vm :=
  match vm.fetch with
  | none => callers
  | some pi =>
    if pi.isExit then callers.tail
    else if pi.isLocalCall ∧ r.state = .running then vm :: callers
    else callers

def Vm.callersEvent (s : Vm × List Vm) (ev : Event) : Option (Vm × List Vm) :=
  match ev with
  | .step => (vmStep s.1).map fun r => (r.vm, s.1.callersStep r s.2)
  | ev => some (s.1.host ev, s.2)

/-- The machine after some events, and its pending callers. -/
def Vm.callers (vm : Vm) (events : List Event) : Option (Vm × List Vm) :=
  events.foldlM Vm.callersEvent (vm, [])

/-! ## The instruction of a step -/

variable {vm : Vm} {pi : ProgInsn} {r : Stepped}

theorem Vm.fetch_eq_some : vm.fetch = some pi ↔ vm.Live pi := by
  rw [Vm.fetch]
  split
  next h =>
    constructor
    · intro hget
      refine ⟨h.1, h.2.1, h.2.2, ?_⟩
      cases hg : programGet vm.prog vm.pc with
      | error e =>
        rw [hg] at hget
        cases hget
      | ok qi =>
        rw [hg] at hget
        rw [some.inj hget]
    · intro hl
      rw [hl.get]
      rfl
  next h =>
    constructor
    · intro hn
      cases hn
    · exact fun hl => absurd ⟨hl.state, hl.pc, hl.budget⟩ h

theorem Vm.calls_iff : vm.Calls pi ↔ vm.fetch = some pi ∧ pi.isLocalCall = true := by
  rw [Vm.fetch_eq_some, ProgInsn.isLocalCall, decide_eq_true_iff]
  exact ⟨fun h => ⟨h.live, h.jump, h.code, h.src⟩, fun h => ⟨h.1, h.2.1, h.2.2.1, h.2.2.2⟩⟩

theorem Vm.exits_iff : vm.Exits pi ↔ vm.fetch = some pi ∧ pi.isExit = true := by
  rw [Vm.fetch_eq_some, ProgInsn.isExit, decide_eq_true_iff]
  exact ⟨fun h => ⟨h.live, h.jump, h.code⟩, fun h => ⟨h.1, h.2.1, h.2.2⟩⟩

theorem ProgInsn.isExit_of_isLocalCall (h : pi.isLocalCall = true) : pi.isExit = false := by
  rw [ProgInsn.isLocalCall, decide_eq_true_iff] at h
  rw [ProgInsn.isExit, decide_eq_false_iff_not]
  rintro ⟨-, hexit⟩
  exact absurd (h.2.1.symm.trans hexit) (by decide)

theorem Vm.Calls.callersStep (h : vm.Calls pi) (r : Stepped) (callers : List Vm) :
    vm.callersStep r callers = if r.state = .running then vm :: callers else callers := by
  obtain ⟨hfetch, hcall⟩ := Vm.calls_iff.mp h
  simp only [Vm.callersStep, hfetch, ProgInsn.isExit_of_isLocalCall hcall, hcall, true_and,
    Bool.false_eq_true, if_false]

theorem Vm.Exits.callersStep (h : vm.Exits pi) (r : Stepped) (callers : List Vm) :
    vm.callersStep r callers = callers.tail := by
  obtain ⟨hfetch, hexit⟩ := Vm.exits_iff.mp h
  simp only [Vm.callersStep, hfetch, hexit, if_true]

theorem Vm.callersStep_other (hcalls : ∀ pi, ¬ vm.Calls pi) (hexits : ∀ pi, ¬ vm.Exits pi)
    (r : Stepped) (callers : List Vm) : vm.callersStep r callers = callers := by
  rw [Vm.callersStep]
  cases hfetch : vm.fetch with
  | none => rfl
  | some pi =>
    have hexit : ¬ pi.isExit = true := fun he => hexits pi (Vm.exits_iff.mpr ⟨hfetch, he⟩)
    have hcall : ¬ (pi.isLocalCall = true ∧ r.state = .running) :=
      fun hc => hcalls pi (Vm.calls_iff.mpr ⟨hfetch, hc.1⟩)
    simp only [hexit, hcall, Bool.false_eq_true, if_false]

/-! ## The saved frames -/

/-- The frames below the depth of the callers are those the callers saved. -/
def Saves (frames : Frames) : List Vm → Prop
  | [] => True
  | caller :: callers =>
    (∃ h : callers.length < vmCallDepth, frames ⟨callers.length, h⟩ = caller.frame) ∧
      Saves frames callers

variable {f : Frame}

/-- A write at or above the depth of the callers keeps their frames. -/
theorem Saves.update {frames : Frames} {k : Fin vmCallDepth} : ∀ {callers : List Vm},
    Saves frames callers → callers.length ≤ k.val → Saves (Function.update frames k f) callers
  | [], _, _ => trivial
  | caller :: callers, ⟨⟨hlt, hframe⟩, hrest⟩, hk => by
    have hne : (⟨callers.length, hlt⟩ : Fin vmCallDepth) ≠ k := by
      intro he
      have hval : callers.length = k.val := congrArg Fin.val he
      rw [← hval, length_cons] at hk
      exact absurd hk (Nat.not_succ_le_self _)
    refine ⟨⟨hlt, ?_⟩, Saves.update hrest (Nat.le_of_succ_le hk)⟩
    rw [Function.update_of_ne hne, hframe]

/-- The callers of a machine, and the frames it has for them. -/
structure Vm.Bracketed (vm : Vm) (callers : List Vm) : Prop where
  depth : vm.retn = callers.length
  saves : Saves vm.frames callers

variable {vm' : Vm} {callers : List Vm}

theorem Vm.Bracketed.keeps (h : vm.Bracketed callers)
    (hframes : vm'.frames = vm.frames) (hretn : vm'.retn = vm.retn) : vm'.Bracketed callers :=
  ⟨hretn.trans h.depth, hframes ▸ h.saves⟩

theorem Vm.Bracketed.step (h : vm.Bracketed callers)
    (hr : vmStep vm = some r) : r.vm.Bracketed (vm.callersStep r callers) := by
  cases vmStep_cases hr with
  | deep pi calls full state kept =>
    rw [calls.callersStep, if_neg (by rw [state]; decide)]
    exact h.keeps (by rw [kept]) (by rw [kept])
  | call pi calls room called =>
    rw [calls.callersStep, if_pos called.running]
    refine ⟨called.retn.trans (congrArg Nat.succ h.depth), ⟨h.depth ▸ room, ?_⟩, ?_⟩
    · rw [called.saved room]
      simp only [← h.depth, Function.update_self]
    · rw [called.saved room]
      exact h.saves.update (Nat.le_of_eq h.depth.symm)
  | top pi exits none state keeps =>
    rw [exits.callersStep]
    have hnil : callers = [] := eq_nil_of_length_eq_zero (h.depth.symm.trans none)
    rw [hnil] at h ⊢
    exact h.keeps keeps.frames keeps.retn
  | ret pi exits pos hk returned =>
    rw [exits.callersStep]
    have hretn := h.depth
    cases callers with
    | nil => exact absurd hretn (Nat.ne_of_gt pos)
    | cons caller callers =>
      refine ⟨?_, ?_⟩
      · rw [returned.retn, hretn, length_cons, Nat.add_sub_cancel, tail_cons]
      · rw [returned.frames]
        exact h.saves.2
  | other calls exits keeps =>
    rw [Vm.callersStep_other calls exits]
    exact h.keeps keeps.frames keeps.retn

theorem Vm.host_frames (vm : Vm) (ev : Event) :
    (vm.host ev).frames = vm.frames ∧ (vm.host ev).retn = vm.retn := by
  cases ev with
  | step | setImportGate type rights | setBudget budget => exact ⟨rfl, rfl⟩
  | regCap type rights =>
    rw [Vm.host, vmRegCap]
    cases capsAlloc vm.caps type rights <;> exact ⟨rfl, rfl⟩
  | revokeCap handle =>
    rw [Vm.host, vmRevokeCap]
    cases capsRevoke vm.caps handle <;> exact ⟨rfl, rfl⟩
  | complete status =>
    rw [Vm.host, vmComplete]
    by_cases hw : vm.state ≠ .waiting
    · rw [if_pos hw]
      exact ⟨rfl, rfl⟩
    · rw [if_neg hw]
      exact ⟨rfl, rfl⟩

/-- An event moves the machine as it does without the callers, and keeps them bracketed. -/
theorem Vm.Bracketed.event {ev : Event} (h : vm.Bracketed callers)
    (hev : vm.event ev = some vm') : ∃ callers', Vm.callersEvent (vm, callers) ev =
      some (vm', callers') ∧ vm'.Bracketed callers' := by
  have hhost : (vm.host ev).Bracketed callers :=
    h.keeps (vm.host_frames ev).1 (vm.host_frames ev).2
  cases ev with
  | step =>
    obtain ⟨r, hr, rfl⟩ := map_eq_some_iff.mp hev
    refine ⟨vm.callersStep r callers, ?_, h.step hr⟩
    simp only [Vm.callersEvent, hr, map_some]
  | _ =>
    cases hev
    exact ⟨callers, rfl, hhost⟩

theorem Vm.Bracketed.run (events : List Event) : ∀ {vm vm' : Vm} {callers : List Vm},
    vm.Bracketed callers → vm.run events = some vm' →
    ∃ callers', events.foldlM Vm.callersEvent (vm, callers) = some (vm', callers') ∧
      vm'.Bracketed callers' := by
  induction events with
  | nil =>
    intro vm vm' callers h hrun
    cases hrun
    exact ⟨callers, rfl, h⟩
  | cons ev events ih =>
    intro vm vm' callers h hrun
    rw [Vm.run, foldlM_cons] at hrun
    obtain ⟨vm₁, hev, hrun⟩ := bind_eq_some_iff.mp hrun
    obtain ⟨callers₁, hstep, h₁⟩ := h.event hev
    obtain ⟨callers', hfold, h'⟩ := ih h₁ hrun
    refine ⟨callers', ?_, h'⟩
    rw [foldlM_cons, hstep]
    exact hfold

/-! ## Calls and returns -/

theorem restoreRegs_eq {regs regs' : Regs} (h : restoreRegs regs f = some regs') :
    regs' ⟨6, by decide⟩ = f.s6 ∧ regs' ⟨7, by decide⟩ = f.s7 ∧ regs' ⟨8, by decide⟩ = f.s8 ∧
      regs' ⟨9, by decide⟩ = f.s9 ∧ regs' ⟨10, by decide⟩ = f.s10 := by
  simp only [restoreRegs, Regs.set_eq _ (show 6 < nreg by decide),
    Regs.set_eq _ (show 7 < nreg by decide), Regs.set_eq _ (show 8 < nreg by decide),
    Regs.set_eq _ (show 9 < nreg by decide), Regs.set_eq _ (show 10 < nreg by decide),
    bind_eq_bind, bind_some] at h
  cases h
  refine ⟨rfl, rfl, rfl, rfl, rfl⟩

/-- The registers a local call preserves. -/
def calleeSaved : List Nat := [6, 7, 8, 9, 10]

/-- What an `EXIT` and a local call do to a machine with the given pending callers. -/
structure Vm.WellBracketed (vm : Vm) (callers : List Vm) : Prop where
  /-- An `EXIT` with a pending caller goes on after its call, with its registers. -/
  returns : ∀ (pi : ProgInsn) (r : Stepped) (caller : Vm) (rest : List Vm), vm.fetch = some pi →
    pi.isExit = true → callers = caller :: rest → vmStep vm = some r →
    r.state = .running ∧ r.vm.pc = caller.pc + 1 ∧
      ∀ k ∈ calleeSaved, r.vm.reg k = caller.reg k
  /-- An `EXIT` without one ends the program. -/
  ends : ∀ (pi : ProgInsn) (r : Stepped), vm.fetch = some pi → pi.isExit = true →
    callers = [] → vmStep vm = some r → r.state = .returned
  /-- A local call goes on at its target up to the depth limit. -/
  enters : ∀ (pi : ProgInsn) (r : Stepped), vm.fetch = some pi → pi.isLocalCall = true →
    callers.length < vmCallDepth → vmStep vm = some r →
    r.state = .running ∧ r.vm.pc = pi.target ∧ r.vm.regs = vm.regs
  /-- Beyond it, a local call traps and keeps the frames. -/
  traps : ∀ (pi : ProgInsn) (r : Stepped), vm.fetch = some pi → pi.isLocalCall = true →
    vmCallDepth ≤ callers.length → vmStep vm = some r →
    r.state = .trapped ∧ r.vm.frames = vm.frames ∧ r.vm.retn = vm.retn

theorem Vm.Bracketed.returns {caller : Vm} (h : vm.Bracketed (caller :: callers))
    (hexits : vm.Exits pi) (hr : vmStep vm = some r) :
    r.state = .running ∧ r.vm.pc = caller.pc + 1 ∧
      ∀ k ∈ calleeSaved, r.vm.reg k = caller.reg k := by
  cases vmStep_cases hr with
  | deep qi calls | call qi calls =>
    obtain rfl := hexits.live.insn_eq calls.live
    exact absurd (hexits.code.symm.trans calls.code) (by decide)
  | top qi exits none => exact absurd (none.symm.trans h.depth) (Nat.succ_ne_zero _).symm
  | ret qi exits pos hk returned =>
    obtain ⟨⟨hlt, hframe⟩, -⟩ := h.saves
    have hidx : vm.retn - 1 = callers.length := by rw [h.depth]; rfl
    have hf : vm.frames ⟨vm.retn - 1, hk⟩ = caller.frame := by
      simp only [hidx]
      exact hframe
    rw [hf] at returned
    obtain ⟨h6, h7, h8, h9, h10⟩ := restoreRegs_eq returned.regs
    refine ⟨returned.running, returned.pc, ?_⟩
    simp only [calleeSaved, forall_mem_cons]
    exact ⟨h6, h7, h8, h9, h10, fun k hk => absurd hk not_mem_nil⟩
  | other calls exits => exact absurd hexits (exits pi)

theorem Vm.Bracketed.ends (h : vm.Bracketed []) (hexits : vm.Exits pi)
    (hr : vmStep vm = some r) : r.state = .returned := by
  cases vmStep_cases hr with
  | deep qi calls | call qi calls =>
    obtain rfl := hexits.live.insn_eq calls.live
    exact absurd (hexits.code.symm.trans calls.code) (by decide)
  | top qi exits none state => exact state
  | ret qi exits pos => exact absurd h.depth (Nat.ne_of_gt pos)
  | other calls exits => exact absurd hexits (exits pi)

theorem Vm.Bracketed.call (h : vm.Bracketed callers) (hcalls : vm.Calls pi)
    (hr : vmStep vm = some r) :
    (callers.length < vmCallDepth → r.state = .running ∧ r.vm.pc = pi.target ∧
      r.vm.regs = vm.regs) ∧
    (vmCallDepth ≤ callers.length → r.state = .trapped ∧ r.vm.frames = vm.frames ∧
      r.vm.retn = vm.retn) := by
  rw [← h.depth]
  cases vmStep_cases hr with
  | deep qi calls full state kept =>
    refine ⟨fun hlt => absurd full (Nat.not_le_of_lt hlt), fun _ => ⟨state, ?_, ?_⟩⟩
    · rw [kept]
    · rw [kept]
  | call qi calls room called =>
    obtain rfl := hcalls.live.insn_eq calls.live
    exact ⟨fun _ => ⟨called.running, called.pc, called.regs⟩,
      fun hge => absurd hge (Nat.not_le_of_lt room)⟩
  | top qi exits | ret qi exits =>
    obtain rfl := hcalls.live.insn_eq exits.live
    exact absurd (exits.code.symm.trans hcalls.code) (by decide)
  | other calls exits => exact absurd hcalls (calls pi)

theorem Vm.Bracketed.wellBracketed (h : vm.Bracketed callers) :
    vm.WellBracketed callers where
  returns := by
    intro pi r caller rest hfetch hexit hcallers hr
    rw [hcallers] at h
    exact h.returns (Vm.exits_iff.mpr ⟨hfetch, hexit⟩) hr
  ends := by
    intro pi r hfetch hexit hcallers hr
    rw [hcallers] at h
    exact h.ends (Vm.exits_iff.mpr ⟨hfetch, hexit⟩) hr
  enters := by
    intro pi r hfetch hcall hlt hr
    exact (h.call (Vm.calls_iff.mpr ⟨hfetch, hcall⟩) hr).1 hlt
  traps := by
    intro pi r hfetch hcall hge hr
    exact (h.call (Vm.calls_iff.mpr ⟨hfetch, hcall⟩) hr).2 hge

/-- In every state a run of a loaded program reaches, an `EXIT` returns to the matching
call with the registers of that call, and a local call is entered exactly up to the depth
limit. -/
theorem calls_bracketed {raw : List Byte} {prof : Option Profile} {p : Program}
    {fresh : Nat → Byte} {frames : Frames} {cfg : List RegionCfg} {budget : Word} {vm₀ : Vm}
    (hload : loadProgram raw prof = .ok p)
    (hcreate : vmCreate fresh frames p cfg budget = .ok vm₀) (events : List Event) :
    ∃ vm callers, vm₀.run events = some vm ∧ vm₀.callers events = some (vm, callers) ∧
      vm.WellBracketed callers := by
  have hp : p.Safe := (loadProgram_ok hload).safe
  obtain ⟨vm, hrun, -⟩ := Vm.Inv.run hp events (vmCreate_inv hcreate)
  have hretn : vm₀.retn = 0 := by
    rw [vmCreate] at hcreate
    split at hcreate
    · cases hcreate
    · cases hcreate
      rfl
  have hstart : vm₀.Bracketed [] := ⟨hretn, trivial⟩
  obtain ⟨callers, hcallers, h⟩ := hstart.run events hrun
  exact ⟨vm, callers, hrun, hcallers, h.wellBracketed⟩

/-- The machine inside its local call. -/
theorem calls_bracketed_work :
    ∃ vm callers, workVm.run [.step, .step] = some vm ∧
      workVm.callers [.step, .step] = some (vm, callers) ∧
      callers.length = 1 ∧ vm.WellBracketed callers := by
  obtain ⟨vm, callers, hrun, hcallers, h⟩ := calls_bracketed load_work create_work [.step, .step]
  have hone : (workVm.callers [.step, .step]).map (fun s => s.2.length) = some 1 := by
    decide +kernel
  rw [hcallers] at hone
  exact ⟨vm, callers, hrun, hcallers, some.inj hone, h⟩

end Bpf
