import Mathlib.Logic.Function.Basic
import EightyNine.Bpf.Eval

/-!
# The capability table

Handles are handed out in order and never again.  A revoked handle stays dead.
-/

namespace Bpf

/-- The table: `max` slots, of which `next` were handed out. -/
structure Caps where
  max : Nat
  next : Nat
  live : Nat → Bool
  type : Nat → BitVec 32
  rights : Nat → BitVec 32

def capsCreate (max : Nat) : Caps :=
  { max := max, next := 0, live := fun _ => false, type := fun _ => 0, rights := fun _ => 0 }

def Caps.liveAt (c : Caps) (h : Nat) : Bool := h < c.max ∧ c.live h

/-- A fresh handle, and the table that knows it. -/
def capsAlloc (c : Caps) (type rights : BitVec 32) : Except Err (Caps × Nat) :=
  if c.next ≥ c.max then .error .full
  else
    .ok ({ c with
            next := c.next + 1
            live := Function.update c.live c.next true
            type := Function.update c.type c.next type
            rights := Function.update c.rights c.next rights }, c.next)

/-- The type and the rights of a live handle. -/
def capsLookup (c : Caps) (h : Nat) : Except Err (BitVec 32 × BitVec 32) :=
  if c.liveAt h then .ok (c.type h, c.rights h) else .error .handle

def capsRevoke (c : Caps) (h : Nat) : Except Err Caps :=
  if c.liveAt h then .ok { c with live := Function.update c.live h false }
  else .error .handle

end Bpf

/-!
# The virtual machine

`vmStep` executes one instruction of a loaded program.  It returns a state, which
is not always the one it stores in the machine, and the bytes of guest memory it
touched.  It is `none` where the source would leave an array.
-/

namespace Bpf

inductive VmState where
  | running | returned | waiting | trapped | exhausted
deriving DecidableEq

/-- The deepest chain of local calls. -/
def vmCallDepth : Nat := 64

/-- The slots of the capability table. -/
def vmCaps : Nat := 64

/-- What a local call saves: the index to return to and the registers to restore. -/
structure Frame where
  retp : Nat
  s6 : Word
  s7 : Word
  s8 : Word
  s9 : Word
  s10 : Word

abbrev Frames := Fin vmCallDepth → Frame

def Frames.get (f : Frames) (i : Nat) : Option Frame :=
  if h : i < vmCallDepth then some (f ⟨i, h⟩) else none

def Frames.set (f : Frames) (i : Nat) (v : Frame) : Option Frames :=
  if h : i < vmCallDepth then some (Function.update f ⟨i, h⟩ v) else none

structure Vm where
  prog : Program
  n : Nat
  pc : Nat
  budget : Word
  regs : Regs
  frames : Frames
  retn : Nat
  state : VmState
  ctxBase : Word
  ctxLen : Word
  mem : Memory
  caps : Caps
  reqType : BitVec 32
  reqRights : BitVec 32
  hasReq : Bool
  pendingImport : BitVec 32

/-- What a step returns: a state, the machine, and the bytes it touched. -/
structure Stepped where
  state : VmState
  vm : Vm
  touched : List Touch

/-! ## Creation and host calls -/

/-- The guest base and the length of the last region of a kind. -/
def lastRegion (kind : Kind) (cfg : List RegionCfg) : Word × Word :=
  cfg.foldl (fun r rc => if rc.kind = kind then (rc.guest, rc.len) else r) (0, 0)

/-- The registers at the entry: the context in `r1` and `r2`, the frame in `r10`. -/
def entryRegs (ctxBase ctxLen stk : Word) : Regs := fun r =>
  if r.val = 1 then ctxBase else if r.val = 2 then ctxLen else if r.val = 10 then stk else 0

/-- `bpf_vm_create`.  `fresh` and `frames` are memory as the allocator hands it out. -/
def vmCreate (fresh : Nat → Byte) (frames : Frames) (prog : Program) (cfg : List RegionCfg)
    (budget : Word) : Except Err Vm :=
  match memoryCreate fresh cfg with
  | .error e => .error e
  | .ok mem =>
    let ctx := lastRegion .input cfg
    let stk := lastRegion .stack cfg
    .ok
      { prog := prog
        n := prog.n
        pc := 0
        budget := budget
        regs := entryRegs ctx.1 ctx.2 stk.1
        frames := frames
        retn := 0
        state := .running
        ctxBase := ctx.1
        ctxLen := ctx.2
        mem := mem
        caps := capsCreate vmCaps
        reqType := 0
        reqRights := 0
        hasReq := false
        pendingImport := 0 }

def stepAdvance (vm : Vm) : Vm := { vm with pc := vm.pc + 1 }

def vmSetBudget (vm : Vm) (budget : Word) : Vm := { vm with budget := budget }

def vmRegCap (vm : Vm) (type rights : BitVec 32) : Except Err (Vm × Nat) :=
  (capsAlloc vm.caps type rights).map fun c => ({ vm with caps := c.1 }, c.2)

def vmRevokeCap (vm : Vm) (h : Nat) : Except Err Vm :=
  (capsRevoke vm.caps h).map fun c => { vm with caps := c }

def vmSetImportGate (vm : Vm) (type rights : BitVec 32) : Vm :=
  { vm with reqType := type, reqRights := rights, hasReq := true }

/-- `r0` is the status of the helper, and `r1` to `r5` are cleared. -/
def completeRegs (regs : Regs) (status : Word) : Regs := fun r =>
  if r.val = 0 then status else if r.val ≤ 5 then 0 else regs r

def vmComplete (vm : Vm) (status : Word) : Except Err Vm :=
  if vm.state ≠ .waiting then .error .stale
  else .ok (stepAdvance { vm with regs := completeRegs vm.regs status, state := .running })

/-! ## Instructions -/

/-- The instruction is done, and the machine is left as `vm`. -/
def Vm.ran (vm : Vm) (touched : List Touch) : Stepped := ⟨.running, vm, touched⟩

/-- The instruction is refused.  The state is returned but not stored. -/
def Vm.refused (vm : Vm) : Stepped := ⟨.trapped, vm, []⟩

def effAddr (rr : Regs) (reg : Nat) (off : Int) : Option Word :=
  (rr.get reg).map fun base => base + seI32 off

/-- Whether the import gate admits the handle `hv`. -/
def gateOk (vm : Vm) (hv : Word) : Bool :=
  match capsLookup vm.caps (hv.setWidth 32).toNat with
  | .error _ => false
  | .ok (ty, rq) => ty = vm.reqType ∧ rq &&& vm.reqRights = vm.reqRights

def execHelper (vm : Vm) (im : BitVec 32) : Option Stepped := do
  let hv ← vm.regs.get 1
  if vm.hasReq ∧ ! gateOk vm hv then
    return vm.refused
  return ⟨.waiting, { vm with pendingImport := im, state := .waiting }, []⟩

def execAlu (vm : Vm) (i : Insn) : Option Stepped := do
  if i.dstReg = 10 then return vm.refused
  let regs ← bpfAlu vm.regs i
  return (stepAdvance { vm with regs := regs }).ran []

/-- The two immediates of a wide instruction. -/
def ldimmValue (i : Insn) : Word :=
  BitVec.ofNat 64 i.nextImm <<< 32 ||| (BitVec.ofInt 32 i.imm).setWidth 64

def execLdimm (vm : Vm) (i : Insn) : Option Stepped := do
  if i.dstReg = 10 then return vm.refused
  let regs ← vm.regs.set i.dstReg (ldimmValue i)
  return (stepAdvance { vm with regs := regs }).ran []

def execLdx (vm : Vm) (i : Insn) : Option Stepped := do
  if i.dstReg = 10 then return vm.refused
  let addr ← effAddr vm.regs i.srcReg i.offset
  match memLoad vm.mem addr (sizeBytes i.size) with
  | .error _ => return vm.refused
  | .ok (v, touched) =>
    let val := if i.mode = modeMemsx then seLoad v i.size else v
    let regs ← vm.regs.set i.dstReg val
    return (stepAdvance { vm with regs := regs }).ran touched

def execStore (vm : Vm) (i : Insn) (val : Word) : Option Stepped := do
  let addr ← effAddr vm.regs i.dstReg i.offset
  match memStore vm.mem addr (sizeBytes i.size) val with
  | .error _ => return vm.refused
  | .ok (mem, touched) => return (stepAdvance { vm with mem := mem }).ran touched

/-- The registers a return restores. -/
def restoreRegs (regs : Regs) (f : Frame) : Option Regs := do
  let regs ← regs.set 6 f.s6
  let regs ← regs.set 7 f.s7
  let regs ← regs.set 8 f.s8
  let regs ← regs.set 9 f.s9
  regs.set 10 f.s10

def execExit (vm : Vm) : Option Stepped :=
  if vm.retn > 0 then do
    let f ← vm.frames.get (vm.retn - 1)
    let regs ← restoreRegs vm.regs f
    return { vm with retn := vm.retn - 1, regs := regs, pc := f.retp }.ran []
  else some ⟨.returned, { vm with state := .returned }, []⟩

def execLocalCall (vm : Vm) (target : Nat) : Option Stepped :=
  if vm.retn ≥ vmCallDepth then some vm.refused
  else do
    let s6 ← vm.regs.get 6
    let s7 ← vm.regs.get 7
    let s8 ← vm.regs.get 8
    let s9 ← vm.regs.get 9
    let s10 ← vm.regs.get 10
    let frames ← vm.frames.set vm.retn ⟨vm.pc + 1, s6, s7, s8, s9, s10⟩
    return { vm with frames := frames, retn := vm.retn + 1, pc := target }.ran []

def execJmp (vm : Vm) (pi : ProgInsn) (is32 : Bool) : Option Stepped :=
  let i := pi.insn
  if i.code = jmpJa then some ({ vm with pc := pi.target }.ran [])
  else if i.code = jmpExit then execExit vm
  else if i.code = jmpCall then
    if i.srcReg = 1 then execLocalCall vm pi.target
    else execHelper vm (BitVec.ofInt 32 i.imm)
  else do
    let d ← vm.regs.get i.dstReg
    let s ← srcOperand vm.regs i (jmpImm is32 i.imm)
    if bpfCondTaken i.code is32 d s then return { vm with pc := pi.target }.ran []
    else return (stepAdvance vm).ran []

/-- The value an atomic writes and the value it returns. -/
def atomicValues (i : Insn) (old src r0 : Word) : Word × Word :=
  if i.size = .w then
    ((atom32 (atomicOp i) (old.setWidth 32) (src.setWidth 32) (r0.setWidth 32)).setWidth 64,
      (old.setWidth 32).setWidth 64)
  else (atom64 (atomicOp i) old src r0, old)

/-- The registers after an atomic that found `old`. -/
def atomicRegs (regs : Regs) (i : Insn) (old : Word) : Option Regs :=
  if atomicOp i = 0xF0 then regs.set 0 old
  else if atomicFetch i then regs.set i.srcReg old
  else some regs

def execAtomic (vm : Vm) (i : Insn) : Option Stepped := do
  let addr ← effAddr vm.regs i.dstReg i.offset
  let src ← vm.regs.get i.srcReg
  let r0 ← vm.regs.get 0
  let width := if i.size = .w then 4 else 8
  match memLoad vm.mem addr width with
  | .error _ => return vm.refused
  | .ok (old, loaded) =>
    let (new, ret) := atomicValues i old src r0
    match memStore vm.mem addr width new with
    | .error _ => return { vm.refused with touched := loaded }
    | .ok (mem, stored) =>
      let regs ← atomicRegs vm.regs i ret
      return (stepAdvance { vm with mem := mem, regs := regs }).ran (loaded ++ stored)

/-- The class decides who executes an instruction. -/
def execInsn (vm : Vm) (pi : ProgInsn) : Option Stepped :=
  let i := pi.insn
  match i.cls with
  | .alu | .alu64 => execAlu vm i
  | .ld => execLdimm vm i
  | .ldx => execLdx vm i
  | .st => execStore vm i (seI32 i.imm)
  | .stx =>
    if i.mode = modeAtomic then execAtomic vm i
    else (vm.regs.get i.srcReg).bind fun val => execStore vm i val
  | .jmp => execJmp vm pi false
  | .jmp32 => execJmp vm pi true

/-- The state is returned as it is stored. -/
def Vm.stop (vm : Vm) (state : VmState) : Stepped := ⟨state, { vm with state := state }, []⟩

/-- The step of a machine that is not in a terminal state and does not wait. -/
def stepLive (vm : Vm) : Option Stepped :=
  if vm.pc ≥ vm.n then some (vm.stop .trapped)
  else if vm.budget = 0 then some (vm.stop .exhausted)
  else
    let vm := { vm with budget := vm.budget - 1 }
    match programGet vm.prog vm.pc with
    | .error _ => some (vm.stop .trapped)
    | .ok pi => execInsn vm pi

def vmStep (vm : Vm) : Option Stepped :=
  match vm.state with
  | .returned => some ⟨.returned, vm, []⟩
  | .trapped => some ⟨.trapped, vm, []⟩
  | .waiting => some ⟨.waiting, vm, []⟩
  | .running | .exhausted => stepLive vm

/-! ## Runs -/

/-- What the host does: a step, or a call on the machine. -/
inductive Event where
  | step
  | regCap (type rights : BitVec 32)
  | revokeCap (h : Nat)
  | setImportGate (type rights : BitVec 32)
  | setBudget (budget : Word)
  | complete (status : Word)

/-- The machine after a call, which is the one before if the call fails. -/
def Vm.host (vm : Vm) : Event → Vm
  | .step => vm
  | .regCap type rights =>
    match vmRegCap vm type rights with
    | .ok c => c.1
    | .error _ => vm
  | .revokeCap h =>
    match vmRevokeCap vm h with
    | .ok vm' => vm'
    | .error _ => vm
  | .setImportGate type rights => vmSetImportGate vm type rights
  | .setBudget budget => vmSetBudget vm budget
  | .complete status =>
    match vmComplete vm status with
    | .ok vm' => vm'
    | .error _ => vm

def Vm.event (vm : Vm) (ev : Event) : Option Vm :=
  match ev with
  | .step => (vmStep vm).map Stepped.vm
  | ev => some (vm.host ev)

/-- The machine after some events, in order. -/
def Vm.run (vm : Vm) (events : List Event) : Option Vm := events.foldlM Vm.event vm

end Bpf
