import EightyNine.Bpf.Mem
import Mathlib.Logic.Function.Basic
import EightyNine.Bpf.Program

/-!
# Arithmetic and conditions

The eleven registers, the `ALU` instructions over them and the conditions of the
jumps.  An access past the register file has no meaning, and neither has an
operation code the source gives no result for: both are `none`.
-/

namespace Bpf

/-- The number of registers. -/
def nreg : Nat := 11

abbrev Regs := Fin nreg → Word

def Regs.get (r : Regs) (i : Nat) : Option Word :=
  if h : i < nreg then some (r ⟨i, h⟩) else none

def Regs.set (r : Regs) (i : Nat) (v : Word) : Option Regs :=
  if h : i < nreg then some (Function.update r ⟨i, h⟩ v) else none

/-- An `int` extended to 64 bits by its sign. -/
def seI32 (v : Int) : Word := BitVec.ofInt 64 v

/-! ## Byte swaps -/

def sw16 (v : BitVec 16) : BitVec 16 := v <<< 8 ||| v >>> 8

def sw32 (v : BitVec 32) : BitVec 32 :=
  (v &&& 0x000000FF) <<< 24 ||| (v &&& 0x0000FF00) <<< 8 |||
    (v &&& 0x00FF0000) >>> 8 ||| (v &&& 0xFF000000) >>> 24

def sw64 (v : Word) : Word :=
  let hi := (v >>> 32).setWidth 32
  let lo := v.setWidth 32
  ((sw32 lo).setWidth 64) <<< 32 ||| (sw32 hi).setWidth 64

def doEnd (dst : Word) (is64 : Bool) (be : Source) (width : Int) : Word :=
  let swap := is64 ∨ be = .x
  if width = 64 then
    if swap then sw64 dst else dst
  else if width = 32 then
    if swap then (sw32 (dst.setWidth 32)).setWidth 64 else dst &&& 0xFFFFFFFF
  else if width = 16 then
    if swap then (sw16 (dst.setWidth 16)).setWidth 64 else dst &&& 0xFFFF
  else dst

/-! ## Operations at one width -/

section

variable {w : Nat}

/-- Division by zero gives zero. -/
def opDiv (a b : BitVec w) : BitVec w := if b ≠ 0 then a / b else 0

/-- The remainder by zero is the dividend. -/
def opMod (a b : BitVec w) : BitVec w := if b ≠ 0 then a % b else a

def opSdiv (a b : BitVec w) : BitVec w :=
  if b = 0 then 0 else if b = -1 then 0 - a else a.sdiv b

def opSmod (a b : BitVec w) : BitVec w :=
  if b = 0 then a else if b = -1 then 0 else a.srem b

/-- The operations of two operands, with the shift counts taken modulo the width.  A
code without an operation has no result. -/
def aluOp (code : Nat) (off : Int) (a b : BitVec w) : Option (BitVec w) :=
  let s := b.toNat % w
  if code = aluAdd then some (a + b)
  else if code = aluSub then some (a - b)
  else if code = aluMul then some (a * b)
  else if code = aluDiv then some (if off = 1 then opSdiv a b else opDiv a b)
  else if code = aluMod then some (if off = 1 then opSmod a b else opMod a b)
  else if code = aluOr then some (a ||| b)
  else if code = aluAnd then some (a &&& b)
  else if code = aluXor then some (a ^^^ b)
  else if code = aluLsh then some (a <<< s)
  else if code = aluRsh then some (a >>> s)
  else if code = aluArsh then some (a.sshiftRight s)
  else none

/-- Sign extension from `width` bits, where the source has that width. -/
def sx (widths : List Int) (v : BitVec w) (width : Int) : BitVec w :=
  if width ∈ widths then (v.setWidth width.toNat).signExtend w else v

end

def sx64 (v : Word) (width : Int) : Word := sx [8, 16, 32] v width

def sx32 (v : BitVec 32) (width : Int) : BitVec 32 := sx [8, 16] v width

/-! ## `ALU` instructions -/

/-- The result of an `ALU` instruction for its two operands. -/
def aluResult (i : Insn) (dst src : Word) : Option Word :=
  let is64 := i.cls = .alu64
  let dst32 : BitVec 32 := dst.setWidth 32
  let src32 : BitVec 32 := src.setWidth 32
  if i.code = aluEnd then some (doEnd dst is64 i.source i.imm)
  else if i.code = aluNeg then
    some (if is64 then 0 - dst else (0 - dst32).setWidth 64)
  else if i.code = aluMov then
    some (
      if i.offset = 0 then
        if is64 then src else src32.setWidth 64
      else
        if is64 then sx64 src i.offset else (sx32 src32 i.offset).setWidth 64)
  else if is64 then aluOp i.code i.offset dst src
  else (aluOp i.code i.offset dst32 src32).map fun r => r.setWidth 64

/-- The second operand: `imm`, or the source register. -/
def srcOperand (regs : Regs) (i : Insn) (imm : Word) : Option Word :=
  match i.source with
  | .k => some imm
  | .x => regs.get i.srcReg

/-- `bpf_alu` over the register file. -/
def bpfAlu (regs : Regs) (i : Insn) : Option Regs := do
  let dst ← regs.get i.dstReg
  let src ← srcOperand regs i (seI32 i.imm)
  let res ← aluResult i dst src
  regs.set i.dstReg res

/-! ## Conditions -/

/-- The conditions at one width.  Other codes never hold. -/
def condAt {w : Nat} (code : Nat) (d s : BitVec w) : Bool :=
  if code = jmpJeq then d = s
  else if code = jmpJne then d ≠ s
  else if code = jmpJgt then d > s
  else if code = jmpJge then d ≥ s
  else if code = jmpJlt then d < s
  else if code = jmpJle then d ≤ s
  else if code = jmpJset then d &&& s ≠ 0
  else if code = jmpJsgt then s.slt d
  else if code = jmpJsge then s.sle d
  else if code = jmpJslt then d.slt s
  else if code = jmpJsle then d.sle s
  else false

/-- The immediate of a jump as its second operand. -/
def jmpImm (is32 : Bool) (imm : Int) : Word :=
  if is32 then (BitVec.ofInt 32 imm).setWidth 64 else seI32 imm

def bpfCondTaken (code : Nat) (is32 : Bool) (d s : Word) : Bool :=
  if is32 then condAt code (d.setWidth 32) (s.setWidth 32) else condAt code d s

/-! ## Sizes of accesses -/

def sizeBytes : Size → Nat
  | .w => 4
  | .h => 2
  | .b => 1
  | .dw => 8

/-- A loaded value, extended by the sign it has at its size. -/
def seLoad (v : Word) : Size → Word
  | .b => (v.setWidth 8).signExtend 64
  | .h => (v.setWidth 16).signExtend 64
  | .w => (v.setWidth 32).signExtend 64
  | .dw => v

/-! ## Atomics -/

/-- The new value of the memory for an atomic operation. -/
def atom {w : Nat} (op : Nat) (old src r0 : BitVec w) : BitVec w :=
  if op = 0x00 then old + src
  else if op = 0x40 then old ||| src
  else if op = 0x50 then old &&& src
  else if op = 0xA0 then old ^^^ src
  else if op = 0xE0 then src
  else if op = 0xF0 then (if old = r0 then src else old)
  else old

def atom32 (op : Nat) (old src r0 : BitVec 32) : BitVec 32 := atom op old src r0

def atom64 (op : Nat) (old src r0 : Word) : Word := atom op old src r0

end Bpf

/-!
## The first interpreter

`bpfStep` executes decoded instructions over one flat memory.  The counters are
those of the source, which wrap at 32 bits.  It is `none` where the source would
leave an array or overflow a signed addition.
-/

namespace Bpf

inductive Status where
  | running | returned | hostcall | exhausted | trap | err

def stackN : Nat := 64

abbrev Stack := Fin stackN → BitVec 32

def Stack.get (s : Stack) (i : Nat) : Option (BitVec 32) :=
  if h : i < stackN then some (s ⟨i, h⟩) else none

def Stack.set (s : Stack) (i : Nat) (v : BitVec 32) : Option Stack :=
  if h : i < stackN then some (Function.update s ⟨i, h⟩ v) else none

structure Machine where
  regs : Regs
  prog : List Insn
  n : Nat
  pc : BitVec 32
  stack : Stack
  stackTop : Nat
  budget : Int
  helper : BitVec 32
  halted : Bool
  mem : Nat → Byte
  memSize : Word

/-- `bpf_machine_init`.  `stack` is the call stack as the caller left it. -/
def machineInit (stack : Stack) (prog : List Insn) (n : Nat) : Machine where
  regs := fun _ => 0
  prog := prog
  n := n
  pc := 0
  stack := stack
  stackTop := 0
  budget := 100000
  helper := 0
  halted := false
  mem := fun _ => 0
  memSize := 0

/-! ## Memory -/

def memOk (addr size memSize : Word) : Bool :=
  ¬ addr > memSize ∧ ¬ memSize - addr < size

def rdUnsigned (mem : Nat → Byte) (addr : Word) (size : Size) : Word :=
  leValue (fun k => mem (addr.toNat + k)) (sizeBytes size)

def rdSigned (mem : Nat → Byte) (addr : Word) (size : Size) : Word :=
  seLoad (rdUnsigned mem addr size) size

def wr (mem : Nat → Byte) (addr val : Word) (size : Size) : Nat → Byte := fun a =>
  if addr.toNat ≤ a ∧ a < addr.toNat + sizeBytes size then leByte val (a - addr.toNat) else mem a

/-- The sum of a base and an offset as signed numbers. -/
def signedAddr (base : Word) (off : Int) : Option Word :=
  if base.saddOverflow (seI32 off) then none else some (base + seI32 off)

def Machine.next (m : Machine) : Machine := { m with pc := m.pc + 1 }

/-- The access of an instruction at a checked address. -/
def memAccess (m : Machine) (i : Insn) (reg : Nat) (f : Word → Option (Status × Machine)) :
    Option (Status × Machine) := do
  let base ← m.regs.get reg
  let addr ← signedAddr base i.offset
  if addr.toInt < 0 then return (.trap, m)
  if ! memOk addr (BitVec.ofNat 64 (sizeBytes i.size)) m.memSize then return (.trap, m)
  f addr

def memAtomic (m : Machine) (i : Insn) (addr : Word) : Option (Status × Machine) := do
  let old := rdUnsigned m.mem addr i.size
  let src ← m.regs.get i.srcReg
  let r0 ← m.regs.get 0
  let (new, ret) :=
    if i.size = .w then
      ((atom32 (atomicOp i) (old.setWidth 32) (src.setWidth 32) (r0.setWidth 32)).setWidth 64,
        (old.setWidth 32).setWidth 64)
    else (atom64 (atomicOp i) old src r0, old)
  let mem := wr m.mem addr new i.size
  let regs ←
    if atomicOp i = 0xF0 then m.regs.set 0 ret
    else if atomicFetch i then m.regs.set i.srcReg ret
    else some m.regs
  return (.running, { m with mem := mem, regs := regs }.next)

def memStep (m : Machine) (i : Insn) : Option (Status × Machine) :=
  match i.cls with
  | .ld => do
    let val := BitVec.ofNat 64 i.nextImm <<< 32 ||| (BitVec.ofInt 32 i.imm).setWidth 64
    let regs ← m.regs.set i.dstReg val
    return (.running, { m with regs := regs }.next)
  | .ldx => memAccess m i i.srcReg fun addr => do
    let val :=
      if i.mode = modeMemsx then rdSigned m.mem addr i.size
      else rdUnsigned m.mem addr i.size
    let regs ← m.regs.set i.dstReg val
    return (.running, { m with regs := regs }.next)
  | .st => memAccess m i i.dstReg fun addr =>
    some (.running, { m with mem := wr m.mem addr (seI32 i.imm) i.size }.next)
  | .stx => memAccess m i i.dstReg fun addr =>
    if i.mode = modeAtomic then memAtomic m i addr
    else do
      let val ← m.regs.get i.srcReg
      return (.running, { m with mem := wr m.mem addr val i.size }.next)
  | _ => some (.err, m)

/-! ## Control flow -/

/-- A number of instructions past the next one. -/
def Machine.jump (m : Machine) (delta : Int) : Machine :=
  { m with pc := m.pc + 1 + BitVec.ofInt 32 delta }

def stepCond (m : Machine) (i : Insn) (is32 : Bool) : Option (Status × Machine) := do
  let d ← m.regs.get i.dstReg
  let s ← srcOperand m.regs i (jmpImm is32 i.imm)
  return (.running, if bpfCondTaken i.code is32 d s then m.jump i.offset else m.next)

def stepExit (m : Machine) : Option (Status × Machine) :=
  if m.stackTop > 0 then do
    let ret ← m.stack.get (m.stackTop - 1)
    return (.running, { m with stackTop := m.stackTop - 1, pc := ret })
  else some (.returned, { m with halted := true })

def stepCall (m : Machine) (i : Insn) : Option (Status × Machine) :=
  if i.srcReg = 1 then
    if m.stackTop ≥ stackN then some (.err, m)
    else do
      let stack ← m.stack.set m.stackTop (m.pc + 1)
      return (.running, { m with stack := stack, stackTop := m.stackTop + 1 }.jump i.imm)
  else some (.hostcall, { m with helper := BitVec.ofInt 32 i.imm }.next)

def stepInsn (m : Machine) (i : Insn) : Option (Status × Machine) :=
  match i.cls with
  | .alu | .alu64 => (bpfAlu m.regs i).map fun regs => (.running, { m with regs := regs }.next)
  | .jmp =>
    if i.code = jmpJa then some (.running, m.jump i.offset)
    else if i.code = jmpExit then stepExit m
    else if i.code = jmpCall then stepCall m i
    else stepCond m i false
  | .jmp32 =>
    if i.code = jmpJa then some (.running, m.jump i.imm)
    else stepCond m i true
  | .ld | .ldx | .st | .stx => memStep m i

/-- `bpf_step`. -/
def bpfStep (m : Machine) : Option (Status × Machine) :=
  if m.halted then some (.returned, m)
  else if m.pc.toNat ≥ m.n then some (.err, m)
  else if m.budget ≤ 0 then some (.exhausted, m)
  else
    (m.prog[m.pc.toNat]?).bind fun i => stepInsn { m with budget := m.budget - 1 } i

end Bpf
