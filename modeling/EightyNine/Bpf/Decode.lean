import Mathlib.Algebra.Group.Nat.Defs

/-!
# Instructions and their decoding

An instruction is eight bytes: an opcode, two register numbers in one byte, a
16-bit offset and a 32-bit immediate, the last two signed.  The wide form of class
`LD` takes eight bytes more, the upper four of which hold a second immediate.
Bytes and unsigned fields are numbers, `int` fields are integers.
-/

namespace Bpf

abbrev Byte := UInt8

/-- The errors of `bpf_err`. -/
inductive Err where
  | trunc | count | reg | deprecated | imm | endian | neg | movsx | call | exit | size
  | empty | res | unsup | r10 | branch | prof | addr | perm | handle | full | stale
deriving DecidableEq

/-- Instruction classes, the low three bits of the opcode. -/
inductive Cls where
  | ld | ldx | st | stx | alu | jmp | jmp32 | alu64
deriving DecidableEq

/-- The second operand of an `ALU` or `JMP` instruction: immediate or register. -/
inductive Source where
  | k | x
deriving DecidableEq

/-- Access sizes of the `LD` and `ST` classes: four, two, one and eight bytes. -/
inductive Size where
  | w | h | b | dw
deriving DecidableEq

/-! ## Field values -/

def modeImm : Nat := 0
def modeAbs : Nat := 1
def modeInd : Nat := 2
def modeMem : Nat := 3
def modeMemsx : Nat := 4
def modeAtomic : Nat := 6

def aluAdd : Nat := 0
def aluSub : Nat := 1
def aluMul : Nat := 2
def aluDiv : Nat := 3
def aluOr : Nat := 4
def aluAnd : Nat := 5
def aluLsh : Nat := 6
def aluRsh : Nat := 7
def aluNeg : Nat := 8
def aluMod : Nat := 9
def aluXor : Nat := 0xa
def aluMov : Nat := 0xb
def aluArsh : Nat := 0xc
def aluEnd : Nat := 0xd

def jmpJa : Nat := 0
def jmpJeq : Nat := 1
def jmpJgt : Nat := 2
def jmpJge : Nat := 3
def jmpJset : Nat := 4
def jmpJne : Nat := 5
def jmpJsgt : Nat := 6
def jmpJsge : Nat := 7
def jmpCall : Nat := 8
def jmpExit : Nat := 9
def jmpJlt : Nat := 0xa
def jmpJle : Nat := 0xb
def jmpJslt : Nat := 0xc
def jmpJsle : Nat := 0xd

def clsOf (opcode : Nat) : Cls :=
  match opcode &&& 0x07 with
  | 0 => .ld
  | 1 => .ldx
  | 2 => .st
  | 3 => .stx
  | 4 => .alu
  | 5 => .jmp
  | 6 => .jmp32
  | _ => .alu64

def sourceOf (opcode : Nat) : Source :=
  if (opcode >>> 3) &&& 0x01 = 0 then .k else .x

def sizeOf (opcode : Nat) : Size :=
  match (opcode >>> 3) &&& 0x03 with
  | 0 => .w
  | 1 => .h
  | 2 => .b
  | _ => .dw

def Cls.isAluOrJmp : Cls → Bool
  | .alu | .alu64 | .jmp | .jmp32 => true
  | _ => false

/-- A decoded instruction.  The classes `ALU` and `JMP` are described by `code` and
`source`, the classes `LD` and `ST` by `mode` and `size`. -/
structure Insn where
  opcode : Nat
  cls : Cls
  code : Nat
  source : Source
  mode : Nat
  size : Size
  srcReg : Nat
  dstReg : Nat
  offset : Int
  imm : Int
  isWide : Bool
  nextImm : Nat
deriving DecidableEq

/-! ## Reading fields -/

def readU16le (b0 b1 : Byte) : Nat := b0.toNat ||| b1.toNat <<< 8

def readU32le (b0 b1 b2 b3 : Byte) : Nat :=
  b0.toNat ||| b1.toNat <<< 8 ||| b2.toNat <<< 16 ||| b3.toNat <<< 24

/-- The conversion of a 32-bit number to `int`. -/
def asInt (u : Nat) : Int :=
  if u < 2147483648 then u else (u : Int) - 4294967296

/-- The 16-bit offset, extended by its sign. -/
def readOffset (b0 b1 : Byte) : Int :=
  let u := readU16le b0 b1
  asInt (if u &&& 0x8000 ≠ 0 then u ||| 0xFFFF0000 else u)

/-- The wide encoding is that of class `LD` with mode `IMM`. -/
def isWideLd (opcode : Nat) : Bool :=
  match clsOf opcode with
  | .ld => opcode >>> 5 = modeImm
  | _ => false

/-- The fields every instruction has, with the others as for class `LD` and mode `IMM`. -/
def baseInsn (op regs o0 o1 i0 i1 i2 i3 : Byte) : Insn where
  opcode := op.toNat
  cls := clsOf op.toNat
  code := 0
  source := .k
  mode := modeImm
  size := .w
  srcReg := regs.toNat >>> 4
  dstReg := regs.toNat &&& 0x0F
  offset := readOffset o0 o1
  imm := asInt (readU32le i0 i1 i2 i3)
  isWide := false
  nextImm := 0

/-- A wide instruction. -/
def wideInsn (b : Insn) (next : Nat) : Insn :=
  { b with
    isWide := true
    nextImm := next
    mode := modeImm
    size := sizeOf b.opcode
    code := b.opcode >>> 5
    source := .k }

/-- An instruction of eight bytes. -/
def basicInsn (b : Insn) : Insn :=
  if b.cls.isAluOrJmp then
    { b with code := b.opcode >>> 4, source := sourceOf b.opcode, mode := 0, size := .w }
  else
    { b with mode := b.opcode >>> 5, size := sizeOf b.opcode, code := 0, source := .k }

/-- `bpf_decode` into an array of capacity `cap`. -/
def decode : List Byte → Nat → Except Err (List Insn)
  | [], _ => .ok []
  | op :: regs :: o0 :: o1 :: i0 :: i1 :: i2 :: i3 :: rest, cap =>
    let b := baseInsn op regs o0 o1 i0 i1 i2 i3
    if cap = 0 then .error .count
    else if isWideLd op.toNat then
      match rest with
      | _ :: _ :: _ :: _ :: n0 :: n1 :: n2 :: n3 :: rest' =>
        (decode rest' (cap - 1)).map (wideInsn b (readU32le n0 n1 n2 n3) :: ·)
      | _ => .error .trunc
    else (decode rest (cap - 1)).map (basicInsn b :: ·)
  | _, _ => .error .trunc

end Bpf
