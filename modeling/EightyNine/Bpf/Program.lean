import EightyNine.Bpf.Decode

/-!
# The structural validator

`validate` checks every instruction by its class and collects the conformance
groups the program requires, as a set of bits.
-/

namespace Bpf

/-! ## Conformance groups -/

def confBase32 : BitVec 32 := 0x01
def confBase64 : BitVec 32 := 0x02
def confDivmul32 : BitVec 32 := 0x04
def confDivmul64 : BitVec 32 := 0x08
def confAtomic32 : BitVec 32 := 0x10
def confAtomic64 : BitVec 32 := 0x20
def confPacket : BitVec 32 := 0x40

def isDivmod (code : Nat) : Bool :=
  code = aluDiv ∨ code = aluMod ∨ code = aluMul

/-- Adds the groups `bits` to `c` if `p` holds. -/
def require (p : Prop) [Decidable p] (bits c : BitVec 32) : BitVec 32 :=
  if p then c ||| bits else c

/-- The groups one instruction requires. -/
def insnConf (i : Insn) : BitVec 32 :=
  let c := require (i.cls = .alu) confBase32 0
  let c := require (i.cls = .alu64) confBase64 c
  let c := require (i.cls = .jmp) confBase64 c
  let c := require (i.cls = .jmp32) confBase32 c
  let c := require (isDivmod i.code ∧ i.cls = .alu) confDivmul32 c
  let c := require (isDivmod i.code ∧ i.cls = .alu64) confDivmul64 c
  let c := require (i.code = aluEnd ∧ i.imm = 64) confBase64 c
  let c := require (i.mode = modeAtomic ∧ i.size = .w) confAtomic32 c
  let c := require (i.mode = modeAtomic ∧ i.size = .dw) confAtomic64 c
  let c := require (i.mode = modeAbs ∨ i.mode = modeInd) confPacket c
  let c := require (¬ i.cls.isAluOrJmp ∧ i.size = .dw) confBase64 c
  let c := require (¬ i.cls.isAluOrJmp ∧ i.size ≠ .dw) confBase32 c
  -- base64 includes base32, divmul64 includes divmul32, atomic64 includes atomic32
  let c := require (c &&& confBase64 ≠ 0) confBase32 c
  let c := require (c &&& confDivmul64 ≠ 0) confDivmul32 c
  require (c &&& confAtomic64 ≠ 0) confAtomic32 c

/-! ## Checks by class -/

def endWidthOk (imm : Int) : Bool := imm = 16 ∨ imm = 32 ∨ imm = 64

def movsxWidthOk (cls : Cls) (off : Int) : Bool :=
  off = 8 ∨ off = 16 ∨ (cls = .alu64 ∧ off = 32)

def regErr (i : Insn) : Except Err Unit :=
  if i.srcReg > 10 then .error .reg
  else if i.dstReg > 10 then .error .reg
  else .ok ()

def validateAlu (i : Insn) : Except Err Unit :=
  if i.code = aluEnd then
    if i.cls = .alu64 ∧ i.source ≠ .k then .error .endian
    else if endWidthOk i.imm then .ok ()
    else .error .endian
  else if i.code = aluNeg then
    if i.source ≠ .k then .error .neg else .ok ()
  else if i.code = aluMov then
    if i.offset = 0 then .ok ()
    else if ¬ movsxWidthOk i.cls i.offset then .error .movsx
    else if i.source ≠ .x then .error .movsx
    else .ok ()
  else .ok ()

def validateJmp (i : Insn) : Except Err Unit :=
  if i.code = jmpCall then
    if i.srcReg = 0 ∨ i.srcReg = 1 ∨ i.srcReg = 2 then .ok () else .error .call
  else if i.code = jmpExit then
    if i.srcReg ≠ 0 then .error .exit
    else if i.offset ≠ 0 then .error .exit
    else if i.imm ≠ 0 then .error .exit
    else .ok ()
  else .ok ()

def validateMem (i : Insn) : Except Err Unit :=
  if i.mode = modeAbs then .error .deprecated
  else if i.mode = modeInd then .error .deprecated
  else if i.mode = modeImm then
    if i.cls ≠ .ld then .error .size
    else if i.srcReg ≠ 0 then .error .imm
    else .ok ()
  else if i.mode = modeAtomic then
    if i.size = .b ∨ i.size = .h then .error .size else .ok ()
  else if i.mode = modeMemsx then
    if i.size = .dw then .error .size else .ok ()
  else .ok ()

/-- The check of one instruction. -/
def validateInsn (i : Insn) : Except Err Unit :=
  match regErr i with
  | .error e => .error e
  | .ok _ =>
    match i.cls with
    | .alu | .alu64 => validateAlu i
    | .jmp | .jmp32 => validateJmp i
    | .ld | .ldx | .st | .stx => validateMem i

/-- `bpf_validate`: the first error, or the groups of the program. -/
def validate (ins : List Insn) : Except Err (BitVec 32) :=
  ins.foldlM (fun conf i => (validateInsn i).map fun _ => conf ||| insnConf i) 0

end Bpf

/-!
# The loader

`programLoad` decodes the bytes, numbers the 64-bit slots, validates the
instructions and resolves every branch and local call to the index of an
instruction.  The passes run over the whole program, one after the other.
-/

namespace Bpf

/-- What the host permits: `allowed = 0` stands for every group, `maxInsn = 0` for
no bound. -/
structure Profile where
  allowed : BitVec 32
  maxInsn : Nat

/-- What the loader records for an instruction.  The two bits of the flag byte are
two booleans. -/
structure PRec where
  slot : Nat
  target : Nat
  hasTarget : Bool
  isCallLocal : Bool
deriving DecidableEq

/-- A loaded program.  `recs` has one entry for every instruction. -/
structure Program where
  n : Nat
  conf : BitVec 32
  ins : List Insn
  recs : List PRec
deriving DecidableEq

def insnSlots (i : Insn) : Nat := if i.isWide then 2 else 1

/-! ## Checks of one instruction -/

/-- The operation codes from `0xE` on are reserved. -/
def checkOpcode (i : Insn) : Except Err Unit :=
  if i.cls.isAluOrJmp ∧ i.code ≥ 0x0E then .error .unsup else .ok ()

/-- The immediate of an atomic as an unsigned number. -/
def atomicImm (i : Insn) : Nat := (BitVec.ofInt 32 i.imm).toNat

/-- The operation of an atomic, without the `FETCH` bit. -/
def atomicOp (i : Insn) : Nat := atomicImm i &&& 0xFE

def atomicFetch (i : Insn) : Bool := atomicImm i &&& 0x01 = 1

/-- Fetching operations and `XCHG` write their source register. -/
def atomicWritesSrc (i : Insn) : Bool :=
  atomicOp i = 0xE0 ∨ (atomicFetch i ∧ atomicOp i ≠ 0xF0)

/-- Writes to the frame pointer, those of an atomic included. -/
def writesR10 (i : Insn) : Bool :=
  match i.cls with
  | .alu | .alu64 | .ld | .ldx => i.dstReg = 10
  | .stx => i.mode = modeAtomic ∧ atomicWritesSrc i ∧ i.srcReg = 10
  | _ => false

def checkAtomic (i : Insn) : Except Err Unit :=
  if i.cls = .stx ∧ i.mode = modeAtomic ∧ atomicOp i ∉ [0x00, 0x40, 0x50, 0xA0, 0xE0, 0xF0] then
    .error .unsup
  else .ok ()

/-- The four bytes after the first half of a wide instruction are reserved. -/
def checkWideRes (raw : List Byte) (pos : Nat) : Except Err Unit :=
  if raw[pos + 8]? ≠ some 0 then .error .res
  else if raw[pos + 9]? ≠ some 0 then .error .res
  else if raw[pos + 10]? ≠ some 0 then .error .res
  else if raw[pos + 11]? ≠ some 0 then .error .res
  else .ok ()

def isLocalCall (i : Insn) : Bool :=
  i.cls = .jmp ∧ i.code = jmpCall ∧ i.srcReg = 1

/-- Whether an instruction has a target, and whether the immediate is its delta. -/
def branchDelta (i : Insn) : Option Bool :=
  match i.cls with
  | .jmp =>
    if i.code = jmpJa then some false
    else if i.code = jmpCall then (if isLocalCall i then some true else none)
    else if i.code = jmpExit then none
    else some false
  | .jmp32 => some (i.code = jmpJa)
  | _ => none

/-! ## The passes -/

/-- Numbers the slots, from the byte `cursor` on. -/
def slotPass (raw : List Byte) : Nat → List Insn → Except Err (List PRec)
  | _, [] => .ok []
  | cursor, i :: rest =>
    let r : PRec :=
      { slot := cursor >>> 3, target := 0, hasTarget := false, isCallLocal := isLocalCall i }
    if i.isWide then
      match checkWideRes raw cursor with
      | .error e => .error e
      | .ok _ => (slotPass raw (cursor + 16) rest).map (r :: ·)
    else (slotPass raw (cursor + 8) rest).map (r :: ·)

/-- The checks the loader makes beyond those of `validate`. -/
def checkInsn (i : Insn) : Except Err Unit :=
  match checkOpcode i with
  | .error e => .error e
  | .ok _ =>
    match checkAtomic i with
    | .error e => .error e
    | .ok _ => if writesR10 i then .error .r10 else .ok ()

/-- The last instruction that starts at slot `target`. -/
def slotIndex (slots : List Nat) (target : Nat) : Option Nat :=
  slots.zipIdx.foldl (fun r s => if s.1 = target then some s.2 else r) none

/-- The slot a branch leads to. -/
def targetSlot (i : Insn) (isImm : Bool) (slot : Nat) : Int :=
  (slot + insnSlots i : Nat) + (if isImm then i.imm else i.offset)

/-- Finds the target of one instruction among the `total` slots of the program. -/
def resolveInsn (slots : List Nat) (total : Nat) (i : Insn) (r : PRec) : Except Err PRec :=
  match branchDelta i with
  | none => .ok r
  | some isImm =>
    let ts := targetSlot i isImm r.slot
    if ts < 0 then .error .branch
    else if ts ≥ total then .error .branch
    else
      match slotIndex slots ts.toNat with
      | none => .error .branch
      | some idx => .ok { r with target := idx, hasTarget := true }

def resolve (slots : List Nat) (total : Nat) :
    List Insn → List PRec → Except Err (List PRec)
  | i :: is, r :: rs =>
    match resolveInsn slots total i r with
    | .error e => .error e
    | .ok r' => (resolve slots total is rs).map (r' :: ·)
  | _, _ => .ok []

/-- The bound on the number of instructions. -/
def maxInsn : Option Profile → Nat
  | none => 0
  | some p => p.maxInsn

/-- The groups a program may require. -/
def allowedConf : Option Profile → BitVec 32
  | none => 0
  | some p => p.allowed

def failIf (p : Prop) [Decidable p] (e : Err) : Except Err Unit :=
  if p then .error e else .ok ()

/-- The program made of `raw`, or the first error. -/
def loadProgram (raw : List Byte) (prof : Option Profile) : Except Err Program := do
  failIf (raw.length = 0) .empty
  failIf (raw.length &&& 0x07 ≠ 0) .trunc
  let ins ← decode raw (raw.length >>> 3)
  failIf (maxInsn prof ≠ 0 ∧ ins.length > maxInsn prof) .count
  let recs ← slotPass raw 0 ins
  let conf := ins.foldl (fun c i => c ||| insnConf i) 0
  let _ ← validate ins
  ins.forM checkInsn
  failIf (allowedConf prof ≠ 0 ∧ conf &&& ~~~ allowedConf prof ≠ 0) .prof
  let recs ← resolve (recs.map PRec.slot) (raw.length >>> 3) ins recs
  return { n := ins.length, conf := conf, ins := ins, recs := recs }

/-- `bpf_program_load`, with `none` for `BPF_OK`: writes the program to `out`. -/
def programLoad (raw : List Byte) (prof : Option Profile) (out : Option Program) :
    Option Err × Option Program :=
  match loadProgram raw prof with
  | .error e => (some e, out)
  | .ok p => (none, some p)

/-- An instruction with what the loader recorded for it. -/
structure ProgInsn where
  insn : Insn
  slot : Nat
  isWide : Bool
  isCallLocal : Bool
  hasTarget : Bool
  target : Nat

def programGet (p : Program) (idx : Nat) : Except Err ProgInsn :=
  match p.ins[idx]?, p.recs[idx]? with
  | some i, some r =>
    .ok { insn := i, slot := r.slot, isWide := i.isWide, isCallLocal := r.isCallLocal,
          hasTarget := r.hasTarget, target := r.target }
  | _, _ => .error .reg

end Bpf
