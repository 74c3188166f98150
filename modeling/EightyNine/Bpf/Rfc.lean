import EightyNine.Bpf.Sandbox

/-!
# The arithmetic of the specification

What an `ALU` instruction and a condition compute, in terms of numbers: every operation
gives an integer, and a register takes it modulo 2 to its width.  Operands are read as
unsigned numbers where an operation is unsigned and as signed numbers where it is signed.
-/

namespace Bpf

open BitVec Nat

/-! ## Operations as numbers -/

/-- The operations of the instruction set, with the signed forms apart. -/
inductive AluCode where
  | add | sub | mul | div | sdiv | or | and | lsh | rsh | neg | mod | smod | xor | mov
  | movsx (bits : Nat)
  | arsh
  | swap (bytes : Nat)
  | keep (bytes : Nat)

/-- The bytes of a number in the other order. -/
def revBytes : Nat → Nat → Nat
  | 0, _ => 0
  | k + 1, v => v % 256 * 256 ^ k + revBytes k (v / 256)

/-- A number below 2 to the `bits`, read in two's complement. -/
def asSigned (bits v : Nat) : Int :=
  if 2 * v < 2 ^ bits then v else (v : Int) - 2 ^ bits

/-- The result of an operation, before it is cut to the width. -/
def AluCode.value {w : Nat} (a b : BitVec w) : AluCode → Int
  | .add => a.toNat + b.toNat
  | .sub => (a.toNat : Int) - b.toNat
  | .mul => a.toNat * b.toNat
  | .div => if b.toNat = 0 then 0 else (a.toNat / b.toNat : Nat)
  | .sdiv => if b.toInt = 0 then 0 else a.toInt.tdiv b.toInt
  | .or => (a.toNat ||| b.toNat : Nat)
  | .and => (a.toNat &&& b.toNat : Nat)
  | .lsh => a.toNat * 2 ^ (b.toNat % w)
  | .rsh => (a.toNat / 2 ^ (b.toNat % w) : Nat)
  | .neg => - (a.toNat : Int)
  | .mod => if b.toNat = 0 then a.toNat else (a.toNat % b.toNat : Nat)
  | .smod => if b.toInt = 0 then a.toInt else a.toInt.tmod b.toInt
  | .xor => (a.toNat ^^^ b.toNat : Nat)
  | .mov => b.toNat
  | .movsx bits => asSigned bits (b.toNat % 2 ^ bits)
  | .arsh => a.toInt / 2 ^ (b.toNat % w)
  | .swap bytes => revBytes bytes a.toNat
  | .keep bytes => (a.toNat % 256 ^ bytes : Nat)

/-- The operation of an instruction.  `END` swaps in class `ALU64` and towards big endian. -/
def Insn.operation (i : Insn) : AluCode :=
  match i.code with
  | 0x0 => .add
  | 0x1 => .sub
  | 0x2 => .mul
  | 0x3 => if i.offset = 1 then .sdiv else .div
  | 0x4 => .or
  | 0x5 => .and
  | 0x6 => .lsh
  | 0x7 => .rsh
  | 0x8 => .neg
  | 0x9 => if i.offset = 1 then .smod else .mod
  | 0xa => .xor
  | 0xb => if i.offset = 0 then .mov else .movsx i.offset.toNat
  | 0xc => .arsh
  | _ =>
    if i.cls = .alu64 ∨ i.source = .x then .swap (i.imm.toNat / 8) else .keep (i.imm.toNat / 8)

/-- The width an instruction works at.  The byte swaps take the whole register. -/
def Insn.width (i : Insn) : Nat := if i.cls = .alu64 ∨ i.code = aluEnd then 64 else 32

/-- The second operand as an integer: the signed immediate, or a register. -/
def Insn.operand (i : Insn) (regs : Regs) : Int :=
  match i.source with
  | .k => i.imm
  | .x => ((regs.get i.srcReg).getD 0).toNat

/-- The result of an instruction: the value modulo 2 to the width, the rest of the register
zero. -/
def Insn.result (i : Insn) (dst : Word) (operand : Int) : Word :=
  let a : BitVec i.width := dst.setWidth i.width
  let b : BitVec i.width := .ofInt i.width operand
  (BitVec.ofInt i.width (i.operation.value a b)).setWidth 64

/-- A condition of two operands. -/
def condition {w : Nat} (code : Nat) (d s : BitVec w) : Prop :=
  match code with
  | 0x1 => d.toNat = s.toNat
  | 0x2 => d.toNat > s.toNat
  | 0x3 => d.toNat ≥ s.toNat
  | 0x4 => d.toNat &&& s.toNat ≠ 0
  | 0x5 => d.toNat ≠ s.toNat
  | 0x6 => d.toInt > s.toInt
  | 0x7 => d.toInt ≥ s.toInt
  | 0xa => d.toNat < s.toNat
  | 0xb => d.toNat ≤ s.toNat
  | 0xc => d.toInt < s.toInt
  | 0xd => d.toInt ≤ s.toInt
  | _ => False

attribute [local simp] AluCode.value revBytes condition

/-! ## Words and numbers -/

section

variable {w : Nat} (a b : BitVec w)

theorem add_value : a + b = .ofInt w (AluCode.add.value a b) := by
  rw [AluCode.value, ofInt_add, ofInt_natCast, ofInt_natCast,
    ofNat_toNat, ofNat_toNat, BitVec.setWidth_eq, BitVec.setWidth_eq]

theorem sub_value : a - b = .ofInt w (AluCode.sub.value a b) := by
  rw [AluCode.value, Int.sub_eq_add_neg, ofInt_add, ofInt_neg, ofInt_natCast,
    ofInt_natCast, ofNat_toNat, ofNat_toNat, BitVec.setWidth_eq,
    BitVec.setWidth_eq, sub_eq_add_neg]

theorem mul_value : a * b = .ofInt w (AluCode.mul.value a b) := by
  rw [AluCode.value, ofInt_mul, ofInt_natCast, ofInt_natCast,
    ofNat_toNat, ofNat_toNat, BitVec.setWidth_eq, BitVec.setWidth_eq]

theorem toNat_eq_zero_iff : b.toNat = 0 ↔ b = 0 := by
  rw [← BitVec.toNat_inj]
  rfl

theorem toInt_eq_zero_iff : b.toInt = 0 ↔ b = 0 := by
  rw [← BitVec.toInt_inj]
  exact Iff.of_eq (congrArg (b.toInt = ·) toInt_zero.symm)

theorem div_value : opDiv a b = .ofInt w (AluCode.div.value a b) := by
  rw [AluCode.value, opDiv]
  by_cases h : b = 0
  · rw [if_neg (not_not.mpr h), if_pos ((toNat_eq_zero_iff b).mpr h)]
    rfl
  · rw [if_pos h, if_neg (mt (toNat_eq_zero_iff b).mp h), ofInt_natCast, udiv_def]

theorem mod_value : opMod a b = .ofInt w (AluCode.mod.value a b) := by
  rw [AluCode.value, opMod]
  by_cases h : b = 0
  · rw [if_neg (not_not.mpr h), if_pos ((toNat_eq_zero_iff b).mpr h), ofInt_natCast,
      ofNat_toNat, BitVec.setWidth_eq]
  · rw [if_pos h, if_neg (mt (toNat_eq_zero_iff b).mp h), ofInt_natCast, umod_def]

theorem toInt_minus_one {b : BitVec w} (h : b ≠ 0) (h1 : b = -1) : b.toInt = -1 := by
  have hw : 0 < w := by
    refine Nat.pos_of_ne_zero fun h0 => h ?_
    subst h0
    exact of_length_zero
  have hones : b = allOnes w := h1.trans neg_one_eq_allOnes
  rw [hones, toInt_allOnes, if_pos hw]

/-- The minimum divided by minus one wraps to the minimum. -/
theorem sdiv_value : opSdiv a b = .ofInt w (AluCode.sdiv.value a b) := by
  rw [AluCode.value, opSdiv]
  by_cases h : b = 0
  · rw [if_pos h, if_pos ((toInt_eq_zero_iff b).mpr h)]
    rfl
  · rw [if_neg h, if_neg (mt (toInt_eq_zero_iff b).mp h)]
    by_cases h1 : b = -1
    · rw [if_pos h1, toInt_minus_one h h1, Int.tdiv_neg, Int.tdiv_one, ofInt_neg,
        BitVec.ofInt_toInt]
      exact BitVec.zero_sub a
    · rw [if_neg h1, ← BitVec.toInt_inj, BitVec.toInt_sdiv, BitVec.toInt_ofInt]

theorem smod_value : opSmod a b = .ofInt w (AluCode.smod.value a b) := by
  rw [AluCode.value, opSmod]
  by_cases h : b = 0
  · rw [if_pos h, if_pos ((toInt_eq_zero_iff b).mpr h), BitVec.ofInt_toInt]
  · rw [if_neg h, if_neg (mt (toInt_eq_zero_iff b).mp h)]
    by_cases h1 : b = -1
    · rw [if_pos h1, toInt_minus_one h h1, Int.tmod_neg, Int.tmod_one]
      rfl
    · rw [if_neg h1, ← toInt_srem, BitVec.ofInt_toInt]

theorem or_value : a ||| b = .ofInt w (AluCode.or.value a b) := by
  rw [AluCode.value, ofInt_natCast, ← toNat_or, ofNat_toNat, BitVec.setWidth_eq]

theorem and_value : a &&& b = .ofInt w (AluCode.and.value a b) := by
  rw [AluCode.value, ofInt_natCast, ← toNat_and, ofNat_toNat, BitVec.setWidth_eq]

theorem xor_value : a ^^^ b = .ofInt w (AluCode.xor.value a b) := by
  rw [AluCode.value, ofInt_natCast, ← toNat_xor, ofNat_toNat, BitVec.setWidth_eq]

theorem lsh_value : a <<< (b.toNat % w) = .ofInt w (AluCode.lsh.value a b) := by
  have hcast : (a.toNat : Int) * 2 ^ (b.toNat % w) = ((a.toNat * 2 ^ (b.toNat % w) : Nat) : Int) := by
    rw [Int.natCast_mul, Int.natCast_pow]
    rfl
  rw [AluCode.value, hcast, ofInt_natCast, ← BitVec.toNat_inj, toNat_shiftLeft,
    Nat.shiftLeft_eq, toNat_ofNat]

theorem rsh_value : a >>> (b.toNat % w) = .ofInt w (AluCode.rsh.value a b) := by
  rw [AluCode.value, ofInt_natCast, ← BitVec.toNat_inj, toNat_ushiftRight,
    Nat.shiftRight_eq_div_pow, toNat_ofNat]
  exact (mod_eq_of_lt (lt_of_le_of_lt (div_le_self _ _) a.isLt)).symm

theorem arsh_value : a.sshiftRight (b.toNat % w) = .ofInt w (AluCode.arsh.value a b) := by
  rw [AluCode.value, sshiftRight, Int.shiftRight_eq_div_pow, Int.natCast_pow]
  rfl

theorem neg_value : 0 - a = .ofInt w (AluCode.neg.value a b) := by
  rw [AluCode.value, ofInt_neg, ofInt_natCast, ofNat_toNat, BitVec.setWidth_eq]
  exact BitVec.zero_sub a

theorem mov_value : b = .ofInt w (AluCode.mov.value a b) := by
  rw [AluCode.value, ofInt_natCast, ofNat_toNat, BitVec.setWidth_eq]

/-- The low `bits` of a word, extended by their sign. -/
theorem movsx_value (bits : Nat) :
    (b.setWidth bits).signExtend w = .ofInt w ((AluCode.movsx bits).value a b) := by
  rw [AluCode.value, signExtend, toInt_eq_toNat_cond, asSigned, BitVec.toNat_setWidth,
    Int.natCast_pow]
  rfl

end

/-! ## Byte swaps -/

theorem and_byte (n k : Nat) : n &&& 255 <<< k = (n / 2 ^ k % 256) <<< k := by
  have hmod : n / 2 ^ k % 256 = n >>> k &&& 255 := by
    rw [Nat.shiftRight_eq_div_pow]
    exact (and_two_pow_sub_one_eq_mod _ 8).symm
  rw [hmod]
  refine eq_of_testBit_eq fun i => ?_
  rw [testBit_and, testBit_shiftLeft, testBit_shiftLeft, testBit_and, testBit_shiftRight]
  by_cases h : k ≤ i
  · rw [decide_eq_true h, Nat.add_sub_cancel' h, Bool.true_and, Bool.true_and]
  · rw [decide_eq_false h, Bool.false_and, Bool.false_and, Bool.and_false]

theorem sw16_toNat (v : BitVec 16) : (sw16 v).toNat = revBytes 2 v.toNat := by
  have hv := v.isLt
  have hor := Library.or_shiftLeft (k := 8) (a := v.toNat % 256) (x := v.toNat / 256) (by omega)
  have hlow : v.toNat <<< 8 % 2 ^ 16 = (v.toNat % 256) <<< 8 := by
    rw [Nat.shiftLeft_eq, Nat.shiftLeft_eq]
    omega
  rw [sw16, toNat_or, toNat_shiftLeft, toNat_ushiftRight,
    Nat.shiftRight_eq_div_pow, hlow, Nat.or_comm, hor]
  simp only [revBytes]
  omega

theorem sw32_toNat (v : BitVec 32) : (sw32 v).toNat = revBytes 4 v.toNat := by
  have hv := v.isLt
  -- the bytes are put together from the bottom
  have e3 : v.toNat / 16777216 < 2 ^ 8 := by omega
  have e2 : v.toNat / 65536 % 256 * 2 ^ 8 + v.toNat / 16777216 < 2 ^ 16 := by omega
  have e1 : v.toNat / 256 % 256 * 2 ^ 16 + (v.toNat / 65536 % 256 * 2 ^ 8 + v.toNat / 16777216)
      < 2 ^ 24 := by
    have hb : v.toNat / 256 % 256 < 2 ^ 8 := Nat.mod_lt _ (by decide)
    refine Nat.lt_of_lt_of_le (Nat.add_lt_add_left e2 _) ?_
    rw [← Nat.succ_mul]
    exact Nat.mul_le_mul_right (2 ^ 16) hb
  have h0 : ((v &&& 0x000000FF) <<< 24).toNat = (v.toNat % 256) <<< 24 := by
    have h := and_byte v.toNat 0
    simp only [Nat.shiftLeft_zero, Nat.pow_zero, Nat.div_one] at h
    rw [toNat_shiftLeft, toNat_and]
    show (v.toNat &&& 255) <<< 24 % 2 ^ 32 = _
    rw [h, Nat.shiftLeft_eq]
    omega
  have h1 : ((v &&& 0x0000FF00) <<< 8).toNat = (v.toNat / 256 % 256) <<< 16 := by
    have h := and_byte v.toNat 8
    rw [toNat_shiftLeft, toNat_and]
    show (v.toNat &&& 255 <<< 8) <<< 8 % 2 ^ 32 = _
    rw [h, Nat.shiftLeft_eq, Nat.shiftLeft_eq, Nat.shiftLeft_eq]
    omega
  have h2 : ((v &&& 0x00FF0000) >>> 8).toNat = (v.toNat / 65536 % 256) <<< 8 := by
    have h := and_byte v.toNat 16
    rw [toNat_ushiftRight, toNat_and]
    show (v.toNat &&& 255 <<< 16) >>> 8 = _
    rw [h, Nat.shiftLeft_eq, Nat.shiftLeft_eq, Nat.shiftRight_eq_div_pow]
    omega
  have h3 : ((v &&& 0xFF000000) >>> 24).toNat = v.toNat / 16777216 := by
    have h := and_byte v.toNat 24
    rw [toNat_ushiftRight, toNat_and]
    show (v.toNat &&& 255 <<< 24) >>> 24 = _
    rw [h, Nat.shiftLeft_eq, Nat.shiftRight_eq_div_pow]
    omega
  rw [sw32, toNat_or, toNat_or, toNat_or, h0, h1, h2, h3, Nat.or_assoc,
    Nat.or_assoc, ← Nat.shiftLeft_add_eq_or_of_lt e3, Nat.shiftLeft_eq _ 8,
    ← Nat.shiftLeft_add_eq_or_of_lt e2, Nat.shiftLeft_eq _ 16,
    ← Nat.shiftLeft_add_eq_or_of_lt e1, Nat.shiftLeft_eq _ 24]
  simp only [revBytes, Nat.div_div_eq_div_mul, Nat.reduceMul]
  omega

theorem revBytes_add (m k : Nat) : ∀ v,
    revBytes (m + k) v = revBytes m v * 256 ^ k + revBytes k (v / 256 ^ m) := by
  induction m with
  | zero =>
    intro v
    rw [Nat.zero_add, revBytes, Nat.zero_mul, Nat.zero_add, Nat.pow_zero, Nat.div_one]
  | succ m ih =>
    intro v
    have hdiv : v / 256 / 256 ^ m = v / 256 ^ (m + 1) := by
      rw [Nat.div_div_eq_div_mul, Nat.pow_succ, Nat.mul_comm]
    rw [Nat.succ_add_eq_add_succ, Nat.add_succ, revBytes, ih, hdiv, revBytes, Nat.add_mul, Nat.pow_add,
      Nat.mul_assoc, Nat.add_assoc]

theorem revBytes_mod (m : Nat) : ∀ v, revBytes m (v % 256 ^ m) = revBytes m v := by
  induction m with
  | zero => intro v; rfl
  | succ m ih =>
    intro v
    have hpow : 256 ^ (m + 1) = 256 * 256 ^ m := pow_succ'
    rw [revBytes, revBytes, hpow, mod_mul_right_mod, mod_mul_right_div_self, ih]

theorem revBytes_lt (m : Nat) : ∀ v, revBytes m v < 256 ^ m := by
  induction m with
  | zero => intro v; exact Nat.one_pos
  | succ m ih =>
    intro v
    have h := ih (v / 256)
    have hbyte : v % 256 * 256 ^ m ≤ 255 * 256 ^ m :=
      Nat.mul_le_mul_right _ (by omega)
    rw [revBytes, Nat.pow_succ]
    omega

theorem sw64_toNat (v : Word) : (sw64 v).toNat = revBytes 8 v.toNat := by
  have hv := v.isLt
  have hhi : (sw32 ((v >>> 32).setWidth 32)).toNat = revBytes 4 (v.toNat / 256 ^ 4) := by
    rw [sw32_toNat, BitVec.toNat_setWidth, toNat_ushiftRight, Nat.shiftRight_eq_div_pow,
      mod_eq_of_lt (by omega)]
    rfl
  have hlo : (sw32 (v.setWidth 32)).toNat = revBytes 4 v.toNat := by
    rw [sw32_toNat, BitVec.toNat_setWidth]
    exact revBytes_mod 4 v.toNat
  have bhi := revBytes_lt 4 (v.toNat / 256 ^ 4)
  have blo := revBytes_lt 4 v.toNat
  have htop : ((sw32 (v.setWidth 32)).setWidth 64 <<< 32 : Word).toNat
      = revBytes 4 v.toNat <<< 32 := by
    rw [toNat_shiftLeft, BitVec.toNat_setWidth, hlo, Nat.shiftLeft_eq, Nat.shiftLeft_eq]
    omega
  have hlow : ((sw32 ((v >>> 32).setWidth 32)).setWidth 64 : Word).toNat
      = revBytes 4 (v.toNat / 256 ^ 4) := by
    rw [BitVec.toNat_setWidth, hhi]
    omega
  rw [sw64, toNat_or, htop, hlow, ← Nat.shiftLeft_add_eq_or_of_lt bhi, Nat.shiftLeft_eq]
  exact (revBytes_add 4 4 v.toNat).symm

/-- The byte swaps of `END`. -/
theorem doEnd_swap {n : Nat} (dst b : Word) {is64 : Bool} {be : Source}
    (h : n = 2 ∨ n = 4 ∨ n = 8) (hs : is64 = true ∨ be = .x) :
    doEnd dst is64 be (8 * n : Nat) = .ofInt 64 ((AluCode.swap n).value dst b) := by
  rw [AluCode.value, ofInt_natCast, ← BitVec.toNat_inj, toNat_ofNat]
  rcases h with rfl | rfl | rfl
  · have hb := revBytes_lt 2 (dst.toNat % 2 ^ 16)
    have hmod := revBytes_mod 2 dst.toNat
    rw [doEnd, if_neg (by decide), if_neg (by decide), if_pos (by decide), if_pos hs,
      BitVec.toNat_setWidth, sw16_toNat, BitVec.toNat_setWidth]
    exact congrArg (· % 2 ^ 64) hmod
  · have hmod := revBytes_mod 4 dst.toNat
    rw [doEnd, if_neg (by decide), if_pos (by decide), if_pos hs, BitVec.toNat_setWidth, sw32_toNat,
      BitVec.toNat_setWidth]
    exact congrArg (· % 2 ^ 64) hmod
  · rw [doEnd, if_pos (by decide), if_pos hs, sw64_toNat]
    exact (mod_eq_of_lt (revBytes_lt 8 dst.toNat)).symm

/-- The truncations of `END`. -/
theorem doEnd_keep {n : Nat} (dst b : Word) {is64 : Bool} {be : Source}
    (h : n = 2 ∨ n = 4 ∨ n = 8) (hs : ¬ (is64 = true ∨ be = .x)) :
    doEnd dst is64 be (8 * n : Nat) = .ofInt 64 ((AluCode.keep n).value dst b) := by
  rw [AluCode.value, ofInt_natCast, ← BitVec.toNat_inj, toNat_ofNat]
  rcases h with rfl | rfl | rfl
  · rw [doEnd, if_neg (by decide), if_neg (by decide), if_pos (by decide), if_neg hs, toNat_and]
    show dst.toNat &&& 2 ^ 16 - 1 = dst.toNat % 2 ^ 16 % 2 ^ 64
    rw [and_two_pow_sub_one_eq_mod]
    omega
  · rw [doEnd, if_neg (by decide), if_pos (by decide), if_neg hs, toNat_and]
    show dst.toNat &&& 2 ^ 32 - 1 = dst.toNat % 2 ^ 32 % 2 ^ 64
    rw [and_two_pow_sub_one_eq_mod]
    omega
  · rw [doEnd, if_pos (by decide), if_neg hs]
    show dst.toNat = dst.toNat % 2 ^ 64 % 2 ^ 64
    have hlt := dst.isLt
    omega

/-! ## Instructions -/

section

variable {i : Insn}

theorem aluOp_value {w : Nat} (hcode : i.code < 0x0E) (hneg : i.code ≠ aluNeg)
    (hmov : i.code ≠ aluMov) (hend : i.code ≠ aluEnd) (a b : BitVec w) :
    aluOp i.code i.offset a b = some (.ofInt w (i.operation.value a b)) := by
  simp only [aluNeg, aluMov, aluEnd] at hneg hmov hend
  have hcases : i.code = 0 ∨ i.code = 1 ∨ i.code = 2 ∨ i.code = 3 ∨ i.code = 4 ∨ i.code = 5 ∨
      i.code = 6 ∨ i.code = 7 ∨ i.code = 9 ∨ i.code = 10 ∨ i.code = 12 := by omega
  rcases hcases with h | h | h | h | h | h | h | h | h | h | h <;> rw [Insn.operation, h]
  · exact congrArg some (add_value a b)
  · exact congrArg some (sub_value a b)
  · exact congrArg some (mul_value a b)
  · by_cases h1 : i.offset = 1
    · rw [h1]
      exact congrArg some (sdiv_value a b)
    · simp only [if_neg h1]
      refine Eq.trans ?_ (congrArg some (div_value a b))
      exact congrArg some (if_neg h1)
  · exact congrArg some (or_value a b)
  · exact congrArg some (and_value a b)
  · exact congrArg some (lsh_value a b)
  · exact congrArg some (rsh_value a b)
  · by_cases h1 : i.offset = 1
    · rw [h1]
      exact congrArg some (smod_value a b)
    · simp only [if_neg h1]
      refine Eq.trans ?_ (congrArg some (mod_value a b))
      exact congrArg some (if_neg h1)
  · exact congrArg some (xor_value a b)
  · exact congrArg some (arsh_value a b)

theorem Insn.result_eq {w : Nat} (h : i.width = w) (dst : Word) (operand : Int) :
    i.result dst operand
      = (BitVec.ofInt w (i.operation.value (dst.setWidth w) (.ofInt w operand))).setWidth 64 := by
  subst h
  rfl

theorem setWidth_ofInt (v : Int) : (BitVec.ofInt 64 v).setWidth 32 = BitVec.ofInt 32 v := by
  rw [← BitVec.toNat_inj, BitVec.toNat_setWidth, BitVec.toNat_ofInt, BitVec.toNat_ofInt]
  omega

theorem endWidth_ok (hv : validateAlu i = .ok ()) (h : i.code = aluEnd) :
    ∃ n : Nat, (n = 2 ∨ n = 4 ∨ n = 8) ∧ i.imm = (8 * n : Nat) := by
  rw [validateAlu, if_pos h] at hv
  split at hv
  · cases hv
  · split at hv
    next hw =>
      rw [endWidthOk, decide_eq_true_eq] at hw
      rcases hw with hw | hw | hw
      · exact ⟨2, .inl rfl, hw⟩
      · exact ⟨4, .inr (.inl rfl), hw⟩
      · exact ⟨8, .inr (.inr rfl), hw⟩
    next => cases hv

theorem movsxWidth_ok (hv : validateAlu i = .ok ()) (h : i.code = aluMov) (h0 : i.offset ≠ 0) :
    i.offset = 8 ∨ i.offset = 16 ∨ (i.cls = .alu64 ∧ i.offset = 32) := by
  rw [validateAlu, h, if_neg (by decide), if_neg (by decide), if_pos rfl, if_neg h0] at hv
  split at hv
  next => cases hv
  next hw =>
    rw [movsxWidthOk, decide_eq_true_eq] at hw
    exact not_not.mp hw

theorem sx_value {w : Nat} (bits : Nat) {widths : List Int} (h : (bits : Int) ∈ widths)
    (a b : BitVec w) :
    sx widths b bits = .ofInt w ((AluCode.movsx bits).value a b) := by
  rw [sx, if_pos h, ← movsx_value]
  rfl

/-- Every accepted instruction computes the operation at its width. -/
theorem aluResult_value (hcode : i.code < 0x0E)
    (hv : validateAlu i = .ok ()) (dst : Word) (operand : Int) :
    aluResult i dst (.ofInt 64 operand) = some (i.result dst operand) := by
  by_cases hend : i.code = aluEnd
  · obtain ⟨n, hn, himm⟩ := endWidth_ok hv hend
    have hbytes : i.imm.toNat / 8 = n := by rw [himm]; omega
    rw [aluResult, if_pos hend, i.result_eq (if_pos (.inr hend)), Insn.operation, hend, hbytes,
      BitVec.setWidth_eq, BitVec.setWidth_eq, himm]
    by_cases hs : i.cls = .alu64 ∨ i.source = .x
    · refine congrArg some ((doEnd_swap dst (.ofInt 64 operand) hn ?_).trans ?_)
      · rwa [decide_eq_true_eq]
      · simp only [if_pos hs, aluEnd]
    · refine congrArg some ((doEnd_keep dst (.ofInt 64 operand) hn ?_).trans ?_)
      · rwa [decide_eq_true_eq]
      · simp only [if_neg hs, aluEnd]
  by_cases hneg : i.code = aluNeg
  · rw [aluResult, if_neg hend, if_pos hneg]
    by_cases h64 : i.cls = .alu64
    · rw [if_pos h64, i.result_eq (if_pos (.inl h64)), Insn.operation, hneg, BitVec.setWidth_eq,
        BitVec.setWidth_eq]
      exact congrArg some (neg_value dst _)
    · rw [if_neg h64, i.result_eq (if_neg fun h => h.elim h64 hend), Insn.operation, hneg]
      exact congrArg (fun r : BitVec 32 => some (r.setWidth 64)) (neg_value _ _)
  by_cases hmov : i.code = aluMov
  · rw [aluResult, if_neg hend, if_neg hneg, if_pos hmov]
    by_cases h64 : i.cls = .alu64
    · rw [i.result_eq (if_pos (.inl h64)), Insn.operation, hmov, BitVec.setWidth_eq,
        BitVec.setWidth_eq]
      by_cases h0 : i.offset = 0
      · rw [if_pos h0, if_pos h64]
        simp only [aluMov, if_pos h0]
        exact congrArg some (mov_value dst _)
      · rw [if_neg h0, if_pos h64]
        simp only [aluMov, if_neg h0]
        rcases movsxWidth_ok hv hmov h0 with h | h | ⟨-, h⟩
        · rw [h]
          exact congrArg some (sx_value 8 (by decide) dst _)
        · rw [h]
          exact congrArg some (sx_value 16 (by decide) dst _)
        · rw [h]
          exact congrArg some (sx_value 32 (by decide) dst _)
    · rw [i.result_eq (if_neg fun h => h.elim h64 hend), Insn.operation, hmov, setWidth_ofInt]
      by_cases h0 : i.offset = 0
      · rw [if_pos h0, if_neg h64]
        simp only [aluMov, if_pos h0]
        exact congrArg (fun r : BitVec 32 => some (r.setWidth 64)) (mov_value _ _)
      · rw [if_neg h0, if_neg h64]
        simp only [aluMov, if_neg h0]
        rcases movsxWidth_ok hv hmov h0 with h | h | ⟨h, -⟩
        · rw [h]
          exact congrArg (fun r : BitVec 32 => some (r.setWidth 64))
            (sx_value 8 (by decide) (dst.setWidth 32) _)
        · rw [h]
          exact congrArg (fun r : BitVec 32 => some (r.setWidth 64))
            (sx_value 16 (by decide) (dst.setWidth 32) _)
        · exact absurd h h64
  rw [aluResult, if_neg hend, if_neg hneg, if_neg hmov]
  by_cases h64 : i.cls = .alu64
  · rw [if_pos h64, aluOp_value hcode hneg hmov hend, i.result_eq (if_pos (.inl h64)),
      BitVec.setWidth_eq, BitVec.setWidth_eq]
  · rw [if_neg h64, aluOp_value hcode hneg hmov hend,
      i.result_eq (if_neg fun h => h.elim h64 hend), setWidth_ofInt]
    rfl

/-! ## Conditions -/

theorem and_ne_zero_iff {w : Nat} (d s : BitVec w) : d &&& s ≠ 0 ↔ d.toNat &&& s.toNat ≠ 0 := by
  rw [← toNat_and]
  exact not_congr (toNat_eq_zero_iff _).symm

theorem condAt_iff {w : Nat} (code : Nat) (d s : BitVec w) :
    condAt code d s = true ↔ condition code d s := by
  unfold condition
  split
  next => exact decide_eq_true_iff.trans toNat_inj.symm
  next => exact decide_eq_true_iff.trans lt_def
  next => exact decide_eq_true_iff.trans le_def
  next => exact decide_eq_true_iff.trans (and_ne_zero_iff d s)
  next => exact decide_eq_true_iff.trans (not_congr toNat_inj.symm)
  next => exact slt_iff_toInt_lt
  next => exact sle_iff_toInt_le
  next => exact decide_eq_true_iff.trans lt_def
  next => exact decide_eq_true_iff.trans le_def
  next => exact slt_iff_toInt_lt
  next => exact sle_iff_toInt_le
  next h1 h2 h3 h4 h5 h6 h7 h8 h9 h10 h11 =>
    have hfalse : condAt code d s = false := by
      rw [condAt, if_neg (show ¬ code = jmpJeq from h1), if_neg (show ¬ code = jmpJne from h5),
        if_neg (show ¬ code = jmpJgt from h2), if_neg (show ¬ code = jmpJge from h3),
        if_neg (show ¬ code = jmpJlt from h8), if_neg (show ¬ code = jmpJle from h9),
        if_neg (show ¬ code = jmpJset from h4), if_neg (show ¬ code = jmpJsgt from h6),
        if_neg (show ¬ code = jmpJsge from h7), if_neg (show ¬ code = jmpJslt from h10),
        if_neg (show ¬ code = jmpJsle from h11)]
    rw [hfalse]
    exact ⟨fun h => Bool.noConfusion h, False.elim⟩

theorem bpfCondTaken_iff (code : Nat) (d : Word) (operand : Int) :
    (bpfCondTaken code false d (.ofInt 64 operand) = true
      ↔ condition code d (BitVec.ofInt 64 operand))
    ∧ (bpfCondTaken code true d (.ofInt 64 operand) = true
      ↔ condition code (d.setWidth 32) (BitVec.ofInt 32 operand)) := by
  refine ⟨condAt_iff code _ _, ?_⟩
  rw [← setWidth_ofInt]
  exact condAt_iff code _ _

/-! ## Accepted programs -/

/-- The second operand of an `ALU` instruction and of a 64-bit jump. -/
theorem srcOperand_value (hsrc : i.srcReg < nreg) (regs : Regs) :
    srcOperand regs i (seI32 i.imm) = some (.ofInt 64 (i.operand regs)) := by
  cases hs : i.source with
  | k => simp only [srcOperand, Insn.operand, hs, seI32]
  | x =>
    simp only [srcOperand, Insn.operand, hs, Regs.get_eq hsrc, Option.getD_some]
    rw [ofInt_natCast, ofNat_toNat, BitVec.setWidth_eq]

/-- The second operand of a jump, as far as the jump looks at it. -/
theorem jmpOperand_value (hsrc : i.srcReg < nreg) (regs : Regs) (is32 : Bool) (d : Word) :
    ∃ s, srcOperand regs i (jmpImm is32 i.imm) = some s ∧
      bpfCondTaken i.code is32 d s = bpfCondTaken i.code is32 d (.ofInt 64 (i.operand regs)) := by
  cases hs : i.source with
  | k =>
    refine ⟨jmpImm is32 i.imm, by simp only [srcOperand, hs], ?_⟩
    cases is32 with
    | false => simp only [jmpImm, Insn.operand, hs, seI32, Bool.false_eq_true, if_false]
    | true =>
      have hlow : ((BitVec.ofInt 32 i.imm).setWidth 64).setWidth 32 = BitVec.ofInt 32 i.imm :=
        BitVec.setWidth_setWidth_of_le _ (by decide)
      simp only [jmpImm, bpfCondTaken, Insn.operand, hs, if_true, setWidth_ofInt, hlow]
  | x =>
    refine ⟨.ofInt 64 (i.operand regs), ?_, rfl⟩
    have h := srcOperand_value hsrc regs
    simpa only [srcOperand, hs] using h

theorem validateAlu_ok (h : validateInsn i = .ok ()) (hcls : i.cls = .alu ∨ i.cls = .alu64) :
    validateAlu i = .ok () := by
  rw [validateInsn] at h
  split at h
  · cases h
  · rcases hcls with hcls | hcls <;> rwa [hcls] at h

/-- Every `ALU` instruction of a loaded program writes the specified result to its destination
and nothing else, and every jump of it takes the specified condition. -/
theorem alu_specified {raw : List Byte} {prof : Option Profile} {p : Program}
    (hload : loadProgram raw prof = .ok p) (hi : i ∈ p.ins) (regs : Regs) :
    (i.cls = .alu ∨ i.cls = .alu64 → ∃ r : Fin nreg, r.val = i.dstReg ∧
      bpfAlu regs i = some (Function.update regs r (i.result (regs r) (i.operand regs))))
    ∧ (∀ d, ∃ s, srcOperand regs i (jmpImm false i.imm) = some s ∧
      (bpfCondTaken i.code false d s = true
        ↔ condition i.code d (BitVec.ofInt 64 (i.operand regs))))
    ∧ (∀ d, ∃ s, srcOperand regs i (jmpImm true i.imm) = some s ∧
      (bpfCondTaken i.code true d s = true
        ↔ condition i.code (d.setWidth 32) (BitVec.ofInt 32 (i.operand regs)))) := by
  have hacc := loadProgram_ok hload
  have hv := hacc.valid i hi
  have hsafe := Insn.safe_of_checks hv (hacc.checked i hi)
  refine ⟨fun hcls => ⟨⟨i.dstReg, hsafe.dst⟩, rfl, ?_⟩, fun d => ?_, fun d => ?_⟩
  · have hjmp : i.cls.isAluOrJmp = true := by rcases hcls with h | h <;> rw [h] <;> rfl
    rw [bpfAlu, Regs.get_eq hsafe.dst, srcOperand_value hsafe.src]
    simp only [Option.bind_eq_bind, Option.bind_some]
    rw [aluResult_value (hsafe.code hjmp) (validateAlu_ok hv hcls), Option.bind_some,
      Regs.set_eq _ hsafe.dst]
  · obtain ⟨s, hs, heq⟩ := jmpOperand_value hsafe.src regs false d
    refine ⟨s, hs, ?_⟩
    rw [heq]
    exact (bpfCondTaken_iff i.code d (i.operand regs)).1
  · obtain ⟨s, hs, heq⟩ := jmpOperand_value hsafe.src regs true d
    refine ⟨s, hs, ?_⟩
    rw [heq]
    exact (bpfCondTaken_iff i.code d (i.operand regs)).2

end

/-- `r1 s/= r2`. -/
def signedDivision : List Byte := [0x3f, 0x21, 1, 0, 0, 0, 0, 0]

/-- The instruction of `signedDivision`. -/
def signedDivisionInsn : Insn where
  opcode := 0x3f
  cls := .alu64
  code := aluDiv
  source := .x
  mode := 0
  size := .w
  srcReg := 2
  dstReg := 1
  offset := 1
  imm := 0
  isWide := false
  nextImm := 0

/-- The minimum in `r1` and minus one in `r2`. -/
def minimumByMinusOne : Regs := fun r =>
  if r.val = 1 then BitVec.intMin 64 else if r.val = 2 then -1 else 0

theorem load_signedDivision : ∃ p, loadProgram signedDivision none = .ok p ∧
    p.ins = [signedDivisionInsn] := ⟨_, rfl, by decide⟩

/-- The minimum divided by minus one is the minimum. -/
theorem alu_specified_signedDivision : ∃ r : Fin nreg, r.val = 1 ∧
    bpfAlu minimumByMinusOne signedDivisionInsn
      = some (Function.update minimumByMinusOne r (BitVec.intMin 64)) := by
  obtain ⟨p, hload, hins⟩ := load_signedDivision
  have hi : signedDivisionInsn ∈ p.ins := by rw [hins]; exact List.mem_singleton_self _
  obtain ⟨r, hr, h⟩ := (alu_specified hload hi minimumByMinusOne).1 (.inr rfl)
  refine ⟨r, hr, h.trans ?_⟩
  obtain rfl : r = ⟨1, by decide⟩ := Fin.ext hr
  have hval : signedDivisionInsn.result (BitVec.intMin 64)
      (signedDivisionInsn.operand minimumByMinusOne) = BitVec.intMin 64 := by decide
  exact congrArg (fun v => some (Function.update minimumByMinusOne _ v)) hval

end Bpf
