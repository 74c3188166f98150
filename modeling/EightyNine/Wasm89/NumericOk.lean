import EightyNine.Wasm89.Counts

/-!
# The integer instructions

The functions of the evaluator give the values of the instructions, and they fail where
the instruction has none (`integers_exact`).
-/

namespace Wasm89

open BitVec

/-! ## The instructions -/

theorem some_value {w : Nat} {r : BitVec w} {n : Nat} (h : r.toNat = n) :
    (some r).map BitVec.toNat = some n := by
  rw [Option.map_some, h]

theorem sub_value {w : Nat} (a b : BitVec w) :
    (a - b).toNat = (a.toNat + 2 ^ w - b.toNat) % 2 ^ w := by
  have := b.isLt
  rw [toNat_sub]
  congr 1
  omega

theorem i32Binop_value (op : Binop) (a b : BitVec 32) :
    (i32Binop op a b).map BitVec.toNat = op.value 32 a.toNat b.toNat := by
  have hmin : (0x80000000#32).toInt = -2 ^ (32 - 1) := rfl
  have hneg : (0xFFFFFFFF#32).toInt = -1 := rfl
  cases op with
  | add => exact some_value (toNat_add a b)
  | sub => exact some_value (sub_value a b)
  | mul => exact some_value (toNat_mul a b)
  | divU => exact divU_value a b
  | divS => exact divS_value (by decide) sx32_extends hmin hneg a b
  | remU => exact remU_value a b
  | remS => exact remS_value (by decide) sx32_extends hneg a b
  | and => exact some_value (toNat_and a b)
  | or => exact some_value (toNat_or a b)
  | xor => exact some_value (toNat_xor a b)
  | shl => exact some_value (shl_value masks32 a b)
  | shrU => exact some_value (shrU_value masks32 a b)
  | shrS => exact some_value (shrS_value masks32 (by decide) a b)
  | rotl => exact some_value (rotl_value masks32 (by decide) a b)
  | rotr => exact some_value (rotr_value masks32 (by decide) a b)

theorem i64Binop_value (op : Binop) (a b : BitVec 64) :
    (i64Binop op a b).map BitVec.toNat = op.value 64 a.toNat b.toNat := by
  have hmin : (0x8000000000000000#64).toInt = -2 ^ (64 - 1) := rfl
  have hneg : (0xFFFFFFFFFFFFFFFF#64).toInt = -1 := rfl
  cases op with
  | add => exact some_value (toNat_add a b)
  | sub => exact some_value (sub_value a b)
  | mul => exact some_value (toNat_mul a b)
  | divU => exact divU_value a b
  | divS => exact divS_value (by decide) sx64_extends hmin hneg a b
  | remU => exact remU_value a b
  | remS => exact remS_value (by decide) sx64_extends hneg a b
  | and => exact some_value (toNat_and a b)
  | or => exact some_value (toNat_or a b)
  | xor => exact some_value (toNat_xor a b)
  | shl => exact some_value (shl_value masks64 a b)
  | shrU => exact some_value (shrU_value masks64 a b)
  | shrS => exact some_value (shrS_value masks64 (by decide) a b)
  | rotl => exact some_value (rotl_value masks64 (by decide) a b)
  | rotr => exact some_value (rotr_value masks64 (by decide) a b)

/-- A comparison gives one where it holds and zero where it does not. -/
def Tells (r : BitVec 32) (p : Prop) : Prop := r.toNat = 1 ∧ p ∨ r.toNat = 0 ∧ ¬ p

theorem truth_tells {c : Bool} {p : Prop} (h : c = true ↔ p) : Tells (truth c) p := by
  cases c with
  | false => exact .inr ⟨rfl, fun hp => Bool.false_ne_true (h.mpr hp)⟩
  | true => exact .inl ⟨rfl, h.mp rfl⟩

section

variable {w : Nat} {sign : BitVec w} (hs : Flips sign) (a b : BitVec w)

include hs

theorem ltS_tells : Tells (ltS sign a b) (Relop.ltS.Holds w a.toNat b.toNat) := by
  refine truth_tells ?_
  rw [decide_eq_true_iff, hs, Relop.Holds, signed_toNat, signed_toNat]

theorem gtS_tells : Tells (gtS sign a b) (Relop.gtS.Holds w a.toNat b.toNat) := by
  refine truth_tells ?_
  rw [decide_eq_true_iff, gt_iff_lt, hs, Relop.Holds, signed_toNat, signed_toNat]

theorem leS_tells : Tells (leS sign a b) (Relop.leS.Holds w a.toNat b.toNat) := by
  refine truth_tells ?_
  rw [decide_eq_true_iff, flips_le hs, Relop.Holds, signed_toNat, signed_toNat]

theorem geS_tells : Tells (geS sign a b) (Relop.geS.Holds w a.toNat b.toNat) := by
  refine truth_tells ?_
  rw [decide_eq_true_iff, ge_iff_le, flips_le hs, Relop.Holds, signed_toNat, signed_toNat]

end

theorem eq_tells {w : Nat} (a b : BitVec w) : Tells (truth (a == b)) (a.toNat = b.toNat) :=
  truth_tells (beq_iff_eq.trans toNat_inj.symm)

theorem ne_tells {w : Nat} (a b : BitVec w) : Tells (truth (a != b)) (a.toNat ≠ b.toNat) :=
  truth_tells (bne_iff_ne.trans (not_congr toNat_inj.symm))

theorem i32Relop_tells (op : Relop) (a b : BitVec 32) :
    Tells (i32Relop op a b) (op.Holds 32 a.toNat b.toNat) := by
  have hs : Flips 0x80000000#32 := flips_intMin (w := 32) (by decide)
  cases op with
  | eq => exact eq_tells a b
  | ne => exact ne_tells a b
  | ltU | gtU | leU | geU => exact truth_tells decide_eq_true_iff
  | ltS => exact ltS_tells hs a b
  | gtS => exact gtS_tells hs a b
  | leS => exact leS_tells hs a b
  | geS => exact geS_tells hs a b

theorem i64Relop_tells (op : Relop) (a b : BitVec 64) :
    Tells (i64Relop op a b) (op.Holds 64 a.toNat b.toNat) := by
  have hs : Flips 0x8000000000000000#64 := flips_intMin (w := 64) (by decide)
  cases op with
  | eq => exact eq_tells a b
  | ne => exact ne_tells a b
  | ltU | gtU | leU | geU => exact truth_tells decide_eq_true_iff
  | ltS => exact ltS_tells hs a b
  | gtS => exact gtS_tells hs a b
  | leS => exact leS_tells hs a b
  | geS => exact geS_tells hs a b

/-- The division of the minimum by minus one, and every division by zero. -/
def Binop.Fails (N i j : Nat) : Binop → Prop
  | .divU => j = 0
  | .divS => j = 0 ∨ signed N i = -2 ^ (N - 1) ∧ signed N j = -1
  | .remU => j = 0
  | .remS => j = 0
  | _ => False

theorem divS_none {w : Nat} {sx : BitVec w → BitVec 64} {min neg1 : BitVec w}
    (hmin : min.toInt = -2 ^ (w - 1)) (hneg : neg1.toInt = -1) (a b : BitVec w) :
    divS sx min neg1 a b = none ↔ Binop.divS.Fails w a.toNat b.toNat := by
  rw [divS, Binop.Fails, signed_toNat, signed_toNat, ← hmin, ← hneg, toNat_eq_zero_iff,
    ← eq_iff_toInt, ← eq_iff_toInt]
  split
  · exact iff_of_true rfl (.inl ‹_›)
  · split
    · exact iff_of_true rfl (.inr ‹_›)
    · exact iff_of_false (by simp) (not_or.mpr ⟨‹_›, ‹_›⟩)

theorem divU_none {w : Nat} (a b : BitVec w) : divU a b = none ↔ b.toNat = 0 := by
  rw [divU, toNat_eq_zero_iff]
  split
  · exact iff_of_true rfl ‹_›
  · exact iff_of_false (by simp) ‹_›

theorem remU_none {w : Nat} (a b : BitVec w) : remU a b = none ↔ b.toNat = 0 := by
  rw [remU, toNat_eq_zero_iff]
  split
  · exact iff_of_true rfl ‹_›
  · exact iff_of_false (by simp) ‹_›

theorem remS_none {w : Nat} {sx : BitVec w → BitVec 64} {min neg1 : BitVec w} (a b : BitVec w) :
    remS sx min neg1 a b = none ↔ b.toNat = 0 := by
  rw [remS, toNat_eq_zero_iff]
  split
  · exact iff_of_true rfl ‹_›
  · refine iff_of_false ?_ ‹_›
    split <;> simp

theorem i32Binop_none (op : Binop) (a b : BitVec 32) :
    i32Binop op a b = none ↔ op.Fails 32 a.toNat b.toNat := by
  have hmin : (0x80000000#32).toInt = -2 ^ (32 - 1) := rfl
  have hneg : (0xFFFFFFFF#32).toInt = -1 := rfl
  cases op with
  | divU => exact divU_none a b
  | divS => exact divS_none hmin hneg a b
  | remU => exact remU_none a b
  | remS => exact remS_none a b
  | _ => exact iff_of_false (by simp [i32Binop]) id

theorem i64Binop_none (op : Binop) (a b : BitVec 64) :
    i64Binop op a b = none ↔ op.Fails 64 a.toNat b.toNat := by
  have hmin : (0x8000000000000000#64).toInt = -2 ^ (64 - 1) := rfl
  have hneg : (0xFFFFFFFFFFFFFFFF#64).toInt = -1 := rfl
  cases op with
  | divU => exact divU_none a b
  | divS => exact divS_none hmin hneg a b
  | remU => exact remU_none a b
  | remS => exact remS_none a b
  | _ => exact iff_of_false (by simp [i64Binop]) id

/-- Every integer function gives the value of its instruction, and the division and
remainder functions fail for a zero divisor and for the overflowing quotient only. -/
theorem integers_exact :
    (∀ (op : Binop) (a b : BitVec 32),
      (i32Binop op a b).map BitVec.toNat = op.value 32 a.toNat b.toNat ∧
        (i32Binop op a b = none ↔ op.Fails 32 a.toNat b.toNat)) ∧
    (∀ (op : Binop) (a b : BitVec 64),
      (i64Binop op a b).map BitVec.toNat = op.value 64 a.toNat b.toNat ∧
        (i64Binop op a b = none ↔ op.Fails 64 a.toNat b.toNat)) ∧
    (∀ (op : Count) (a : BitVec 32), (i32Count op a).toNat = op.value 32 a.toNat) ∧
    (∀ (op : Count) (a : BitVec 64), (i64Count op a).toNat = op.value 64 a.toNat) ∧
    (∀ (op : Relop) (a b : BitVec 32), Tells (i32Relop op a b) (op.Holds 32 a.toNat b.toNat)) ∧
    (∀ (op : Relop) (a b : BitVec 64), Tells (i64Relop op a b) (op.Holds 64 a.toNat b.toNat)) ∧
    (∀ a : BitVec 32, Tells (i32Eqz a) (a.toNat = 0)) ∧
    (∀ a : BitVec 64, Tells (i64Eqz a) (a.toNat = 0)) ∧
    (∀ a : BitVec 64, (i32WrapI64 a).toNat = a.toNat % 2 ^ 32) ∧
    (∀ a : BitVec 32, (i64ExtendI32U a).toNat = a.toNat) ∧
    (∀ a : BitVec 32, (i64ExtendI32S a).toNat = unsigned 64 (signed 32 a.toNat)) ∧
    (∀ a : BitVec 32, (i32Extend8S a).toNat = extendValue 8 32 a.toNat) ∧
    (∀ a : BitVec 32, (i32Extend16S a).toNat = extendValue 16 32 a.toNat) ∧
    (∀ a : BitVec 64, (i64Extend8S a).toNat = extendValue 8 64 a.toNat) ∧
    (∀ a : BitVec 64, (i64Extend16S a).toNat = extendValue 16 64 a.toNat) ∧
    ∀ a : BitVec 64, (i64Extend32S a).toNat = extendValue 32 64 a.toNat :=
  ⟨fun op a b => ⟨i32Binop_value op a b, i32Binop_none op a b⟩,
    fun op a b => ⟨i64Binop_value op a b, i64Binop_none op a b⟩,
    i32Count_value, i64Count_value, i32Relop_tells, i64Relop_tells,
    fun a => eq_tells a 0, fun a => eq_tells a 0, fun a => toNat_setWidth 32 a,
    toNat_extended, i64ExtendI32S_value,
    extendS_value (by decide) rfl rfl rfl, extendS_value (by decide) rfl rfl rfl,
    extendS_value (by decide) rfl rfl rfl, extendS_value (by decide) rfl rfl rfl,
    extendS_value (by decide) rfl rfl rfl⟩

end Wasm89
