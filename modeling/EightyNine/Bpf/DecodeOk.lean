import EightyNine.Library.Bits
import EightyNine.Bpf.Decode
import Mathlib.Data.Nat.Bitwise

/-!
# Decoding loses nothing

`Insn.bytes` writes an instruction.  What `decode` reads is what is written
(`decode_tiles`), up to the reserved bytes of a wide instruction, which it skips.
-/

namespace Bpf

open Library (or_shiftLeft)

/-! ## Fields as sums -/

theorem readU16le_eq (b0 b1 : Byte) : readU16le b0 b1 = b0.toNat + 256 * b1.toNat := by
  have h0 := b0.toNat_lt
  have h := or_shiftLeft (k := 8) (a := b1.toNat) (x := b0.toNat) (by omega)
  rw [readU16le, h]
  omega

theorem readU32le_eq (b0 b1 b2 b3 : Byte) :
    readU32le b0 b1 b2 b3 =
      b0.toNat + 256 * b1.toNat + 65536 * b2.toNat + 16777216 * b3.toNat := by
  have h0 := b0.toNat_lt
  have h1 := b1.toNat_lt
  have h2 := b2.toNat_lt
  have e1 := or_shiftLeft (k := 8) (a := b1.toNat) (x := b0.toNat) (by omega)
  have e2 := or_shiftLeft (k := 16) (a := b2.toNat) (x := b1.toNat * 2 ^ 8 + b0.toNat) (by omega)
  have e3 := or_shiftLeft (k := 24) (a := b3.toNat)
    (x := b2.toNat * 2 ^ 16 + (b1.toNat * 2 ^ 8 + b0.toNat)) (by omega)
  rw [readU32le, e1, e2, e3]
  omega

theorem and_signBit (n : Nat) : n &&& 0x8000 ≠ 0 ↔ n / 32768 % 2 = 1 := by
  have h : n &&& 0x8000 = (n.testBit 15).toNat * 32768 := Nat.and_two_pow n 15
  rw [h, Nat.testBit_eq_decide_div_mod_eq]
  by_cases hb : n / 2 ^ 15 % 2 = 1 <;> simp

theorem readOffset_eq (b0 b1 : Byte) :
    readOffset b0 b1 = if b1.toNat < 128 then ((b0.toNat + 256 * b1.toNat : Nat) : Int)
      else ((b0.toNat + 256 * b1.toNat : Nat) : Int) - 65536 := by
  have h0 := b0.toNat_lt
  have h1 := b1.toNat_lt
  have hhigh : (b0.toNat + 256 * b1.toNat) ||| 0xFFFF0000 =
      65535 * 2 ^ 16 + (b0.toNat + 256 * b1.toNat) := or_shiftLeft (k := 16) (a := 65535) (by omega)
  simp only [readOffset, readU16le_eq, and_signBit, hhigh]
  rcases lt_or_ge b1.toNat 128 with h | h
  · rw [if_neg (by omega), if_pos h, asInt, if_pos (by omega)]
  · rw [if_pos (by omega), if_neg (by omega), asInt, if_neg (by omega)]
    omega

/-! ## Writing an instruction -/

/-- Byte `k` of a signed number in two's complement. -/
def byteOf (v : Int) (k : Nat) : Byte := UInt8.ofNat (v / 256 ^ k % 256).toNat

theorem byteOf_eq {v : Int} {k : Nat} {b : Byte} (h : v / 256 ^ k % 256 = b.toNat) :
    byteOf v k = b := by
  rw [byteOf, h, Int.toNat_natCast, UInt8.ofNat_toNat]

/-- The four bytes of a 32-bit field. -/
def fieldBytes (v : Int) : List Byte := [byteOf v 0, byteOf v 1, byteOf v 2, byteOf v 3]

/-- The bytes of an instruction, with zeros in the reserved part of the wide form. -/
def Insn.bytes (i : Insn) : List Byte :=
  UInt8.ofNat i.opcode :: UInt8.ofNat (16 * i.srcReg + i.dstReg) ::
    byteOf i.offset 0 :: byteOf i.offset 1 :: fieldBytes i.imm ++
    if i.isWide then 0 :: 0 :: 0 :: 0 :: fieldBytes i.nextImm else []

theorem fieldBytes_readU32le (b0 b1 b2 b3 : Byte) :
    fieldBytes (readU32le b0 b1 b2 b3 : Nat) = [b0, b1, b2, b3] := by
  have h0 := b0.toNat_lt
  have h1 := b1.toNat_lt
  have h2 := b2.toNat_lt
  have h3 := b3.toNat_lt
  rw [readU32le_eq, fieldBytes, byteOf_eq (b := b0) (by omega), byteOf_eq (b := b1) (by omega),
    byteOf_eq (b := b2) (by omega), byteOf_eq (b := b3) (by omega)]

theorem fieldBytes_asInt (u : Nat) : fieldBytes (asInt u) = fieldBytes (u : Nat) := by
  have h : ∀ k < 4, asInt u / 256 ^ k % 256 = (u : Int) / 256 ^ k % 256 := by
    intro k hk
    rw [asInt]
    split
    · rfl
    · have : k = 0 ∨ k = 1 ∨ k = 2 ∨ k = 3 := by omega
      rcases this with rfl | rfl | rfl | rfl <;> omega
  simp only [fieldBytes, byteOf, h 0 (by omega), h 1 (by omega), h 2 (by omega), h 3 (by omega)]

theorem byteOf_readOffset (b0 b1 : Byte) :
    byteOf (readOffset b0 b1) 0 = b0 ∧ byteOf (readOffset b0 b1) 1 = b1 := by
  have h0 := b0.toNat_lt
  have h1 := b1.toNat_lt
  rw [readOffset_eq]
  constructor <;> apply byteOf_eq <;> split <;> omega

theorem regs_byte (b : Byte) : 16 * (b.toNat >>> 4) + (b.toNat &&& 0x0F) = b.toNat := by
  have h : b.toNat &&& 0x0F = b.toNat % 16 := Nat.and_two_pow_sub_one_eq_mod _ 4
  rw [Nat.shiftRight_eq_div_pow, h]
  omega

theorem Insn.bytes_length (i : Insn) : i.bytes.length = if i.isWide then 16 else 8 := by
  rw [Insn.bytes]
  split <;> simp [fieldBytes]

/-- The bytes of an instruction whose fields were read from eight bytes. -/
theorem bytes_of_fields {i : Insn} {op regs o0 o1 i0 i1 i2 i3 : Byte}
    (hop : i.opcode = op.toNat) (hsrc : i.srcReg = regs.toNat >>> 4)
    (hdst : i.dstReg = regs.toNat &&& 0x0F) (hoff : i.offset = readOffset o0 o1)
    (himm : i.imm = asInt (readU32le i0 i1 i2 i3)) :
    i.bytes = op :: regs :: o0 :: o1 :: i0 :: i1 :: i2 :: i3 ::
      if i.isWide then 0 :: 0 :: 0 :: 0 :: fieldBytes i.nextImm else [] := by
  have ho := byteOf_readOffset o0 o1
  rw [Insn.bytes, hop, hsrc, hdst, hoff, himm, regs_byte, ho.1, ho.2, fieldBytes_asInt,
    fieldBytes_readU32le, UInt8.ofNat_toNat, UInt8.ofNat_toNat]
  rfl

theorem basicInsn_eq (b : Insn) :
    ∃ code source mode size,
      basicInsn b = { b with code := code, source := source, mode := mode, size := size } := by
  rw [basicInsn]
  split <;> exact ⟨_, _, _, _, rfl⟩

theorem basicInsn_isWide (op regs o0 o1 i0 i1 i2 i3 : Byte) :
    (basicInsn (baseInsn op regs o0 o1 i0 i1 i2 i3)).isWide = false := by
  obtain ⟨_, _, _, _, h⟩ := basicInsn_eq (baseInsn op regs o0 o1 i0 i1 i2 i3)
  rw [h]
  rfl

theorem basicInsn_bytes (op regs o0 o1 i0 i1 i2 i3 : Byte) :
    (basicInsn (baseInsn op regs o0 o1 i0 i1 i2 i3)).bytes =
      [op, regs, o0, o1, i0, i1, i2, i3] := by
  obtain ⟨_, _, _, _, h⟩ := basicInsn_eq (baseInsn op regs o0 o1 i0 i1 i2 i3)
  rw [h]
  exact bytes_of_fields rfl rfl rfl rfl rfl

theorem wideInsn_bytes (op regs o0 o1 i0 i1 i2 i3 n0 n1 n2 n3 : Byte) :
    (wideInsn (baseInsn op regs o0 o1 i0 i1 i2 i3) (readU32le n0 n1 n2 n3)).bytes =
      [op, regs, o0, o1, i0, i1, i2, i3, 0, 0, 0, 0, n0, n1, n2, n3] := by
  have h : (wideInsn (baseInsn op regs o0 o1 i0 i1 i2 i3) (readU32le n0 n1 n2 n3)).opcode =
      op.toNat := rfl
  rw [bytes_of_fields h rfl rfl rfl rfl]
  simp only [wideInsn, if_true, fieldBytes_readU32le]

/-! ## The decoder -/

/-- Instructions that tile bytes, each read from its own. -/
inductive Tiles : List Byte → List Insn → Prop
  | nil : Tiles [] []
  | basic {op regs o0 o1 i0 i1 i2 i3 : Byte} {rest : List Byte} {ins : List Insn}
      (narrow : isWideLd op.toNat = false) (tail : Tiles rest ins) :
      Tiles (op :: regs :: o0 :: o1 :: i0 :: i1 :: i2 :: i3 :: rest)
        (basicInsn (baseInsn op regs o0 o1 i0 i1 i2 i3) :: ins)
  | wide {op regs o0 o1 i0 i1 i2 i3 c0 c1 c2 c3 n0 n1 n2 n3 : Byte} {rest : List Byte}
      {ins : List Insn} (wide : isWideLd op.toNat = true) (tail : Tiles rest ins) :
      Tiles (op :: regs :: o0 :: o1 :: i0 :: i1 :: i2 :: i3 ::
          c0 :: c1 :: c2 :: c3 :: n0 :: n1 :: n2 :: n3 :: rest)
        (wideInsn (baseInsn op regs o0 o1 i0 i1 i2 i3) (readU32le n0 n1 n2 n3) :: ins)

theorem map_cons_ok {ε α : Type} {e : Except ε (List α)} {a : α} {l : List α}
    (h : e.map (a :: ·) = .ok l) : ∃ l', e = .ok l' ∧ l = a :: l' := by
  cases e with
  | error _ => cases h
  | ok l' =>
    cases h
    exact ⟨l', rfl, rfl⟩

theorem decode_ok {raw : List Byte} {cap : Nat} {ins : List Insn}
    (h : decode raw cap = .ok ins) : Tiles raw ins := by
  induction raw, cap using decode.induct generalizing ins with
  | case1 cap =>
    cases h
    exact .nil
  | case2 op regs o0 o1 i0 i1 i2 i3 rest =>
    unfold decode at h
    cases h
  | case3 op regs o0 o1 i0 i1 i2 i3 cap hcap hwide c0 c1 c2 c3 n0 n1 n2 n3 rest ih =>
    rw [decode, if_neg hcap, if_pos hwide] at h
    obtain ⟨ins', hins, rfl⟩ := map_cons_ok h
    exact .wide hwide (ih hins)
  | case4 op regs o0 o1 i0 i1 i2 i3 rest cap hcap hwide hshort =>
    rw [decode.eq_3 _ _ _ _ _ _ _ _ _ _ hshort, if_neg hcap, if_pos hwide] at h
    cases h
  | case5 op regs o0 o1 i0 i1 i2 i3 rest cap hcap hwide ih =>
    unfold decode at h
    rw [if_neg hcap, if_neg hwide] at h
    obtain ⟨ins', hins, rfl⟩ := map_cons_ok h
    exact .basic (Bool.eq_false_iff.mpr hwide) (ih hins)
  | case6 raw cap hne hshort =>
    rw [decode.eq_4 _ _ hne hshort] at h
    cases h

theorem decode_of_tiles {raw : List Byte} {ins : List Insn} (h : Tiles raw ins) :
    ∀ {cap : Nat}, ins.length ≤ cap → decode raw cap = .ok ins := by
  induction h with
  | nil => exact fun _ => rfl
  | basic narrow _ ih =>
    intro cap hcap
    rw [List.length_cons] at hcap
    unfold decode
    rw [if_neg (by omega), if_neg (Bool.eq_false_iff.mp narrow), ih (by omega)]
    rfl
  | wide wide _ ih =>
    intro cap hcap
    rw [List.length_cons] at hcap
    rw [decode, if_neg (by omega), if_pos wide, ih (by omega)]
    rfl

end Bpf
