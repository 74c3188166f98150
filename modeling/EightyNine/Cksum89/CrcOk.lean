import EightyNine.Cksum89.Crc
import EightyNine.Library.Crc

/-!
# The checks are remainders

Every entry of a table is eight bits of the division, so the register of each check is
the one of the bitwise division (`crc_computes`), whose value is the remainder by the
generator.  A context has seen the blocks it was updated by one after the other, and
reading its value does not change it.
-/

namespace Cksum89

open Library.Crc Nat List
open Polynomial (X)

/-! ## Contexts -/

/-- The operations of one check. -/
structure Stream (Ctx Val : Type) where
  init : Ctx
  update : Ctx → List UInt8 → Ctx
  final : Ctx → Val
  oneShot : List UInt8 → Val

/-- A call on a context. -/
inductive Call where
  | update (data : List UInt8)
  | final

/-- The values that the calls return. -/
def Stream.run {Ctx Val : Type} (S : Stream Ctx Val) : Ctx → List Call → List Val
  | _, [] => []
  | ctx, .update data :: calls => S.run (S.update ctx data) calls
  | ctx, .final :: calls => S.final ctx :: S.run ctx calls

/-- The values of the bytes so far, of which some were seen before. -/
def valuesSoFar {Val : Type} (value : List UInt8 → Val) (seen : List UInt8) : List Call → List Val
  | [] => []
  | .update data :: calls => valuesSoFar value (seen ++ data) calls
  | .final :: calls => value seen :: valuesSoFar value seen calls

/-- The check of width `w` with the generator `g`, over values that stand for numbers. -/
structure Computes {Ctx Val : Type} (S : Stream Ctx Val) (w g : Nat) (number : Val → Nat)
    (Fits : Val → Prop) : Prop where
  /-- However the bytes are split, a value read is that of the bytes so far. -/
  split : ∀ calls, S.run S.init calls = valuesSoFar S.oneShot [] calls
  /-- The value is what the bitwise division gives. -/
  bitwise : ∀ data, number (S.oneShot data) = crc w g data
  /-- It is the remainder of the message between all bits set and inverted. -/
  remainder : ∀ data, poly w (number (S.oneShot data)) =
    (X ^ w * message data + X ^ (8 * data.length) * poly w (2 ^ w - 1)) %ₘ generator w g +
      poly w (2 ^ w - 1)
  fits : ∀ data, Fits (S.oneShot data)

theorem Stream.run_eq {Ctx Val : Type} {S : Stream Ctx Val} {byte : Ctx → UInt8 → Ctx}
    (hupdate : ∀ ctx data, S.update ctx data = data.foldl byte ctx)
    (hone : ∀ data, S.oneShot data = S.final (data.foldl byte S.init)) (calls : List Call)
    (seen : List UInt8) :
    S.run (seen.foldl byte S.init) calls = valuesSoFar S.oneShot seen calls := by
  induction calls generalizing seen with
  | nil => rfl
  | cons call calls ih =>
    cases call with
    | update data =>
      rw [Stream.run, valuesSoFar, hupdate, ← foldl_append]
      exact ih (seen ++ data)
    | final => rw [Stream.run, valuesSoFar, hone, ih]

/-! ## CRC-32 -/

/-- A table of eight bits of the division. -/
def IsTable (g : Nat) (table : List Nat) : Prop :=
  table = (range 256).map fun i => (bitStep g)^[8] i

theorem and_ff_lt (x : Nat) : x &&& 0xff < 256 := by
  rw [show x &&& 0xff = x % 2 ^ 8 from and_two_pow_sub_one_eq_mod x 8]
  exact mod_lt x (by decide)

theorem crc32Step_eq {g : Nat} {table : List Nat} (h : IsTable g table) (state : Nat) (b : UInt8) :
    crc32Step state table b = byteStep g state b := by
  rw [byteStep_table, crc32Step, h, getD_eq_getElem?_getD, getElem?_map,
    getElem?_range (and_ff_lt _)]
  rfl

theorem isTable_crc32 : IsTable 0xedb88320 crc32IsoHdlcTable ∧ IsTable 0x82f63b78 crc32cTable := by
  unfold IsTable
  decide +kernel

/-- `cksum89_crc32_iso_hdlc` and its context. -/
def crc32IsoHdlcStream : Stream Crc32IsoHdlcCtx Nat :=
  ⟨crc32IsoHdlcInit, crc32IsoHdlcUpdate, crc32IsoHdlcFinal, crc32IsoHdlc⟩

/-- `cksum89_crc32c` and its context. -/
def crc32cStream : Stream Crc32cCtx Nat := ⟨crc32cInit, crc32cUpdate, crc32cFinal, crc32c⟩

theorem crc32IsoHdlc_eq (data : List UInt8) : crc32IsoHdlc data = crc 32 0xedb88320 data := by
  have hfold : ∀ s, (data.foldl crc32IsoHdlcByte ⟨s⟩).state = feed 0xedb88320 s data := by
    induction data with
    | nil => exact fun s => rfl
    | cons b data ih =>
      intro s
      rw [feed, foldl_cons, foldl_cons, ← crc32Step_eq isTable_crc32.1]
      exact ih _
  exact congrArg (· ^^^ 0xffffffff) (hfold 0xffffffff)

theorem crc32c_eq (data : List UInt8) : crc32c data = crc 32 0x82f63b78 data := by
  have hfold : ∀ s, (data.foldl crc32cByte ⟨s⟩).state = feed 0x82f63b78 s data := by
    induction data with
    | nil => exact fun s => rfl
    | cons b data ih =>
      intro s
      rw [feed, foldl_cons, foldl_cons, ← crc32Step_eq isTable_crc32.2]
      exact ih _
  exact congrArg (· ^^^ 0xffffffff) (hfold 0xffffffff)

/-! ## CRC-64 -/

/-- The number of two limbs. -/
def U64.number (v : U64) : Nat := 2 ^ 32 * v.hi + v.lo

/-- Both limbs have 32 bits. -/
def U64.Fits (v : U64) : Prop := v.hi < 2 ^ 32 ∧ v.lo < 2 ^ 32

theorem U64.testBit_number {v : U64} (h : v.Fits) (i : Nat) :
    v.number.testBit i = if i < 32 then v.lo.testBit i else v.hi.testBit (i - 32) :=
  testBit_two_pow_mul_add v.hi h.2 i

theorem crc64Xor_fits {a b : U64} (ha : a.Fits) (hb : b.Fits) : (crc64Xor a b).Fits :=
  ⟨xor_lt_two_pow ha.1 hb.1, xor_lt_two_pow ha.2 hb.2⟩

theorem crc64Xor_number {a b : U64} (ha : a.Fits) (hb : b.Fits) :
    (crc64Xor a b).number = a.number ^^^ b.number := by
  refine eq_of_testBit_eq fun i => ?_
  rw [testBit_xor, U64.testBit_number (crc64Xor_fits ha hb), U64.testBit_number ha,
    U64.testBit_number hb]
  split <;> exact testBit_xor _ _ _

theorem crc64Shift8_fits {a : U64} (ha : a.Fits) : (crc64Shift8 a).Fits := by
  constructor
  · exact lt_of_le_of_lt (shiftRight_le _ _) ha.1
  · refine or_lt_two_pow (lt_of_le_of_lt (shiftRight_le _ _) ha.2) ?_
    have := and_ff_lt a.hi
    rw [shiftLeft_eq]
    omega

theorem crc64Shift8_number {a : U64} (ha : a.Fits) : (crc64Shift8 a).number = a.number >>> 8 := by
  refine eq_of_testBit_eq fun i => ?_
  rw [U64.testBit_number (crc64Shift8_fits ha), testBit_shiftRight, U64.testBit_number ha]
  have hff : ∀ j, (a.hi &&& 0xff).testBit j = (decide (j < 8) && a.hi.testBit j) := by
    intro j
    rw [show a.hi &&& 0xff = a.hi % 2 ^ 8 from and_two_pow_sub_one_eq_mod a.hi 8,
      testBit_mod_two_pow]
  have hlo : ∀ j, 32 ≤ j → a.lo.testBit j = false := fun j hj =>
    Nat.testBit_lt_two_pow (ha.2.trans_le (Nat.pow_le_pow_right Nat.two_pos hj))
  unfold crc64Shift8
  dsimp only
  by_cases hi : i < 32
  · rw [if_pos hi, testBit_or, testBit_shiftRight, testBit_shiftLeft, hff]
    by_cases h24 : i < 24
    · simp [show 8 + i < 32 by omega, not_le.mpr h24]
    · have hsub : 8 + i - 32 = i - 24 := by omega
      rw [hlo (8 + i) (by omega), if_neg (by omega), hsub]
      simp [not_lt.mp h24, show i - 24 < 8 by omega]
  · rw [if_neg hi, if_neg (by omega), testBit_shiftRight, show 8 + (i - 32) = 8 + i - 32 by omega]

theorem isTable_crc64Nvme : IsTable 0x9a6c9329ac4bc9b5 (crc64NvmeTable.map U64.number) ∧
    ∀ v ∈ crc64NvmeTable, v.hi < 2 ^ 32 ∧ v.lo < 2 ^ 32 := by
  unfold IsTable
  decide +kernel

theorem crc64NvmeTable_eq : ∀ i < 256, (crc64NvmeTable.getD i ⟨0, 0⟩).Fits ∧
    (crc64NvmeTable.getD i ⟨0, 0⟩).number = (bitStep 0x9a6c9329ac4bc9b5)^[8] i := by
  intro i hi
  obtain ⟨htable, hfits⟩ := isTable_crc64Nvme
  have hentry := congrArg (fun table => table[i]?) htable
  simp only [getElem?_map, getElem?_range hi, Option.map_some] at hentry
  obtain ⟨v, hv, hnumber⟩ := Option.map_eq_some_iff.mp hentry
  rw [getD_eq_getElem?_getD, hv]
  exact ⟨hfits v (mem_of_getElem? hv), hnumber⟩

/-- `cksum89_crc64_nvme` and its context. -/
def crc64NvmeStream : Stream Crc64NvmeCtx U64 :=
  ⟨crc64NvmeInit, crc64NvmeUpdate, crc64NvmeFinal, crc64Nvme⟩

theorem crc64NvmeByte_eq {ctx : Crc64NvmeCtx} (h : ctx.state.Fits) (b : UInt8) :
    (crc64NvmeByte ctx b).state.Fits ∧
      (crc64NvmeByte ctx b).state.number = byteStep 0x9a6c9329ac4bc9b5 ctx.state.number b := by
  have hindex : (ctx.state.number ^^^ b.toNat) &&& 0xff = (ctx.state.lo ^^^ b.toNat) &&& 0xff := by
    refine eq_of_testBit_eq fun i => ?_
    rw [testBit_and, testBit_and, testBit_xor, testBit_xor, U64.testBit_number h]
    by_cases hi : i < 32
    · rw [if_pos hi]
    · have hff : (0xff : Nat).testBit i = false := Nat.testBit_lt_two_pow
        (lt_of_lt_of_le (by decide : 0xff < 2 ^ 32) (Nat.pow_le_pow_right Nat.two_pos (not_lt.mp hi)))
      rw [hff, Bool.and_false, Bool.and_false]
  obtain ⟨hfits, hentry⟩ := crc64NvmeTable_eq _ (and_ff_lt (ctx.state.lo ^^^ b.toNat))
  refine ⟨crc64Xor_fits (crc64Shift8_fits h) hfits, ?_⟩
  rw [byteStep_table, hindex, ← hentry, ← crc64Shift8_number h]
  exact crc64Xor_number (crc64Shift8_fits h) hfits

theorem crc64Nvme_eq (data : List UInt8) :
    (crc64Nvme data).Fits ∧ (crc64Nvme data).number = crc 64 0x9a6c9329ac4bc9b5 data := by
  have hfold : ∀ ctx : Crc64NvmeCtx, ctx.state.Fits → (data.foldl crc64NvmeByte ctx).state.Fits ∧
      (data.foldl crc64NvmeByte ctx).state.number = feed 0x9a6c9329ac4bc9b5 ctx.state.number data := by
    induction data with
    | nil => exact fun ctx h => ⟨h, rfl⟩
    | cons b data ih =>
      intro ctx h
      obtain ⟨hfits, hbyte⟩ := crc64NvmeByte_eq h b
      have hrest := ih _ hfits
      rw [hbyte] at hrest
      exact hrest
  have hones : (⟨0xffffffff, 0xffffffff⟩ : U64).Fits := ⟨by decide, by decide⟩
  obtain ⟨hfits, hnumber⟩ := hfold crc64NvmeInit hones
  refine ⟨crc64Xor_fits hfits hones, (crc64Xor_number hfits hones).trans ?_⟩
  rw [hnumber]
  rfl

/-! ## The three checks -/

theorem crc_computes :
    Computes crc32IsoHdlcStream 32 0xedb88320 id (· < 2 ^ 32) ∧
    Computes crc32cStream 32 0x82f63b78 id (· < 2 ^ 32) ∧
    Computes crc64NvmeStream 64 0x9a6c9329ac4bc9b5 U64.number U64.Fits := by
  refine ⟨⟨?_, ?_, ?_, ?_⟩, ⟨?_, ?_, ?_, ?_⟩, ⟨?_, ?_, ?_, ?_⟩⟩
  · exact fun calls => Stream.run_eq (S := crc32IsoHdlcStream) (fun _ _ => rfl) (fun _ => rfl) calls []
  · exact crc32IsoHdlc_eq
  · intro data
    rw [← poly_crc (by decide) (by decide)]
    exact congrArg (poly 32) (crc32IsoHdlc_eq data)
  · intro data
    exact (crc32IsoHdlc_eq data).trans_lt (crc_lt (by decide) (by decide) data)
  · exact fun calls => Stream.run_eq (S := crc32cStream) (fun _ _ => rfl) (fun _ => rfl) calls []
  · exact crc32c_eq
  · intro data
    rw [← poly_crc (by decide) (by decide)]
    exact congrArg (poly 32) (crc32c_eq data)
  · intro data
    exact (crc32c_eq data).trans_lt (crc_lt (by decide) (by decide) data)
  · exact fun calls => Stream.run_eq (S := crc64NvmeStream) (fun _ _ => rfl) (fun _ => rfl) calls []
  · exact fun data => (crc64Nvme_eq data).2
  · intro data
    rw [← poly_crc (by decide) (by decide)]
    exact congrArg (poly 64) (crc64Nvme_eq data).2
  · exact fun data => (crc64Nvme_eq data).1

end Cksum89
