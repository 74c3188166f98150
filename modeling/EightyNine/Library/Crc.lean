import Mathlib.Algebra.CharP.Two
import Mathlib.Algebra.Polynomial.Div
import Mathlib.Algebra.Field.ZMod
import Mathlib.Data.Nat.Bitwise
import Mathlib.Logic.Function.Iterate

/-!
# Reflected cyclic redundancy checks

A register of `w` bits stands for a polynomial over the field of two elements, its
lowest bit for the highest power.  One bit of the division by a generator shifts the
register, and takes the generator away when the bit that falls out is set: it
multiplies by `X` modulo the generator.  Fed byte by byte, the register holds the
remainder of the message (`poly_feed`).  Eight bits at a time, the division is one look
at a table (`byteStep_table`).
-/

namespace Library.Crc

open Polynomial Finset

variable {w g : Nat}

/-! ## The register -/

/-- One bit of the division. -/
def bitStep (g s : Nat) : Nat := if s.testBit 0 then (s >>> 1) ^^^ g else s >>> 1

/-- One byte of the division. -/
def byteStep (g s : Nat) (b : UInt8) : Nat := (bitStep g)^[8] (s ^^^ b.toNat)

/-- The register after the message. -/
def feed (g s : Nat) (data : List UInt8) : Nat := data.foldl (byteStep g) s

/-- The check, with all bits set before the message and inverted after it. -/
def crc (w g : Nat) (data : List UInt8) : Nat := feed g (2 ^ w - 1) data ^^^ (2 ^ w - 1)

theorem bitStep_xor (a b : Nat) : bitStep g (a ^^^ b) = bitStep g a ^^^ bitStep g b := by
  unfold bitStep
  rw [Nat.testBit_xor, Nat.shiftRight_xor_distrib]
  cases a.testBit 0 <;> cases b.testBit 0 <;>
    simp [Nat.xor_assoc, Nat.xor_left_comm g, Nat.xor_comm g]

theorem bitSteps_xor (k a b : Nat) :
    (bitStep g)^[k] (a ^^^ b) = (bitStep g)^[k] a ^^^ (bitStep g)^[k] b := by
  induction k generalizing a b with
  | zero => rfl
  | succ k ih => rw [Function.iterate_succ_apply, bitStep_xor, ih]; rfl

theorem bitSteps_high (k h : Nat) : (bitStep g)^[k] (h <<< k) = h := by
  induction k with
  | zero => rfl
  | succ k ih =>
    have hbit : (h <<< (k + 1)).testBit 0 = false := by simp
    have hshift : h <<< (k + 1) >>> 1 = h <<< k := by
      rw [Nat.shiftLeft_succ, Nat.shiftRight_one, Nat.mul_div_cancel_left _ Nat.two_pos]
    rw [Function.iterate_succ_apply, bitStep, hbit, hshift]
    exact ih

theorem high_xor_low (k x : Nat) : (x >>> k) <<< k ^^^ x % 2 ^ k = x := by
  refine Nat.eq_of_testBit_eq fun i => ?_
  rw [Nat.testBit_xor, Nat.testBit_shiftLeft, Nat.testBit_shiftRight, Nat.testBit_mod_two_pow]
  rcases Nat.lt_or_ge i k with h | h
  · simp [h, not_le.mpr h]
  · simp [h, not_lt.mpr h, Nat.add_sub_cancel' h]

/-- Eight bits of the division depend on the table's entry for the low byte only. -/
theorem byteStep_table (s : Nat) (b : UInt8) :
    byteStep g s b = (s >>> 8) ^^^ (bitStep g)^[8] ((s ^^^ b.toNat) &&& 0xff) := by
  have hb : b.toNat >>> 8 = 0 := by
    rw [Nat.shiftRight_eq_div_pow]
    exact Nat.div_eq_of_lt b.toNat_lt
  have hlow : (s ^^^ b.toNat) &&& 0xff = (s ^^^ b.toNat) % 2 ^ 8 := Nat.and_two_pow_sub_one_eq_mod _ 8
  have hsplit := bitSteps_xor (g := g) 8 ((s ^^^ b.toNat) >>> 8 <<< 8) ((s ^^^ b.toNat) % 2 ^ 8)
  rw [high_xor_low, bitSteps_high, Nat.shiftRight_xor_distrib, hb, Nat.xor_zero] at hsplit
  rw [hlow]
  exact hsplit

variable {s : Nat}

theorem bitStep_lt (hg : g < 2 ^ w) (hs : s < 2 ^ w) : bitStep g s < 2 ^ w := by
  have hshift : s >>> 1 < 2 ^ w := lt_of_le_of_lt (Nat.shiftRight_le s 1) hs
  unfold bitStep
  split
  · exact Nat.xor_lt_two_pow hshift hg
  · exact hshift

theorem byteStep_lt (hg : g < 2 ^ w) (hw : 8 ≤ w) (hs : s < 2 ^ w) (b : UInt8) :
    byteStep g s b < 2 ^ w := by
  have hb : b.toNat < 2 ^ w := b.toNat_lt.trans_le (Nat.pow_le_pow_right Nat.two_pos hw)
  have hiter : ∀ k s, s < 2 ^ w → (bitStep g)^[k] s < 2 ^ w := by
    intro k
    induction k with
    | zero => exact fun s hs => hs
    | succ k ih => exact fun s hs => ih _ (bitStep_lt hg hs)
  exact hiter 8 _ (Nat.xor_lt_two_pow hs hb)

theorem feed_lt (hg : g < 2 ^ w) (hw : 8 ≤ w) (hs : s < 2 ^ w) (data : List UInt8) :
    feed g s data < 2 ^ w := by
  induction data generalizing s with
  | nil => exact hs
  | cons b data ih => exact ih (byteStep_lt hg hw hs b)

theorem crc_lt (hg : g < 2 ^ w) (hw : 8 ≤ w) (data : List UInt8) : crc w g data < 2 ^ w := by
  have hones : 2 ^ w - 1 < 2 ^ w := Nat.sub_lt (Nat.two_pow_pos w) Nat.one_pos
  exact Nat.xor_lt_two_pow (feed_lt hg hw hones data) hones

/-! ## Polynomials -/

/-- The polynomial of a register. -/
noncomputable def poly (w s : Nat) : (ZMod 2)[X] :=
  ∑ i ∈ range w, if s.testBit i then X ^ (w - 1 - i) else 0

/-- The generator, whose highest power is left out of the register. -/
noncomputable def generator (w g : Nat) : (ZMod 2)[X] := X ^ w + poly w g

/-- The polynomial of a message, the lowest bit of each byte first. -/
noncomputable def message (data : List UInt8) : (ZMod 2)[X] :=
  data.foldl (fun m b => X ^ 8 * m + poly 8 b.toNat) 0

theorem poly_xor (a b : Nat) : poly w (a ^^^ b) = poly w a + poly w b := by
  unfold poly
  rw [← sum_add_distrib]
  refine sum_congr rfl fun i _ => ?_
  rw [Nat.testBit_xor]
  cases a.testBit i <;> cases b.testBit i <;> simp [CharTwo.add_self_eq_zero]

theorem degree_poly_lt (w s : Nat) : (poly w s).degree < w := by
  refine (degree_sum_le _ _).trans_lt ((Finset.sup_lt_iff (WithBot.bot_lt_coe w)).mpr ?_)
  intro i hi
  have hiw := mem_range.mp hi
  split
  · rw [degree_X_pow]
    exact Nat.cast_lt.mpr (by omega)
  · rw [degree_zero]
    exact WithBot.bot_lt_coe w

theorem monic_generator (w g : Nat) : (generator w g).Monic := monic_X_pow_add (degree_poly_lt w g)

theorem degree_generator (w g : Nat) : (generator w g).degree = w := by
  have hpow : (X ^ w : (ZMod 2)[X]).degree = w := degree_X_pow w
  rw [generator, degree_add_eq_left_of_degree_lt, hpow]
  rw [hpow]
  exact degree_poly_lt w g

/-- Shifting multiplies by `X`, and what falls out is the highest power. -/
theorem X_mul_poly (hw : 0 < w) (hs : s < 2 ^ w) :
    X * poly w s = (if s.testBit 0 then X ^ w else 0) + poly w (s >>> 1) := by
  obtain ⟨n, rfl⟩ : ∃ n, w = n + 1 := ⟨w - 1, by omega⟩
  have htop : (s >>> 1).testBit n = false := by
    rw [Nat.testBit_shiftRight, Nat.add_comm]
    exact Nat.testBit_lt_two_pow hs
  unfold poly
  rw [mul_sum, sum_range_succ', sum_range_succ (fun i => if (s >>> 1).testBit i
    then X ^ (n + 1 - 1 - i) else 0), htop, add_comm]
  refine congrArg₂ (· + ·) ?_ ?_
  · rw [mul_ite, mul_zero]
    refine if_congr Iff.rfl ?_ rfl
    rw [← pow_succ']
    congr 1
  · rw [if_neg Bool.false_ne_true, add_zero]
    refine sum_congr rfl fun i hi => ?_
    have hin := mem_range.mp hi
    rw [Nat.testBit_shiftRight, Nat.add_comm 1 i, mul_ite, mul_zero]
    refine if_congr Iff.rfl ?_ rfl
    rw [← pow_succ']
    congr 1
    omega

/-- One bit of the division multiplies by `X` modulo the generator. -/
theorem poly_bitStep (hw : 0 < w) (hs : s < 2 ^ w) :
    poly w (bitStep g s) = X * poly w s %ₘ generator w g := by
  have hstep : X * poly w s = poly w (bitStep g s) +
      generator w g * (if s.testBit 0 then 1 else 0) := by
    rw [X_mul_poly hw hs]
    unfold bitStep generator
    cases s.testBit 0 with
    | true =>
      rw [if_pos rfl, if_pos rfl, if_pos rfl, mul_one, poly_xor, add_comm (X ^ w) (poly w g),
        ← add_assoc, add_assoc (poly w (s >>> 1)), CharTwo.add_self_eq_zero, add_zero, add_comm]
    | false => simp
  have hmonic := monic_generator w g
  rw [hstep, add_modByMonic, self_mul_modByMonic hmonic, add_zero, (modByMonic_eq_self_iff hmonic).mpr]
  rw [degree_generator]
  exact degree_poly_lt w _

theorem poly_modByMonic (s : Nat) : poly w s %ₘ generator w g = poly w s := by
  rw [modByMonic_eq_self_iff (monic_generator w g), degree_generator]
  exact degree_poly_lt w s

theorem mul_mod_mod (p q r : (ZMod 2)[X]) (hr : r.Monic) : p * (q %ₘ r) %ₘ r = p * q %ₘ r := by
  rw [mul_modByMonic p (q %ₘ r), mul_modByMonic p q,
    (modByMonic_eq_self_iff hr).mpr (degree_modByMonic_lt q hr)]

theorem poly_bitSteps (hg : g < 2 ^ w) (hw : 0 < w) (k : Nat) (hs : s < 2 ^ w) :
    poly w ((bitStep g)^[k] s) = X ^ k * poly w s %ₘ generator w g := by
  induction k generalizing s with
  | zero => rw [pow_zero, one_mul, poly_modByMonic]; rfl
  | succ k ih =>
    rw [Function.iterate_succ_apply, ih (bitStep_lt hg hs), poly_bitStep hw hs,
      mul_mod_mod _ _ _ (monic_generator w g), pow_succ, mul_assoc]

theorem poly_byte (hw : 8 ≤ w) (b : UInt8) : poly w b.toNat = X ^ (w - 8) * poly 8 b.toNat := by
  obtain ⟨n, rfl⟩ : ∃ n, w = 8 + n := ⟨w - 8, by omega⟩
  have hhigh : ∀ i ∈ range n,
      (if b.toNat.testBit (8 + i) then (X : (ZMod 2)[X]) ^ (8 + n - 1 - (8 + i)) else 0) = 0 := by
    intro i _
    refine if_neg ?_
    rw [Nat.testBit_lt_two_pow (b.toNat_lt.trans_le (Nat.pow_le_pow_right Nat.two_pos (by omega)))]
    exact Bool.false_ne_true
  unfold poly
  rw [sum_range_add, sum_eq_zero hhigh, add_zero, mul_sum]
  refine sum_congr rfl fun i hi => ?_
  have hi8 := mem_range.mp hi
  rw [mul_ite, mul_zero]
  refine if_congr Iff.rfl ?_ rfl
  rw [← pow_add]
  congr 1
  omega

theorem poly_byteStep (hg : g < 2 ^ w) (hw : 8 ≤ w) (hs : s < 2 ^ w) (b : UInt8) :
    poly w (byteStep g s b) = (X ^ 8 * poly w s + X ^ w * poly 8 b.toNat) %ₘ generator w g := by
  have hb : b.toNat < 2 ^ w := b.toNat_lt.trans_le (Nat.pow_le_pow_right Nat.two_pos hw)
  have hpow : (X : (ZMod 2)[X]) ^ 8 * X ^ (w - 8) = X ^ w := by
    rw [← pow_add, Nat.add_sub_cancel' hw]
  rw [byteStep, poly_bitSteps hg (by omega) 8 (Nat.xor_lt_two_pow hs hb), poly_xor, poly_byte hw,
    mul_add, ← mul_assoc, hpow]

theorem message_append (data : List UInt8) (b : UInt8) :
    message (data ++ [b]) = X ^ 8 * message data + poly 8 b.toNat := by
  rw [message, List.foldl_append]
  rfl

/-- The register holds the remainder of what it started with followed by the message. -/
theorem poly_feed (hg : g < 2 ^ w) (hw : 8 ≤ w) (hs : s < 2 ^ w) (data : List UInt8) :
    poly w (feed g s data) =
      (X ^ w * message data + X ^ (8 * data.length) * poly w s) %ₘ generator w g := by
  induction data using List.reverseRecOn with
  | nil =>
    rw [message, List.foldl_nil, mul_zero, zero_add, List.length_nil, Nat.mul_zero, pow_zero,
      one_mul, poly_modByMonic]
    rfl
  | append_singleton data b ih =>
    have hstep : feed g s (data ++ [b]) = byteStep g (feed g s data) b := by
      rw [feed, List.foldl_append]
      rfl
    have hpow : (X : (ZMod 2)[X]) ^ (8 * (data.length + 1)) = X ^ 8 * X ^ (8 * data.length) := by
      rw [← pow_add, Nat.mul_add, Nat.mul_one, Nat.add_comm]
    rw [hstep, poly_byteStep hg hw (feed_lt hg hw hs data), ih, message_append, List.length_append,
      List.length_singleton, add_modByMonic, mul_mod_mod _ _ _ (monic_generator w g),
      ← add_modByMonic, hpow, mul_add, mul_add, add_right_comm, mul_left_comm, mul_assoc]

/-- The check is the remainder of the message, with all bits set before it and inverted after. -/
theorem poly_crc (hg : g < 2 ^ w) (hw : 8 ≤ w) (data : List UInt8) :
    poly w (crc w g data) = (X ^ w * message data + X ^ (8 * data.length) * poly w (2 ^ w - 1)) %ₘ
      generator w g + poly w (2 ^ w - 1) := by
  have hones : 2 ^ w - 1 < 2 ^ w := Nat.sub_lt (Nat.two_pow_pos w) Nat.one_pos
  rw [crc, poly_xor, poly_feed hg hw hones]

end Library.Crc
