import EightyNine.Wasm89.Integers
import Mathlib.Data.Nat.Digits.Defs

/-!
# Counts of bits

The searches for the highest and the lowest one halve the bits that are left (`Leads`,
`Trails`).  The ones are added up in the bytes of the word (`byteCounts_digits`), and the
bytes by a multiplication (`sum_bytes`).
-/

namespace Wasm89

open List Nat BitVec

/-! ## Zeros -/

theorem length_takeWhile_eq : ∀ {l : List Bool} {n : Nat}, (∀ j < n, l[j]? = some false) →
    l[n]? = some true → (l.takeWhile fun b => !b).length = n
  | [], n, _, hat => by simp at hat
  | b :: l, 0, _, hat => by
    obtain rfl : b = true := by simpa using hat
    rfl
  | b :: l, n + 1, hlow, hat => by
    obtain rfl : b = false := by simpa using hlow 0 (succ_pos n)
    have ih := length_takeWhile_eq (l := l) (n := n)
      (fun j hj => by simpa using hlow (j + 1) (succ_lt_succ hj)) (by simpa using hat)
    rw [takeWhile_cons_of_pos rfl, length_cons, ih]

theorem getElem?_bits {N i j : Nat} (hj : j < N) : (bits N i)[j]? = some (i.testBit j) := by
  simp [bits, hj]

theorem getElem?_bits_reverse {N i j : Nat} (hj : j < N) :
    (bits N i).reverse[j]? = some (i.testBit (N - 1 - j)) := by
  have hlen : (bits N i).length = N := by simp [bits]
  rw [getElem?_reverse (by omega), hlen, getElem?_bits (by omega)]

/-- The leading zeros of a number whose highest bit is the `n`-th from above. -/
theorem clz_eq {N i n : Nat} (hn : n < N) (hlo : 2 ^ (N - 1) ≤ i * 2 ^ n)
    (hhi : i * 2 ^ n < 2 ^ N) : Count.clz.value N i = n := by
  have hi : i < 2 ^ (N - n) := by
    rw [← Nat.sub_add_cancel hn.le, pow_add] at hhi
    exact Nat.lt_of_mul_lt_mul_right hhi
  have hi' : 2 ^ (N - 1 - n) ≤ i := by
    rw [← Nat.sub_add_cancel (show n ≤ N - 1 by omega), pow_add] at hlo
    exact le_of_mul_le_mul_right hlo (Nat.two_pow_pos n)
  refine length_takeWhile_eq (fun j hj => ?_) ?_
  · rw [getElem?_bits_reverse (by omega), Nat.testBit_lt_two_pow]
    exact hi.trans_le (Nat.pow_le_pow_right (by decide) (by omega))
  · rw [getElem?_bits_reverse hn, testBit_of_two_pow_le_and_two_pow_add_one_gt hi']
    rwa [show N - 1 - n + 1 = N - n by omega]

theorem ctz_eq {N m n : Nat} (hn : n < N) (hm : m % 2 = 1) : Count.ctz.value N (m * 2 ^ n) = n := by
  refine length_takeWhile_eq (fun j hj => ?_) ?_
  · rw [getElem?_bits (by omega), mul_comm, testBit_two_pow_mul]
    simp [not_le.mpr hj]
  · rw [getElem?_bits hn, mul_comm, testBit_two_pow_mul]
    simp [testBit_zero, hm]

theorem bits_zero (N : Nat) : bits N 0 = replicate N false := by
  rw [bits, map_congr_left (g := fun _ => false) fun j _ => zero_testBit j,
    map_const', length_range]

theorem count_zeros (N : Nat) : Count.clz.value N 0 = N ∧ Count.ctz.value N 0 = N := by
  simp [Count.value, bits_zero]

/-- The word has been shifted by the count, and one of its `k` high bits is set. -/
structure Leads (x : Nat) (k : Nat) (p : BitVec 32 × BitVec 64) : Prop where
  value : p.2.toNat = x * 2 ^ p.1.toNat
  high : 2 ^ (64 - k) ≤ p.2.toNat
  count : p.1.toNat + k ≤ 64

theorem ushiftRight_eq_zero (x : BitVec 64) (k : Nat) : x >>> k = 0 ↔ x.toNat < 2 ^ k := by
  rw [← toNat_eq_zero_iff, toNat_ushiftRight, Nat.shiftRight_eq_div_pow,
    Nat.div_eq_zero_iff, or_iff_right (Nat.two_pow_pos k).ne']

theorem count_add {n : BitVec 32} {k : Nat} (h : n.toNat + k ≤ 64) :
    (n + BitVec.ofNat 32 k).toNat = n.toNat + k := by
  rw [toNat_add, toNat_ofNat, add_mod_mod]
  exact Nat.mod_eq_of_lt (by omega)

theorem Leads.step {x k : Nat} {p : BitVec 32 × BitVec 64} (h : Leads x (k + k) p) :
    Leads x k (clzStep k p) := by
  have hc := h.count
  rw [clzStep]
  split
  · rename_i hz
    rw [ushiftRight_eq_zero] at hz
    have hlt : p.2.toNat * 2 ^ k < 2 ^ 64 := by
      calc p.2.toNat * 2 ^ k < 2 ^ (64 - k) * 2 ^ k :=
            Nat.mul_lt_mul_of_pos_right hz (Nat.two_pow_pos k)
        _ = 2 ^ 64 := by rw [← pow_add, Nat.sub_add_cancel (by omega)]
    have hshift : (p.2 <<< k).toNat = p.2.toNat * 2 ^ k := by
      rw [toNat_shiftLeft, Nat.shiftLeft_eq, Nat.mod_eq_of_lt hlt]
    have hadd := count_add (n := p.1) (k := k) (by omega)
    refine ⟨?_, ?_, ?_⟩
    · rw [hshift, hadd, h.value, pow_add, Nat.mul_assoc]
    · calc 2 ^ (64 - k) = 2 ^ (64 - (k + k)) * 2 ^ k := by
            rw [← pow_add, show 64 - (k + k) + k = 64 - k by omega]
        _ ≤ p.2.toNat * 2 ^ k := mul_le_mul_right _ h.high
        _ = (p.2 <<< k).toNat := hshift.symm
    · rw [hadd]
      omega
  · rename_i hz
    rw [ushiftRight_eq_zero, not_lt] at hz
    exact ⟨h.value, hz, by omega⟩

theorem clz64_spec {x : BitVec 64} (hx : x ≠ 0) :
    (clz64 x).toNat < 64 ∧ 2 ^ 63 ≤ x.toNat * 2 ^ (clz64 x).toNat ∧
      x.toNat * 2 ^ (clz64 x).toNat < 2 ^ 64 := by
  have hpos : 1 ≤ x.toNat := one_le_iff_ne_zero.mpr fun h => hx ((toNat_eq_zero_iff x).mp h)
  have h : Leads x.toNat 64 (0, x) := ⟨by simp, hpos, by simp⟩
  have h32 := h.step (k := 32)
  have h8 := (h32.step (k := 16)).step (k := 8)
  have h2 := (h8.step (k := 4)).step (k := 2)
  rw [clz64]
  generalize clzStep 2 (clzStep 4 (clzStep 8 (clzStep 16 (clzStep 32 (0, x))))) = p at *
  obtain ⟨hv, hh, hc⟩ := h2
  have hlt := p.2.isLt
  split
  · rename_i hz
    rw [ushiftRight_eq_zero] at hz
    have hadd := count_add (n := p.1) (k := 1) (by omega)
    have hmul : x.toNat * 2 ^ (p.1.toNat + 1) = p.2.toNat * 2 := by
      rw [pow_succ, ← Nat.mul_assoc, ← hv]
    rw [show (1 : BitVec 32) = BitVec.ofNat 32 1 from rfl, hadd, hmul]
    omega
  · rename_i hz
    rw [ushiftRight_eq_zero] at hz
    rw [← hv]
    omega

/-- The word has been shifted by the count, and one of its `k` low bits is set. -/
structure Trails (x : Nat) (k : Nat) (p : BitVec 32 × BitVec 64) : Prop where
  value : x = p.2.toNat * 2 ^ p.1.toNat
  low : p.2.toNat % 2 ^ k ≠ 0
  count : p.1.toNat + k ≤ 64

theorem and_mask_eq_zero {x mask : BitVec 64} {k : Nat} (hmask : mask.toNat = 2 ^ k - 1) :
    x &&& mask = 0 ↔ x.toNat % 2 ^ k = 0 := by
  rw [← toNat_eq_zero_iff, toNat_and, hmask, Nat.and_two_pow_sub_one_eq_mod]

theorem Trails.step {x k : Nat} {p : BitVec 32 × BitVec 64} (mask : BitVec 64)
    (hmask : mask.toNat = 2 ^ k - 1) (h : Trails x (k + k) p) :
    Trails x k (ctzStep k mask p) := by
  have hc := h.count
  rw [ctzStep]
  split
  · rename_i hz
    rw [and_mask_eq_zero hmask] at hz
    have hdvd : p.2.toNat / 2 ^ k * 2 ^ k = p.2.toNat :=
      Nat.div_mul_cancel (Nat.dvd_of_mod_eq_zero hz)
    have hshift : (p.2 >>> k).toNat = p.2.toNat / 2 ^ k := by
      rw [toNat_ushiftRight, Nat.shiftRight_eq_div_pow]
    have hadd := count_add (n := p.1) (k := k) (by omega)
    refine ⟨?_, fun h0 => h.low ?_, ?_⟩
    · rw [hshift, hadd, add_comm, pow_add, ← Nat.mul_assoc, hdvd, h.value]
    · rw [hshift] at h0
      rw [← hdvd, pow_add, mul_mod_mul_right, h0, Nat.zero_mul]
    · rw [hadd]
      omega
  · rename_i hz
    rw [and_mask_eq_zero hmask] at hz
    exact ⟨h.value, hz, by omega⟩

theorem ctz64_spec {x : BitVec 64} (hx : x ≠ 0) :
    ∃ m, (ctz64 x).toNat < 64 ∧ m % 2 = 1 ∧ x.toNat = m * 2 ^ (ctz64 x).toNat := by
  have hpos : x.toNat % 2 ^ 64 ≠ 0 := by
    rw [Nat.mod_eq_of_lt x.isLt]
    exact fun h => hx ((toNat_eq_zero_iff x).mp h)
  have h : Trails x.toNat 64 (0, x) := ⟨by simp, hpos, by simp⟩
  have h32 := h.step (k := 32) 0xFFFFFFFF rfl
  have h16 := h32.step (k := 16) 0xFFFF rfl
  have h8 := h16.step (k := 8) 0xFF rfl
  have h4 := h8.step (k := 4) 0x0F rfl
  have h2 := h4.step (k := 2) 0x03 rfl
  rw [ctz64]
  generalize ctzStep 2 0x03 (ctzStep 4 0x0F (ctzStep 8 0xFF (ctzStep 16 0xFFFF
    (ctzStep 32 0xFFFFFFFF (0, x))))) = p at *
  obtain ⟨hv, hl, hc⟩ := h2
  split
  · rename_i hz
    rw [and_mask_eq_zero (k := 1) rfl] at hz
    have hadd := count_add (n := p.1) (k := 1) (by omega)
    refine ⟨p.2.toNat / 2, ?_, by omega, ?_⟩
    · rw [show (1 : BitVec 32) = BitVec.ofNat 32 1 from rfl, hadd]
      omega
    · rw [show (1 : BitVec 32) = BitVec.ofNat 32 1 from rfl, hadd, pow_succ', ← Nat.mul_assoc,
        show p.2.toNat / 2 * 2 = p.2.toNat by omega, hv]
  · rename_i hz
    rw [and_mask_eq_zero (k := 1) rfl] at hz
    exact ⟨p.2.toNat, by omega, by omega, hv⟩

/-! ## Ones -/

/-- The sums of the first three lines of `w89_popcnt64`, with their masks. -/
def byteCounts (m5 m3 mf x : Nat) : Nat :=
  let x := x - ((x >>> 1) &&& m5)
  let x := (x &&& m3) + ((x >>> 2) &&& m3)
  (x + (x >>> 4)) &&& mf

theorem and_byte {h l m n : Nat} (hl : l < 256) (hn : n < 256) :
    (256 * h + l) &&& (256 * m + n) = 256 * (h &&& m) + (l &&& n) := by
  have hdiv := and_div_two_pow (a := 256 * h + l) (b := 256 * m + n) (n := 8)
  have hmod := and_mod_two_pow (a := 256 * h + l) (b := 256 * m + n) (n := 8)
  rw [show (256 * h + l) / 2 ^ 8 = h by omega, show (256 * m + n) / 2 ^ 8 = m by omega] at hdiv
  rw [show (256 * h + l) % 2 ^ 8 = l by omega, show (256 * m + n) % 2 ^ 8 = n by omega] at hmod
  rw [← hdiv, ← hmod]
  exact (div_add_mod _ _).symm

theorem and_cross {x y m : Nat} (k : Nat) (hm : m &&& (2 ^ k - 1) = m) (h : x % 2 ^ k = y % 2 ^ k) :
    x &&& m = y &&& m := by
  rw [← hm, Nat.and_comm m, ← Nat.and_assoc, ← Nat.and_assoc, Nat.and_two_pow_sub_one_eq_mod,
    Nat.and_two_pow_sub_one_eq_mod, h]

theorem byte_counts : ∀ l < 256, byteCounts 0x55 0x33 0x0F l = (bits 8 l).countP fun b => b := by
  decide +kernel

theorem byteCounts_cons {h l m5 m3 mf : Nat} (hl : l < 256) (h3 : m3 % 16 ≤ 3) :
    byteCounts (256 * m5 + 0x55) (256 * m3 + 0x33) (256 * mf + 0x0F) (256 * h + l) =
      256 * byteCounts m5 m3 mf h + byteCounts 0x55 0x33 0x0F l := by
  have hcross : (128 * (h % 2) + l / 2) &&& 0x55 = l >>> 1 &&& 0x55 :=
    and_cross 7 rfl (by rw [Nat.shiftRight_eq_div_pow]; omega)
  have hle : l >>> 1 &&& 0x55 ≤ l := and_le_left.trans (shiftRight_le l 1)
  have hx : (256 * h + l) >>> 1 &&& (256 * m5 + 0x55) =
      256 * (h >>> 1 &&& m5) + (l >>> 1 &&& 0x55) := by
    have hshift : (256 * h + l) >>> 1 = 256 * (h >>> 1) + (128 * (h % 2) + l / 2) := by
      simp only [Nat.shiftRight_eq_div_pow]
      omega
    rw [hshift, and_byte (by omega) (by decide), hcross]
  have hh : h >>> 1 &&& m5 ≤ h := and_le_left.trans (shiftRight_le h 1)
  have hsub : 256 * h + l - ((256 * h + l) >>> 1 &&& (256 * m5 + 0x55)) =
      256 * (h - (h >>> 1 &&& m5)) + (l - (l >>> 1 &&& 0x55)) := by
    rw [hx]
    omega
  rw [byteCounts, byteCounts, byteCounts, hsub]
  have hl1 : l - (l >>> 1 &&& 0x55) < 256 := by omega
  generalize h - (h >>> 1 &&& m5) = h1
  generalize l - (l >>> 1 &&& 0x55) = l1 at hl1
  have hshift : (256 * h1 + l1) >>> 2 = 256 * (h1 >>> 2) + (64 * (h1 % 4) + l1 / 4) := by
    simp only [Nat.shiftRight_eq_div_pow]
    omega
  have hcross2 : (64 * (h1 % 4) + l1 / 4) &&& 0x33 = l1 >>> 2 &&& 0x33 :=
    and_cross 6 rfl (by rw [Nat.shiftRight_eq_div_pow]; omega)
  have hpairs : (256 * h1 + l1 &&& (256 * m3 + 0x33)) +
      ((256 * h1 + l1) >>> 2 &&& (256 * m3 + 0x33)) =
      256 * ((h1 &&& m3) + (h1 >>> 2 &&& m3)) + ((l1 &&& 0x33) + (l1 >>> 2 &&& 0x33)) := by
    rw [hshift, and_byte hl1 (by decide), and_byte (by omega) (by decide), hcross2]
    omega
  have hlow : ((h1 &&& m3) + (h1 >>> 2 &&& m3)) % 16 ≤ 6 := by
    have ha : (h1 &&& m3) % 16 ≤ m3 % 16 := by
      rw [show 16 = 2 ^ 4 from rfl, and_mod_two_pow]
      exact and_le_right
    have hb : (h1 >>> 2 &&& m3) % 16 ≤ m3 % 16 := by
      rw [show 16 = 2 ^ 4 from rfl, and_mod_two_pow]
      exact and_le_right
    omega
  have hl2 : (l1 &&& 0x33) + (l1 >>> 2 &&& 0x33) ≤ 0x66 := by
    have ha : l1 &&& 0x33 ≤ 0x33 := and_le_right
    have hb : l1 >>> 2 &&& 0x33 ≤ 0x33 := and_le_right
    omega
  simp only [hpairs]
  generalize (h1 &&& m3) + (h1 >>> 2 &&& m3) = h2 at hlow
  generalize (l1 &&& 0x33) + (l1 >>> 2 &&& 0x33) = l2 at hl2
  have hsum : 256 * h2 + l2 + (256 * h2 + l2) >>> 4 =
      256 * (h2 + h2 >>> 4) + (16 * (h2 % 16) + (l2 + l2 / 16)) := by
    simp only [Nat.shiftRight_eq_div_pow]
    omega
  rw [hsum, and_byte (by omega) (by decide)]
  have hand : ∀ n : Nat, n &&& 0x0F = n % 16 := fun n => Nat.and_two_pow_sub_one_eq_mod n 4
  rw [hand, hand, Nat.shiftRight_eq_div_pow l2]
  omega

/-- The byte `b` repeated `n` times. -/
def repeated (b : Nat) : Nat → Nat
  | 0 => 0
  | n + 1 => 256 * repeated b n + b

theorem repeated_three (n : Nat) : repeated 0x33 n % 16 ≤ 3 := by
  cases n with
  | zero => decide
  | succ n =>
    rw [repeated]
    omega

theorem bits_cons {n h l : Nat} (hl : l < 256) :
    bits (8 + n) (256 * h + l) = bits 8 l ++ bits n h := by
  rw [bits, range_add, map_append, map_map, bits, bits]
  congr 1
  · refine map_congr_left fun j hj => ?_
    rw [show 256 * h + l = 2 ^ 8 * h + l from rfl, Nat.testBit_two_pow_mul_add _ hl,
      if_pos (mem_range.mp hj)]
  · refine map_congr_left fun j _ => ?_
    rw [show 256 * h + l = 2 ^ 8 * h + l from rfl, Function.comp_apply,
      Nat.testBit_two_pow_mul_add _ hl, if_neg (by omega), Nat.add_sub_cancel_left]

theorem byteCounts_digits (n x : Nat) (hx : x < 256 ^ n) :
    ∃ cs : List Nat, cs.length = n ∧ (∀ c ∈ cs, c ≤ 8) ∧
      byteCounts (repeated 0x55 n) (repeated 0x33 n) (repeated 0x0F n) x = ofDigits 256 cs ∧
      cs.sum = (bits (8 * n) x).countP fun b => b := by
  induction n generalizing x with
  | zero =>
    obtain rfl : x = 0 := by simpa using hx
    exact ⟨[], rfl, by simp, rfl, rfl⟩
  | succ n ih =>
    have hl : x % 256 < 256 := Nat.mod_lt _ (by decide)
    have hlt : x / 256 < 256 ^ n := Nat.div_lt_of_lt_mul (by rwa [pow_succ'] at hx)
    obtain ⟨cs, hlen, hle, hval, hsum⟩ := ih (x / 256) hlt
    have hbyte := byte_counts (x % 256) hl
    have hxd : x = 256 * (x / 256) + x % 256 := (div_add_mod x 256).symm
    refine ⟨(bits 8 (x % 256)).countP (fun b => b) :: cs, ?_, ?_, ?_, ?_⟩
    · rw [length_cons, hlen]
    · intro c hc
      rcases mem_cons.mp hc with rfl | hc
      · exact countP_le_length.trans (by simp [bits])
      · exact hle c hc
    · rw [repeated, repeated, repeated]
      conv_lhs => rw [hxd]
      rw [byteCounts_cons hl (repeated_three n), hbyte, hval, ofDigits_cons, add_comm]
    · conv_rhs => rw [hxd]
      rw [show 8 * (n + 1) = 8 + 8 * n by omega, bits_cons hl, countP_append, sum_cons, hsum]

/-- The multiplication adds the bytes up in the highest one. -/
theorem sum_bytes {c0 c1 c2 c3 c4 c5 c6 c7 : Nat} (h0 : c0 ≤ 8) (h1 : c1 ≤ 8) (h2 : c2 ≤ 8)
    (h3 : c3 ≤ 8) (h4 : c4 ≤ 8) (h5 : c5 ≤ 8) (h6 : c6 ≤ 8) (h7 : c7 ≤ 8) :
    (c0 + 256 * (c1 + 256 * (c2 + 256 * (c3 + 256 * (c4 + 256 * (c5 + 256 * (c6 + 256 * c7)))))))
        * 0x0101010101010101 % 2 ^ 64 / 2 ^ 56 =
      c0 + (c1 + (c2 + (c3 + (c4 + (c5 + (c6 + c7)))))) := by
  -- The product by its bytes: the carries above the word, the highest byte and the rest.
  have hprod : (c0 + 256 * (c1 + 256 * (c2 + 256 * (c3 + 256 * (c4 + 256 * (c5 + 256 *
      (c6 + 256 * c7))))))) * 0x0101010101010101 =
      2 ^ 64 * ((c1 + c2 + c3 + c4 + c5 + c6 + c7) + 256 * (c2 + c3 + c4 + c5 + c6 + c7) +
        256 ^ 2 * (c3 + c4 + c5 + c6 + c7) + 256 ^ 3 * (c4 + c5 + c6 + c7) +
        256 ^ 4 * (c5 + c6 + c7) + 256 ^ 5 * (c6 + c7) + 256 ^ 6 * c7) +
      (2 ^ 56 * (c0 + (c1 + (c2 + (c3 + (c4 + (c5 + (c6 + c7))))))) +
        (256 ^ 6 * (c0 + c1 + c2 + c3 + c4 + c5 + c6) + 256 ^ 5 * (c0 + c1 + c2 + c3 + c4 + c5) +
          256 ^ 4 * (c0 + c1 + c2 + c3 + c4) + 256 ^ 3 * (c0 + c1 + c2 + c3) +
          256 ^ 2 * (c0 + c1 + c2) + 256 * (c0 + c1) + c0)) := by
    ring
  rw [hprod, mul_add_mod, Nat.mod_eq_of_lt (by omega), mul_add_div (by decide),
    div_eq_of_lt (by omega), add_zero]

theorem list_eight : ∀ {cs : List Nat}, cs.length = 8 →
    ∃ c0 c1 c2 c3 c4 c5 c6 c7, cs = [c0, c1, c2, c3, c4, c5, c6, c7]
  | [c0, c1, c2, c3, c4, c5, c6, c7], _ => ⟨c0, c1, c2, c3, c4, c5, c6, c7, rfl⟩

theorem toNat_three (x : BitVec 64) :
    (let x := x - ((x >>> 1) &&& 0x5555555555555555#64)
      let x := (x &&& 0x3333333333333333#64) + ((x >>> 2) &&& 0x3333333333333333#64)
      (x + (x >>> 4)) &&& 0x0F0F0F0F0F0F0F0F#64).toNat =
    byteCounts (repeated 0x55 8) (repeated 0x33 8) (repeated 0x0F 8) x.toNat := by
  have hle : (x >>> 1 &&& 0x5555555555555555#64).toNat ≤ x.toNat := by
    rw [toNat_and, toNat_ushiftRight]
    exact and_le_left.trans (shiftRight_le _ _)
  have h1 : (x - (x >>> 1 &&& 0x5555555555555555#64)).toNat =
      x.toNat - (x.toNat >>> 1 &&& repeated 0x55 8) := by
    rw [toNat_sub_of_le hle, toNat_and, toNat_ushiftRight]
    rfl
  rw [byteCounts, ← h1]
  generalize x - (x >>> 1 &&& 0x5555555555555555#64) = y
  have ha : y.toNat &&& repeated 0x33 8 ≤ repeated 0x33 8 := and_le_right
  have hb : y.toNat >>> 2 &&& repeated 0x33 8 ≤ repeated 0x33 8 := and_le_right
  have hthree : repeated 0x33 8 = 0x3333333333333333 := rfl
  have h2 : (y &&& 0x3333333333333333#64) + (y >>> 2 &&& 0x3333333333333333#64) =
      BitVec.ofNat 64 ((y.toNat &&& repeated 0x33 8) + (y.toNat >>> 2 &&& repeated 0x33 8)) := by
    apply eq_of_toNat_eq
    rw [toNat_add, toNat_and, toNat_and, toNat_ushiftRight,
      toNat_ofNat]
    rfl
  simp only [h2]
  generalize (y.toNat &&& repeated 0x33 8) = a at *
  generalize (y.toNat >>> 2 &&& repeated 0x33 8) = b at *
  have hshift : (a + b) >>> 4 = (a + b) / 16 := Nat.shiftRight_eq_div_pow _ _
  rw [toNat_and, toNat_add, toNat_ushiftRight, toNat_ofNat,
    Nat.mod_eq_of_lt (show a + b < 2 ^ 64 by omega), hshift,
    Nat.mod_eq_of_lt (show a + b + (a + b) / 16 < 2 ^ 64 by omega)]
  rfl

theorem popcnt64_spec (x : BitVec 64) : (popcnt64 x).toNat = Count.popcnt.value 64 x.toNat := by
  obtain ⟨cs, hlen, hle, hval, hsum⟩ := byteCounts_digits 8 x.toNat x.isLt
  have hcount : (bits 64 x.toNat).countP (fun b => b) ≤ 64 :=
    countP_le_length.trans (by simp [bits])
  rw [← toNat_three] at hval
  rw [Count.value, ← hsum]
  rw [← hsum] at hcount
  rw [popcnt64]
  simp only at hval ⊢
  rw [toNat_setWidth, toNat_ushiftRight, toNat_mul, hval,
    Nat.shiftRight_eq_div_pow]
  obtain ⟨c0, c1, c2, c3, c4, c5, c6, c7, rfl⟩ := list_eight hlen
  simp only [mem_cons, not_mem_nil, or_false, forall_eq_or_imp, forall_eq] at hle
  obtain ⟨h0, h1, h2, h3, h4, h5, h6, h7⟩ := hle
  have hdigits : ofDigits 256 [c0, c1, c2, c3, c4, c5, c6, c7] =
      c0 + 256 * (c1 + 256 * (c2 + 256 * (c3 + 256 * (c4 + 256 * (c5 + 256 *
        (c6 + 256 * c7)))))) := by
    simp [ofDigits_cons]
  rw [hdigits]
  have hsum := sum_bytes h0 h1 h2 h3 h4 h5 h6 h7
  simp only [sum_cons, sum_nil, add_zero] at hcount ⊢
  rw [show (72340172838076673#64).toNat = 0x0101010101010101 from rfl, hsum]
  exact Nat.mod_eq_of_lt (by omega)

/-! ## The counts of both widths -/

theorem toNat_extended (a : BitVec 32) : (a.setWidth 64).toNat = a.toNat := by
  rw [toNat_setWidth]
  exact Nat.mod_eq_of_lt (by have := a.isLt; omega)

theorem extended_ne_zero {a : BitVec 32} (h : ¬ a = 0) : a.setWidth 64 ≠ 0 := fun h' => by
  rw [← toNat_eq_zero_iff, toNat_extended, toNat_eq_zero_iff] at h'
  exact h h'

theorem i64Count_value (op : Count) (a : BitVec 64) :
    (i64Count op a).toNat = op.value 64 a.toNat := by
  cases op with
  | clz =>
    rw [i64Count, i64Clz]
    split
    · rename_i h
      rw [h]
      exact (count_zeros 64).1.symm
    · rename_i h
      obtain ⟨hlt, hlo, hhi⟩ := clz64_spec h
      exact (clz_eq hlt hlo hhi).symm
  | ctz =>
    rw [i64Count, i64Ctz]
    split
    · rename_i h
      rw [h]
      exact (count_zeros 64).2.symm
    · rename_i h
      obtain ⟨m, hlt, hm, heq⟩ := ctz64_spec h
      rw [heq, ctz_eq hlt hm]
  | popcnt => exact popcnt64_spec a

theorem popcnt_extended (a : BitVec 32) :
    Count.popcnt.value 64 a.toNat = Count.popcnt.value 32 a.toNat := by
  have hbits : bits 64 a.toNat = bits 32 a.toNat ++ replicate 32 false := by
    rw [bits, show 64 = 32 + 32 from rfl, range_add, map_append, map_map, ← bits]
    congr 1
    refine eq_replicate_iff.mpr ⟨by simp, fun c hc => ?_⟩
    obtain ⟨j, -, rfl⟩ := mem_map.mp hc
    have hle : 2 ^ 32 ≤ 2 ^ (32 + j) := Nat.pow_le_pow_right (by decide) (Nat.le_add_right _ _)
    exact Nat.testBit_lt_two_pow (a.isLt.trans_le hle)
  rw [Count.value, Count.value, hbits, countP_append, countP_replicate]
  simp

theorem i32Count_value (op : Count) (a : BitVec 32) :
    (i32Count op a).toNat = op.value 32 a.toNat := by
  cases op with
  | clz =>
    rw [i32Count, i32Clz]
    split
    · rename_i h
      rw [h]
      exact (count_zeros 32).1.symm
    · rename_i h
      obtain ⟨hlt, hlo, hhi⟩ := clz64_spec (extended_ne_zero h)
      rw [toNat_extended] at hlo hhi
      generalize clz64 (a.setWidth 64) = n at *
      have hge : 32 ≤ n.toNat := by
        by_contra hlt'
        have hpow : 2 ^ n.toNat ≤ 2 ^ 31 := Nat.pow_le_pow_right (by decide) (by omega)
        have hmul := Nat.mul_le_mul a.isLt.le hpow
        have ha := a.isLt
        have : a.toNat * 2 ^ n.toNat ≤ (2 ^ 32 - 1) * 2 ^ 31 :=
          Nat.mul_le_mul (by omega) hpow
        omega
      have hsub : (n - 32).toNat = n.toNat - 32 := by
        have h32 : (32 : BitVec 32) ≤ n := hge
        rw [toNat_sub_of_le h32]
        rfl
      have hpow : a.toNat * 2 ^ n.toNat = a.toNat * 2 ^ (n.toNat - 32) * 2 ^ 32 := by
        rw [Nat.mul_assoc, ← pow_add, Nat.sub_add_cancel hge]
      rw [hpow] at hlo hhi
      rw [hsub]
      exact (clz_eq (N := 32) (by omega) (by omega) (by omega)).symm
  | ctz =>
    rw [i32Count, i32Ctz]
    split
    · rename_i h
      rw [h]
      exact (count_zeros 32).2.symm
    · rename_i h
      obtain ⟨m, hlt, hm, heq⟩ := ctz64_spec (extended_ne_zero h)
      rw [toNat_extended] at heq
      have hn : (ctz64 (a.setWidth 64)).toNat < 32 := by
        have ha := a.isLt
        have hm1 : 1 ≤ m := by omega
        by_contra hge
        have hpow : 2 ^ 32 ≤ 2 ^ (ctz64 (a.setWidth 64)).toNat :=
          Nat.pow_le_pow_right (by decide) (by omega)
        have := Nat.mul_le_mul hm1 hpow
        omega
      rw [heq, ctz_eq hn hm]
  | popcnt =>
    rw [i32Count, i32Popcnt, popcnt64_spec, toNat_extended, popcnt_extended]

end Wasm89
