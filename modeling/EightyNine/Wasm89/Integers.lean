import EightyNine.Wasm89.Numeric
import Mathlib.Data.Int.ModEq
import Mathlib.Data.Nat.Bitwise
import Mathlib.Tactic.Positivity
import Mathlib.Tactic.Ring

/-!
# Integers of WebAssembly

The numeric operations of WebAssembly on numbers below `2 ^ N`, in the words of its
definition.  The divisions, shifts, rotations, signed comparisons and sign extensions of
the evaluator compute them, at any width that fits.
-/

namespace Wasm89

open BitVec Nat

/-! ## The definitions of WebAssembly -/

/-- A number below `2 ^ N` in two's complement. -/
def signed (N i : Nat) : Int := if 2 * i < 2 ^ N then i else (i : Int) - 2 ^ N

/-- The number below `2 ^ N` that stands for an integer. -/
def unsigned (N : Nat) (j : Int) : Nat := (j % 2 ^ N).toNat

/-- The bits of a number, from the lowest. -/
def bits (N i : Nat) : List Bool := (List.range N).map i.testBit

/-- A binary operation, no value where it is undefined.  A shift or a rotation takes the
second operand modulo `N`, and a rotation moves the bits that leave on one side to the
other. -/
def Binop.value (N i j : Nat) : Binop → Option Nat
  | .add => some ((i + j) % 2 ^ N)
  | .sub => some ((i + 2 ^ N - j) % 2 ^ N)
  | .mul => some (i * j % 2 ^ N)
  | .divU => if j = 0 then none else some (i / j)
  | .divS =>
    if signed N j = 0 then none
    else if (signed N i).tdiv (signed N j) = 2 ^ (N - 1) then none
    else some (unsigned N ((signed N i).tdiv (signed N j)))
  | .remU => if j = 0 then none else some (i - j * (i / j))
  | .remS =>
    if signed N j = 0 then none
    else some (unsigned N (signed N i - signed N j * (signed N i).tdiv (signed N j)))
  | .and => some (i &&& j)
  | .or => some (i ||| j)
  | .xor => some (i ^^^ j)
  | .shl => some (i * 2 ^ (j % N) % 2 ^ N)
  | .shrU => some (i / 2 ^ (j % N))
  | .shrS => some (unsigned N (signed N i / 2 ^ (j % N)))
  | .rotl => some (i * 2 ^ (j % N) % 2 ^ N + i / 2 ^ (N - j % N))
  | .rotr => some (i / 2 ^ (j % N) + i * 2 ^ (N - j % N) % 2 ^ N)

/-- The number of leading zeros, of trailing zeros, of ones. -/
def Count.value (N i : Nat) : Count → Nat
  | .clz => ((bits N i).reverse.takeWhile fun b => !b).length
  | .ctz => ((bits N i).takeWhile fun b => !b).length
  | .popcnt => (bits N i).countP fun b => b

/-- A comparison. -/
def Relop.Holds (N i j : Nat) : Relop → Prop
  | .eq => i = j
  | .ne => i ≠ j
  | .ltU => i < j
  | .ltS => signed N i < signed N j
  | .gtU => i > j
  | .gtS => signed N i > signed N j
  | .leU => i ≤ j
  | .leS => signed N i ≤ signed N j
  | .geU => i ≥ j
  | .geS => signed N i ≥ signed N j

/-- The sign extension of the low `M` bits. -/
def extendValue (M N i : Nat) : Nat := unsigned N (signed M (i % 2 ^ M))

/-! ## Words as numbers -/

section

variable {w : Nat}

theorem signed_toNat (a : BitVec w) : signed w a.toNat = a.toInt := by
  rw [toInt_eq_toNat_cond, signed]
  norm_cast

theorem toNat_ofInt_eq (j : Int) : (BitVec.ofInt w j).toNat = unsigned w j := by
  rw [toNat_ofInt, unsigned]
  norm_cast

theorem toNat_eq_unsigned (a : BitVec w) : a.toNat = unsigned w a.toInt := by
  rw [← toNat_ofInt_eq, ofInt_toInt]

theorem unsigned_congr {j j' : Int} (h : j % 2 ^ w = j' % 2 ^ w) : unsigned w j = unsigned w j' := by
  rw [unsigned, h, unsigned]

theorem toNat_setWidth_eq (hw : w ≤ 64) (z : BitVec 64) :
    (z.setWidth w).toNat = unsigned w z.toInt := by
  have hdvd : (2 ^ w : Int) ∣ 2 ^ 64 := pow_dvd_pow 2 hw
  have hmod : z.toInt % 2 ^ 64 = (z.toNat : Int) := by
    have h := z.isLt
    rw [toInt_eq_toNat_cond]
    split <;> omega
  rw [toNat_setWidth, unsigned, ← Int.emod_emod_of_dvd z.toInt hdvd, hmod]
  norm_cast

/-! ## Division -/

/-- A sign extension to 64 bits. -/
def Extends (sx : BitVec w → BitVec 64) : Prop := ∀ a, (sx a).toInt = a.toInt

theorem sx64_extends : Extends sx64 := by
  intro a
  rw [sx64]
  simp only
  split
  · rfl
  · rw [BitVec.sub_add_cancel]

theorem sx32_extends : Extends sx32 := by
  intro a
  have ha := a.isLt
  have hand : (a.setWidth 64 &&& 0x80000000#64).toNat = a.toNat / 2 ^ 31 % 2 * 2 ^ 31 := by
    have h := and_two_pow a.toNat 31
    rw [toNat_and, toNat_setWidth, mod_eq_of_lt (by omega)]
    rw [testBit_eq_decide_div_mod_eq] at h
    show a.toNat &&& 2 ^ 31 = _
    rw [h]
    rcases mod_two_eq_zero_or_one (a.toNat / 2 ^ 31) with h' | h' <;> rw [h'] <;> rfl
  rw [toInt_eq_toNat_cond, toInt_eq_toNat_cond, sx32]
  simp only [toNat_sub, toNat_shiftLeft, hand, toNat_setWidth,
    Nat.shiftLeft_eq]
  split <;> split <;> omega

theorem toInt_bmod {q : Int} {k : Nat} (hk : k ≤ 64) : q.bmod (2 ^ 64) % 2 ^ k = q % 2 ^ k := by
  have hdvd : (2 ^ k : Int) ∣ 2 ^ 64 := pow_dvd_pow 2 hk
  have h : q.bmod (2 ^ 64) % 2 ^ 64 = q % 2 ^ 64 := by
    exact_mod_cast Int.bmod_emod
  rw [← Int.emod_emod_of_dvd (q.bmod (2 ^ 64)) hdvd, h, Int.emod_emod_of_dvd q hdvd]

section

variable {sx : BitVec w → BitVec 64} (hw : w ≤ 64) (hsx : Extends sx) (a b : BitVec w)

include hw hsx

theorem setWidth_sdiv :
    (((sx a).sdiv (sx b)).setWidth w).toNat = unsigned w (a.toInt.tdiv b.toInt) := by
  rw [toNat_setWidth_eq hw, toInt_sdiv, hsx, hsx]
  exact unsigned_congr (toInt_bmod hw)

theorem setWidth_srem :
    (((sx a).srem (sx b)).setWidth w).toNat = unsigned w (a.toInt.tmod b.toInt) := by
  rw [toNat_setWidth_eq hw, toInt_srem, hsx, hsx]

end

/-- A quotient is `2 ^ (w - 1)` for the minimum and minus one only. -/
theorem tdiv_eq_max_iff (a b : BitVec w) :
    a.toInt.tdiv b.toInt = 2 ^ (w - 1) ↔ a.toInt = -2 ^ (w - 1) ∧ b.toInt = -1 := by
  have hlo := le_toInt a
  have hhi := toInt_lt (x := a)
  have hpos : (0 : Int) < 2 ^ (w - 1) := by positivity
  generalize a.toInt = x at *
  generalize b.toInt = y at *
  constructor
  · intro h
    have habs : x.natAbs / y.natAbs = 2 ^ (w - 1) := by
      have := Int.natAbs_tdiv x y
      rw [h, Int.natAbs_pow] at this
      exact this.symm
    have hle : x.natAbs ≤ 2 ^ (w - 1) := by
      have : (x.natAbs : Int) ≤ 2 ^ (w - 1) := by omega
      exact_mod_cast this
    have hposn : 0 < 2 ^ (w - 1) := Nat.two_pow_pos _
    have hy : y.natAbs = 1 := by
      rcases Nat.lt_or_ge 1 y.natAbs with hgt | hy
      · have := div_le_div_left (c := 2) hgt (by decide) (a := x.natAbs)
        omega
      · rcases Nat.eq_zero_or_pos y.natAbs with h0 | h0
        · rw [h0, Nat.div_zero] at habs
          omega
        · omega
    rcases Int.natAbs_eq y with hy' | hy'
    · rw [hy, cast_one] at hy'
      rw [hy', Int.tdiv_one] at h
      omega
    · rw [hy, cast_one] at hy'
      rw [hy', Int.tdiv_neg, Int.tdiv_one] at h
      exact ⟨by omega, hy'⟩
  · rintro ⟨rfl, rfl⟩
    rw [Int.tdiv_neg, Int.tdiv_one, Int.neg_neg]

theorem eq_iff_toInt (a c : BitVec w) : a = c ↔ a.toInt = c.toInt := toInt_inj.symm

theorem signed_eq_zero_iff (b : BitVec w) : signed w b.toNat = 0 ↔ b = 0 := by
  rw [signed_toNat, eq_iff_toInt]
  exact Iff.of_eq (congrArg _ toInt_zero.symm)

theorem toNat_eq_zero_iff (b : BitVec w) : b.toNat = 0 ↔ b = 0 := by
  rw [← toNat_inj]
  exact Iff.of_eq (congrArg _ toNat_zero.symm)

theorem divU_value (a b : BitVec w) :
    (divU a b).map BitVec.toNat = Binop.divU.value w a.toNat b.toNat := by
  rw [divU, Binop.value]
  simp only [toNat_eq_zero_iff]
  split <;> rfl

theorem remU_value (a b : BitVec w) :
    (remU a b).map BitVec.toNat = Binop.remU.value w a.toNat b.toNat := by
  rw [remU, Binop.value]
  simp only [toNat_eq_zero_iff]
  split
  · rfl
  · rw [Option.map_some, toNat_umod, mod_eq_sub]

section

variable {sx : BitVec w → BitVec 64} {min neg1 : BitVec w} (hw : w ≤ 64)
  (hsx : Extends sx) (hmin : min.toInt = -2 ^ (w - 1)) (hneg : neg1.toInt = -1)

include hw hsx hneg

include hmin in
theorem divS_value (a b : BitVec w) :
    (divS sx min neg1 a b).map BitVec.toNat = Binop.divS.value w a.toNat b.toNat := by
  have hover : (a = min ∧ b = neg1) ↔
      (signed w a.toNat).tdiv (signed w b.toNat) = 2 ^ (w - 1) := by
    rw [signed_toNat, signed_toNat, tdiv_eq_max_iff, eq_iff_toInt a, eq_iff_toInt b, hmin, hneg]
  rw [divS, Binop.value]
  simp only [signed_eq_zero_iff, ← hover]
  split
  · rfl
  · split
    · rfl
    · rw [Option.map_some, setWidth_sdiv hw hsx, signed_toNat, signed_toNat]

theorem remS_value (a b : BitVec w) :
    (remS sx min neg1 a b).map BitVec.toNat = Binop.remS.value w a.toNat b.toNat := by
  have hrem : signed w a.toNat - signed w b.toNat * (signed w a.toNat).tdiv (signed w b.toNat) =
      a.toInt.tmod b.toInt := by
    rw [signed_toNat, signed_toNat, Int.tmod_def]
  rw [remS, Binop.value, hrem]
  simp only [signed_eq_zero_iff]
  split
  · rfl
  · split
    · rename_i h
      rw [h.2, hneg, Int.tmod_neg, Int.tmod_one, unsigned, Int.zero_emod]
      rfl
    · rw [Option.map_some, setWidth_srem hw hsx]

end

/-! ## Shifts and rotations -/

/-- The mask of a count takes it modulo the width. -/
def Masks (mask : BitVec w) : Prop := ∀ b : BitVec w, (b &&& mask).toNat = b.toNat % w

theorem masks32 : Masks 31#32 := by
  intro b
  rw [toNat_and]
  exact and_two_pow_sub_one_eq_mod b.toNat 5

theorem masks64 : Masks 63#64 := by
  intro b
  rw [toNat_and]
  exact and_two_pow_sub_one_eq_mod b.toNat 6

section

variable {mask : BitVec w} (hm : Masks mask) (hw : 0 < w) (a b : BitVec w)

include hm

theorem shl_value : (shl mask a b).toNat = a.toNat * 2 ^ (b.toNat % w) % 2 ^ w := by
  rw [shl, BitVec.shiftLeft_eq', toNat_shiftLeft, hm, Nat.shiftLeft_eq]

theorem shrU_value : (shrU mask a b).toNat = a.toNat / 2 ^ (b.toNat % w) := by
  rw [shrU, ushiftRight_eq', toNat_ushiftRight, hm, shiftRight_eq_div_pow]

theorem count_zero (h : b &&& mask = 0) : b.toNat % w = 0 := by
  rw [← hm, h]
  exact toNat_zero

include hw

/-- What is left of the width after a count that is not zero. -/
theorem count_sub (h : ¬ b &&& mask = 0) :
    0 < b.toNat % w ∧ (BitVec.ofNat w w - (b &&& mask)).toNat = w - b.toNat % w := by
  have hlt : b.toNat % w < w := mod_lt _ hw
  have hw2 : w < 2 ^ w := Nat.lt_two_pow_self
  have hpos : 0 < b.toNat % w := by
    rw [← hm]
    exact Nat.pos_of_ne_zero fun h0 => h ((toNat_eq_zero_iff _).mp h0)
  refine ⟨hpos, ?_⟩
  rw [toNat_sub, hm, toNat_ofNat, mod_eq_of_lt hw2,
    show 2 ^ w - b.toNat % w + w = 2 ^ w + (w - b.toNat % w) by omega, add_mod_left]
  exact mod_eq_of_lt (by omega)

omit hm hw in
theorem rotated {i k : Nat} (hi : i < 2 ^ w) (hk : k ≤ w) :
    i * 2 ^ k % 2 ^ w ||| i / 2 ^ (w - k) = i * 2 ^ k % 2 ^ w + i / 2 ^ (w - k) := by
  have hpow : 2 ^ w = 2 ^ (w - k) * 2 ^ k := by rw [← pow_add, Nat.sub_add_cancel hk]
  have hlow : i / 2 ^ (w - k) < 2 ^ k := by
    rw [Nat.div_lt_iff_lt_mul (Nat.two_pow_pos _), Nat.mul_comm, ← hpow]
    exact hi
  rw [hpow, mul_mod_mul_right, Nat.mul_comm (i % 2 ^ (w - k))]
  exact (two_pow_add_eq_or_of_lt hlow _).symm

theorem rotl_value : (rotl mask a b).toNat =
    a.toNat * 2 ^ (b.toNat % w) % 2 ^ w + a.toNat / 2 ^ (w - b.toNat % w) := by
  rw [rotl]
  split
  · rename_i h
    rw [count_zero hm b h, pow_zero, Nat.mul_one, Nat.sub_zero,
      mod_eq_of_lt a.isLt, div_eq_of_lt a.isLt, Nat.add_zero]
  · rename_i h
    obtain ⟨-, hsub⟩ := count_sub hm hw b h
    rw [toNat_or, BitVec.shiftLeft_eq', toNat_shiftLeft, ushiftRight_eq',
      toNat_ushiftRight, hm, hsub, Nat.shiftLeft_eq, shiftRight_eq_div_pow]
    exact rotated a.isLt (mod_lt _ hw).le

theorem rotr_value : (rotr mask a b).toNat =
    a.toNat / 2 ^ (b.toNat % w) + a.toNat * 2 ^ (w - b.toNat % w) % 2 ^ w := by
  rw [rotr]
  split
  · rename_i h
    rw [count_zero hm b h, pow_zero, Nat.div_one, Nat.sub_zero, mul_mod_left, Nat.add_zero]
  · rename_i h
    obtain ⟨-, hsub⟩ := count_sub hm hw b h
    have hle : b.toNat % w ≤ w := (mod_lt _ hw).le
    have hrot := rotated a.isLt (k := w - b.toNat % w) (sub_le _ _)
    rw [Nat.sub_sub_self hle] at hrot
    rw [toNat_or, BitVec.shiftLeft_eq', toNat_shiftLeft, ushiftRight_eq',
      toNat_ushiftRight, hm, hsub, Nat.shiftLeft_eq, shiftRight_eq_div_pow,
      Nat.or_comm, hrot, Nat.add_comm]

omit hm in
theorem sign_fill : 0 - ((a >>> (w - 1)) &&& 1) = if a.msb then BitVec.allOnes w else 0 := by
  have hbit : (a >>> (w - 1)) &&& 1 = if a.msb then 1 else 0 := by
    apply eq_of_toNat_eq
    have hw1 : 1 < 2 ^ w := Nat.one_lt_two_pow hw.ne'
    have h1 : (1 : BitVec w).toNat = 1 := toNat_one hw
    rw [toNat_and, h1, toNat_ushiftRight, and_one_is_mod,
      shiftRight_eq_div_pow, msb_eq_decide]
    have hlt : a.toNat < 2 ^ (w - 1) * 2 := by
      have := a.isLt
      rwa [← pow_succ, Nat.sub_add_cancel hw]
    rcases Nat.lt_or_ge a.toNat (2 ^ (w - 1)) with h | h
    · rw [div_eq_of_lt h]
      simp [Nat.not_le.mpr h]
    · have hdiv : a.toNat / 2 ^ (w - 1) = 1 :=
        Nat.div_eq_of_lt_le (by omega) (by omega)
      rw [hdiv, decide_eq_true h, if_pos rfl, h1]
  rw [hbit]
  split
  · rw [← neg_one_eq_allOnes]
    exact BitVec.zero_sub 1
  · exact BitVec.sub_zero 0

theorem shrS_eq : shrS mask a b = a.sshiftRight (b.toNat % w) := by
  rw [shrS]
  split
  · rename_i h
    rw [count_zero hm b h, sshiftRight_zero]
  · rename_i h
    obtain ⟨hpos, hsub⟩ := count_sub hm hw b h
    have hlt : b.toNat % w < w := mod_lt _ hw
    rw [sign_fill hw, ushiftRight_eq', BitVec.shiftLeft_eq', hm, hsub]
    generalize b.toNat % w = k at *
    ext i hi
    rw [getElem_or, getElem_ushiftRight, getElem_shiftLeft,
      getElem_sshiftRight]
    rcases Nat.lt_or_ge (k + i) w with hk | hk
    · have : i < w - k := by omega
      simp [hk, this]
    · have h1 : ¬ i < w - k := by omega
      have h2 : ¬ k + i < w := by omega
      rw [getLsbD_of_ge _ _ hk]
      cases a.msb <;> simp [h1, h2]

theorem shrS_value : (shrS mask a b).toNat =
    unsigned w (signed w a.toNat / 2 ^ (b.toNat % w)) := by
  rw [shrS_eq hm hw, toNat_eq_unsigned, toInt_sshiftRight, signed_toNat,
    Int.shiftRight_eq_div_pow]
  norm_cast

end

/-! ## Comparisons -/

/-- Flipping the sign bit makes the signed order the unsigned one. -/
def Flips (sign : BitVec w) : Prop :=
  ∀ a b : BitVec w, (a ^^^ sign) < (b ^^^ sign) ↔ a.toInt < b.toInt

theorem flips_intMin (hw : 0 < w) : Flips (BitVec.intMin w) := by
  have hx : ∀ a : BitVec w, ((a ^^^ BitVec.intMin w).toNat : Int) = a.toInt + 2 ^ (w - 1) := by
    intro a
    have hpow : 2 ^ w = 2 ^ (w - 1) * 2 := by rw [← pow_succ, Nat.sub_add_cancel hw]
    have hlt := a.isLt
    have hpos : 0 < 2 ^ (w - 1) := Nat.two_pow_pos _
    have hdiv : a.toNat / 2 ^ (w - 1) < 2 := Nat.div_lt_of_lt_mul (by omega)
    have hsign : (BitVec.intMin w).toNat = 2 ^ (w - 1) := toNat_intMin_of_pos hw
    have hhigh := xor_div_two_pow (a := a.toNat) (b := 2 ^ (w - 1)) (n := w - 1)
    have hlow := xor_mod_two_pow (a := a.toNat) (b := 2 ^ (w - 1)) (n := w - 1)
    rw [Nat.div_self hpos] at hhigh
    rw [mod_self, Nat.xor_zero] at hlow
    rw [toInt_eq_toNat_cond, toNat_xor, hsign,
      ← div_add_mod (a.toNat ^^^ 2 ^ (w - 1)) (2 ^ (w - 1)), hhigh, hlow]
    have hdm := div_add_mod a.toNat (2 ^ (w - 1))
    have hr := mod_lt a.toNat hpos
    generalize a.toNat % 2 ^ (w - 1) = low at *
    generalize a.toNat / 2 ^ (w - 1) = high at *
    generalize hk : 2 ^ (w - 1) = k at *
    rw [← hdm] at hlt ⊢
    have hcast : (2 ^ (w - 1) : Int) = k := by exact_mod_cast hk
    rw [hcast, hpow]
    obtain rfl | rfl : high = 0 ∨ high = 1 := by omega
    · rw [show 0 ^^^ 1 = 1 from rfl]
      split <;> push_cast <;> omega
    · rw [show 1 ^^^ 1 = 0 from rfl]
      split <;> push_cast <;> omega
  intro a b
  rw [lt_def, ← Int.ofNat_lt, hx, hx]
  omega

section

variable {sign : BitVec w} (hs : Flips sign) (a b : BitVec w)

include hs

theorem flips_le : (a ^^^ sign) ≤ (b ^^^ sign) ↔ a.toInt ≤ b.toInt := by
  rw [← BitVec.not_lt, hs, Int.not_lt]

end

/-! ## Sign extension -/

/-- The sign bit of a number of `M` bits. -/
theorem and_sign {M r : Nat} (hM : 0 < M) (hr : r < 2 ^ M) :
    r &&& 2 ^ (M - 1) = 0 ↔ 2 * r < 2 ^ M := by
  have hpow : 2 ^ M = 2 ^ (M - 1) * 2 := by rw [← pow_succ, Nat.sub_add_cancel hM]
  have hpos : 0 < 2 ^ (M - 1) := Nat.two_pow_pos _
  rw [and_two_pow, Nat.mul_eq_zero, or_iff_left hpos.ne']
  rcases Nat.lt_or_ge r (2 ^ (M - 1)) with h | h
  · rw [testBit_lt_two_pow h]
    exact iff_of_true rfl (by omega)
  · rw [testBit_of_two_pow_le_and_two_pow_add_one_gt h
      (by rw [Nat.sub_add_cancel hM]; exact hr)]
    exact iff_of_false (by decide) (by omega)

theorem fill_value {M r : Nat} (hM : M ≤ w) (hr : r < 2 ^ M) :
    (if 2 * r < 2 ^ M then r else r ||| (2 ^ w - 2 ^ M)) = unsigned w (signed M r) := by
  have hle : 2 ^ M ≤ 2 ^ w := Nat.pow_le_pow_right (by decide) hM
  have hor : r ||| (2 ^ w - 2 ^ M) = r + (2 ^ w - 2 ^ M) := by
    have hhigh : 2 ^ w - 2 ^ M = 2 ^ M * (2 ^ (w - M) - 1) := by
      rw [Nat.mul_sub, ← pow_add, Nat.add_sub_cancel' hM, Nat.mul_one]
    rw [hhigh, Nat.or_comm, Nat.add_comm]
    exact (two_pow_add_eq_or_of_lt hr _).symm
  have hcast : ((2 ^ w : Nat) : Int) = 2 ^ w := by push_cast; rfl
  have hcast' : ((2 ^ M : Nat) : Int) = 2 ^ M := by push_cast; rfl
  rw [unsigned, signed, ← hcast, ← hcast']
  generalize 2 ^ w = k at *
  generalize 2 ^ M = l at *
  split
  · rw [Int.emod_eq_of_lt (by omega) (by omega)]
    rfl
  · rw [hor, ← Int.add_emod_right, Int.emod_eq_of_lt (by omega) (by omega)]
    omega

theorem extendS_value {M : Nat} {mask sign high : BitVec w} (hM : 0 < M ∧ M ≤ w)
    (hmask : mask.toNat = 2 ^ M - 1) (hsign : sign.toNat = 2 ^ (M - 1))
    (hhigh : high.toNat = 2 ^ w - 2 ^ M) (a : BitVec w) :
    (extendS mask sign high a).toNat = extendValue M w a.toNat := by
  have hr : a.toNat % 2 ^ M < 2 ^ M := mod_lt _ (Nat.two_pow_pos _)
  have hand : (a &&& mask).toNat = a.toNat % 2 ^ M := by
    rw [toNat_and, hmask, and_two_pow_sub_one_eq_mod]
  have hbit : a &&& mask &&& sign = 0 ↔ 2 * (a.toNat % 2 ^ M) < 2 ^ M := by
    rw [← toNat_eq_zero_iff, toNat_and, hand, hsign, and_sign hM.1 hr]
  rw [extendS, extendValue, ← fill_value hM.2 hr]
  simp only [ne_eq, hbit]
  split
  · rw [toNat_or, hand, hhigh]
  · rename_i h
    rw [if_pos (not_not.mp h), hand]

theorem i64ExtendI32S_value (a : BitVec 32) :
    (i64ExtendI32S a).toNat = unsigned 64 (signed 32 a.toNat) := by
  have hset : (a.setWidth 64).toNat = a.toNat := by
    rw [toNat_setWidth]
    exact mod_eq_of_lt (by have := a.isLt; omega)
  have hbit : a &&& 0x80000000 = 0 ↔ 2 * a.toNat < 2 ^ 32 := by
    rw [← toNat_eq_zero_iff, toNat_and]
    exact and_sign (M := 32) (by decide) a.isLt
  rw [i64ExtendI32S, ← fill_value (by decide) a.isLt]
  simp only [ne_eq, hbit]
  split
  · rw [toNat_or, hset]
    rfl
  · rename_i h
    rw [if_pos (not_not.mp h), hset]

end

end Wasm89
