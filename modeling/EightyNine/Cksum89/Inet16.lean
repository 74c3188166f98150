import EightyNine.Cksum89.CrcOk
import EightyNine.Library.Ones

/-!
# The Internet checksum

`cksum89_inet16.c`: big-endian words are added with the carry folded back after every word,
and the octet of a word that is not complete is held for the next block.  A sum that left
32 bits would be `none`.  The checksum is the complement of the one's-complement sum of the
words, and a message followed by its checksum sums up to ones.
-/

namespace Cksum89

open Nat List Option

open Library (endAround foldCarry foldCarry_add onesRep onesRep_add onesRep_eq_zero onesRep_lt
  onesRep_modEq onesRep_of_lt onesRep_of_modEq onesSum onesSum_eq)

/-- A sum of the type `cksum89_u32`, which has to stay below `2 ^ 32`. -/
def add32 (a b : Nat) : Option Nat := if a + b < 2 ^ 32 then some (a + b) else none

/-- `cksum89_inet16_ctx`. -/
structure Inet16Ctx where
  sum : Nat
  pending : UInt8
  hasPending : Bool

/-- `cksum89_inet16_fold`. -/
def inet16Fold (sum : Nat) : Option Nat := do
  let folded ← add32 (sum &&& 0xffff) (sum >>> 16)
  add32 (folded &&& 0xffff) (folded >>> 16)

/-- `cksum89_inet16_pending_word`. -/
def inet16PendingWord (ctx : Inet16Ctx) : Nat := ctx.pending.toNat <<< 8

/-- `cksum89_inet16_add_word`. -/
def inet16AddWord (ctx : Inet16Ctx) (word : Nat) : Option Inet16Ctx := do
  let sum ← add32 ctx.sum word
  let folded ← inet16Fold sum
  return { ctx with sum := folded }

/-- `cksum89_inet16_pair`. -/
def inet16Pair (ctx : Inet16Ctx) (byte : UInt8) : Option Inet16Ctx := do
  let ctx ← inet16AddWord ctx (inet16PendingWord ctx ||| byte.toNat)
  return { ctx with hasPending := false }

/-- `cksum89_inet16_hold`. -/
def inet16Hold (ctx : Inet16Ctx) (byte : UInt8) : Inet16Ctx :=
  { ctx with pending := byte, hasPending := true }

/-- `cksum89_inet16_byte`. -/
def inet16Byte (ctx : Inet16Ctx) (byte : UInt8) : Option Inet16Ctx :=
  if ctx.hasPending then inet16Pair ctx byte else some (inet16Hold ctx byte)

/-- `cksum89_inet16_init`. -/
def inet16Init : Inet16Ctx := ⟨0, 0, false⟩

/-- `cksum89_inet16_update`. -/
def inet16Update (ctx : Inet16Ctx) (data : List UInt8) : Option Inet16Ctx :=
  data.foldlM inet16Byte ctx

/-- `cksum89_inet16_sum_pending`. -/
def inet16SumPending (ctx : Inet16Ctx) : Option Nat := do
  let sum ← add32 ctx.sum (inet16PendingWord ctx)
  inet16Fold sum

/-- `cksum89_inet16_total`. -/
def inet16Total (ctx : Inet16Ctx) : Option Nat :=
  if ctx.hasPending then inet16SumPending ctx else some ctx.sum

/-- `cksum89_inet16_final`.  The complement is that of a type of 64 bits. -/
def inet16Final (ctx : Inet16Ctx) : Option Nat := do
  let total ← inet16Total ctx
  let folded ← inet16Fold total
  return (0xffffffffffffffff - folded) &&& 0xffff

/-- `cksum89_inet16`. -/
def inet16 (data : List UInt8) : Option Nat := do
  let ctx ← inet16Update inet16Init data
  inet16Final ctx

/-- `cksum89_inet16` and its context, lost with a sum that leaves 32 bits. -/
def inet16Stream : Stream (Option Inet16Ctx) (Option Nat) where
  init := some inet16Init
  update ctx data := ctx.bind (inet16Update · data)
  final ctx := ctx.bind inet16Final
  oneShot := inet16

/-! ## The sum of the words -/

/-- The big-endian words of a message, the last padded with zero. -/
def words : List UInt8 → List Nat
  | [] => []
  | [a] => [a.toNat * 256]
  | a :: b :: rest => (a.toNat * 256 + b.toNat) :: words rest

/-- The two octets of a word, the upper first. -/
def bigEndian16 (n : Nat) : List UInt8 := [UInt8.ofNat (n / 256), UInt8.ofNat (n % 256)]

variable {data : List UInt8} {ctx : Inet16Ctx} {a b n : Nat}

theorem words_lt (data : List UInt8) : ∀ x ∈ words data, x < 2 ^ 16 := by
  induction data using words.induct with
  | case1 => simp [words]
  | case2 a =>
    have := a.toNat_lt
    simp only [words, mem_singleton, forall_eq]
    omega
  | case3 a b rest ih =>
    have ha := a.toNat_lt
    have hb := b.toNat_lt
    simp only [words, mem_cons, forall_eq_or_imp]
    exact ⟨by omega, ih⟩

theorem words_sum_eq_zero (data : List UInt8) : (words data).sum = 0 ↔ ∀ b ∈ data, b = 0 := by
  have hzero : ∀ b : UInt8, b.toNat = 0 ↔ b = 0 := fun b => UInt8.toNat_inj (b := 0)
  induction data using words.induct with
  | case1 => simp [words]
  | case2 a => simp [words, hzero]
  | case3 a b rest ih => simp [words, ih, hzero, and_assoc]

theorem words_append (heven : 2 ∣ data.length) (rest : List UInt8) :
    words (data ++ rest) = words data ++ words rest := by
  induction data using words.induct with
  | case1 => rfl
  | case2 a => simp at heven
  | case3 a b data ih =>
    have : 2 ∣ data.length := by
      simp only [length_cons] at heven
      omega
    simp [words, ih this]

theorem words_bigEndian16 (hn : n < 2 ^ 16) : words (bigEndian16 n) = [n] := by
  have hhi : (UInt8.ofNat (n / 256)).toNat = n / 256 := by
    rw [UInt8.toNat_ofNat']
    exact mod_eq_of_lt (by omega)
  have hlo : (UInt8.ofNat (n % 256)).toNat = n % 256 := by
    rw [UInt8.toNat_ofNat']
    exact mod_eq_of_lt (by omega)
  simp only [bigEndian16, words, hhi, hlo]
  rw [mul_comm, div_add_mod]

/-! ## What the context holds -/

theorem add32_eq (h : a + b < 2 ^ 32) : add32 a b = some (a + b) := if_pos h

theorem foldCarry_bits (n : Nat) : (n &&& 0xffff) + (n >>> 16) = foldCarry 16 n := by
  rw [foldCarry, shiftRight_eq_div_pow, show n &&& 0xffff = n % 2 ^ 16 from
    and_two_pow_sub_one_eq_mod n 16]

theorem inet16Fold_eq (h : n < 2 ^ 32) : inet16Fold n = some (foldCarry 16 (foldCarry 16 n)) := by
  have h1 : foldCarry 16 n < 2 ^ 32 := by
    unfold foldCarry
    omega
  have h2 : foldCarry 16 (foldCarry 16 n) < 2 ^ 32 := by
    unfold foldCarry at *
    omega
  rw [inet16Fold, add32_eq (by rwa [foldCarry_bits]), bind_eq_bind, bind_some,
    add32_eq (by rwa [foldCarry_bits, foldCarry_bits]), foldCarry_bits, foldCarry_bits]

theorem inet16Fold_add (ha : a < 2 ^ 16) (hb : b < 2 ^ 16) :
    inet16Fold (a + b) = some (onesRep 16 (a + b)) := by
  have hrep := onesRep_lt (w := 16) (by decide) (a + b)
  rw [inet16Fold_eq (by omega), foldCarry_add ha hb]
  congr 1
  rw [foldCarry, mod_eq_of_lt hrep, div_eq_of_lt hrep, add_zero]

theorem pendingWord_or (p b : UInt8) : p.toNat <<< 8 ||| b.toNat = p.toNat * 256 + b.toNat := by
  rw [shiftLeft_eq, mul_comm, ← two_pow_add_eq_or_of_lt b.toNat_lt, mul_comm]

theorem pendingWord_lt (b : UInt8) : b.toNat <<< 8 < 2 ^ 16 := by
  have := b.toNat_lt
  rw [shiftLeft_eq]
  omega

theorem inet16Byte_word (hsum : ctx.sum < 2 ^ 16) (hnone : ctx.hasPending = false) (p b : UInt8) :
    ∃ ctx', (inet16Byte ctx p).bind (inet16Byte · b) = some ctx' ∧ ctx'.hasPending = false ∧
      ctx'.sum = onesRep 16 (ctx.sum + (p.toNat * 256 + b.toNat)) := by
  have hp := p.toNat_lt
  have hb := b.toNat_lt
  have hadd : add32 ctx.sum (p.toNat * 256 + b.toNat) =
      some (ctx.sum + (p.toNat * 256 + b.toNat)) := add32_eq (by omega)
  have hfold : inet16Fold (ctx.sum + (p.toNat * 256 + b.toNat)) = _ :=
    inet16Fold_add hsum (by omega)
  refine ⟨⟨onesRep 16 (ctx.sum + (p.toNat * 256 + b.toNat)), p, false⟩, ?_, rfl, rfl⟩
  simp [inet16Byte, hnone, inet16Hold, inet16Pair, inet16AddWord, inet16PendingWord,
    pendingWord_or, hadd, hfold]

theorem complement_eq (hn : n < 2 ^ 16) :
    (0xffffffffffffffff - n) &&& 0xffff = 0xffff - n := by
  rw [show (0xffffffffffffffff - n) &&& 0xffff = (0xffffffffffffffff - n) % 2 ^ 16 from
    and_two_pow_sub_one_eq_mod _ 16]
  omega

theorem inet16Final_total {total : Nat} (ht : inet16Total ctx = some total)
    (hlt : total < 2 ^ 16) : inet16Final ctx = some (0xffff - total) := by
  have hfold := inet16Fold_add hlt (show 0 < 2 ^ 16 by decide)
  rw [add_zero, onesRep_of_lt hlt] at hfold
  simp [inet16Final, ht, hfold, complement_eq hlt]

/-- The words that are added to a sum, and its complement. -/
theorem inet16Update_final (hsum : ctx.sum < 2 ^ 16) (hnone : ctx.hasPending = false)
    (data : List UInt8) : (inet16Update ctx data).bind inet16Final =
      some (0xffff - onesRep 16 (ctx.sum + (words data).sum)) := by
  induction data using words.induct generalizing ctx with
  | case1 =>
    have ht : inet16Total ctx = some ctx.sum := by simp [inet16Total, hnone]
    have hrep : onesRep 16 (ctx.sum + (words []).sum) = ctx.sum := onesRep_of_lt hsum
    rw [hrep]
    exact inet16Final_total ht hsum
  | case2 a =>
    have ha := pendingWord_lt a
    have hadd : add32 ctx.sum (a.toNat <<< 8) = some (ctx.sum + a.toNat <<< 8) :=
      add32_eq (by omega)
    have ht : inet16Total (inet16Hold ctx a) = some (onesRep 16 (ctx.sum + a.toNat <<< 8)) := by
      simp [inet16Total, inet16Hold, inet16SumPending, inet16PendingWord, hadd,
        inet16Fold_add hsum ha]
    have hupdate : inet16Update ctx [a] = some (inet16Hold ctx a) := by
      simp [inet16Update, inet16Byte, hnone]
    have hword : (words [a]).sum = a.toNat <<< 8 := by simp [words, shiftLeft_eq]
    rw [hupdate, bind_some, hword]
    exact inet16Final_total ht (onesRep_lt (by decide) _)
  | case3 a b rest ih =>
    obtain ⟨ctx', hbyte, hnone', hsum'⟩ := inet16Byte_word hsum hnone a b
    have hupdate : inet16Update ctx (a :: b :: rest) = inet16Update ctx' rest := by
      have : inet16Update ctx (a :: b :: rest) =
          ((inet16Byte ctx a).bind (inet16Byte · b)).bind (inet16Update · rest) := by
        rw [inet16Update, foldlM_cons, bind_eq_bind, bind_assoc]
        simp [inet16Update, foldlM_cons]
      rw [this, hbyte, bind_some]
    rw [hupdate, ih (hsum' ▸ onesRep_lt (by decide) _) hnone', hsum', onesRep_add, words,
      sum_cons, add_assoc]

/-- The checksum is the complement of the one's-complement sum of the words. -/
theorem inet16_eq (data : List UInt8) :
    inet16 data = some (0xffff - onesSum 16 (words data)) := by
  have h : (inet16 data) = some (0xffff - onesRep 16 (inet16Init.sum + (words data).sum)) :=
    inet16Update_final (by decide) rfl data
  rw [onesSum_eq (by decide) (words_lt data)]
  have hzero : inet16Init.sum + (words data).sum = (words data).sum := zero_add _
  rw [hzero] at h
  exact h

theorem onesSum_checksum (heven : 2 ∣ data.length) :
    onesSum 16 (words (data ++ bigEndian16 (0xffff - onesSum 16 (words data)))) = 0xffff := by
  have hlt := words_lt data
  have hsum := onesSum_eq (by decide) hlt
  have hrep := onesRep_lt (w := 16) (by decide) (words data).sum
  rw [onesSum_eq (by decide) (words_lt _), words_append heven, words_bigEndian16 (by omega),
    List.sum_append, sum_singleton, hsum, ← onesRep_add]
  rw [Nat.add_sub_cancel' (by omega)]
  exact onesRep_of_lt (by decide)

/-- The Internet checksum of RFC 1071.  However the bytes are split and whenever a value is
read, it is the complement of the one's-complement sum of the words of the bytes so far, and no
sum leaves 32 bits; the sum is the residue of the plain sum and 0 only for zeros; and the
checksum of a message of whole words followed by its checksum is 0. -/
theorem inet16_computes :
    (∀ calls, inet16Stream.run inet16Stream.init calls =
      valuesSoFar (fun data => some (0xffff - onesSum 16 (words data))) [] calls) ∧
    (∀ data, inet16 data = some (0xffff - onesSum 16 (words data))) ∧
    (∀ data, onesSum 16 (words data) ≡ (words data).sum [MOD 0xffff] ∧
      onesSum 16 (words data) ≤ 0xffff ∧
      (onesSum 16 (words data) = 0 ↔ ∀ b ∈ data, b = 0)) ∧
    ∀ data, 2 ∣ data.length → ∃ c, inet16 data = some c ∧
      inet16 (data ++ bigEndian16 c) = some 0 := by
  refine ⟨fun calls => ?_, inet16_eq, fun data => ?_, fun data heven => ?_⟩
  · have hupdate : ∀ (o : Option Inet16Ctx) (data : List UInt8), inet16Stream.update o data =
        data.foldl (fun o b => o.bind (inet16Byte · b)) o := by
      intro o data
      induction data generalizing o with
      | nil => cases o <;> rfl
      | cons b data ih =>
        rw [foldl_cons, ← ih]
        cases o <;> rfl
    have hone : ∀ data, inet16Stream.oneShot data = inet16Stream.final
        (data.foldl (fun o b => o.bind (inet16Byte · b)) inet16Stream.init) := fun data => by
      rw [← hupdate]
      rfl
    have hrun := Stream.run_eq hupdate hone calls []
    rw [show inet16Stream.oneShot = fun data => some (0xffff - onesSum 16 (words data)) from
      funext inet16_eq] at hrun
    exact hrun
  · have hsum := onesSum_eq (by decide) (words_lt data)
    rw [hsum, onesRep_eq_zero, words_sum_eq_zero]
    exact ⟨onesRep_modEq 16 _, le_of_lt_succ (onesRep_lt (by decide) _), Iff.rfl⟩
  · exact ⟨_, inet16_eq data, by rw [inet16_eq, onesSum_checksum heven]⟩

/-- The word 1, whose checksum is `0xfffe`. -/
theorem inet16_computes_one :
    ∃ c, inet16 [0x00, 0x01] = some c ∧ inet16 ([0x00, 0x01] ++ bigEndian16 c) = some 0 :=
  inet16_computes.2.2.2 [0x00, 0x01] (by decide)

end Cksum89
