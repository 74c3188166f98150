import EightyNine.Bwt89.SortOk

/-!
# The rows of the bijective transform

The last byte of a conjugate is the first one of the conjugate that starts one position
earlier in the same word (`prev`).  The LF map of the last bytes leads from the row of a
position to the row of the one before it (`lf_prev`), and `buildRanks` computes it
(`buildRanks_eq`).
-/

namespace Bwt89

open Library Function Nat

variable {s : Nat → UInt8} {ws ln : Nat → Nat} {n : Nat}

/-! ## The position before -/

/-- The position before `p` in its word, around. -/
def prev (ws ln : Nat → Nat) (p : Nat) : Nat :=
  ws p + ((p - ws p) + (ln p - 1)) % ln p

namespace Factored

variable (h : Factored s n ws ln)

include h

variable {p : Nat}

theorem pos (hp : p < n) : 0 < ln p := (h.lyndon p hp).pos

theorem off_lt (hp : p < n) : p - ws p < ln p := by
  have := h.start_le p hp
  have := h.lt_end p hp
  omega

theorem prev_mem (hp : p < n) :
    ws p ≤ prev ws ln p ∧ prev ws ln p < ws p + ln p := by
  have := mod_lt ((p - ws p) + (ln p - 1)) (h.pos hp)
  exact ⟨Nat.le_add_right _ _, Nat.add_lt_add_left this _⟩

theorem prev_lt (hp : p < n) : prev ws ln p < n :=
  (h.prev_mem hp).2.trans_le (h.end_le p hp)

theorem ws_prev (hp : p < n) : ws (prev ws ln p) = ws p :=
  (h.same p hp _ (h.prev_mem hp).1 (h.prev_mem hp).2).1

theorem ln_prev (hp : p < n) : ln (prev ws ln p) = ln p :=
  (h.same p hp _ (h.prev_mem hp).1 (h.prev_mem hp).2).2

theorem ws_ws (hp : p < n) : ws (ws p) = ws p :=
  (h.same p hp _ le_rfl (by have := h.pos hp; omega)).1

theorem ln_ws (hp : p < n) : ln (ws p) = ln p :=
  (h.same p hp _ le_rfl (by have := h.pos hp; omega)).2

theorem prev_of_lt (hp : p < n) (hlt : ws p < p) : prev ws ln p = p - 1 := by
  have hoff := h.off_lt hp
  have hsum : (p - ws p) + (ln p - 1) = (p - ws p - 1) + ln p := by omega
  rw [prev, hsum, add_mod_right, mod_eq_of_lt (by omega)]
  omega

theorem prev_of_eq (hp : p < n) (heq : ws p = p) : prev ws ln p = p + (ln p - 1) := by
  have hpos := h.pos hp
  rw [prev, heq, Nat.sub_self, Nat.zero_add, mod_eq_of_lt (by omega)]

variable {q : Nat}

theorem prev_inj (hp : p < n) (hq : q < n) (he : prev ws ln p = prev ws ln q) :
    p = q := by
  have hws : ws p = ws q := by rw [← h.ws_prev hp, he, h.ws_prev hq]
  have hln : ln p = ln q := by rw [← h.ln_prev hp, he, h.ln_prev hq]
  have h1 := h.start_le p hp
  have h2 := h.start_le q hq
  have h3 := h.off_lt hp
  have h4 := h.off_lt hq
  rcases Nat.lt_or_eq_of_le h1 with hp' | hp' <;> rcases Nat.lt_or_eq_of_le h2 with hq' | hq'
  · rw [h.prev_of_lt hp hp', h.prev_of_lt hq hq'] at he
    omega
  · rw [h.prev_of_lt hp hp', h.prev_of_eq hq hq'] at he
    omega
  · rw [h.prev_of_eq hp hp', h.prev_of_lt hq hq'] at he
    omega
  · rw [← hp', ← hq', hws]

/-- The string from the position before is that of the position behind its last byte. -/
theorem conj_prev_zero (hp : p < n) :
    conjByte s ws ln (prev ws ln p) 0 = conjByte s ws ln p (ln p - 1) := by
  rw [conjByte, h.ws_prev hp, h.ln_prev hp, prev, Nat.add_sub_cancel_left, Nat.add_zero, mod_mod]
  rfl

theorem conj_prev_succ (hp : p < n) :
    shift (conjByte s ws ln (prev ws ln p)) 1 = conjByte s ws ln p := by
  have hpos := h.pos hp
  funext d
  rw [shift, conjByte, conjByte, h.ws_prev hp, h.ln_prev hp, prev, Nat.add_sub_cancel_left,
    mod_add_mod]
  have hsum : p - ws p + (ln p - 1) + (1 + d) = p - ws p + d + ln p := by omega
  rw [hsum, add_mod_right]

theorem off_eq (hp : p < n) (hq : q < n) (he : conj s ws ln p = conj s ws ln q) :
    ln p = ln q ∧ p - ws p = q - ws q := by
  have he' : conjByte s ws ln p = conjByte s ws ln q := he
  rw [conjByte_eq, conjByte_eq] at he'
  obtain ⟨-, hln, hmod⟩ := (h.lyndon p hp).unique (h.lyndon q hq) he'
  refine ⟨hln, ?_⟩
  have h1 := h.off_lt hp
  have h2 := h.off_lt hq
  rwa [mod_eq_of_lt h1, mod_eq_of_lt (by omega)] at hmod

/-- The keys of the positions before compare by the last byte, and then by the keys. -/
theorem key_prev_lt_iff (hp : p < n) (hq : q < n) :
    key s ws ln (prev ws ln p) < key s ws ln (prev ws ln q) ↔
      conjByte s ws ln p (ln p - 1) < conjByte s ws ln q (ln q - 1) ∨
      conjByte s ws ln p (ln p - 1) = conjByte s ws ln q (ln q - 1) ∧
        key s ws ln p < key s ws ln q := by
  have hlt : conj s ws ln (prev ws ln p) < conj s ws ln (prev ws ln q) ↔
      conjByte s ws ln p (ln p - 1) < conjByte s ws ln q (ln q - 1) ∨
      conjByte s ws ln p (ln p - 1) = conjByte s ws ln q (ln q - 1) ∧
        conj s ws ln p < conj s ws ln q := by
    rw [conj, conj, word_lt_head, h.conj_prev_zero hp, h.conj_prev_zero hq, h.conj_prev_succ hp,
      h.conj_prev_succ hq]
    rfl
  have heq : conj s ws ln (prev ws ln p) = conj s ws ln (prev ws ln q) ↔
      conjByte s ws ln p (ln p - 1) = conjByte s ws ln q (ln q - 1) ∧
        conj s ws ln p = conj s ws ln q := by
    constructor
    · intro he
      have he' : conjByte s ws ln (prev ws ln p) = conjByte s ws ln (prev ws ln q) := he
      refine ⟨?_, congrArg toLex ?_⟩
      · rw [← h.conj_prev_zero hp, he', h.conj_prev_zero hq]
      · rw [← h.conj_prev_succ hp, he', h.conj_prev_succ hq]
    · rintro ⟨h0, he⟩
      refine congrArg toLex (funext fun d => ?_)
      cases d with
      | zero => rw [h.conj_prev_zero hp, h.conj_prev_zero hq, h0]
      | succ d =>
        have h1 := congrFun (h.conj_prev_succ hp) d
        have h2 := congrFun (h.conj_prev_succ hq) d
        rw [shift, Nat.add_comm] at h1 h2
        rw [h1, h2]
        exact congrFun he d
  have hpos : conj s ws ln p = conj s ws ln q → (prev ws ln p < prev ws ln q ↔ p < q) := by
    intro he
    obtain ⟨hln, hoff⟩ := h.off_eq hp hq he
    have h1 := h.start_le p hp
    have h2 := h.start_le q hq
    rw [prev, prev, hln, hoff]
    omega
  rw [key_lt_iff, key_lt_iff, hlt, heq]
  constructor
  · rintro ((h0 | ⟨h0, h1⟩) | ⟨⟨h0, h1⟩, h2⟩)
    · exact .inl h0
    · exact .inr ⟨h0, .inl h1⟩
    · exact .inr ⟨h0, .inr ⟨h1, (hpos h1).mp h2⟩⟩
  · rintro (h0 | ⟨h0, h1 | ⟨h1, h2⟩⟩)
    · exact .inl (.inl h0)
    · exact .inl (.inr ⟨h0, h1⟩)
    · exact .inr ⟨⟨h0, h1⟩, (hpos h1).mpr h2⟩

variable {b : Nat → UInt8}

theorem lf_prev {ord : Nat → Nat} (ho : Enumerates (key s ws ln) n ord)
    (hb : ∀ i < n, b i = conjByte s ws ln (ord i) (ln (ord i) - 1)) {i : Nat} (hi : i < n) :
    ord (lf (fun i => (b i).toNat) n i) = prev ws ln (ord i) := by
  refine ho.lf_eq (fun x hx => h.prev_lt hx) (fun x hx y hy he => h.prev_inj hx hy he) ?_ hi
  intro i hi j hj
  rw [h.key_prev_lt_iff (ho.lt i hi) (ho.lt j hj), ← hb i hi, ← hb j hj, ho.lt_iff hi hj,
    Prod.Lex.toLex_lt_toLex, UInt8.lt_iff_toNat_lt, UInt8.toNat_inj]

end Factored

/-! ## The ranks -/

theorem countBytes_eq (b : Nat → UInt8) (n c : Nat) :
    countBytes b n c = count (fun j => (b j).toNat = c) n := by
  refine forUp_inv (P := fun i (freq : Nat → Nat) =>
    freq c = count (fun j => (b j).toNat = c) i) (Nat.zero_le n) rfl ?_
  intro i freq _ _ h
  rw [count_succ, ← h]
  by_cases hc : (b i).toNat = c
  · rw [hc, update_self, if_pos rfl]
  · rw [update_of_ne (Ne.symm hc), if_neg hc]
    rfl

/-- The sums before the `k`-th byte value. -/
structure Summed (b : Nat → UInt8) (n k : Nat) (t : Sums) : Prop where
  less : ∀ c < k, t.less c = count (fun j => (b j).toNat < c) n
  acc : t.acc = count (fun j => (b j).toNat < k) n

theorem summed_start (b : Nat → UInt8) (n : Nat) : Summed b n 0 { less := fun _ => 0, acc := 0 } :=
  ⟨fun c hc => absurd hc (Nat.not_lt_zero c), (count_lt_zero _ _).symm⟩

variable {k : Nat}

theorem prefixNext_summed {n : Nat} {t : Sums} (h : Summed b n k t) :
    Summed b n (k + 1) (prefixNext (countBytes b n) k t) := by
  refine ⟨fun c hc => ?_, ?_⟩
  · show update t.less k t.acc c = _
    rcases Nat.lt_succ_iff_lt_or_eq.mp hc with hc | rfl
    · rw [update_of_ne hc.ne, h.less c hc]
    · rw [update_self, h.acc]
  · show t.acc + countBytes b n k = _
    rw [h.acc, countBytes_eq, count_lt_succ (fun j => (b j).toNat)]

theorem buildSums_eq (b : Nat → UInt8) (n : Nat) : ∀ c < alphabet,
    (forUp 0 alphabet (prefixNext (countBytes b n)) { less := fun _ => 0, acc := 0 }).less c =
      count (fun j => (b j).toNat < c) n := by
  have h : Summed b n alphabet
      (forUp 0 alphabet (prefixNext (countBytes b n)) { less := fun _ => 0, acc := 0 }) :=
    forUp_inv (Nat.zero_le alphabet) (summed_start b n) fun k t _ _ h => prefixNext_summed h
  exact h.less

/-- The next rank of each byte value, when the first `k` rows have theirs. -/
def NextRanks (b : Nat → UInt8) (n k : Nat) (less : Nat → Nat) : Prop :=
  ∀ c < alphabet,
    less c = count (fun j => (b j).toNat < c) n + count (fun j => (b j).toNat = c) k

theorem rankAssign_next {n : Nat} {r : Ranks} (h : NextRanks b n k r.less) :
    NextRanks b n (k + 1) (rankAssign b k r).less := by
  intro c hc
  show update r.less (b k).toNat (r.less (b k).toNat + 1) c = _
  rw [count_succ]
  by_cases hkc : (b k).toNat = c
  · rw [if_pos hkc, hkc, update_self, h c hc, Nat.add_assoc]
  · rw [if_neg hkc, update_of_ne (Ne.symm hkc), h c hc, Nat.add_zero]

theorem buildRanks_eq (b : Nat → UInt8) (n : Nat) :
    ∀ i < n, (buildRanks b n).rank i = lf (fun i => (b i).toNat) n i := by
  have hbyte : ∀ i, (b i).toNat < alphabet := fun i => UInt8.toNat_lt (b i)
  have hinv : (∀ i < n, i < n → (buildRanks b n).rank i = lf (fun i => (b i).toNat) n i) ∧
      NextRanks b n n (buildRanks b n).less := by
    refine forUp_inv (P := fun k (r : Ranks) =>
      (∀ i < k, i < n → r.rank i = lf (fun i => (b i).toNat) n i) ∧ NextRanks b n k r.less)
      (Nat.zero_le n) ?_ ?_
    · refine ⟨fun i hi => absurd hi (Nat.not_lt_zero i), fun c hc => ?_⟩
      rw [count_zero, Nat.add_zero]
      exact buildSums_eq b n c hc
    · rintro k r - hk ⟨hrank, hless⟩
      refine ⟨fun i hi hin => ?_, rankAssign_next hless⟩
      show update r.rank k (r.less (b k).toNat : Int) i = _
      rcases Nat.lt_succ_iff_lt_or_eq.mp hi with hi | rfl
      · rw [update_of_ne hi.ne, hrank i hi hin]
      · rw [update_self, hless _ (hbyte i), lf_eq_count hin]
  exact fun i hi => hinv.1 i hi hi

end Bwt89
