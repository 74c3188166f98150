import EightyNine.Bwt89.Bwts
import EightyNine.Library.Words

/-!
# What the factorization leaves

`Cut` says of an increasing sequence of boundaries that it cuts the input into Lyndon
words none of which is above the one before.  Duval's scan keeps it (`factorWord_ok`),
together with the fact that what comes next is not above the last word.  What is left
for the sort is `Factored`, a statement of the arrays `ws` and `ln` alone
(`factorize_ok`).
-/

namespace Bwt89

open Library Function Nat

/-- The word of length `m` at `a`, repeated. -/
def wordAt (s : Nat → UInt8) (a m : Nat) : Lex (Nat → UInt8) := toLex (cycle (shift s a) m)

/-- The boundaries `bd 0, .., bd nw` of non-increasing Lyndon words. -/
structure Cut (s : Nat → UInt8) (bd : Nat → Nat) (nw : Nat) : Prop where
  zero : bd 0 = 0
  lt : ∀ k < nw, bd k < bd (k + 1)
  lyndon : ∀ k < nw, Lyndon (shift s (bd k)) (bd (k + 1) - bd k)
  anti : ∀ k, k + 1 < nw →
    wordAt s (bd (k + 1)) (bd (k + 2) - bd (k + 1)) ≤ wordAt s (bd k) (bd (k + 1) - bd k)

/-- Each position knows its word: where it starts and its length. -/
structure Factored (s : Nat → UInt8) (n : Nat) (ws ln : Nat → Nat) : Prop where
  start_le : ∀ p < n, ws p ≤ p
  lt_end : ∀ p < n, p < ws p + ln p
  end_le : ∀ p < n, ws p + ln p ≤ n
  same : ∀ p < n, ∀ q, ws p ≤ q → q < ws p + ln p → ws q = ws p ∧ ln q = ln p
  lyndon : ∀ p < n, Lyndon (shift s (ws p)) (ln p)
  anti : ∀ p q, p ≤ q → q < n → wordAt s (ws q) (ln q) ≤ wordAt s (ws p) (ln p)

variable {s : Nat → UInt8} {n nw : Nat} {bd : Nat → Nat}

namespace Cut

theorem nil (h : bd 0 = 0) : Cut s bd 0 :=
  ⟨h, fun _ hk => absurd hk (Nat.not_lt_zero _), fun _ hk => absurd hk (Nat.not_lt_zero _),
    fun _ hk => absurd hk (Nat.not_lt_zero _)⟩

theorem snoc (h : Cut s bd nw) {e : Nat} (he : bd nw < e)
    (hlyn : Lyndon (shift s (bd nw)) (e - bd nw))
    (hle : ∀ k, k + 1 = nw →
      wordAt s (bd nw) (e - bd nw) ≤ wordAt s (bd k) (bd (k + 1) - bd k)) :
    Cut s (update bd (nw + 1) e) (nw + 1) := by
  have hold : ∀ k ≤ nw, update bd (nw + 1) e k = bd k := by
    intro k hk
    rw [update_of_ne (by omega)]
  have hnew : update bd (nw + 1) e (nw + 1) = e := update_self _ _ _
  constructor
  · rw [hold 0 (Nat.zero_le _), h.zero]
  · intro k hk
    rcases Nat.lt_succ_iff_lt_or_eq.mp hk with hk | rfl
    · rw [hold k hk.le, hold (k + 1) hk]
      exact h.lt k hk
    · rwa [hold k le_rfl, hnew]
  · intro k hk
    rcases Nat.lt_succ_iff_lt_or_eq.mp hk with hk | rfl
    · rw [hold k hk.le, hold (k + 1) hk]
      exact h.lyndon k hk
    · rwa [hold k le_rfl, hnew]
  · intro k hk
    rcases Nat.lt_succ_iff_lt_or_eq.mp hk with hk | hk
    · rw [hold k (by omega), hold (k + 1) (by omega), hold (k + 2) (by omega)]
      exact h.anti k hk
    · rw [hold k (by omega), hold (k + 1) (by omega), show k + 2 = nw + 1 by omega, hnew]
      have := hle k hk
      rwa [← hk] at this

variable {i j : Nat}

theorem mono (h : Cut s bd nw) (hij : i ≤ j) (hj : j ≤ nw) : bd i ≤ bd j := by
  induction j, hij using le_induction with
  | base => exact le_rfl
  | succ j _ ih => exact (ih (by omega)).trans (h.lt j (by omega)).le

theorem le_self (h : Cut s bd nw) {k : Nat} (hk : k ≤ nw) : k ≤ bd k := by
  induction k with
  | zero => exact Nat.zero_le _
  | succ k ih =>
    have := ih (by omega)
    have := h.lt k hk
    omega

theorem anti_le (h : Cut s bd nw) (hij : i ≤ j) (hj : j < nw) :
    wordAt s (bd j) (bd (j + 1) - bd j) ≤ wordAt s (bd i) (bd (i + 1) - bd i) := by
  induction j, hij using le_induction with
  | base => exact le_rfl
  | succ j _ ih => exact (h.anti j hj).trans (ih (by omega))

/-- Arrays that give each position its word of a cut are what the sort needs. -/
theorem factored (h : Cut s bd nw) (hn : bd nw = n) {ws ln : Nat → Nat}
    (hfill : ∀ p < n, ∃ k < nw, bd k ≤ p ∧ p < bd (k + 1) ∧ ws p = bd k ∧
      ln p = bd (k + 1) - bd k) : Factored s n ws ln := by
  -- a position lies in one word only
  have hone : ∀ {p i j : Nat}, i < nw → j < nw → bd i ≤ p → p < bd (j + 1) → i ≤ j := by
    intro p i j hi hj hip hpj
    by_contra hij
    have := h.mono (show j + 1 ≤ i by omega) hi.le
    omega
  constructor
  · intro p hp
    obtain ⟨k, -, hk, -, hws, -⟩ := hfill p hp
    rwa [hws]
  · intro p hp
    obtain ⟨k, -, hk, hk', hws, hln⟩ := hfill p hp
    omega
  · intro p hp
    obtain ⟨k, hkw, hk, hk', hws, hln⟩ := hfill p hp
    have := h.mono (show k + 1 ≤ nw by omega) le_rfl
    omega
  · intro p hp q hq hq'
    obtain ⟨k, hkw, hk, hk', hws, hln⟩ := hfill p hp
    have hend := h.mono (show k + 1 ≤ nw by omega) le_rfl
    obtain ⟨j, hjw, hj, hj', hws', hln'⟩ := hfill q (by omega)
    obtain rfl : k = j :=
      le_antisymm (hone hkw hjw (by omega) hj') (hone hjw hkw hj (by omega))
    exact ⟨by rw [hws, hws'], by rw [hln, hln']⟩
  · intro p hp
    obtain ⟨k, hkw, -, -, hws, hln⟩ := hfill p hp
    rw [hws, hln]
    exact h.lyndon k hkw
  · intro p q hpq hq
    obtain ⟨k, hkw, hk, -, hws, hln⟩ := hfill p (by omega)
    obtain ⟨j, hjw, -, hj', hws', hln'⟩ := hfill q hq
    rw [hws, hln, hws', hln']
    exact h.anti_le (hone hkw hjw (by omega) hj') hjw

end Cut

/-! ## Duval's scan -/

/-- The letters from `p` to `w.b` repeat a Lyndon word, and a closed window has a reason. -/
structure Scanned (s : Nat → UInt8) (n p : Nat) (w : Window) : Prop where
  le_a : p ≤ w.a
  lt_b : w.a < w.b
  b_le : w.b ≤ n
  lyndon : Lyndon (shift s p) (w.b - w.a)
  rep : ∀ i, i + (w.b - w.a) < w.b - p → shift s p (i + (w.b - w.a)) = shift s p i
  closed : w.cont = false → w.b = n ∨ s w.b < s w.a

variable {p : Nat}

theorem scanned_start (hp : p < n) :
    Scanned s n p { a := p, b := p + 1, cont := true } where
  le_a := le_rfl
  lt_b := lt_succ_self p
  b_le := hp
  lyndon := by
    rw [Nat.add_sub_cancel_left]
    exact Lyndon.one _
  rep := fun i hi => by
    simp only [Nat.add_sub_cancel_left] at hi
    omega
  closed := fun h => by cases h

variable {w : Window}

theorem duvalStep_ok (h : Scanned s n p w) :
    Scanned s n p (duvalStep s n p w) := by
  have hle := h.le_a
  have hlt := h.lt_b
  have hb := h.b_le
  unfold duvalStep
  split
  next hn => exact { h with closed := fun _ => .inl (le_antisymm hb hn) }
  next hn =>
    split
    next hgt => exact { h with closed := fun _ => .inr hgt }
    next hgt =>
      have hsub : w.b - p - (w.b - w.a) = w.a - p := by omega
      have hlast : shift s p (w.b - p - (w.b - w.a)) = s w.a := by
        rw [hsub, shift, Nat.add_sub_cancel' hle]
      have hnext : shift s p (w.b - p) = s w.b := by
        rw [shift, Nat.add_sub_cancel' (by omega)]
      split
      next hls =>
        -- a larger letter: all that was read is one Lyndon word
        have hext : Lyndon (shift s p) (w.b - p + 1) :=
          h.lyndon.extend h.rep (by omega) (by rwa [hlast, hnext])
        refine ⟨le_rfl, by simp only; omega, by simp only; omega, ?_, ?_, fun h => by cases h⟩
        · simpa only [Nat.sub_add_comm (show p ≤ w.b by omega)] using hext
        · intro i hi
          simp only at hi
          omega
      next hls =>
        have heq : s w.b = s w.a := le_antisymm (not_lt.mp hls) (not_lt.mp hgt)
        have hm : w.b + 1 - (w.a + 1) = w.b - w.a := by omega
        refine ⟨by simp only; omega, by simp only; omega, by simp only; omega, ?_, ?_,
          fun h => by cases h⟩
        · simpa only [hm] using h.lyndon
        · intro i hi
          simp only [hm] at hi ⊢
          rcases Nat.lt_or_ge (i + (w.b - w.a)) (w.b - p) with hib | hib
          · exact h.rep i hib
          · have hi' : i + (w.b - w.a) = w.b - p := by omega
            have hi'' : i = w.b - p - (w.b - w.a) := by omega
            rw [hi', hnext, hi'', hlast, heq]

theorem scan_ok (hp : p < n) :
    ∃ w, whileLoop (·.cont) (fun w => some (duvalStep s n p w)) (n + 1)
        { a := p, b := p + 1, cont := true } = some w ∧
      Scanned s n p w ∧ w.cont = false := by
  refine whileLoop_spec (fun w => if w.cont then n - w.b + 1 else 0) ?_ (scanned_start hp) ?_
  · intro w hw hc
    refine ⟨_, rfl, duvalStep_ok hw, ?_⟩
    have := hw.b_le
    simp only [duvalStep, hc, if_true]
    split_ifs <;> simp <;> omega
  · simp
    omega

/-! ## The words of one scan -/

/-- The boundaries found so far, the last of them the position. -/
def Starts.bounds (st : Starts) : Nat → Nat := update st.starts st.nw st.p

@[simp] theorem Starts.bounds_nw (st : Starts) : st.bounds st.nw = st.p :=
  update_self _ _ _

theorem recordStart_bounds (len : Nat) (st : Starts) :
    (recordStart len st).bounds = update st.bounds (st.nw + 1) (st.p + len) :=
  rfl

/-- What was found is cut, and no word that comes next is above the last one. -/
structure Found (s : Nat → UInt8) (n : Nat) (st : Starts) : Prop where
  le : st.p ≤ n
  cut : Cut s st.bounds st.nw
  next : ∀ l, 0 < l → st.p + l ≤ n → ∀ k, k + 1 = st.nw →
    wordAt s st.p l ≤ wordAt s (st.bounds k) (st.bounds (k + 1) - st.bounds k)

/-- Under way in a window: `j` copies of its word were recorded. -/
structure Recorded (s : Nat → UInt8) (p : Nat) (w : Window) (st : Starts) : Prop where
  copies : ∃ j, st.p = p + (w.b - w.a) * j
  le : st.p ≤ w.b
  cut : Cut s st.bounds st.nw
  last : ∀ k, k + 1 = st.nw →
    wordAt s p (w.b - w.a) ≤ wordAt s (st.bounds k) (st.bounds (k + 1) - st.bounds k)

variable {st : Starts}

theorem recordStart_ok (hw : Scanned s n p w)
    (h : Recorded s p w st) (hp : st.p ≤ w.a) :
    Recorded s p w (recordStart (w.b - w.a) st) := by
  obtain ⟨j, hj⟩ := h.copies
  have hlt := hw.lt_b
  have hle := hw.le_a
  -- the copy at the position has the letters of the first one
  have hcopy : ∀ i < w.b - w.a, shift s st.p i = shift s p i := by
    intro i hi
    have hpos : 0 < w.b - w.a := by omega
    have hmod : cycle (shift s p) (w.b - w.a) ((w.b - w.a) * j + i) =
        cycle (shift s p) (w.b - w.a) i := by
      rw [cycle, cycle, mul_add_mod]
    calc shift s st.p i = shift s p ((w.b - w.a) * j + i) := by
          rw [shift, shift, hj, Nat.add_assoc]
      _ = cycle (shift s p) (w.b - w.a) ((w.b - w.a) * j + i) :=
          Lyndon.eq_cycle hw.rep hpos _ (by omega)
      _ = cycle (shift s p) (w.b - w.a) i := hmod
      _ = shift s p i := (Lyndon.eq_cycle hw.rep hpos i (by omega)).symm
  have hword : wordAt s st.p (w.b - w.a) = wordAt s p (w.b - w.a) := by
    refine congrArg toLex (funext fun i => ?_)
    exact hcopy _ (mod_lt _ (by omega))
  have hlyn : Lyndon (shift s st.p) (w.b - w.a) := hw.lyndon.congr hcopy
  have hcut : Cut s (update st.bounds (st.nw + 1) (st.p + (w.b - w.a))) (st.nw + 1) := by
    refine h.cut.snoc ?_ ?_ fun k hk => ?_
    · rw [Starts.bounds_nw]
      omega
    · rwa [Starts.bounds_nw, Nat.add_sub_cancel_left]
    · rw [Starts.bounds_nw, Nat.add_sub_cancel_left, hword]
      exact h.last k hk
  refine ⟨⟨j + 1, ?_⟩, ?_, hcut, ?_⟩
  · show st.p + (w.b - w.a) = p + (w.b - w.a) * (j + 1)
    rw [hj, mul_succ, Nat.add_assoc]
  · show st.p + (w.b - w.a) ≤ w.b
    omega
  · intro k hk
    obtain rfl : k = st.nw := succ_injective hk
    have h1 : (recordStart (w.b - w.a) st).bounds st.nw = st.p := by
      rw [recordStart_bounds, update_of_ne (by omega), Starts.bounds_nw]
    have h2 : (recordStart (w.b - w.a) st).bounds (st.nw + 1) = st.p + (w.b - w.a) := by
      rw [recordStart_bounds, update_self]
    rw [h1, h2, Nat.add_sub_cancel_left, hword]

/-- The copies that fit before the end of the window are recorded, and no more. -/
theorem record_ok (hw : Scanned s n st.p w)
    (h : Recorded s st.p w st) :
    ∃ st', whileLoop (fun st' => decide (st'.p ≤ w.a))
        (fun st' => some (recordStart (w.b - w.a) st')) (n + 1) st = some st' ∧
      Recorded s st.p w st' ∧ decide (st'.p ≤ w.a) = false := by
  have hb := hw.b_le
  have hlt := hw.lt_b
  refine whileLoop_spec (fun st' => w.b - st'.p) (fun st' h' hc => ?_) h (by omega)
  have hc := of_decide_eq_true hc
  refine ⟨_, rfl, recordStart_ok hw h' hc, ?_⟩
  show w.b - (st'.p + (w.b - w.a)) < w.b - st'.p
  omega

theorem factorWord_ok (h : Found s n st) (hp : st.p < n) :
    ∃ st', factorWord s n st = some st' ∧ Found s n st' ∧ n - st'.p < n - st.p := by
  obtain ⟨w, hscan, hw, hcont⟩ := scan_ok (s := s) hp
  have hle := hw.le_a
  have hlt := hw.lt_b
  have hb := hw.b_le
  have hstart : Recorded s st.p w st :=
    ⟨⟨0, rfl⟩, by omega, h.cut, h.next _ (by omega) (by omega)⟩
  obtain ⟨st', hrec, hst', hexit⟩ := record_ok hw hstart
  have hout : w.a < st'.p := not_le.mp (of_decide_eq_false hexit)
  have hle' := hst'.le
  refine ⟨st', by rw [factorWord, hscan]; exact hrec, ⟨by omega, hst'.cut, ?_⟩, by omega⟩
  intro l hl hln k hk
  obtain ⟨j, hj⟩ := hst'.copies
  refine le_trans ?_ (hst'.last k hk)
  have hend : w.b - st.p < (w.b - w.a) * j + l →
      shift s st.p (w.b - st.p) < shift s st.p (w.b - st.p - (w.b - w.a)) := by
    intro hlong
    have h1 : st.p + (w.b - st.p) = w.b := by omega
    have h2 : st.p + (w.b - st.p - (w.b - w.a)) = w.a := by omega
    rw [shift, shift, h1, h2]
    rcases hw.closed hcont with hbn | hbn
    · omega
    · exact hbn
  have hcycle : toLex (cycle (shift (shift s st.p) ((w.b - w.a) * j)) l) ≤
      toLex (cycle (shift s st.p) (w.b - w.a)) :=
    hw.lyndon.cycle_le hw.rep (by omega) (by omega) (by omega) hl hend
  rwa [shift_shift, ← hj] at hcycle

theorem scans_ok (s : Nat → UInt8) (n : Nat) :
    ∃ st, whileLoop (fun st => decide (st.p < n)) (factorWord s n) (n + 1)
        { starts := fun _ => 0, nw := 0, p := 0 } = some st ∧
      Found s n st ∧ update st.starts st.nw n = st.bounds ∧ st.bounds st.nw = n ∧
      (0 < n → 0 < st.nw) := by
  have hstart : Found s n { starts := fun _ => 0, nw := 0, p := 0 } :=
    ⟨Nat.zero_le n, .nil rfl, fun l _ _ k hk => absurd hk (succ_ne_zero k)⟩
  obtain ⟨st, hscan, hst, hexit⟩ := whileLoop_spec (fun st : Starts => n - st.p)
    (fun st h hc => factorWord_ok h (of_decide_eq_true hc)) hstart (lt_succ_self n)
  have hp : st.p = n := le_antisymm hst.le (not_lt.mp (of_decide_eq_false hexit))
  have hlast : st.bounds st.nw = n := by
    rw [Starts.bounds_nw, hp]
  refine ⟨st, hscan, hst, by rw [Starts.bounds, hp], hlast, fun hn => ?_⟩
  refine Nat.pos_of_ne_zero fun h0 => ?_
  have := hst.cut.zero
  rw [← h0, hlast] at this
  omega

/-! ## The arrays -/

variable {f : Words}

/-- The word under the position is found by moving on from the word of the one before. -/
theorem fillWord_ok (h : Cut s bd nw) (hn : bd nw = n) (hi : i < n)
    (hw : f.w < nw) (hle : bd f.w ≤ i) :
    ∃ k < nw, bd k ≤ i ∧ i < bd (k + 1) ∧ fillWord bd n i f =
      some { ws := update f.ws i (bd k)
             ln := update f.ln i (bd (k + 1) - bd k)
             w := k } := by
  have hnw : nw ≤ n := hn ▸ h.le_self le_rfl
  have hmove : ∃ k, whileLoop (fun k => decide (bd (k + 1) ≤ i)) (fun k => some (k + 1)) (n + 1)
        f.w = some k ∧ (k < nw ∧ bd k ≤ i) ∧ decide (bd (k + 1) ≤ i) = false := by
    refine whileLoop_spec (fun k => nw - k) (fun k hk hc => ?_) ⟨hw, hle⟩ (by omega)
    have hc := of_decide_eq_true hc
    have hlt := hk.1
    have hne : k + 1 ≠ nw := by
      rintro rfl
      omega
    exact ⟨k + 1, rfl, ⟨by omega, hc⟩, by omega⟩
  obtain ⟨k, hk, ⟨hkw, hki⟩, hexit⟩ := hmove
  refine ⟨k, hkw, hki, not_le.mp (of_decide_eq_false hexit), ?_⟩
  rw [fillWord, hk]
  rfl

/-- The arrays before position `i` give each position its word, and `w` is that of the last. -/
structure Filled (bd : Nat → Nat) (nw i : Nat) (f : Words) : Prop where
  w_lt : f.w < nw
  le : bd f.w ≤ i
  fill : ∀ p < i, ∃ k < nw, bd k ≤ p ∧ p < bd (k + 1) ∧ f.ws p = bd k ∧ f.ln p = bd (k + 1) - bd k

theorem fillWord_filled (h : Cut s bd nw) (hn : bd nw = n) (hi : i < n)
    (hf : Filled bd nw i f) : ∃ f', fillWord bd n i f = some f' ∧ Filled bd nw (i + 1) f' := by
  obtain ⟨k, hk, hki, hki', hnext⟩ := fillWord_ok h hn hi hf.w_lt hf.le
  refine ⟨_, hnext, hk, le_succ_of_le hki, fun p hp => ?_⟩
  rcases Nat.lt_succ_iff_lt_or_eq.mp hp with hp | rfl
  · obtain ⟨j, hj, hjp, hjp', hws, hln⟩ := hf.fill p hp
    refine ⟨j, hj, hjp, hjp', ?_, ?_⟩
    · simpa [update_of_ne hp.ne] using hws
    · simpa [update_of_ne hp.ne] using hln
  · exact ⟨k, hk, hki, hki', by simp, by simp⟩

theorem factorize_ok (s : Nat → UInt8) (hn : 0 < n) :
    ∃ f, factorize s n = some f ∧ Factored s n f.ws f.ln := by
  obtain ⟨st, hscan, hst, hbounds, hlast, hnw⟩ := scans_ok s n
  have hfill : ∃ f, forUp 0 n (fun i f => f.bind (fillWord st.bounds n i))
      (some { ws := fun _ => 0, ln := fun _ => 0, w := 0 }) = some f ∧
        Filled st.bounds st.nw n f := by
    refine forUp_inv (P := fun i o => ∃ f, o = some f ∧ Filled st.bounds st.nw i f)
      (Nat.zero_le n) ?_ ?_
    · exact ⟨_, rfl, hnw hn, hst.cut.zero.le, fun p hp => absurd hp (Nat.not_lt_zero p)⟩
    · rintro i o - hi ⟨f, rfl, hf⟩
      exact fillWord_filled hst.cut hlast hi hf
  obtain ⟨f, hf, hfilled⟩ := hfill
  refine ⟨f, ?_, hst.cut.factored hlast hfilled.fill⟩
  rw [factorize, hscan, ← hf]
  simp only [Option.bind_some, hbounds]

end Bwt89
