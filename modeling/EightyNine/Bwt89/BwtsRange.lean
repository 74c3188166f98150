import EightyNine.Bwt89.Bijection
import EightyNine.Bwt89.BwtRange

/-!
# The bijective transform stays in range

In `int`, the functions of the transform do what they do on naturals: each stays in
range under the invariants of the proofs about those.  `bbwt` needs `4 * n` to be an
`int`, for the offsets into its block, and then the sums of two word lengths fit too;
`ibbwt` needs nothing.
-/

namespace Bwt89.Ints

open Library Function Nat

variable {s : Nat → UInt8} {n nw : Nat} {ws ln bd : Nat → Nat}

/-! ## Naturals in `int` -/

theorem addNat_ok {a b : Nat} (h : a + b ≤ 2147483647) :
    (int.add a b >>= fun v => toNatural v) = .ok (a + b) := by
  rw [← gives_eq]
  simp only [gives_bind, IntRange.gives_add, int_has, gives_toNatural]
  omega

theorem succNat_ok {a : Nat} (h : a < 2147483647) :
    (int.add a 1 >>= fun v => toNatural v) = .ok (a + 1) :=
  addNat_ok h

theorem predNat_ok {a : Nat} (h0 : 0 < a) (h : a ≤ 2147483647) :
    (int.sub a 1 >>= fun v => toNatural v) = .ok (a - 1) := by
  rw [← gives_eq]
  simp only [gives_bind, IntRange.gives_sub, int_has, gives_toNatural]
  omega

section Conjugates

/-! ## The order of the conjugates -/

theorem conjByte_eq (hf : Factored s n ws ln) (hmax : 4 * n ≤ 2147483647) {p d : Nat}
    (hp : p < n) (hd : d ≤ 2 * n) : conjByte s ws ln p d = .ok (Bwt89.conjByte s ws ln p d) := by
  have hle := hf.start_le p hp
  have hend := hf.end_le p hp
  have hpos := hf.pos hp
  have hsum : (p : Int) - ws p + d = ((p - ws p + d : Nat) : Int) := by omega
  have hoff : (((p - ws p + d : Nat) : Int)).tmod (ln p) = ((p - ws p + d) % ln p : Nat) := rfl
  have hlt := mod_lt (p - ws p + d) hpos
  rw [← gives_eq]
  simp only [conjByte, gives_bind, IntRange.gives_sub, IntRange.gives_add, IntRange.gives_rem,
    int_has, gives_toNatural, gives_pure, hsum, hoff]
  refine ⟨by omega, by omega, by omega, by omega, by omega, by omega, ?_⟩
  rfl

theorem diffAt_eq (hf : Factored s n ws ln) (hmax : 4 * n ≤ 2147483647) {p q d : Nat}
    (hp : p < n) (hq : q < n) (hd : d ≤ 2 * n) :
    diffAt s ws ln p q d = .ok (Bwt89.diffAt s ws ln p q d) := by
  rw [diffAt, conjByte_eq hf hmax hp hd, conjByte_eq hf hmax hq hd]
  rfl

theorem conjCmp_eq (hf : Factored s n ws ln) (hmax : 4 * n ≤ 2147483647) {p q : Nat}
    (hp : p < n) (hq : q < n) : conjCmp s ws ln p q = .ok (Bwt89.conjCmp s ws ln p q) := by
  have h1 := hf.end_le p hp
  have h2 := hf.end_le q hq
  have hgo : ∀ k d, d + k ≤ 2 * n → int.forBreakGo
      (fun d _ => do
        let r ← diffAt s ws ln p q d
        pure (if r ≠ 0 then .done r else .yield 0)) d k 0 = .ok (conjCmpFrom s ws ln p q d k) := by
    intro k
    induction k with
    | zero => exact fun d _ => rfl
    | succ k ih =>
      intro d hd
      have hdiff := diffAt_eq hf hmax hp hq (show d ≤ 2 * n by omega)
      rw [conjCmpFrom]
      split
      next hne =>
        refine IntRange.forBreakGo_done ?_
        rw [hdiff, ok_bind, if_pos hne]
        rfl
      next hne =>
        rw [← ih (d + 1) (by omega)]
        refine IntRange.forBreakGo_yield ?_ (int_has.mpr (by omega))
        rw [hdiff, ok_bind, if_neg hne]
        rfl
  have hlim : int.add (ln p) (ln q) = .ok ((ln p : Int) + ln q) :=
    IntRange.eval_ok (int_has.mpr (by omega))
  rw [conjCmp, hlim, ok_bind]
  exact hgo _ 0 (by omega)

end Conjugates

/-! ## Duval's scan -/

theorem duvalStep_eq {p : Nat} {w : Window} (hmax : n ≤ 2147483647) (hw : Scanned s n p w) :
    duvalStep s n p w = .ok (Bwt89.duvalStep s n p w) := by
  have hlt := hw.lt_b
  rw [← gives_eq]
  unfold duvalStep Bwt89.duvalStep
  split
  next => exact gives_ok.mpr rfl
  next hb =>
    split
    · exact gives_ok.mpr rfl
    · split
      · simp only [gives_bind, IntRange.gives_add, int_has, gives_toNatural, gives_pure]
        exact ⟨by omega, by omega, rfl⟩
      · simp only [gives_bind, IntRange.gives_add, int_has, gives_toNatural, gives_pure]
        exact ⟨by omega, by omega, by omega, by omega, rfl⟩

theorem recordStart_eq {len : Nat} {st : Starts} (hnw : st.nw < 2147483647)
    (hp : st.p + len ≤ 2147483647) :
    recordStart len st = .ok (Bwt89.recordStart len st) := by
  rw [← gives_eq]
  simp only [recordStart, gives_bind, IntRange.gives_add, int_has, gives_toNatural, gives_pure]
  exact ⟨by omega, by omega, by omega, by omega, rfl⟩

theorem factorWord_eq (hmax : n ≤ 2147483647) {st st' : Starts} (h : Found s n st) (hp : st.p < n)
    (hst : Bwt89.factorWord s n st = some st') : factorWord s n st = .ok st' := by
  obtain ⟨w, hscan, hw, -⟩ := scan_ok (s := s) hp
  have hle := hw.le_a
  have hlt := hw.lt_b
  have hb := hw.b_le
  rw [Bwt89.factorWord, hscan, Option.bind_some] at hst
  have hscan' : whileChecked (·.cont) (duvalStep s n st.p) (n + 1)
      { a := st.p, b := st.p + 1, cont := true } = .ok w ∧ Scanned s n st.p w := by
    refine whileChecked_eq (scanned_start hp) (fun v v' hv _ hvv' => ?_) hscan
    obtain rfl := Option.some.inj hvv'
    exact ⟨duvalStep_eq hmax hv, duvalStep_ok hv⟩
  have hstart : Recorded s st.p w st :=
    ⟨⟨0, rfl⟩, by omega, h.cut, h.next _ (by omega) (by omega)⟩
  have hrec : whileChecked (fun st' => decide (st'.p ≤ w.a)) (recordStart (w.b - w.a)) (n + 1) st =
      .ok st' ∧ Recorded s st.p w st' := by
    refine whileChecked_eq hstart (fun v v' hv hc hvv' => ?_) hst
    obtain rfl := Option.some.inj hvv'
    have hc := of_decide_eq_true hc
    have hnw := hv.cut.le_self le_rfl
    rw [Starts.bounds_nw] at hnw
    exact ⟨recordStart_eq (by omega) (by omega), recordStart_ok hw hv hc⟩
  have hfirst : int.add st.p 1 = .ok ((st.p : Int) + 1) :=
    IntRange.eval_ok (int_has.mpr (by omega))
  have hlen : int.sub w.b w.a = .ok ((w.b : Int) - w.a) :=
    IntRange.eval_ok (int_has.mpr (by omega))
  have hfirst' : toNatural ((st.p : Int) + 1) = .ok (st.p + 1) := if_pos (by omega)
  have hlen' : toNatural ((w.b : Int) - w.a) = .ok (w.b - w.a) := by
    rw [← gives_eq, gives_toNatural]
    omega
  rw [factorWord, hfirst, ok_bind, hfirst', ok_bind, hscan'.1, ok_bind, hlen, ok_bind, hlen',
    ok_bind, hrec.1]

theorem fillWord_eq (hmax : n ≤ 2147483647) (h : Cut s bd nw) (hn : bd nw = n) {i : Nat}
    (hi : i < n) {f f' : Words} (hf : Filled bd nw i f) (hff' : Bwt89.fillWord bd n i f = some f') :
    fillWord bd n i f = .ok f' := by
  have hnw : nw ≤ n := hn ▸ h.le_self le_rfl
  obtain ⟨k, hk, rfl⟩ := Option.map_eq_some_iff.mp hff'
  have hmove : whileChecked (fun w => decide (bd (w + 1) ≤ i))
      (fun w => do
        let w ← int.add w 1
        toNatural w) (n + 1) f.w = .ok k ∧ k < nw := by
    refine whileChecked_eq (I := fun w => w < nw) hf.w_lt (fun v v' hv hc hvv' => ?_) hk
    obtain rfl := Option.some.inj hvv'
    have hc := of_decide_eq_true hc
    have hne : v + 1 ≠ nw := by
      rintro rfl
      omega
    exact ⟨succNat_ok (by omega), by omega⟩
  have hmono := h.lt k hmove.2
  have hend := h.mono (show k + 1 ≤ nw by omega) le_rfl
  have hgives : Gives (fillWord bd n i f) (· = { ws := update f.ws i (bd k)
                                                 ln := update f.ln i (bd (k + 1) - bd k)
                                                 w := k }) := by
    have hnext : ((k : Int) + 1).toNat = k + 1 := by omega
    have hlen : ((bd (k + 1) : Int) - bd k).toNat = bd (k + 1) - bd k := by omega
    rw [fillWord, hmove.1, ok_bind]
    simp only [gives_bind, IntRange.gives_add, IntRange.gives_sub, int_has, gives_toNatural,
      gives_pure, hnext, hlen]
    exact ⟨by omega, by omega, by omega, by omega, trivial⟩
  exact gives_eq.mp hgives

theorem factorize_eq (hmax : n ≤ 2147483647) (hn : 0 < n) {f : Words}
    (hf : Bwt89.factorize s n = some f) : factorize s n = .ok f := by
  obtain ⟨st, hscan, hst, hbounds, hlast, hnw⟩ := scans_ok s n
  rw [Bwt89.factorize, hscan, Option.bind_some, hbounds] at hf
  have hscan' : whileChecked (fun st => decide (st.p < n)) (factorWord s n) (n + 1)
      { starts := fun _ => 0, nw := 0, p := 0 } = .ok st ∧ Found s n st := by
    refine whileChecked_eq ?_ (fun v v' hv hc hvv' => ?_) hscan
    · exact ⟨zero_le n, .nil rfl, fun l _ _ k hk => absurd hk (succ_ne_zero k)⟩
    · have hc := of_decide_eq_true hc
      obtain ⟨u, hu, hfound, -⟩ := factorWord_ok hv hc
      obtain rfl : u = v' := Option.some.inj (hu.symm.trans hvv')
      exact ⟨factorWord_eq hmax hv hc hvv', hfound⟩
  rw [factorize, hscan'.1, ok_bind, hbounds]
  refine IntRange.forUp_eq_of_some (I := Filled st.bounds st.nw) (by decide)
    (show (n : Int) ≤ 2147483647 by omega) ?_ (fun i g g' _ hi hg hgg' => ?_) hf
  · exact ⟨hnw hn, hst.cut.zero.le, fun p hp => absurd hp (not_lt_zero p)⟩
  · obtain ⟨u, hu, hfilled⟩ := fillWord_filled hst.cut hlast hi hg
    obtain rfl : u = g' := Option.some.inj (hu.symm.trans hgg')
    exact ⟨fillWord_eq hmax hst.cut hlast hi hg hgg', hfilled⟩

/-! ## The merge sort -/

section Sorting

variable {lo mid hi : Nat} {ord : Nat → Nat}

theorem mergeOne_eq (hf : Factored s n ws ln) (hmax : 4 * n ≤ 2147483647) (hn : hi ≤ n)
    (hmid : mid ≤ hi) (hl : SortedRun s ws ln lo mid ord) (hr : SortedRun s ws ln mid hi ord)
    {k : Nat} {m : Merge} (h : Merged s ws ln lo mid hi ord k m) :
    mergeOne s ws ln ord mid hi k m = .ok (Bwt89.mergeOne s ws ln ord mid hi k m) := by
  have h1 := h.i_mid
  have h2 := h.j_hi
  have htake : takeRight s ws ln ord m.i m.j mid hi =
      .ok (Bwt89.takeRight s ws ln ord m.i m.j mid hi) := by
    unfold takeRight Bwt89.takeRight
    split
    next => rfl
    next hj =>
      split
      next => rfl
      next hi' =>
        have hil := hl.lt m.i h.lo_i (by omega)
        have hjr := hr.lt m.j h.mid_j (by omega)
        rw [conjCmp_eq hf hmax (by omega) (by omega)]
        rfl
  rw [mergeOne, htake, ok_bind, ← gives_eq]
  unfold Bwt89.mergeOne
  split
  · simp only [gives_bind, IntRange.gives_add, int_has, gives_toNatural, gives_pure]
    exact ⟨by omega, by omega, rfl⟩
  · simp only [gives_bind, IntRange.gives_add, int_has, gives_toNatural, gives_pure]
    exact ⟨by omega, by omega, rfl⟩

theorem mergeRun_eq (hf : Factored s n ws ln) (hmax : 4 * n ≤ 2147483647) (hn : hi ≤ n)
    (hlo : lo ≤ mid) (hmid : mid ≤ hi) {r : Runs} (hl : SortedRun s ws ln lo mid r.ord)
    (hr : SortedRun s ws ln mid hi r.ord) :
    mergeRun s ws ln lo mid hi r = .ok (Bwt89.mergeRun s ws ln lo mid hi r) := by
  have hhi : (hi : Int) ≤ int.hi := show (hi : Int) ≤ 2147483647 by omega
  have hcopy : int.forUp lo hi (fun t tmp => pure (copyToTmp r.ord t t tmp)) r.tmp =
      .ok (Library.forUp lo hi (fun t => copyToTmp r.ord t t) r.tmp) :=
    IntRange.forUp_eq (I := fun _ _ => True) (by decide) hhi (hlo.trans hmid) trivial
      fun _ _ _ _ _ => ⟨rfl, trivial⟩
  rw [mergeRun, hcopy, ok_bind, Bwt89.mergeRun]
  generalize Library.forUp lo hi (fun t => copyToTmp r.ord t t) r.tmp = tmp
  have hmerge : int.forUp lo hi (mergeOne s ws ln r.ord mid hi) { i := lo, j := mid, tmp := tmp } =
      .ok (Library.forUp lo hi (Bwt89.mergeOne s ws ln r.ord mid hi)
        { i := lo, j := mid, tmp := tmp }) :=
    IntRange.forUp_eq (by decide) hhi (hlo.trans hmid) (merged_start hlo hmid tmp)
      fun k m _ hk h =>
        ⟨mergeOne_eq hf hmax hn hmid hl hr h, mergeOne_ok hf hn hlo hmid hl hr hk h⟩
  rw [hmerge, ok_bind]
  generalize Library.forUp lo hi (Bwt89.mergeOne s ws ln r.ord mid hi)
    { i := lo, j := mid, tmp := tmp } = m
  have hback : int.forUp lo hi (fun t ord => pure (copyFromTmp m.tmp t ord)) r.ord =
      .ok (Library.forUp lo hi (copyFromTmp m.tmp) r.ord) :=
    IntRange.forUp_eq (I := fun _ _ => True) (by decide) hhi (hlo.trans hmid) trivial
      fun _ _ _ _ _ => ⟨rfl, trivial⟩
  rw [hback]
  rfl

theorem sortRun_eq (hf : Factored s n ws ln) (hmax : 4 * n ≤ 2147483647) (lo hi : Nat) (r : Runs) :
    ∀ fuel, hi - lo < fuel → lo ≤ hi → hi ≤ n → (∀ i, lo ≤ i → i < hi → r.ord i = i) →
      sortRun s ws ln fuel lo hi r = .ok (Bwt89.sortRun s ws ln lo hi r) := by
  induction lo, hi, r using Bwt89.sortRun.induct s ws ln with
  | case1 lo hi r hshort =>
    intro fuel hfuel hle hn hid
    obtain ⟨fuel, rfl⟩ := Nat.exists_eq_add_of_lt (Nat.zero_lt_of_lt hfuel)
    have hlen : int.sub hi lo = .ok ((hi : Int) - lo) :=
      IntRange.eval_ok (int_has.mpr (by omega))
    rw [Nat.zero_add, sortRun, hlen, ok_bind, if_pos (by omega), Bwt89.sortRun, if_pos hshort]
    rfl
  | case2 lo hi r hlong mid ihl _ ihr =>
    intro fuel hfuel hle hn hid
    have hlo : lo ≤ mid := le_add_right _ _
    have hmid : mid ≤ hi := by
      show lo + (hi - lo) / 2 ≤ hi
      omega
    have hleft : mid - lo < hi - lo := by
      show lo + (hi - lo) / 2 - lo < hi - lo
      omega
    have hright : hi - mid < hi - lo := by
      show hi - (lo + (hi - lo) / 2) < hi - lo
      omega
    obtain ⟨fuel, rfl⟩ := Nat.exists_eq_add_of_lt (Nat.zero_lt_of_lt hfuel)
    rw [Nat.zero_add] at hfuel ⊢
    obtain ⟨hl, hlout⟩ := sortRun_ok hf lo mid r hlo (hmid.trans hn) fun i h h' =>
      hid i h (by omega)
    have hid' : ∀ i, mid ≤ i → i < hi → (Bwt89.sortRun s ws ln lo mid r).ord i = i :=
      fun i h h' => by rw [hlout i (.inr h), hid i (by omega) h']
    obtain ⟨hr, hrout⟩ := sortRun_ok hf mid hi _ hmid hn hid'
    have hl' := hl.congr fun i _ h' => hrout i (.inl h')
    have hlen : int.sub hi lo = .ok ((hi : Int) - lo) :=
      IntRange.eval_ok (int_has.mpr (by omega))
    have hhalf : int.div ((hi : Int) - lo) 2 = .ok (((hi - lo) / 2 : Nat) : Int) := by
      have hcast : (hi : Int) - lo = ((hi - lo : Nat) : Int) := by omega
      rw [hcast, ← gives_eq, IntRange.gives_div, int_has]
      have hdiv : ((hi - lo : Nat) : Int).tdiv 2 = (((hi - lo) / 2 : Nat) : Int) := rfl
      rw [hdiv]
      exact ⟨by decide, by omega, rfl⟩
    have hmid' : (int.add lo (((hi - lo) / 2 : Nat) : Int) >>= fun v => toNatural v) = .ok mid :=
      addNat_ok (by omega)
    have hplain : Bwt89.sortRun s ws ln lo hi r = Bwt89.mergeRun s ws ln lo mid hi
        (Bwt89.sortRun s ws ln mid hi (Bwt89.sortRun s ws ln lo mid r)) := by
      conv_lhs => rw [Bwt89.sortRun, if_neg hlong]
    rw [sortRun, hlen, ok_bind, if_neg (by omega), hhalf, ok_bind, ← bind_assoc, hmid', ok_bind,
      ihl fuel (by omega) hlo (hmid.trans hn) (fun i h h' => hid i h (by omega)), ok_bind,
      ihr fuel (by omega) hmid hn hid', ok_bind, mergeRun_eq hf hmax hn hlo hmid hl' hr, hplain]

theorem emitConjugate_eq (hf : Factored s n ws ln) (hmax : 4 * n ≤ 2147483647) {i : Nat}
    (hi : ord i < n) (out : Nat → UInt8) :
    emitConjugate s ws ln ord i out = .ok (Bwt89.emitConjugate s ws ln ord i out) := by
  have hend := hf.end_le (ord i) hi
  have hpos := hf.pos hi
  have hlast : (int.sub (ln (ord i)) 1 >>= fun v => toNatural v) = .ok (ln (ord i) - 1) :=
    predNat_ok hpos (by omega)
  rw [emitConjugate, ← bind_assoc, hlast, ok_bind, conjByte_eq hf hmax hi (by omega)]
  rfl

end Sorting

/-! ## The LF cycles -/

theorem countBytes_eq (b : Nat → UInt8) (hmax : n ≤ 2147483647) :
    countBytes b n = .ok (Bwt89.countBytes b n) := by
  refine IntRange.forUp_eq (I := fun i (freq : Nat → Nat) => ∀ c, freq c ≤ i) (by decide)
    (show (n : Int) ≤ 2147483647 by omega) (zero_le n) (fun c => le_rfl)
    fun i freq _ hi h => ⟨?_, fun c => ?_⟩
  · have hc := h (b i).toNat
    rw [← bind_assoc, succNat_ok (by omega)]
    rfl
  · have hc := h (b i).toNat
    rcases eq_or_ne c (b i).toNat with rfl | hne
    · rw [update_self]
      omega
    · rw [update_of_ne hne]
      exact (h c).trans (le_succ i)

theorem buildRanks_eq (b : Nat → UInt8) (hmax : n ≤ 2147483647) :
    buildRanks b n = .ok (Bwt89.buildRanks b n) := by
  have hsums : int.forUp 0 alphabet (prefixNext (Bwt89.countBytes b n))
      { less := fun _ => 0, acc := 0 } =
      .ok (Library.forUp 0 alphabet (Bwt89.prefixNext (Bwt89.countBytes b n))
        { less := fun _ => 0, acc := 0 }) := by
    refine IntRange.forUp_eq (by decide) (by decide) (zero_le alphabet) (summed_start b n)
      fun k t _ _ h => ⟨?_, prefixNext_summed h⟩
    have hnext : t.acc + Bwt89.countBytes b n k = _ := (prefixNext_summed h).acc
    have hle := count_le (p := fun j => (b j).toNat < k + 1) (n := n)
    rw [prefixNext, ← bind_assoc, addNat_ok (by omega)]
    rfl
  rw [buildRanks, countBytes_eq b hmax, ok_bind, hsums, ok_bind]
  refine IntRange.forUp_eq (I := fun k (r : Ranks) => NextRanks b n k r.less) (by decide)
    (show (n : Int) ≤ 2147483647 by omega) (zero_le n) (fun c hc => ?_)
    fun k r _ hk h => ⟨?_, rankAssign_next h⟩
  · rw [count_zero, add_zero]
    exact buildSums_eq b n c hc
  · -- the next rank is at most the number of the bytes up to this one
    have hnext := rankAssign_next h (b k).toNat (UInt8.toNat_lt (b k))
    have hself : (Bwt89.rankAssign b k r).less (b k).toNat = r.less (b k).toNat + 1 :=
      update_self _ _ _
    have hmono := count_monotone (fun j => (b j).toNat = (b k).toNat) (show k + 1 ≤ n by omega)
    have hsum := count_lt_succ (fun j => (b j).toNat) n (b k).toNat
    have hle := count_le (p := fun j => (b j).toNat < (b k).toNat + 1) (n := n)
    have hfit : r.less (b k).toNat + 1 ≤ 2147483647 := by omega
    rw [rankAssign, ← bind_assoc, succNat_ok hfit]
    rfl

theorem walkOne_eq {b : Nat → UInt8} {w w' : Walk} (hmax : w.wi ≤ 2147483647)
    (h : Bwt89.walkOne b w = some w') : walkOne b w = .ok w' ∧ w'.wi ≤ w.wi := by
  unfold Bwt89.walkOne at h
  split at h
  next => cases h
  next hpos =>
    have hk : (int.sub w.wi 1 >>= fun v => toNatural v) = .ok (w.wi - 1) :=
      predNat_ok (by omega) hmax
    rw [walkOne, ← bind_assoc, hk, ok_bind]
    simp only at h ⊢
    split at h
    next hneg =>
      obtain rfl := Option.some.inj h
      rw [if_pos hneg]
      exact ⟨rfl, sub_le _ _⟩
    next hneg =>
      rw [if_neg hneg]
      split at h
      next hdone =>
        obtain rfl := Option.some.inj h
        rw [if_pos hdone]
        exact ⟨rfl, sub_le _ _⟩
      next hdone =>
        obtain rfl := Option.some.inj h
        rw [if_neg hdone]
        exact ⟨rfl, sub_le _ _⟩

theorem runCycles_eq {b : Nat → UInt8} (hmax : n ≤ 2147483647) {w w' : Walk} (hwi : w.wi ≤ n)
    (h : Bwt89.runCycles b n w = some w') : runCycles b n w = .ok w' := by
  refine IntRange.forUp_eq_of_some (I := fun _ (w : Walk) => w.wi ≤ n) (by decide)
    (show (n : Int) ≤ 2147483647 by omega) hwi (fun i v v' _ hi hv hvv' => ?_) h
  split at hvv'
  next hrank =>
    rw [if_pos hrank]
    exact whileChecked_eq (I := fun u : Walk => u.wi ≤ n) hv
      (fun u u' hu _ huu' => ⟨(walkOne_eq (by omega) huu').1,
        ((walkOne_eq (by omega) huu').2).trans hu⟩) hvv'
  next hrank =>
    obtain rfl := Option.some.inj hvv'
    rw [if_neg hrank]
    exact ⟨rfl, hv⟩

/-! ## The public calls -/

variable {alloc : Nat → Bool} {text b out : List UInt8}

theorem blockOffsets_ok (hmax : 4 * n ≤ 2147483647) : blockOffsets n = .ok () := by
  rw [← gives_eq]
  simp only [blockOffsets, gives_bind, IntRange.gives_mul, int_has, gives_pure, and_true]
  omega

/-- With room for the offsets, or no block, `bbwt` does what it does on naturals. -/
theorem bbwt_gives (hn : text.length ≤ maxN)
    (h : text.length = 0 ∨ alloc 0 = false ∨ 4 * text.length ≤ 2147483647) :
    ∃ r, bbwt alloc text out = .ok r ∧ Bwt89.bbwt alloc text out = some r := by
  rcases Nat.eq_zero_or_pos text.length with h0 | hpos
  · refine ⟨(.ok, out), ?_, ?_⟩
    · rw [bbwt, if_neg (not_lt.mpr hn), if_pos h0]
      rfl
    · simp only [Bwt89.bbwt, if_neg (not_lt.mpr hn), if_pos h0]
  have hleft : ∀ x, bbwt alloc text out = x ↔ (if alloc 0 = false then pure (.nomem, out)
      else do
        blockOffsets text.length
        if alloc 1 = false then pure (.nomem, out)
        else do
          let f ← factorize (bytesOf text) text.length
          let ord ← int.forUp 0 text.length (fun i ord => pure (update ord i i))
            fun _ => 0
          let r ← sortPositions (bytesOf text) f.ws f.ln text.length
            { ord := ord, tmp := fun _ => 0 }
          let b ← int.forUp 0 text.length (emitConjugate (bytesOf text) f.ws f.ln r.ord)
            (bytesOf out)
          pure (.ok, readBytes text.length b)) = x := by
    intro x
    rw [bbwt, if_neg (not_lt.mpr hn), if_neg hpos.ne', natLen_ok hn, ok_bind, Int.toNat_natCast]
  simp only [hleft, Bwt89.bbwt, if_neg (not_lt.mpr hn), if_neg hpos.ne']
  cases halloc : alloc 0 with
  | false => exact ⟨_, rfl, rfl⟩
  | true =>
    have hmax : 4 * text.length ≤ 2147483647 := by
      rcases h with h | h | h
      · omega
      · rw [halloc] at h
        cases h
      · exact h
    simp only [reduceCtorEq, if_false, Bool.not_true, Bool.false_eq_true, blockOffsets_ok hmax,
      ok_bind]
    cases alloc 1 with
    | false => exact ⟨_, rfl, rfl⟩
    | true =>
      have hle : (text.length : Int) ≤ int.hi :=
        show (text.length : Int) ≤ 2147483647 by omega
      obtain ⟨f, hf, hfac⟩ := factorize_ok (bytesOf text) hpos
      have hord : int.forUp 0 text.length (fun i ord => pure (update ord i i))
          (fun _ => 0) = .ok (Library.forUp 0 text.length
            (fun i ord => update ord i i) fun _ => 0) :=
        IntRange.forUp_eq (I := fun _ _ => True) (by decide) hle (zero_le _) trivial
          fun _ _ _ _ _ => ⟨rfl, trivial⟩
      have hid := identity_ok text.length fun _ => 0
      generalize Library.forUp 0 text.length (fun i ord => update ord i i)
        (fun _ => 0) = ord at hord hid ⊢
      have hsort : sortPositions (bytesOf text) f.ws f.ln text.length
          { ord := ord, tmp := fun _ => 0 } =
          .ok (Bwt89.sortPositions (bytesOf text) f.ws f.ln text.length
            { ord := ord, tmp := fun _ => 0 }) :=
        sortRun_eq hfac hmax 0 text.length _ _ (by omega) (zero_le _) le_rfl
          fun i _ hi => hid i hi
      have hsorted : Enumerates (key (bytesOf text) f.ws f.ln) text.length
          (Bwt89.sortPositions (bytesOf text) f.ws f.ln text.length
            { ord := ord, tmp := fun _ => 0 }).ord :=
        sortPositions_ok hfac hid
      have hemit : int.forUp 0 text.length (emitConjugate (bytesOf text) f.ws f.ln
          (Bwt89.sortPositions (bytesOf text) f.ws f.ln text.length
            { ord := ord, tmp := fun _ => 0 }).ord) (bytesOf out) =
          .ok (Library.forUp 0 text.length (Bwt89.emitConjugate (bytesOf text) f.ws f.ln
            (Bwt89.sortPositions (bytesOf text) f.ws f.ln text.length
              { ord := ord, tmp := fun _ => 0 }).ord) (bytesOf out)) :=
        IntRange.forUp_eq (I := fun _ _ => True) (by decide) hle (zero_le _) trivial
          fun i a _ hi _ => ⟨emitConjugate_eq hfac hmax (hsorted.lt i hi) a, trivial⟩
      have hfact := factorize_eq (show text.length ≤ 2147483647 by omega) hpos hf
      simp only [reduceCtorEq, if_false, Bool.not_true, Bool.false_eq_true, hfact, ok_bind, hord,
        hsort, hemit, hf]
      exact ⟨_, rfl, rfl⟩

theorem bbwt_overflows (hn : text.length ≤ maxN) (h0 : text.length ≠ 0) (halloc : alloc 0 = true)
    (hmax : 2147483647 < 4 * text.length) : bbwt alloc text out = .error .overflow := by
  have hoffsets : blockOffsets text.length = .error .overflow := by
    refine IntRange.eval_bind_overflows (IntRange.eval_bind_overflows ?_)
    have hmul : int.mul 4 text.length = .error .overflow :=
      IntRange.eval_overflows (show (2147483647 : Int) < 4 * text.length by omega)
    rw [hmul]
    rfl
  unfold bbwt
  rw [if_neg (by omega), if_neg h0, natLen_ok hn, ok_bind, halloc, if_neg (by decide), hoffsets]
  rfl

/-- `ibbwt` does what it does on naturals. -/
theorem ibbwt_gives (hn : b.length ≤ maxN) :
    ∃ r, ibbwt alloc b out = .ok r ∧ Bwt89.ibbwt alloc b out = some r := by
  have hmax : b.length ≤ 2147483647 := by
    unfold maxN at hn
    omega
  rcases Nat.eq_zero_or_pos b.length with h0 | hpos
  · refine ⟨(.ok, out), ?_, ?_⟩
    · rw [ibbwt, if_neg (not_lt.mpr hn), if_pos h0]
      rfl
    · simp only [Bwt89.ibbwt, if_neg (not_lt.mpr hn), if_pos h0]
  obtain ⟨s, ws, ln, ord, hrows⟩ := exists_rows hpos hn
  obtain ⟨w, hrun, -⟩ := runCycles_ok hrows hpos
    (w := ⟨0, bytesOf out, (Bwt89.buildRanks (bytesOf b) b.length).rank, b.length, false⟩) rfl
    (Bwt89.buildRanks_eq (bytesOf b) b.length)
  have hrun' := runCycles_eq hmax le_rfl hrun
  have hleft : ibbwt alloc b out = if alloc 0 = false then pure (.nomem, out)
      else if alloc 1 = false then pure (.nomem, out)
      else pure (.ok, readBytes b.length w.out) := by
    simp only [ibbwt, if_neg (not_lt.mpr hn), if_neg hpos.ne', natLen_ok hn, ok_bind,
      Int.toNat_natCast, buildRanks_eq (bytesOf b) hmax, hrun']
  rw [hleft]
  simp only [Bwt89.ibbwt, if_neg (not_lt.mpr hn), if_neg hpos.ne', hrun]
  cases alloc 0 with
  | false => exact ⟨_, rfl, rfl⟩
  | true =>
    cases alloc 1 with
    | false | true => exact ⟨_, rfl, rfl⟩

end Bwt89.Ints

namespace Bwt89

open Library

/-- The run ends, and no expression of it had a value outside its type. -/
def InRange {α : Type} (x : Checked α) : Prop := ∃ r, x = .ok r

theorem InRange.not_overflow {α : Type} {x : Checked α} (hx : x = .error .overflow) :
    ¬InRange x := by
  rintro ⟨r, hr⟩
  rw [hx] at hr
  cases hr

variable {alloc : Nat → Bool} {s : List UInt8} {index : Nat} {out : List UInt8}

theorem bwt_inRange_iff (hn : s.length ≤ maxN) :
    InRange (bwt alloc s index out) ↔ s.length = 0 ∨ alloc 0 = false ∨ alloc 1 = false ∨
      4 * (s.length + 1) ≤ 2147483647 := by
  constructor
  · intro h
    by_contra hnot
    simp only [not_or, Bool.not_eq_false] at hnot
    obtain ⟨h0, h1, h2, h3⟩ := hnot
    exact InRange.not_overflow (bwt_overflows hn h0 h1 h2 (by omega)) h
  · intro h
    have hgives : Gives (bwt alloc s index out) fun _ => True :=
      bwt_gives hn (h.imp_right fun h => h.imp_right fun h => h.imp_right fun h => by omega)
    obtain ⟨r, hr, -⟩ := hgives
    exact ⟨r, hr⟩

theorem ibwt_inRange_iff (hn : s.length ≤ maxN) :
    InRange (ibwt alloc s index out) ↔ s.length = 0 ∨ index > s.length ∨ alloc 0 = false ∨
      2 * (s.length + 1) ≤ 2147483647 := by
  constructor
  · intro h
    by_contra hnot
    simp only [not_or, Bool.not_eq_false] at hnot
    obtain ⟨h0, h1, h2, h3⟩ := hnot
    exact InRange.not_overflow (ibwt_overflows hn h0 (by omega) h2 (by omega)) h
  · intro h
    have hgives : Gives (ibwt alloc s index out) fun _ => True :=
      ibwt_gives hn (h.imp_right fun h => h.imp_right fun h => h.imp_right fun h => by omega)
    obtain ⟨r, hr, -⟩ := hgives
    exact ⟨r, hr⟩

theorem bbwt_inRange_iff (hn : s.length ≤ maxN) :
    InRange (Ints.bbwt alloc s out) ↔ s.length = 0 ∨ alloc 0 = false ∨
      4 * s.length ≤ 2147483647 := by
  constructor
  · intro h
    by_contra hnot
    simp only [not_or, Bool.not_eq_false] at hnot
    obtain ⟨h0, h1, h2⟩ := hnot
    exact InRange.not_overflow (Ints.bbwt_overflows hn h0 h1 (by omega)) h
  · intro h
    obtain ⟨r, hr, -⟩ := Ints.bbwt_gives hn h
    exact ⟨r, hr⟩

/-- The arithmetic of the four calls stays in range exactly when the offsets into the
scratch blocks do: `4 * N` for the arena of the suffix array, with the sentinel counted,
`2 * N` for the block of `ibwt`, and `4 * n` for that of `bbwt`. -/
theorem ranges_iff (alloc : Nat → Bool) (s : List UInt8) (index : Nat) (out : List UInt8)
    (hn : s.length ≤ maxN) :
    (InRange (bwt alloc s index out) ↔ s.length = 0 ∨ alloc 0 = false ∨ alloc 1 = false ∨
      4 * (s.length + 1) ≤ 2147483647) ∧
    (InRange (ibwt alloc s index out) ↔ s.length = 0 ∨ index > s.length ∨ alloc 0 = false ∨
      2 * (s.length + 1) ≤ 2147483647) ∧
    (InRange (Ints.bbwt alloc s out) ↔ s.length = 0 ∨ alloc 0 = false ∨
      4 * s.length ≤ 2147483647) ∧
    InRange (Ints.ibbwt alloc s out) := by
  refine ⟨bwt_inRange_iff hn, ibwt_inRange_iff hn, bbwt_inRange_iff hn, ?_⟩
  obtain ⟨r, hr, -⟩ := Ints.ibbwt_gives hn
  exact ⟨r, hr⟩

theorem ranges_iff_banana :
    InRange (bwt (fun _ => true) banana 0 banana) ∧ InRange (ibwt (fun _ => true) banana 0 banana) ∧
      InRange (Ints.bbwt (fun _ => true) banana banana) ∧
      InRange (Ints.ibbwt (fun _ => true) banana banana) := by
  obtain ⟨hbwt, hibwt, hbbwt, hibbwt⟩ := ranges_iff (fun _ => true) banana 0 banana (by decide)
  exact ⟨hbwt.mpr (by decide), hibwt.mpr (by decide), hbbwt.mpr (by decide), hibbwt⟩

/-- Zeros, at the least length for which the arena overflows. -/
def longZeros : List UInt8 := List.replicate 536870911 0

theorem bwt_overflow_longZeros :
    longZeros.length ≤ maxN ∧ bwt (fun _ => true) longZeros 0 longZeros = .error .overflow := by
  have hlen : longZeros.length = 536870911 := List.length_replicate
  have hmax : longZeros.length ≤ maxN := by
    unfold maxN
    omega
  refine ⟨hmax, bwt_overflows hmax ?_ rfl rfl ?_⟩
  · omega
  · omega

end Bwt89
