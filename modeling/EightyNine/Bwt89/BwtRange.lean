import EightyNine.Bwt89.Bwt
import EightyNine.Bwt89.SaisRange

/-!
# The regular transform stays in range

`bwt` needs `4 * N` to be an `int`, for the arena of the suffix array, and `ibwt` needs
`2 * N`, for its own block (`N` is the length with the sentinel).  When a call gets that
far and the product does not fit, it overflows.
-/

namespace Bwt89

open Library IntRange

variable {n : Nat}

/-! ## Workers -/

section Loops

variable {σ : Type} {I : Nat → σ → Prop}

theorem size_forUp (hmax : n ≤ maxN + 1) {f : Nat → σ → Checked σ} {s : σ} (h0 : I 0 s)
    (hs : ∀ i s, i < n → I i s → Gives (f i s) (I (i + 1))) :
    Gives (size.forUp 0 n f s) (I n) := by
  have h : Gives (size.forUp 0 n f s) (I (max 0 n)) := by
    refine forUp_gives (by decide) ?_ h0 fun i s _ hi => hs i s hi
    show (n : Int) ≤ 18446744073709551615
    unfold maxN at hmax
    omega
  rwa [Nat.zero_max] at h

/-- A loop that may leave early, of which only the state matters. -/
theorem size_forBreak {P : σ → Prop} (hmax : n ≤ maxN + 1) {f : Nat → σ → Checked (ForInStep σ)}
    {s : σ} (h0 : P s)
    (hs : ∀ i s, i < n → P s → Gives (f i s) fun o =>
      (∃ s', o = .done s' ∧ P s') ∨ ∃ s', o = .yield s' ∧ P s') :
    Gives (size.forBreak 0 n f s) P := by
  refine forBreak_gives (I := fun _ => P) (by decide) ?_ h0 (fun i s _ hi => hs i s hi)
    fun _ _ h _ => h
  show (n : Int) ≤ 18446744073709551615
  unfold maxN at hmax
  omega

end Loops

theorem rankByte_gives (b : UInt8) : Gives (rankByte b) fun c => 0 ≤ c ∧ c ≤ 256 := by
  have hb := UInt8.toNat_lt b
  simp only [rankByte, gives_add, int_has]
  omega

theorem buildSymbols_gives (s : Nat → UInt8) (hn : n ≤ maxN) :
    Gives (buildSymbols s n) (Within 0 256) := by
  unfold buildSymbols
  have h : Gives (size.forUp 0 n
      (fun i sym => do
        let c ← rankByte (s i)
        pure (Function.update sym (i : Int) c)) fun _ => 0) (Within 0 256) := by
    refine size_forUp (I := fun _ => Within 0 256) (by omega)
      (within_zero le_rfl (by omega)) fun i sym _ hsym => ?_
    exact (rankByte_gives (s i)).bind fun c hc => gives_pure.mpr (hsym.update hc.1 hc.2)
  exact h.bind fun sym hsym => gives_pure.mpr (hsym.update le_rfl (by decide))

theorem locateOrig_gives (sa : Int → Int) (hn : n ≤ maxN + 1) :
    Gives (locateOrig sa n) fun _ => True := by
  refine size_forBreak hn trivial fun i s _ _ => gives_pure.mpr ?_
  split
  · exact .inl ⟨_, rfl, trivial⟩
  · exact .inr ⟨_, rfl, trivial⟩

/-- The row of a position: the symbol before it, around. -/
theorem emitRow_gives {sym : Int → Int} {p N : Int} (hN : 2 ≤ N) (hmax : 4 * N ≤ 2147483647)
    (hsym : Within 0 256 sym) (hp : -1 ≤ p) (hpN : p ≤ N) (row orig : Nat) (out : Nat → UInt8) :
    Gives (emitRow sym p N row orig out) fun _ => True := by
  unfold emitRow
  refine Gives.ite (fun _ => gives_pure.mpr trivial) fun _ => ?_
  have h0 : 0 ≤ (p + N - 1).tmod N := Int.tmod_nonneg N (by omega)
  have h1 : (p + N - 1).tmod N < N := Int.tmod_lt_of_pos _ (by omega)
  have h2 := hsym ((p + N - 1).tmod N)
  simp only [gives_bind, gives_add, gives_sub, gives_rem, int_has,
    gives_pure, and_true]
  omega

/-! ## The forward transform -/

theorem natLen_ok (hn : n ≤ maxN) : int.eval n = .ok (n : Int) := by
  unfold maxN at hn
  exact eval_ok (int_has.mpr (by omega))

theorem succLen_ok (hn : n ≤ maxN) : int.add n 1 = .ok ((n : Int) + 1) := by
  unfold maxN at hn
  exact eval_ok (int_has.mpr (by omega))

variable {alloc : Nat → Bool} {s b out : List UInt8} {index : Nat}

theorem bwt_gives (hn : s.length ≤ maxN)
    (h : s.length = 0 ∨ alloc 0 = false ∨ alloc 1 = false ∨
      4 * ((s.length : Int) + 1) ≤ 2147483647) :
    Gives (bwt alloc s index out) fun _ => True := by
  unfold bwt
  rw [if_neg (by omega)]
  refine Gives.ite (fun _ => gives_pure.mpr trivial) fun h0 => ?_
  rw [natLen_ok hn, ok_bind, succLen_ok hn, ok_bind]
  refine Gives.ite (fun _ => gives_pure.mpr trivial) fun halloc => ?_
  refine (buildSymbols_gives (bytesOf s) hn).bind fun sym hsym => ?_
  cases halloc1 : alloc 1 with
  | false =>
    rw [saIs_nomem halloc1 (by omega) (by decide) (by decide)]
    exact gives_pure.mpr trivial
  | true =>
    have hmax : 4 * ((s.length : Int) + 1) ≤ 2147483647 := by
      rcases h with h | h | h | h
      · exact absurd h h0
      · exact absurd h halloc
      · rw [halloc1] at h
        cases h
      · exact h
    refine (saIs_gives alloc 1 (by omega) hmax (by decide) (by decide)
      (within_zero (by omega) le_rfl)).bind fun r hr => ?_
    refine Gives.ite (fun _ => gives_pure.mpr trivial) fun _ => ?_
    have hlen : ((s.length : Int) + 1).toNat ≤ maxN + 1 := by omega
    refine (locateOrig_gives r.sa hlen).bind fun orig _ => ?_
    have hrows : Gives (size.forUp 0 ((s.length : Int) + 1).toNat
        (fun i => emitRow sym (r.sa i) (s.length + 1) i orig) (bytesOf out)) fun _ => True := by
      refine size_forUp (I := fun _ _ => True) hlen trivial fun i b _ _ => ?_
      exact emitRow_gives (by omega) hmax hsym (hr i).1 (hr i).2 i orig b
    exact hrows.bind fun b _ => gives_pure.mpr trivial

theorem bwt_overflows (hn : s.length ≤ maxN) (h0 : s.length ≠ 0) (halloc : alloc 0 = true)
    (halloc1 : alloc 1 = true) (hmax : 2147483647 < 4 * ((s.length : Int) + 1)) :
    bwt alloc s index out = .error .overflow := by
  unfold bwt
  rw [if_neg (by omega), if_neg h0, natLen_ok hn, ok_bind, succLen_ok hn, ok_bind, halloc,
    if_neg (by decide)]
  refine (buildSymbols_gives (bytesOf s) hn).bind_error fun sym _ => ?_
  rw [saIs_overflows halloc1 hmax (by decide) (by decide)]
  rfl

/-! ## The inverse transform -/

theorem alphaWidth_ok : int.add alpha 1 = .ok 257 :=
  eval_ok (int_has.mpr (by decide))

theorem buildLast_gives (b : Nat → UInt8) (hn : n ≤ maxN) (index : Nat) :
    Gives (buildLast b n index) (Within 0 256) := by
  refine size_forUp (I := fun _ => Within 0 256) (by omega)
    ((within_zero le_rfl (by omega)).update le_rfl (by decide)) fun k last _ hlast => ?_
  exact (rankByte_gives (b k)).bind fun c hc => gives_pure.mpr (hlast.update hc.1 hc.2)

theorem zeroOcc_gives : Gives (zeroOcc alpha) fun occ => occ = fun _ => 0 := by
  refine int_forUp (I := fun _ occ => occ = fun _ => 0) (by decide) (by decide) rfl
    fun c occ _ hocc => ?_
  rw [gives_pure, hocc]
  exact Function.update_eq_self _ _

theorem lowerCount_gives {N : Int} {freq : Int → Int} (hN : N ≤ 2147483647)
    (hfreq : Counted N 257 freq) {c : Nat} (hc : c ≤ 257) :
    Gives (lowerCount freq c) fun v => v = total freq c := by
  have h : Gives (lowerCount freq c) fun v => v = total freq (max 0 c) := by
    refine forUp_gives (I := fun k v => v = total freq k) (by decide)
      (show (c : Int) ≤ 2147483647 by omega) rfl fun k v _ hk hv => ?_
    have hsum := hfreq.total_le (show k + 1 ≤ 257 by omega)
    have hstep : total freq (k + 1) = total freq k + freq k := Finset.sum_range_succ _ _
    rw [hv, addv, gives_add, int_has, ← hstep]
    exact ⟨by omega, rfl⟩
  rwa [Nat.zero_max] at h

theorem buildLess_gives {N : Int} {freq : Int → Int} (hN : N ≤ 2147483647)
    (hfreq : Counted N 257 freq) : Gives (buildLess freq alpha) (Within 0 N) := by
  have h0 := hfreq.within 0
  refine int_forUp (I := fun _ => Within 0 N) (by decide) (by decide)
    (within_zero le_rfl (by omega)) fun c less hc hless => ?_
  have hc' : c ≤ 257 := by
    unfold alpha at hc
    omega
  refine (lowerCount_gives hN hfreq hc').bind fun v hv => gives_pure.mpr ?_
  have hsum := hfreq.total_le hc'
  exact hless.update (by omega) (by omega)

theorem buildRows_gives {last : Int → Int} (hN : 2 * ((n : Int) + 1) ≤ 2147483647) :
    Gives (buildRows last ((n : Int) + 1)) fun _ => True := by
  have hn : n + 1 ≤ maxN + 1 := by
    unfold maxN
    omega
  unfold buildRows
  refine zeroOcc_gives.bind ?_
  rintro _ rfl
  have htally : Gives (tallyLast last ((n : Int) + 1) fun _ => 0) (Counted ((n : Int) + 1) 257) :=
    countSymbols_gives (by omega) (by omega) 257
  refine htally.bind fun freq hfreq => ?_
  refine (buildLess_gives (by omega) hfreq).bind fun less hless => zeroOcc_gives.bind ?_
  rintro _ rfl
  have hlen : ((n : Int) + 1).toNat = n + 1 := by omega
  rw [hlen]
  have hrows : Gives (size.forUp 0 (n + 1)
      (fun i m => do
        let k ← int.eval i
        mapRow less (last i) k m) { occ := fun _ => 0, rowOf := fun _ => 0 })
      fun m => Within 0 (n + 1 : Nat) m.occ := by
    refine size_forUp (I := fun i (m : LfMap) => Within 0 i m.occ) hn
      (within_zero le_rfl le_rfl) fun i m hi hm => ?_
    have h1 := hless (last i)
    have h2 := hm (last i)
    simp only [mapRow, gives_bind, gives_eval, gives_add, int_has, gives_pure]
    refine ⟨by omega, by omega, by omega, ?_⟩
    exact (hm.mono le_rfl (by omega)).update (by omega) (by omega)
  exact hrows.mono fun _ _ => trivial

theorem walkRow_gives {rowOf last : Int → Int} (hlast : Within 0 256 last) (pos : Nat)
    (w : RowWalk) : Gives (walkRow rowOf last pos w) fun _ => True := by
  have h := hlast (rowOf w.row)
  unfold walkRow
  refine Gives.ite (fun _ => gives_pure.mpr trivial) fun _ => ?_
  simp only [gives_bind, gives_sub, int_has, gives_pure, and_true]
  omega

theorem ibwt_gives (hn : b.length ≤ maxN)
    (h : b.length = 0 ∨ index > b.length ∨ alloc 0 = false ∨
      2 * ((b.length : Int) + 1) ≤ 2147483647) :
    Gives (ibwt alloc b index out) fun _ => True := by
  unfold ibwt
  refine Gives.ite (fun _ => gives_pure.mpr trivial) fun h0 => ?_
  refine Gives.ite (fun _ => gives_pure.mpr trivial) fun hindex => ?_
  rw [if_neg (by omega), natLen_ok hn, ok_bind, succLen_ok hn, ok_bind, alphaWidth_ok, ok_bind]
  refine Gives.ite (fun _ => gives_pure.mpr trivial) fun halloc => ?_
  have hmax : 2 * ((b.length : Int) + 1) ≤ 2147483647 := by
    rcases h with h | h | h | h
    · exact absurd h h0
    · exact absurd h hindex
    · exact absurd h halloc
    · exact h
  simp only [gives_bind, gives_mul, int_has]
  refine ⟨by omega, (buildLast_gives (bytesOf b) hn index).mono fun last hlast => ?_⟩
  refine (buildRows_gives hmax).mono fun m _ => ?_
  rw [gives_eval, int_has]
  refine ⟨by omega, ?_⟩
  have hpeek : Gives (size.forBreak 0 b.length
      (fun _ row =>
        let row := stepPeek m.rowOf last row
        pure (if row < 0 then .done row else .yield row)) (index : Int)) fun _ => True := by
    refine size_forBreak (by omega) trivial fun i row _ _ => gives_pure.mpr ?_
    split
    · exact .inl ⟨_, rfl, trivial⟩
    · exact .inr ⟨_, rfl, trivial⟩
  refine hpeek.mono fun seen _ => Gives.ite (fun _ => gives_pure.mpr trivial) fun _ => ?_
  have hwalk : Gives (size.forBreak 0 b.length
      (fun i w => do
        let w ← walkRow m.rowOf last (b.length - 1 - i) w
        pure (if w.row < 0 then .done w else .yield w))
      { row := (index : Int), out := bytesOf out }) fun _ => True := by
    refine size_forBreak (by omega) trivial fun i w _ _ => ?_
    refine (walkRow_gives hlast _ w).bind fun w' _ => gives_pure.mpr ?_
    split
    · exact .inl ⟨_, rfl, trivial⟩
    · exact .inr ⟨_, rfl, trivial⟩
  exact hwalk.bind fun w _ => gives_pure.mpr trivial

theorem ibwt_overflows (hn : b.length ≤ maxN) (h0 : b.length ≠ 0) (hindex : index ≤ b.length)
    (halloc : alloc 0 = true) (hmax : 2147483647 < 2 * ((b.length : Int) + 1)) :
    ibwt alloc b index out = .error .overflow := by
  unfold ibwt
  rw [if_neg h0, if_neg (by omega), if_neg (by omega), natLen_ok hn, ok_bind, succLen_ok hn,
    ok_bind, alphaWidth_ok, ok_bind, halloc, if_neg (by decide)]
  have hmul : int.mul 2 ((b.length : Int) + 1) = .error .overflow := eval_overflows hmax
  rw [hmul]
  rfl

end Bwt89
