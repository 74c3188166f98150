import EightyNine.Bwt89.Sais
import Mathlib.Algebra.BigOperators.Intervals
import Mathlib.Algebra.Order.BigOperators.Group.Finset

/-!
# The suffix array stays in range

With `4 * n` an `int`, no expression of the construction leaves the type
(`saIsCore_gives`).  The bounds are coarse: positions and names stay below `n`, and a
bucket pointer moves by one at a time, so after a pass over `n` places it has moved by
`n` at most (`Tame`).  Otherwise the offsets into the arena overflow
(`saIs_overflows`).
-/

namespace Bwt89

open Library Function Finset IntRange

variable {v : Int}

@[simp] theorem int_has : int.Has v ↔ -2147483648 ≤ v ∧ v ≤ 2147483647 := Iff.rfl

/-! ## Arrays and loops -/

/-- The array holds values from `lo` to `hi`. -/
def Within (lo hi : Int) (a : Int → Int) : Prop := ∀ i, lo ≤ a i ∧ a i ≤ hi

variable {a : Int → Int}

theorem Within.update {lo hi : Int} (h : Within lo hi a) {j : Int}
    (hlo : lo ≤ v) (hhi : v ≤ hi) : Within lo hi (update a j v) := by
  intro i
  rcases eq_or_ne i j with rfl | hne
  · rw [update_self]
    exact ⟨hlo, hhi⟩
  · rw [update_of_ne hne]
    exact h i

variable {lo' hi' : Int}

theorem Within.mono {lo hi : Int} (h : Within lo hi a) (hlo : lo' ≤ lo)
    (hhi : hi ≤ hi') : Within lo' hi' a :=
  fun i => ⟨hlo.trans (h i).1, (h i).2.trans hhi⟩

theorem within_zero {lo hi : Int} (hlo : lo ≤ 0) (hhi : 0 ≤ hi) : Within lo hi fun _ => 0 :=
  fun _ => ⟨hlo, hhi⟩

section Loops

variable {σ : Type} {I : Nat → σ → Prop}

variable {f : Nat → σ → Checked σ}

/-- A loop from 0 up to an `int`. -/
theorem int_forUp {n : Int} (hn : 0 ≤ n) (hmax : n ≤ 2147483647) {s : σ}
    (h0 : I 0 s) (hs : ∀ (i : Nat) s, (i : Int) < n → I i s → Gives (f i s) (I (i + 1))) :
    Gives (int.forUp 0 n.toNat f s) (I n.toNat) := by
  have h : Gives (int.forUp 0 n.toNat f s) (I (max 0 n.toNat)) :=
    forUp_gives (by decide) (show (n.toNat : Int) ≤ 2147483647 by omega) h0
      fun i s _ hi => hs i s (by omega)
  rwa [Nat.zero_max] at h

/-- A loop down from an `int` to 0. -/
theorem int_forDown {n : Int} (hmax : n ≤ 2147483647) {s : σ}
    (h0 : I n.toNat s) (hs : ∀ (i : Nat) s, (i : Int) < n → I (i + 1) s → Gives (f i s) (I i)) :
    Gives (int.forDown f n.toNat s) (I 0) :=
  forDown_gives (by decide) (show (n.toNat : Int) ≤ 2147483647 by omega) h0
    fun i s hi => hs i s (by omega)

end Loops

variable {s sa : Int → Int} {t : Int → SaType} {n K : Int}

/-! ## Types and names -/

/-- What `lms_start` answers. -/
def isLms (t : Int → SaType) (n x : Int) : Bool :=
  t x = .s ∧ (x = n - 1 ∨ x ≠ 0 ∧ t (x - 1) = .l)

theorem lmsStart_gives (hn : 0 ≤ n) (hmax : n ≤ 2147483647) {x : Int} (hx : 0 ≤ x)
    (hxn : x ≤ n) : Gives (lmsStart t n x) (· = isLms t n x) := by
  unfold lmsStart isLms
  refine Gives.ite (fun ht => ?_) fun ht => ?_
  · rw [gives_pure]
    simp [ht]
  · rw [not_not] at ht
    simp only [gives_bind, gives_sub, int_has]
    refine ⟨by omega, Gives.ite (fun hlast => ?_) fun hlast => ?_⟩
    · subst hlast
      simp [ht]
    · refine Gives.ite (fun h0 => ?_) fun h0 => ?_
      · rw [gives_pure, h0]
        rw [h0] at hlast
        simp [hlast]
      · simp only [gives_bind, gives_sub, int_has, gives_pure]
        refine ⟨by omega, ?_⟩
        simp [ht, hlast, h0]

theorem findNextLms_gives (hmax : n ≤ 2147483647) {a : Int} (ha : 0 ≤ a) (han : a < n) :
    Gives (findNextLms t n a) fun e => a < e ∧ e ≤ n := by
  unfold findNextLms
  simp only [gives_bind, gives_add, int_has]
  refine ⟨by omega, ?_⟩
  refine forBreak_gives (I := fun _ e => e = n) (by decide)
    (show (n.toNat : Int) ≤ 2147483647 by omega) rfl (fun i e hi hin he => ?_) fun i e he _ => ?_
  · refine (lmsStart_gives (by omega) hmax (by omega) (by omega)).bind fun found _ => ?_
    rw [gives_pure]
    cases found with
    | false => exact .inr ⟨n, rfl, rfl⟩
    | true => exact .inl ⟨i, rfl, by omega, by omega⟩
  · subst he
    exact ⟨han, le_rfl⟩

theorem lmsEqual_gives (hmax : 4 * n ≤ 2147483647) {a b : Int} (ha : 0 ≤ a) (han : a < n)
    (hb : 0 ≤ b) (hbn : b < n) : Gives (lmsEqual s t n a b) fun _ => True := by
  unfold lmsEqual
  refine (findNextLms_gives (by omega) ha han).bind fun ea hea => ?_
  refine (findNextLms_gives (by omega) hb hbn).bind fun eb heb => ?_
  simp only [gives_bind, gives_sub, int_has]
  refine ⟨by omega, by omega, Gives.ite (fun _ => gives_pure.mpr trivial) fun _ => ?_⟩
  refine forBreak_gives (I := fun _ _ => True) (by decide)
    (show (ea.toNat : Int) ≤ 2147483647 by omega) trivial (fun i e hi hin _ => ?_)
    fun _ _ _ _ => trivial
  simp only [gives_bind, gives_sub, gives_add, int_has, gives_pure]
  refine ⟨by omega, by omega, ?_⟩
  split
  · exact .inl ⟨_, rfl, trivial⟩
  · exact .inr ⟨_, rfl, trivial⟩

theorem nextName_gives (hmax : 4 * n ≤ 2147483647) {a b cur : Int} (ha : 0 ≤ a) (han : a < n)
    (hb : 0 ≤ b) (hbn : b < n) (hcur : 0 ≤ cur) (hcn : cur < n) :
    Gives (nextName s t n a b cur) fun v => cur ≤ v ∧ v ≤ cur + 1 := by
  unfold nextName
  refine (lmsEqual_gives hmax ha han hb hbn).bind fun same _ => ?_
  refine Gives.ite (fun _ => ?_) fun _ => ?_
  · rw [gives_pure]
    omega
  · simp only [gives_add, int_has]
    omega

theorem classifyTypes_gives (hn : 0 ≤ n) (hmax : n ≤ 2147483647) :
    Gives (classifyTypes s n) fun _ => True := by
  unfold classifyTypes
  simp only [gives_bind, gives_sub, int_has]
  refine ⟨by omega, by omega, ?_⟩
  refine int_forDown (I := fun _ _ => True) (by omega) trivial fun i t hi _ => ?_
  simp only [gives_bind, gives_add, int_has, gives_pure, and_true]
  omega

/-! ## Counts and buckets -/

theorem zeroRange_gives (hn : 0 ≤ n) (hmax : n ≤ 2147483647) :
    Gives (zeroRange (fun _ => 0) n) fun a => a = fun _ => 0 := by
  refine int_forUp (I := fun _ a => a = fun _ => 0) hn hmax rfl fun i a _ ha => ?_
  rw [gives_pure, ha]
  exact update_eq_self _ _

theorem fillNeg_gives (hn : 0 ≤ n) (hmax : n ≤ 2147483647) {hi : Int} (hhi : -1 ≤ hi)
    (h : Within (-1) hi a) : Gives (fillNeg a n) (Within (-1) hi) := by
  refine int_forUp (I := fun _ a => Within (-1) hi a) hn hmax h fun i a _ ha => ?_
  exact gives_pure.mpr (ha.update le_rfl hhi)

/-- The sum of the first counts. -/
def total (cnt : Int → Int) (m : Nat) : Int := ∑ c ∈ range m, cnt c

theorem total_update_le (cnt : Int → Int) (x : Int) (m : Nat) :
    total (update cnt x (cnt x + 1)) m ≤ total cnt m + if x < m then 1 else 0 := by
  unfold total
  induction m with
  | zero =>
    simp only [range_zero, sum_empty]
    split <;> omega
  | succ m ih =>
    rw [sum_range_succ, sum_range_succ]
    rcases eq_or_ne (m : Int) x with rfl | hne
    · rw [update_self, if_pos (by omega)]
      rw [if_neg (by omega)] at ih
      omega
    · rw [update_of_ne hne]
      split at ih <;> split <;> omega

/-- Each symbol adds one to one count. -/
structure Counted (n : Int) (m : Nat) (cnt : Int → Int) : Prop where
  within : Within 0 n cnt
  total : total cnt m ≤ n

variable {cnt : Int → Int}

theorem Counted.total_le {m d : Nat} (h : Counted n m cnt) (hd : d ≤ m) :
    0 ≤ Bwt89.total cnt d ∧ Bwt89.total cnt d ≤ n := by
  refine ⟨sum_nonneg fun c _ => (h.within c).1, le_trans ?_ h.total⟩
  exact sum_le_sum_of_subset_of_nonneg (range_subset_range.mpr hd) fun c _ _ => (h.within c).1

theorem countSymbols_gives (hn : 0 ≤ n) (hmax : n ≤ 2147483647) (m : Nat) :
    Gives (countSymbols s n fun _ => 0) (Counted n m) := by
  have h : Gives (countSymbols s n fun _ => 0) fun cnt =>
      Within 0 n.toNat cnt ∧ total cnt m ≤ n.toNat := by
    refine int_forUp (I := fun i cnt => Within 0 i cnt ∧ total cnt m ≤ i) hn hmax
      ⟨within_zero le_rfl le_rfl, by simp [total]⟩ fun i cnt hi hc => ?_
    have hs := hc.1 (s i)
    have ht := total_update_le cnt (s i) m
    simp only [gives_bind, gives_add, int_has, gives_pure]
    refine ⟨by omega, (hc.1.mono le_rfl (by omega)).update (by omega) (by omega), ?_⟩
    split at ht <;> omega
  refine h.mono fun cnt hc => ⟨hc.1.mono le_rfl (by omega), by omega⟩

/-- The pointer before the `c`-th was set last, to that sum. -/
def LastSum (f : Nat → Int) (lo hi : Int) (c : Nat) (bkt : Int → Int) : Prop :=
  bkt ((c : Int) - 1) = f c ∧ Within lo hi bkt

variable {bkt : Int → Int} {lo hi : Int}

/-- Pointers that are set to running sums lie between 0 and `n`, and the others do not move. -/
theorem sums_gives {f : Nat → Int} {v : Int → Int → Int} (hKmax : K < 2147483647)
    (hmax : n ≤ 2147483647) (hlo : lo ≤ 0) (hhi : n ≤ hi) (hb : Within lo hi bkt)
    (hle : ∀ c ≤ K.toNat, 0 ≤ f (c + 1) ∧ f (c + 1) ≤ n)
    (hnext : ∀ c : Nat, f (c + 2) = f (c + 1) + v (c + 1 : Nat) c) :
    Gives (int.forUp 1 (K + 1).toNat
      (fun c (bkt : Int → Int) => do
        let d ← int.sub c 1
        let sum ← addv (bkt d) (v c d)
        pure (update bkt c sum)) (update bkt 0 (f 1))) (Within lo hi) := by
  refine (forUp_gives (I := LastSum f lo hi) (by decide)
    (show ((K + 1).toNat : Int) ≤ 2147483647 by omega) ⟨?_, ?_⟩
    fun c bkt hc1 hcK hI => ?_).mono fun bkt h => h.2
  · simp
  · have h0 : 0 ≤ f 1 ∧ f 1 ≤ n := hle 0 (Nat.zero_le _)
    exact hb.update (by omega) (by omega)
  · obtain ⟨c, rfl⟩ := Nat.exists_eq_add_of_le' hc1
    have h0 := hle c (by omega)
    have h1 : 0 ≤ f (c + 2) ∧ f (c + 2) ≤ n := hle (c + 1) (by omega)
    have hpred : ((c + 1 : Nat) : Int) - 1 = c := by omega
    have hprev : bkt ((c + 1 : Nat) - 1) = f (c + 1) := hI.1
    rw [hpred] at hprev
    simp only [addv, gives_bind, gives_sub, gives_add, int_has, gives_pure,
      hpred, hprev, ← hnext]
    refine ⟨by omega, by omega, ?_, hI.2.update (by omega) (by omega)⟩
    have hsucc : ((c + 1 + 1 : Nat) : Int) - 1 = (c + 1 : Nat) := by omega
    rw [hsucc, update_self]

theorem makeHeads_gives (hK : 0 ≤ K) (hKmax : K < 2147483647) (hmax : n ≤ 2147483647)
    (hc : Counted n (K + 1).toNat cnt) (hlo : lo ≤ 0) (hhi : n ≤ hi) (hb : Within lo hi bkt) :
    Gives (makeHeads cnt K bkt) (Within lo hi) :=
  sums_gives (f := fun c => total cnt (c - 1)) (v := fun _ d => cnt d) hKmax hmax hlo hhi hb
    (fun _ hcK => hc.total_le (by omega)) fun _ => sum_range_succ _ _

theorem makeTails_gives (hK : 0 ≤ K) (hKmax : K < 2147483647) (hmax : n ≤ 2147483647)
    (hc : Counted n (K + 1).toNat cnt) (hlo : lo ≤ 0) (hhi : n ≤ hi) (hb : Within lo hi bkt) :
    Gives (makeTails cnt K bkt) (Within lo hi) := by
  have hfirst : cnt 0 = total cnt 1 := by simp [total]
  rw [makeTails, hfirst]
  exact sums_gives (f := total cnt) (v := fun c _ => cnt c) hKmax hmax hlo hhi hb
    (fun _ hcK => hc.total_le (by omega)) fun _ => sum_range_succ _ _

/-! ## Passes -/

/-- Positions in the array, and pointers that moved by a bounded amount. -/
structure Tame (n lo hi : Int) (b : Buckets) : Prop where
  sa : Within (-1) (n - 1) b.sa
  bkt : Within lo hi b.bkt

theorem Tame.mono {lo hi : Int} {b : Buckets} (h : Tame n lo hi b) (hlo : lo' ≤ lo)
    (hhi : hi ≤ hi') : Tame n lo' hi' b :=
  ⟨h.sa, h.bkt.mono hlo hhi⟩

section Steps

variable {lo hi : Int} {b : Buckets}

variable {sym val : Int}

theorem placeHead_gives (hlo : -2147483648 ≤ lo) (hhi : hi < 2147483647) (h : Tame n lo hi b)
    (hval : -1 ≤ val) (hvaln : val < n) :
    Gives (placeHead sym val b) (Tame n lo (hi + 1)) := by
  have hb := h.bkt sym
  simp only [placeHead, gives_bind, gives_add, int_has, gives_pure]
  refine ⟨by omega, h.sa.update hval (by omega), ?_⟩
  exact (h.bkt.mono le_rfl (by omega)).update (by omega) (by omega)

theorem placeTail_gives (hlo : -2147483648 < lo) (hhi : hi ≤ 2147483647) (h : Tame n lo hi b)
    (hval : -1 ≤ val) (hvaln : val < n) :
    Gives (placeTail sym val b) (Tame n (lo - 1) hi) := by
  have hb := h.bkt sym
  simp only [placeTail, gives_bind, gives_sub, int_has, gives_pure]
  refine ⟨by omega, h.sa.update hval (by omega), ?_⟩
  exact (h.bkt.mono (by omega) le_rfl).update (by omega) (by omega)

theorem seedOne_gives (hlo : -2147483648 < lo) (hhi : hi ≤ 2147483647) (hmax : n ≤ 2147483647)
    (h : Tame n lo hi b) {i : Int} (hi0 : 0 ≤ i) (hin : i < n) :
    Gives (seedOne s t n i b) (Tame n (lo - 1) hi) := by
  unfold seedOne
  refine (lmsStart_gives (by omega) hmax hi0 hin.le).bind fun starts _ => ?_
  refine Gives.ite (fun _ => ?_) fun _ => gives_pure.mpr (h.mono (by omega) le_rfl)
  exact placeTail_gives hlo hhi h (by omega) hin

theorem inducedLStep_gives (hlo : -2147483648 ≤ lo) (hhi : hi < 2147483647)
    (hmax : n ≤ 2147483647) (h : Tame n lo hi b) (i : Int) :
    Gives (inducedLStep s t i b) (Tame n lo (hi + 1)) := by
  have hkeep : Tame n lo (hi + 1) b := h.mono le_rfl (by omega)
  have hp := h.sa i
  unfold inducedLStep
  refine Gives.ite (fun _ => gives_pure.mpr hkeep) fun hpos => ?_
  simp only [gives_bind, gives_sub, int_has]
  refine ⟨by omega, Gives.ite (fun _ => gives_pure.mpr hkeep) fun _ => ?_⟩
  exact placeHead_gives hlo hhi h (by omega) (by omega)

theorem inducedSStep_gives (hlo : -2147483648 < lo) (hhi : hi ≤ 2147483647)
    (hmax : n ≤ 2147483647) (h : Tame n lo hi b) (i : Int) :
    Gives (inducedSStep s t i b) (Tame n (lo - 1) hi) := by
  have hkeep : Tame n (lo - 1) hi b := h.mono (by omega) le_rfl
  have hp := h.sa i
  unfold inducedSStep
  refine Gives.ite (fun _ => gives_pure.mpr hkeep) fun hpos => ?_
  simp only [gives_bind, gives_sub, int_has]
  refine ⟨by omega, Gives.ite (fun _ => gives_pure.mpr hkeep) fun _ => ?_⟩
  exact placeTail_gives hlo hhi h (by omega) (by omega)

/-- A pass upwards moves a pointer by `n` at most, and so does one downwards. -/
theorem induce_gives (hn : 0 ≤ n) (hmax : n ≤ 2147483647) (hK : 0 ≤ K) (hKmax : K < 2147483647)
    (hc : Counted n (K + 1).toNat cnt) (hlo : lo ≤ 0) (hhi : n ≤ hi)
    (hlomin : -2147483648 ≤ lo - n) (hhimax : hi + n ≤ 2147483647) (h : Tame n lo hi b) :
    Gives (induce s t n K cnt b) (Tame n (lo - n) (hi + n)) := by
  unfold induce
  refine (makeHeads_gives hK hKmax hmax hc hlo hhi h.bkt).bind fun heads hheads => ?_
  have hup : Gives (int.forUp 0 n.toNat (fun i => inducedLStep s t i) { b with bkt := heads })
      (Tame n lo (hi + n.toNat)) := by
    refine int_forUp (I := fun i => Tame n lo (hi + i)) hn hmax ?_ fun i b₁ hin hb₁ => ?_
    · exact ⟨h.sa, hheads.mono le_rfl (by omega)⟩
    · exact (inducedLStep_gives (by omega) (by omega) hmax hb₁ i).mono
        fun b₂ hb₂ => hb₂.mono le_rfl (by omega)
  refine hup.bind fun b₁ hb₁ => ?_
  refine (makeTails_gives hK hKmax hmax hc hlo (by omega) hb₁.bkt).bind fun tails htails => ?_
  simp only [gives_bind, gives_sub, int_has]
  refine ⟨by omega, ?_⟩
  rw [Int.sub_add_cancel]
  have hdown : Gives (int.forDown (fun i => inducedSStep s t i) n.toNat { b₁ with bkt := tails })
      (Tame n (lo - (n - (0 : Nat))) (hi + n)) := by
    refine int_forDown (I := fun i => Tame n (lo - (n - i)) (hi + n)) hmax ?_
      fun i b₂ hin hb₂ => ?_
    · exact ⟨hb₁.sa, htails.mono (by omega) (by omega)⟩
    · exact (inducedSStep_gives (by omega) (by omega) hmax hb₂ i).mono
        fun b₃ hb₃ => hb₃.mono (by omega) le_rfl
  exact hdown.mono fun b₂ hb₂ => hb₂.mono (by omega) le_rfl

end Steps

/-! ## LMS positions -/

/-- At most `k` values from `lo` to `n - 1` are listed. -/
structure Listed (lo n k : Int) (m : Marks) : Prop where
  ls : Within lo (n - 1) m.ls
  nonneg : 0 ≤ m.k
  k_le : m.k ≤ k

theorem Listed.mono {lo k k' : Int} {m : Marks} (h : Listed lo n k m) (hk : k ≤ k') :
    Listed lo n k' m :=
  ⟨h.ls, h.nonneg, h.k_le.trans hk⟩

section Lists

variable {lo k : Int} {m : Marks}

theorem recordLms_gives (hk : k < 2147483647) (h : Listed lo n k m) (hv : lo ≤ v)
    (hvn : v < n) : Gives (recordLms v m) (Listed lo n (k + 1)) := by
  have h0 := h.nonneg
  have h1 := h.k_le
  simp only [recordLms, gives_bind, gives_add, int_has, gives_pure]
  exact ⟨by omega, h.ls.update hv (by omega), by simp only; omega, by simp only; omega⟩

variable {ls : Int → Int}

/-- A pass over the positions that records a value at each LMS position: the first one is
none of these. -/
theorem recordLoop_gives (hn : 2 ≤ n) (hmax : n ≤ 2147483647) {v : Int → Int}
    (hv : ∀ i, 0 ≤ i → i < n → lo ≤ v i ∧ v i < n) (hls : Within lo (n - 1) ls)
    {f : Nat → Marks → Checked Marks} (hf : ∀ (i : Nat) m, f i m = do
      let starts ← lmsStart t n i
      if starts then recordLms (v i) m else pure m) :
    Gives (int.forUp 0 n.toNat f { ls := ls, k := 0 }) (Listed lo n (n - 1)) := by
  have h : Gives (int.forUp 0 n.toNat f { ls := ls, k := 0 })
      (Listed lo n (n.toNat - 1 : Nat)) := by
    refine int_forUp (I := fun i => Listed lo n (i - 1 : Nat)) (by omega) hmax
      ⟨hls, le_rfl, le_rfl⟩ fun i m hin hm => ?_
    rw [hf]
    refine (lmsStart_gives (by omega) hmax (by omega) hin.le).bind fun starts hstarts => ?_
    refine Gives.ite (fun hlms => ?_) fun _ => gives_pure.mpr (hm.mono (by omega))
    have hpos : 0 < i := by
      refine Nat.pos_of_ne_zero fun h0 => ?_
      rw [hstarts, h0] at hlms
      obtain ⟨-, hx | ⟨hx, -⟩⟩ := of_decide_eq_true hlms <;> omega
    have hvi := hv i (by omega) hin
    exact (recordLms_gives (by omega) hm hvi.1 hvi.2).mono fun m' hm' => hm'.mono (by omega)
  exact h.mono fun m hm => hm.mono (by omega)

theorem placeLoop_gives (hn : 2 ≤ n) (hmax : n ≤ 2147483647)
    (hls : Within 0 (n - 1) ls) :
    Gives (int.forUp 0 n.toNat (fun i => placeLms t n i) { ls := ls, k := 0 })
      (Listed 0 n (n - 1)) :=
  recordLoop_gives hn hmax (v := fun i => i) (fun _ h0 hn => ⟨h0, hn⟩) hls fun _ _ => rfl

theorem appendSorted_gives (hmax : n ≤ 2147483647) (hsa : Within (-1) (n - 1) sa)
    (hk : k < 2147483647) (h : Listed 0 n k m) (i : Int) :
    Gives (appendSorted sa t n i m) (Listed 0 n (k + 1)) := by
  have hi := hsa i
  unfold appendSorted
  refine Gives.ite (fun hpos => ?_) fun _ => gives_pure.mpr (h.mono (by omega))
  unfold placeLms
  refine (lmsStart_gives (by omega) hmax hpos (by omega)).bind fun starts _ => ?_
  refine Gives.ite (fun _ => ?_) fun _ => gives_pure.mpr (h.mono (by omega))
  exact recordLms_gives hk h hpos (by omega)

end Lists

/-! ## The parts of the core -/

structure LevelOk (n K : Int) (l : Level) : Prop where
  counted : Counted n (K + 1).toNat l.cnt
  tame : Tame n (-(2 * n)) (2 * n) l.b
  marks : Listed 0 n n l.marks

theorem sortLms_gives (hn : 2 ≤ n) (hmax : 4 * n ≤ 2147483647) (hK : 0 ≤ K)
    (hKmax : K < 2147483647) (hsa : Within (-1) (n - 1) sa) :
    Gives (sortLms s sa n K) (LevelOk n K) := by
  have hzero : Within 0 (n - 1) fun _ => 0 := within_zero le_rfl (by omega)
  unfold sortLms
  refine (classifyTypes_gives (by omega) (by omega)).bind fun t _ => ?_
  simp only [gives_bind, gives_add, int_has]
  refine ⟨by omega, (zeroRange_gives (by omega) (by omega)).mono ?_⟩
  rintro _ rfl
  refine (countSymbols_gives (by omega) (by omega) (K + 1).toNat).mono fun cnt hcnt => ?_
  refine (placeLoop_gives hn (by omega) hzero).mono fun marks hmarks => ?_
  refine (fillNeg_gives (by omega) (by omega) (by omega) hsa).mono fun sa hsa => ?_
  refine (makeTails_gives hK hKmax (by omega) hcnt le_rfl le_rfl
    (within_zero le_rfl (by omega))).mono fun tails htails => ?_
  rw [gives_sub, int_has, Int.sub_add_cancel]
  refine ⟨by omega, ?_⟩
  have hseed : Gives (int.forDown (fun i => seedOne s t n i) n.toNat { sa := sa, bkt := tails })
      (Tame n (-(n - (0 : Nat))) n) := by
    refine int_forDown (I := fun i => Tame n (-(n - i)) n) (by omega) ?_ fun i b hin hb => ?_
    · exact ⟨hsa, htails.mono (by omega) le_rfl⟩
    · exact (seedOne_gives (by omega) (by omega) (by omega) hb (by omega) hin).mono
        fun b' hb' => hb'.mono (by omega) le_rfl
  refine hseed.mono fun b hb => ?_
  refine (induce_gives (by omega) (by omega) hK hKmax hcnt (by omega) le_rfl (by omega) (by omega)
    hb).mono fun b hb => ?_
  have happend : Gives (int.forUp 0 n.toNat (fun i => appendSorted b.sa t n i)
      { marks with k := 0 }) (Listed 0 n n.toNat) := by
    refine int_forUp (I := fun i => Listed 0 n i) (by omega) (by omega)
      ⟨hmarks.ls, le_rfl, le_rfl⟩ fun i m hin hm => ?_
    exact appendSorted_gives (by omega) hb.sa (by omega) hm i
  refine happend.mono fun marks hmarks => gives_pure.mpr ⟨hcnt, ?_, hmarks.mono (by omega)⟩
  exact hb.mono (by omega) (by omega)

structure NamedOk (n : Int) (m : Named) : Prop where
  sa : Within (-1) (n - 1) m.names.sa
  num_nonneg : 0 ≤ m.names.num
  num_lt : m.names.num < n
  s1 : Listed (-1) n (n - 1) m.s1

variable {l : Level}

theorem nameLms_gives (hn : 2 ≤ n) (hmax : 4 * n ≤ 2147483647) (hl : LevelOk n K l) :
    Gives (nameLms s n l) (NamedOk n) := by
  have h0 := hl.marks.nonneg
  have hkn := hl.marks.k_le
  unfold nameLms
  refine (fillNeg_gives (by omega) (by omega) (by omega) hl.tame.sa).bind fun sa hsa => ?_
  have hsa' : Within (-1) (n - 1)
      (if l.marks.k > 0 then update sa (l.marks.ls 0) 0 else sa) := by
    split
    · exact hsa.update (by omega) (by omega)
    · exact hsa
  have hname : Gives (int.forUp 1 l.marks.k.toNat (fun i => nameOne l.marks.ls s l.t n i)
      { sa := if l.marks.k > 0 then update sa (l.marks.ls 0) 0 else sa, num := 0 })
      fun m => Within (-1) (n - 1) m.sa ∧ 0 ≤ m.num ∧ m.num < (max 1 l.marks.k.toNat : Nat) := by
    refine forUp_gives
      (I := fun i (m : Naming) => Within (-1) (n - 1) m.sa ∧ 0 ≤ m.num ∧ m.num < i) (by decide)
      (show (l.marks.k.toNat : Int) ≤ 2147483647 by omega) ⟨hsa', le_rfl, by simp only; omega⟩
      fun i m hi1 hik hm => ?_
    obtain ⟨hm1, hm2, hm3⟩ := hm
    have ha := hl.marks.ls ((i : Int) - 1)
    have hb := hl.marks.ls i
    simp only [nameOne, gives_bind, gives_sub, int_has]
    refine ⟨by omega, (nextName_gives hmax (by omega) (by omega) (by omega) (by omega) hm2
      (by omega)).mono fun v hv => gives_pure.mpr ⟨hm1.update (by omega) (by omega), ?_, ?_⟩⟩
    · show 0 ≤ v
      omega
    · show v < _
      omega
  refine hname.bind fun m hm => ?_
  obtain ⟨hm1, hm2, hm3⟩ := hm
  have hs1 : Gives (int.forUp 0 n.toNat (fun i => buildS1 m.sa l.t n i)
      { ls := fun _ => 0, k := 0 }) (Listed (-1) n (n - 1)) := by
    refine recordLoop_gives hn (by omega) (v := m.sa) (fun i _ _ => ?_)
      (within_zero (by omega) (by omega)) fun _ _ => rfl
    have := hm1 i
    omega
  refine hs1.bind fun s1 hs1 => gives_pure.mpr ⟨hm1, hm2, ?_, hs1⟩
  show m.num < n
  omega

theorem sortAll_gives (hn : 2 ≤ n) (hmax : 4 * n ≤ 2147483647) (hK : 0 ≤ K)
    (hKmax : K < 2147483647) (hl : LevelOk n K l) (hsa : Within (-1) (n - 1) sa)
    (sa1 : Int → Int) : Gives (sortAll s n K l sa sa1) (Within (-1) (n - 1)) := by
  unfold sortAll
  refine (placeLoop_gives hn (by omega) hl.marks.ls).bind fun marks hmarks => ?_
  refine (fillNeg_gives (by omega) (by omega) (by omega) hsa).bind fun sa hsa => ?_
  refine (makeTails_gives hK hKmax (by omega) hl.counted (by omega) (by omega)
    hl.tame.bkt).bind fun tails htails => ?_
  have hk0 := hmarks.nonneg
  have hkn := hmarks.k_le
  rw [gives_bind, gives_sub, int_has, Int.sub_add_cancel]
  refine ⟨by omega, ?_⟩
  have hseed : Gives (int.forDown (fun rank => finalSeedOne s marks.ls sa1 rank) marks.k.toNat
      { sa := sa, bkt := tails }) (Tame n (-(2 * n) - (n - (0 : Nat))) (2 * n)) := by
    refine int_forDown (I := fun i => Tame n (-(2 * n) - (n - i)) (2 * n)) (by omega) ?_
      fun i b hin hb => ?_
    · exact ⟨hsa, htails.mono (by omega) le_rfl⟩
    · have hv := hmarks.ls (sa1 i)
      exact (placeTail_gives (by omega) (by omega) hb (by omega) (by omega)).mono
        fun b' hb' => hb'.mono (by omega) le_rfl
  refine hseed.bind fun b hb => ?_
  refine (induce_gives (by omega) (by omega) hK hKmax hl.counted (by omega) (by omega) (by omega)
    (by omega) hb).bind fun b hb => gives_pure.mpr hb.sa

/-! ## The core -/

theorem buildInverse_gives {s1 : Int → Int} {m : Int} (hm : 0 ≤ m) (hmax : m ≤ 2147483647)
    (sa1 : Int → Int) : Gives (buildInverse s1 sa1 m) fun _ => True :=
  int_forUp (I := fun _ _ => True) hm hmax trivial fun _ _ _ _ => gives_pure.mpr trivial

theorem arenaOffsets_gives (hn : 0 ≤ n) (hmax : 4 * n ≤ 2147483647) :
    Gives (arenaOffsets n) fun _ => True := by
  simp only [arenaOffsets, gives_bind, gives_mul, int_has, gives_pure, and_true]
  omega

/-- The names of a level number fewer than its positions, so the recursion ends. -/
theorem saIsCore_gives (alloc : Nat → Bool) {fuel : Nat} {a : Nat} (hfuel : n < fuel) (hn : 0 ≤ n)
    (hmax : 4 * n ≤ 2147483647) (hK : 0 ≤ K) (hKmax : K < 2147483647) (hsa : Within (-1) 0 sa) :
    Gives (saIsCore alloc fuel a s sa n K) fun r => Within (-1) n r.sa := by
  induction fuel generalizing a s sa n K with
  | zero => omega
  | succ fuel ih =>
    have hkeep : Within (-1) n sa := hsa.mono le_rfl hn
    rw [saIsCore]
    refine Gives.ite (fun h1 => gives_pure.mpr (hkeep.update (by omega) hn)) fun h1 => ?_
    refine Gives.ite (fun h2 => gives_pure.mpr hkeep) fun h2 => ?_
    have hsa' : Within (-1) (n - 1) sa := hsa.mono le_rfl (by omega)
    rw [gives_bind, gives_add, int_has]
    refine ⟨by omega, Gives.ite (fun _ => gives_pure.mpr hkeep) fun _ => ?_⟩
    refine (arenaOffsets_gives hn hmax).bind fun _ _ => ?_
    refine (sortLms_gives (by omega) hmax hK hKmax hsa').bind fun l hl => ?_
    refine (nameLms_gives (by omega) hmax hl).bind fun m hm => ?_
    have hnum0 := hm.num_nonneg
    have hnum := hm.num_lt
    have hk0 := hm.s1.nonneg
    have hk := hm.s1.k_le
    rw [gives_bind, gives_add, int_has]
    refine ⟨by omega, ?_⟩
    have hsub : Gives
        (if m.names.num + 1 = m.s1.k then do
            let sa1 ← buildInverse m.s1.ls (fun _ => 0) m.s1.k
            pure { err := 0, sa := sa1 }
          else saIsCore alloc fuel (a + 1) m.s1.ls (fun _ => 0) m.s1.k m.names.num)
        fun _ : SaResult => True := by
      refine Gives.ite (fun _ => ?_) fun _ => ?_
      · exact (buildInverse_gives hk0 (by omega) _).bind fun _ _ => gives_pure.mpr trivial
      · refine (ih (by omega) hk0 (by omega) hnum0 (by omega) ?_).mono fun _ _ => trivial
        exact within_zero (by omega) le_rfl
    refine hsub.bind fun r _ => ?_
    refine Gives.ite (fun _ => ?_) fun _ => ?_
    · exact gives_pure.mpr (hm.sa.mono le_rfl (by omega))
    · refine (sortAll_gives (by omega) hmax hK hKmax hl hm.sa r.sa).bind fun sa hsa => ?_
      exact gives_pure.mpr (hsa.mono le_rfl (by omega))

theorem saIs_gives (alloc : Nat → Bool) (a : Nat) (hn : 0 ≤ n) (hmax : 4 * n ≤ 2147483647)
    (hK : 0 ≤ K) (hKmax : K < 2147483647) (hsa : Within (-1) 0 sa) :
    Gives (saIs alloc a s sa n K) fun r => Within (-1) n r.sa :=
  saIsCore_gives alloc (by omega) hn hmax hK hKmax hsa

variable {alloc : Nat → Bool}

/-- When `4 * n` is no `int`, the layout of the arena overflows. -/
theorem saIs_overflows {a : Nat} (halloc : alloc a = true)
    (hmax : 2147483647 < 4 * n) (hK : 0 ≤ K) (hKmax : K < 2147483647) :
    saIs alloc a s sa n K = .error .overflow := by
  have hlayout : arenaOffsets n = .error .overflow := by
    refine eval_bind_overflows (eval_bind_overflows ?_)
    have hmul : int.mul 4 n = .error .overflow := eval_overflows hmax
    rw [hmul]
    rfl
  have hwidth : int.add K 1 = .ok (K + 1) := if_pos (int_has.mpr ⟨by omega, by omega⟩)
  rw [saIs, saIsCore, if_neg (by omega), if_neg (by omega), hwidth, hlayout, halloc]
  rfl

theorem saIs_nomem {a : Nat} (halloc : alloc a = false) (hn : 2 ≤ n)
    (hK : 0 ≤ K) (hKmax : K < 2147483647) :
    saIs alloc a s sa n K = .ok { err := 1, sa := sa } := by
  have hwidth : int.add K 1 = .ok (K + 1) := if_pos (int_has.mpr ⟨by omega, by omega⟩)
  rw [saIs, saIsCore, if_neg (by omega), if_neg (by omega), hwidth, halloc]
  rfl

end Bwt89
