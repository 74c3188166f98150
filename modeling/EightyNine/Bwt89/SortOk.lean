import EightyNine.Bwt89.FactorizeOk
import EightyNine.Library.Ranks

/-!
# The merge sort lists the conjugates in order

The key of a position is the infinite string of its conjugate, and then the position
itself.  `conjCmp` decides how the strings compare (`conjCmp_lt_iff`), so the merge, which
takes from the left on ties, merges by key (`mergeRun_ok`), and the sort enumerates the
positions by key (`sortPositions_ok`).
-/

namespace Bwt89

open Library Function

variable {s : Nat → UInt8} {ws ln : Nat → Nat} {n : Nat}

/-! ## Comparing conjugates -/

/-- The infinite string of the conjugate at `p`. -/
def conj (s : Nat → UInt8) (ws ln : Nat → Nat) (p : Nat) : Lex (Nat → UInt8) :=
  toLex (conjByte s ws ln p)

theorem conjByte_eq (s : Nat → UInt8) (ws ln : Nat → Nat) (p : Nat) :
    conjByte s ws ln p = shift (cycle (shift s (ws p)) (ln p)) (p - ws p) :=
  rfl

theorem diffAt_lt_iff {p q d : Nat} :
    diffAt s ws ln p q d < 0 ↔ conjByte s ws ln p d < conjByte s ws ln q d := by
  unfold diffAt
  split_ifs with h1 h2 <;> simp [h1]

theorem diffAt_eq_iff {p q d : Nat} :
    diffAt s ws ln p q d = 0 ↔ conjByte s ws ln p d = conjByte s ws ln q d := by
  unfold diffAt
  split_ifs with h1 h2
  · simp [h1.ne]
  · simp [h2.ne']
  · simp [le_antisymm (not_lt.mp h2) (not_lt.mp h1)]

theorem conjCmpFrom_lt_iff {p q k : Nat} : ∀ {d : Nat},
    (∀ i < d, conjByte s ws ln p i = conjByte s ws ln q i) →
    (conjCmpFrom s ws ln p q d k < 0 ↔ ∃ i < d + k,
      (∀ j < i, conjByte s ws ln p j = conjByte s ws ln q j) ∧
        conjByte s ws ln p i < conjByte s ws ln q i) := by
  induction k with
  | zero =>
    intro d hd
    refine iff_of_false (lt_irrefl _) ?_
    rintro ⟨i, hi, -, hlt⟩
    exact hlt.ne (hd i hi)
  | succ k ih =>
    intro d hd
    by_cases heq : diffAt s ws ln p q d = 0
    · have heq' := diffAt_eq_iff.mp heq
      rw [conjCmpFrom, if_neg (not_not.mpr heq), ih, Nat.succ_add_eq_add_succ]
      intro i hi
      rcases Nat.lt_succ_iff_lt_or_eq.mp hi with hi | rfl
      · exact hd i hi
      · exact heq'
    · rw [conjCmpFrom, if_pos heq, diffAt_lt_iff]
      constructor
      · exact fun hlt => ⟨d, by omega, hd, hlt⟩
      · rintro ⟨i, -, hbefore, hlt⟩
        have hne := mt diffAt_eq_iff.mpr heq
        rcases Nat.lt_trichotomy i d with hi | rfl | hi
        · exact absurd (hd i hi) hlt.ne
        · exact hlt
        · exact absurd (hbefore d hi) hne

theorem conj_periodic (s : Nat → UInt8) (ws ln : Nat → Nat) (p : Nat) :
    Function.Periodic (conjByte s ws ln p) (ln p) := by
  rw [conjByte_eq]
  exact shift_periodic (cycle_periodic _ _) _

/-- As many letters as both words have decide the order of the infinite strings. -/
theorem conjCmp_lt_iff (h : Factored s n ws ln) {p q : Nat} (hp : p < n) (hq : q < n) :
    conjCmp s ws ln p q < 0 ↔ conj s ws ln p < conj s ws ln q := by
  have hpos : ∀ x < n, 0 < ln x := fun x hx => (h.lyndon x hx).pos
  rw [conjCmp, conjCmpFrom_lt_iff fun i hi => absurd hi (Nat.not_lt_zero i), Nat.zero_add]
  constructor
  · rintro ⟨i, -, hi⟩
    exact word_lt_iff.mpr ⟨i, hi⟩
  · intro hlt
    obtain ⟨i, hbefore, hi⟩ := word_lt_iff.mp hlt
    refine ⟨i, ?_, hbefore, hi⟩
    by_contra hlong
    have heq : conjByte s ws ln p = conjByte s ws ln q :=
      eq_of_agree (conj_periodic s ws ln p) (conj_periodic s ws ln q)
        (hpos p hp) (hpos q hq) fun j hj => hbefore j (by omega)
    exact hi.ne (congrFun heq i)

/-! ## Merging -/

/-- Positions are sorted by their conjugates, equal conjugates by position. -/
def key (s : Nat → UInt8) (ws ln : Nat → Nat) (p : Nat) : Lex (Nat → UInt8) ×ₗ Nat :=
  toLex (conj s ws ln p, p)

theorem key_lt_iff {p q : Nat} : key s ws ln p < key s ws ln q ↔
    conj s ws ln p < conj s ws ln q ∨ conj s ws ln p = conj s ws ln q ∧ p < q :=
  Prod.Lex.toLex_lt_toLex

/-- The places `lo, .., hi - 1` hold positions between `lo` and `hi`, by key. -/
structure SortedRun (s : Nat → UInt8) (ws ln : Nat → Nat) (lo hi : Nat) (ord : Nat → Nat) :
    Prop where
  le : ∀ i, lo ≤ i → i < hi → lo ≤ ord i
  lt : ∀ i, lo ≤ i → i < hi → ord i < hi
  sorted : ∀ i j, lo ≤ i → i < j → j < hi → key s ws ln (ord i) < key s ws ln (ord j)

theorem SortedRun.congr {lo hi : Nat} {ord ord' : Nat → Nat} (h : SortedRun s ws ln lo hi ord)
    (he : ∀ i, lo ≤ i → i < hi → ord' i = ord i) : SortedRun s ws ln lo hi ord' where
  le := fun i hi hi' => by
    rw [he i hi hi']
    exact h.le i hi hi'
  lt := fun i hi hi' => by
    rw [he i hi hi']
    exact h.lt i hi hi'
  sorted := fun i j hi hij hj => by
    rw [he i hi (by omega), he j (by omega) hj]
    exact h.sorted i j hi hij hj

section Merging

variable {lo mid hi : Nat} {ord : Nat → Nat}

/-- What was merged up to `k` is sorted and comes before what is left of both runs. -/
structure Merged (s : Nat → UInt8) (ws ln : Nat → Nat) (lo mid hi : Nat) (ord : Nat → Nat)
    (k : Nat) (m : Merge) : Prop where
  lo_i : lo ≤ m.i
  i_mid : m.i ≤ mid
  mid_j : mid ≤ m.j
  j_hi : m.j ≤ hi
  count : k + mid = m.i + m.j
  le : ∀ t, lo ≤ t → t < k → lo ≤ m.tmp t
  lt : ∀ t, lo ≤ t → t < k → m.tmp t < hi
  sorted : ∀ t u, lo ≤ t → t < u → u < k → key s ws ln (m.tmp t) < key s ws ln (m.tmp u)
  left : ∀ t, lo ≤ t → t < k → ∀ i, m.i ≤ i → i < mid →
    key s ws ln (m.tmp t) < key s ws ln (ord i)
  right : ∀ t, lo ≤ t → t < k → ∀ j, m.j ≤ j → j < hi →
    key s ws ln (m.tmp t) < key s ws ln (ord j)

/-- A position that comes after what was merged and before what is left is merged next. -/
theorem Merged.push {k : Nat} {m : Merge} (h : Merged s ws ln lo mid hi ord k m) {x i' j' : Nat}
    (hx : lo ≤ x) (hx' : x < hi)
    (hafter : ∀ t, lo ≤ t → t < k → key s ws ln (m.tmp t) < key s ws ln x)
    (hii : m.i ≤ i') (him : i' ≤ mid) (hjj : m.j ≤ j') (hjh : j' ≤ hi)
    (hcount : k + 1 + mid = i' + j')
    (hleft : ∀ i, i' ≤ i → i < mid → key s ws ln x < key s ws ln (ord i))
    (hright : ∀ j, j' ≤ j → j < hi → key s ws ln x < key s ws ln (ord j)) :
    Merged s ws ln lo mid hi ord (k + 1) ⟨i', j', update m.tmp k x⟩ := by
  have hold : ∀ t < k, update m.tmp k x t = m.tmp t := fun t ht =>
    update_of_ne ht.ne _ _
  have hnew : update m.tmp k x k = x := update_self _ _ _
  refine ⟨h.lo_i.trans hii, him, h.mid_j.trans hjj, hjh, hcount, ?_, ?_, ?_, ?_, ?_⟩
  · intro t hlo ht
    rcases Nat.lt_succ_iff_lt_or_eq.mp ht with ht | rfl
    · simpa only [hold t ht] using h.le t hlo ht
    · simpa only [hnew] using hx
  · intro t hlo ht
    rcases Nat.lt_succ_iff_lt_or_eq.mp ht with ht | rfl
    · simpa only [hold t ht] using h.lt t hlo ht
    · simpa only [hnew] using hx'
  · intro t u hlo htu hu
    rcases Nat.lt_succ_iff_lt_or_eq.mp hu with hu | rfl
    · simpa only [hold t (by omega), hold u hu] using h.sorted t u hlo htu hu
    · simpa only [hold t htu, hnew] using hafter t hlo htu
  · intro t hlo ht i hi' hmid
    rcases Nat.lt_succ_iff_lt_or_eq.mp ht with ht | rfl
    · simpa only [hold t ht] using h.left t hlo ht i (hii.trans hi') hmid
    · simpa only [hnew] using hleft i hi' hmid
  · intro t hlo ht j hj' hhi
    rcases Nat.lt_succ_iff_lt_or_eq.mp ht with ht | rfl
    · simpa only [hold t ht] using h.right t hlo ht j (hjj.trans hj') hhi
    · simpa only [hnew] using hright j hj' hhi

/-- Between two runs one of which lies before the other, the merge compares keys. -/
theorem takeRight_iff (hf : Factored s n ws ln) (hn : hi ≤ n)
    (hl : SortedRun s ws ln lo mid ord) (hr : SortedRun s ws ln mid hi ord) {i j : Nat}
    (hlo : lo ≤ i) (hi' : i < mid) (hj : mid ≤ j) (hj' : j < hi) :
    takeRight s ws ln ord i j mid hi = true ↔ key s ws ln (ord j) < key s ws ln (ord i) := by
  have hil := hl.lt i hlo hi'
  have hjr := hr.le j hj hj'
  have hjh := hr.lt j hj hj'
  rw [takeRight, if_neg (not_le.mpr hj'), if_neg (not_le.mpr hi'), decide_eq_true_eq,
    conjCmp_lt_iff hf (by omega) (by omega), key_lt_iff]
  constructor
  · exact .inl
  · rintro (h | ⟨-, h⟩)
    · exact h
    · omega

theorem mergeOne_ok (hf : Factored s n ws ln) (hn : hi ≤ n) (hlo : lo ≤ mid) (hmid : mid ≤ hi)
    (hl : SortedRun s ws ln lo mid ord) (hr : SortedRun s ws ln mid hi ord) {k : Nat} {m : Merge}
    (hk : k < hi) (h : Merged s ws ln lo mid hi ord k m) :
    Merged s ws ln lo mid hi ord (k + 1) (mergeOne s ws ln ord mid hi k m) := by
  have hcount := h.count
  have h1 := h.lo_i
  have h2 := h.i_mid
  have h3 := h.mid_j
  have h4 := h.j_hi
  have hlt_of_le : ∀ {x : Nat} {y z : Nat}, key s ws ln x < key s ws ln (ord y) →
      (y < z → key s ws ln (ord y) < key s ws ln (ord z)) → y ≤ z →
      key s ws ln x < key s ws ln (ord z) := by
    intro x y z hxy hyz hle
    rcases Nat.lt_or_eq_of_le hle with hlt | rfl
    · exact hxy.trans (hyz hlt)
    · exact hxy
  rw [mergeOne]
  split
  next hright =>
    have hjh : m.j < hi := by
      by_contra hge
      rw [takeRight, if_pos (not_lt.mp hge)] at hright
      cases hright
    have hj := hr.le m.j h3 hjh
    refine h.push (by omega) (hr.lt m.j h3 hjh) (fun t ht htk => h.right t ht htk m.j le_rfl hjh)
      le_rfl h2 (Nat.le_succ _) hjh (by omega) ?_ ?_
    · intro i hii him
      have hlt := (takeRight_iff hf hn hl hr h1 (by omega) h3 hjh).mp hright
      exact hlt_of_le hlt (fun hiz => hl.sorted m.i i h1 hiz him) hii
    · exact fun j hj hjh' => hr.sorted m.j j h3 hj hjh'
  next hright =>
    have him : m.i < mid := by
      by_contra hge
      have hjh : m.j < hi := by omega
      exact hright (by rw [takeRight, if_neg (not_le.mpr hjh), if_pos (not_lt.mp hge)])
    have hil := hl.lt m.i h1 him
    refine h.push (hl.le m.i h1 him) (by omega) (fun t ht htk => h.left t ht htk m.i le_rfl him)
      (Nat.le_succ _) him le_rfl h4 (by omega) ?_ ?_
    · exact fun i hii him' => hl.sorted m.i i h1 hii him'
    · intro j hj hjh
      have hj' := hr.le m.j h3 (by omega)
      have hle := not_lt.mp (mt (takeRight_iff hf hn hl hr h1 him h3 (by omega)).mpr hright)
      have hne : key s ws ln (ord m.i) ≠ key s ws ln (ord m.j) := by
        intro he
        have : ord m.i = ord m.j := congrArg (fun x => (ofLex x).2) he
        omega
      exact hlt_of_le (lt_of_le_of_ne hle hne) (fun hjz => hr.sorted m.j j h3 hjz hjh) hj

theorem merged_start (hlo : lo ≤ mid) (hmid : mid ≤ hi) (tmp : Nat → Nat) :
    Merged s ws ln lo mid hi ord lo ⟨lo, mid, tmp⟩ := by
  have hnone : ∀ {P : Prop} {t : Nat}, lo ≤ t → t < lo → P := fun h h' => by omega
  exact ⟨le_rfl, hlo, le_rfl, hmid, rfl, fun _ h h' => hnone h h', fun _ h h' => hnone h h',
    fun _ _ h h' h'' => hnone h (h'.trans h''), fun _ h h' => hnone h h',
    fun _ h h' => hnone h h'⟩

/-- Merging two sorted runs gives a sorted run and leaves the rest as it was. -/
theorem mergeRun_ok (hf : Factored s n ws ln) (hn : hi ≤ n) (hlo : lo ≤ mid) (hmid : mid ≤ hi)
    {r : Runs} (hl : SortedRun s ws ln lo mid r.ord) (hr : SortedRun s ws ln mid hi r.ord) :
    SortedRun s ws ln lo hi (mergeRun s ws ln lo mid hi r).ord ∧
      ∀ i, i < lo ∨ hi ≤ i → (mergeRun s ws ln lo mid hi r).ord i = r.ord i := by
  rw [mergeRun]
  generalize forUp lo hi (fun t => copyToTmp r.ord t t) r.tmp = tmp
  have hmerge : Merged s ws ln lo mid hi r.ord hi
      (forUp lo hi (mergeOne s ws ln r.ord mid hi) ⟨lo, mid, tmp⟩) :=
    forUp_inv (hlo.trans hmid) (merged_start hlo hmid tmp) fun k m _ hk h =>
      mergeOne_ok hf hn hlo hmid hl hr hk h
  generalize forUp lo hi (mergeOne s ws ln r.ord mid hi) ⟨lo, mid, tmp⟩ = m at hmerge
  have hcopy : (∀ t, lo ≤ t → t < hi → forUp lo hi (copyFromTmp m.tmp) r.ord t = m.tmp t) ∧
      ∀ t, t < lo ∨ hi ≤ t → forUp lo hi (copyFromTmp m.tmp) r.ord t = r.ord t := by
    refine forUp_inv (P := fun k (ord : Nat → Nat) => (∀ t, lo ≤ t → t < k → ord t = m.tmp t) ∧
      ∀ t, t < lo ∨ hi ≤ t → ord t = r.ord t) (hlo.trans hmid) ?_ ?_
    · exact ⟨fun t h h' => by omega, fun _ _ => rfl⟩
    · rintro k ord hk hk' ⟨hin, hout⟩
      refine ⟨fun t h h' => ?_, fun t ht => ?_⟩
      · rcases Nat.lt_succ_iff_lt_or_eq.mp h' with h' | rfl
        · rw [copyFromTmp, update_of_ne h'.ne, hin t h h']
        · rw [copyFromTmp, update_self]
      · rw [copyFromTmp, update_of_ne (by omega), hout t ht]
  refine ⟨SortedRun.congr ⟨hmerge.le, hmerge.lt, hmerge.sorted⟩ hcopy.1, hcopy.2⟩

end Merging

/-! ## Sorting -/

theorem sortRun_ok (hf : Factored s n ws ln) (lo hi : Nat) (r : Runs) :
    lo ≤ hi → hi ≤ n → (∀ i, lo ≤ i → i < hi → r.ord i = i) →
    SortedRun s ws ln lo hi (sortRun s ws ln lo hi r).ord ∧
      ∀ i, i < lo ∨ hi ≤ i → (sortRun s ws ln lo hi r).ord i = r.ord i := by
  induction lo, hi, r using sortRun.induct s ws ln with
  | case1 lo hi r hshort =>
    intro hle hn hid
    rw [sortRun, if_pos hshort]
    refine ⟨⟨fun i h h' => ?_, fun i h h' => ?_, fun i j h h' h'' => by omega⟩, fun _ _ => rfl⟩
    · rwa [hid i h h']
    · rwa [hid i h h']
  | case2 lo hi r hlong mid ihl _ ihr =>
    intro hle hn hid
    have hlo : lo ≤ mid := Nat.le_add_right _ _
    have hmid : mid ≤ hi := by
      show lo + (hi - lo) / 2 ≤ hi
      omega
    obtain ⟨hl, hlout⟩ := ihl hlo (hmid.trans hn) fun i h h' => hid i h (by omega)
    obtain ⟨hr, hrout⟩ := ihr hmid hn fun i h h' => by
      rw [hlout i (.inr h), hid i (by omega) h']
    have hl' := hl.congr fun i _ h' => hrout i (.inl h')
    obtain ⟨hm, hmout⟩ := mergeRun_ok hf hn hlo hmid hl' hr
    rw [sortRun, if_neg hlong]
    refine ⟨hm, fun i hout => ?_⟩
    rw [hmout i hout, hrout i (by omega), hlout i (by omega)]

theorem identity_ok (n : Nat) (ord : Nat → Nat) :
    ∀ i < n, forUp 0 n (fun i ord => update ord i i) ord i = i := by
  refine forUp_inv (P := fun k (ord : Nat → Nat) => ∀ i < k, ord i = i) (Nat.zero_le n)
    (fun i hi => absurd hi (Nat.not_lt_zero i)) ?_
  intro k ord _ _ h i hi
  rcases Nat.lt_succ_iff_lt_or_eq.mp hi with hi | rfl
  · rw [update_of_ne hi.ne, h i hi]
  · rw [update_self]

theorem sortPositions_ok (hf : Factored s n ws ln) {r : Runs} (hid : ∀ i < n, r.ord i = i) :
    Enumerates (key s ws ln) n (sortPositions s ws ln n r).ord := by
  obtain ⟨h, -⟩ := sortRun_ok hf 0 n r (Nat.zero_le n) le_rfl fun i _ hi => hid i hi
  exact ⟨fun i hi => h.lt i (Nat.zero_le i) hi, fun i j hij hj => h.sorted i j (Nat.zero_le i) hij hj⟩

end Bwt89
