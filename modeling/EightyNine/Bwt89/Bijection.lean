import EightyNine.Bwt89.RowsOk
import Mathlib.Data.Finite.Vector
import Mathlib.Data.FinEnum

/-!
# The LF cycles give the words back

A cycle of the LF map that is walked from the row of a word start writes that word
(`runCycle_ok`).  The least row that was not visited is always that of a word start, so
the words are visited in the order of their rows, and the output from the end on is the
words in the opposite order (`Visited`).  That order is the one in which the input has
them, up to words that are equal (`written_all`).
-/

namespace Bwt89

open Library List Nat
open Function (update update_of_ne update_self)

/-- `b` is the transform of `s`: the last bytes of the conjugates in order. -/
structure Rows (s : Nat → UInt8) (n : Nat) (ws ln ord : Nat → Nat) (b : Nat → UInt8) : Prop where
  factored : Factored s n ws ln
  enum : Enumerates (key s ws ln) n ord
  last : ∀ i < n, b i = s (prev ws ln (ord i))

variable {s : Nat → UInt8} {n : Nat} {ws ln ord : Nat → Nat} {b : Nat → UInt8}

/-- The LF map of the bytes. -/
def lfMap (b : Nat → UInt8) (n i : Nat) : Nat := lf (fun i => (b i).toNat) n i

theorem lfMap_lt {i : Nat} (hi : i < n) : lfMap b n i < n :=
  lf_lt hi

theorem Rows.ord_lfMap (h : Rows s n ws ln ord b) {i : Nat} (hi : i < n) :
    ord (lfMap b n i) = prev ws ln (ord i) :=
  h.factored.lf_prev h.enum h.last hi

/-! ## One cycle -/

/-- After `t` steps from the row of the word start `a`: the last `t` bytes of the word are
written, and the rows of the positions passed are marked. -/
structure Walked (s : Nat → UInt8) (n : Nat) (ws ln ord : Nat → Nat) (a : Nat) (w₀ : Walk)
    (t : Nat) (w : Walk) : Prop where
  t_le : t ≤ ln a
  done : w.done = true ↔ t = ln a
  row : t < ln a → w.pos < n ∧ ord w.pos = a + (ln a - t) % ln a
  wi : w.wi + t = w₀.wi
  marked : ∀ r < n, ws (ord r) = a → 0 < t → (ord r = a ∨ a + ln a < ord r + t) → w.rank r = -1
  kept : ∀ r < n, (ws (ord r) = a → t = 0 ∨ ord r ≠ a ∧ ord r + t ≤ a + ln a) →
    w.rank r = w₀.rank r
  new : ∀ k < t, w.out (w.wi + k) = s (a + (ln a - t) + k)
  old : ∀ k, w₀.wi ≤ k → w.out k = w₀.out k

/-- The word start `a` is that of row `i`, and no row of its word was visited. -/
structure Fresh (n : Nat) (ws ln ord : Nat → Nat) (b : Nat → UInt8) (a i : Nat) (w₀ : Walk) :
    Prop where
  row_lt : i < n
  row : ord i = a
  start : ws a = a
  rank : ∀ r < n, ws (ord r) = a → w₀.rank r = lfMap b n r
  room : ln a ≤ w₀.wi

theorem walked_start (h : Rows s n ws ln ord b) {a i : Nat} {w₀ : Walk}
    (hf : Fresh n ws ln ord b a i w₀) :
    Walked s n ws ln ord a w₀ 0 { w₀ with pos := i, done := false } := by
  have ha : a < n := hf.row ▸ h.enum.lt i hf.row_lt
  have hpos := h.factored.pos ha
  refine ⟨Nat.zero_le _, ?_, fun _ => ⟨hf.row_lt, ?_⟩, rfl, fun r _ _ h0 => ?_, fun r _ _ => rfl,
    fun k hk => absurd hk (Nat.not_lt_zero k), fun k _ => rfl⟩
  · simp only [Bool.false_eq_true, false_iff]
    omega
  · rw [Nat.sub_zero, mod_self, Nat.add_zero]
    exact hf.row
  · exact absurd h0 (lt_irrefl 0)

/-- Before the `t`-th position of a word, from its start backwards around, is the next. -/
theorem Factored.prev_back (h : Factored s n ws ln) {a t : Nat} (ha : a < n) (hs : ws a = a)
    (ht : t < ln a) :
    ws (a + (ln a - t) % ln a) = a ∧ a + (ln a - t) % ln a < n ∧
      prev ws ln (a + (ln a - t) % ln a) = a + (ln a - (t + 1)) := by
  have hpos := h.pos ha
  have hend := h.end_le a ha
  rw [hs] at hend
  have hmod := mod_lt (ln a - t) hpos
  have hsame := h.same a ha (a + (ln a - t) % ln a) (by omega) (by omega)
  rw [hs] at hsame
  refine ⟨hsame.1, by omega, ?_⟩
  rcases Nat.eq_zero_or_pos t with rfl | h0
  · rw [Nat.sub_zero, mod_self, Nat.add_zero, h.prev_of_eq ha hs]
  · have hmod' : (ln a - t) % ln a = ln a - t := mod_eq_of_lt (by omega)
    rw [hmod'] at hsame hmod ⊢
    rw [h.prev_of_lt (by omega) (by omega)]
    omega

/-- One step of the walk back through a word. -/
theorem walkOne_ok (h : Rows s n ws ln ord b) {a i t : Nat} {w₀ w : Walk}
    (hf : Fresh n ws ln ord b a i w₀) (hw : Walked s n ws ln ord a w₀ t w)
    (hdone : w.done = false) :
    ∃ w', walkOne b w = some w' ∧ Walked s n ws ln ord a w₀ (t + 1) w' := by
  have hfac := h.factored
  have ha : a < n := hf.row ▸ h.enum.lt i hf.row_lt
  have hroom := hf.room
  have hwi := hw.wi
  have ht : t < ln a := by
    refine lt_of_le_of_ne hw.t_le fun he => ?_
    rw [hw.done.mpr he] at hdone
    cases hdone
  obtain ⟨hpos, hrow⟩ := hw.row ht
  obtain ⟨hws, hlt, hprev⟩ := hfac.prev_back ha hf.start ht
  rw [← hrow] at hws hlt hprev
  have hback : ord w.pos = a ∧ t = 0 ∨ ord w.pos + t = a + ln a ∧ 0 < t := by
    rcases Nat.eq_zero_or_pos t with rfl | h0
    · rw [Nat.sub_zero, mod_self, Nat.add_zero] at hrow
      exact .inl ⟨hrow, rfl⟩
    · rw [mod_eq_of_lt (by omega)] at hrow
      exact .inr ⟨by omega, h0⟩
  -- the row was not visited, so its rank is the LF map
  have hnxt : w.rank w.pos = lfMap b n w.pos := by
    rw [hw.kept _ hpos (fun _ => by omega), hf.rank _ hpos hws]
  have hnlt : lfMap b n w.pos < n := lfMap_lt hpos
  have hnord : ord (lfMap b n w.pos) = a + (ln a - (t + 1)) := by
    rw [h.ord_lfMap hpos, hprev]
  have hnws : ws (ord (lfMap b n w.pos)) = a := by
    rw [h.ord_lfMap hpos, hfac.ws_prev hlt, hws]
  have hbyte : b w.pos = s (a + (ln a - (t + 1))) := by
    rw [h.last _ hpos, hprev]
  clear hrow hprev
  -- the new marks, bytes and ranks
  have hmarked : ∀ r < n, ws (ord r) = a → (ord r = a ∨ a + ln a < ord r + (t + 1)) →
      update w.rank w.pos (-1) r = -1 := by
    intro r hr hra hpast
    by_cases hrp : r = w.pos
    · rw [hrp, update_self]
    · rw [update_of_ne hrp]
      have hne : ord r ≠ ord w.pos := fun he => hrp (h.enum.inj hr hpos he)
      have hin := hfac.lt_end (ord r) (h.enum.lt r hr)
      have hlns : ln (ord r) = ln a := by
        have := hfac.ln_ws (h.enum.lt r hr)
        rw [hra] at this
        exact this.symm
      rw [hra, hlns] at hin
      exact hw.marked r hr hra (by omega) (by omega)
  have hkept : ∀ r < n, (ws (ord r) = a → ord r ≠ a ∧ ord r + (t + 1) ≤ a + ln a) →
      update w.rank w.pos (-1) r = w₀.rank r := by
    intro r hr hnot
    have hrp : r ≠ w.pos := by
      rintro rfl
      have := hnot hws
      omega
    rw [update_of_ne hrp]
    refine hw.kept r hr fun hra => .inr ?_
    have := hnot hra
    omega
  have hnew : ∀ k < t + 1, update w.out (w.wi - 1) (b w.pos) (w.wi - 1 + k) =
      s (a + (ln a - (t + 1)) + k) := by
    intro k hk
    cases k with
    | zero => rw [Nat.add_zero, Nat.add_zero, update_self, hbyte]
    | succ k =>
      have h1 : w.wi - 1 + (k + 1) = w.wi + k := by omega
      have h2 : a + (ln a - (t + 1)) + (k + 1) = a + (ln a - t) + k := by omega
      rw [h1, h2, update_of_ne (by omega), hw.new k (by omega)]
  have hold : ∀ k, w₀.wi ≤ k → update w.out (w.wi - 1) (b w.pos) k = w₀.out k := by
    intro k hk
    rw [update_of_ne (by omega), hw.old k hk]
  have hwi0 : w.wi ≠ 0 := by omega
  have hnneg : ¬ (lfMap b n w.pos : Int) < 0 := by omega
  rw [walkOne, if_neg hwi0]
  simp only [hnxt, hnneg, if_false, Int.toNat_natCast]
  by_cases hend : t + 1 = ln a
  · -- the word is written: the next row is that of its start
    have hstart : update w.rank w.pos (-1) (lfMap b n w.pos) = -1 :=
      hmarked _ hnlt hnws (.inl (by rw [hnord]; omega))
    rw [hstart, if_pos (by decide)]
    refine ⟨_, rfl, ⟨hend.le, iff_of_true rfl hend, fun hlt' => by omega, by simp only; omega,
      fun r hr hra _ hp => hmarked r hr hra hp, fun r hr hn => hkept r hr fun hra => ?_, hnew,
      hold⟩⟩
    rcases hn hra with h0 | h0
    · omega
    · exact h0
  · have hfresh : update w.rank w.pos (-1) (lfMap b n w.pos) =
        lfMap b n (lfMap b n w.pos) := by
      rw [hkept _ hnlt fun _ => by rw [hnord]; omega, hf.rank _ hnlt hnws]
    rw [hfresh, if_neg (by omega)]
    refine ⟨_, rfl, ⟨by omega, iff_of_false (by simp [hdone]) hend, fun hlt' => ⟨hnlt, ?_⟩,
      by simp only; omega, fun r hr hra _ hp => hmarked r hr hra hp,
      fun r hr hn => hkept r hr fun hra => ?_, hnew, hold⟩⟩
    · rw [hnord, mod_eq_of_lt (by omega)]
    · rcases hn hra with h0 | h0
      · omega
      · exact h0

theorem runCycle_ok (h : Rows s n ws ln ord b) {a i : Nat} {w₀ : Walk}
    (hf : Fresh n ws ln ord b a i w₀) (hn : w₀.wi ≤ n) :
    ∃ w, runCycle b n i w₀ = some w ∧ Walked s n ws ln ord a w₀ (ln a) w := by
  have hrun : ∃ w, runCycle b n i w₀ = some w ∧ (∃ t, Walked s n ws ln ord a w₀ t w) ∧
      (!w.done) = false := by
    refine whileLoop_spec (fun w => w.wi) ?_ ⟨0, walked_start h hf⟩ (lt_succ_of_le hn)
    rintro w ⟨t, hw⟩ hc
    obtain ⟨w', hstep, hw'⟩ := walkOne_ok h hf hw (by simpa using hc)
    refine ⟨w', hstep, ⟨_, hw'⟩, ?_⟩
    have h1 := hw.wi
    have h2 := hw'.wi
    show w'.wi < w.wi
    omega
  obtain ⟨w, hrun, ⟨t, hw⟩, hc⟩ := hrun
  obtain rfl : t = ln a := hw.done.mp (by simpa using hc)
  exact ⟨w, hrun, hw⟩

/-! ## The order of the words -/

/-- The bytes of the word that starts at `a`. -/
def content (s : Nat → UInt8) (ln : Nat → Nat) (a : Nat) : List UInt8 :=
  (List.range (ln a)).map fun k => s (a + k)

/-- The word starts of the first `i` rows, in their order. -/
def visits (ws ord : Nat → Nat) (i : Nat) : List Nat :=
  ((List.range i).map ord).filter fun p => decide (ws p = p)

/-- What the cycles of the first `i` rows write: the words, the last one first. -/
def written (s : Nat → UInt8) (ws ln ord : Nat → Nat) (i : Nat) : List UInt8 :=
  (visits ws ord i).reverse.flatMap (content s ln)

theorem visits_succ (ws ord : Nat → Nat) (i : Nat) :
    visits ws ord (i + 1) = visits ws ord i ++ if ws (ord i) = ord i then [ord i] else [] := by
  rw [visits, visits, range_succ, map_append, filter_append]
  congr 1
  split_ifs with h <;> simp [h]

theorem written_succ (s : Nat → UInt8) (ws ln ord : Nat → Nat) (i : Nat) :
    written s ws ln ord (i + 1) =
      (if ws (ord i) = ord i then content s ln (ord i) else []) ++ written s ws ln ord i := by
  rw [written, visits_succ, reverse_append, flatMap_append, written]
  congr 1
  split_ifs <;> simp

theorem written_mono (s : Nat → UInt8) (ws ln ord : Nat → Nat) {i j : Nat} (hij : i ≤ j) :
    (written s ws ln ord i).length ≤ (written s ws ln ord j).length := by
  induction j, hij using le_induction with
  | base => exact le_rfl
  | succ j _ ih =>
    rw [written_succ, length_append]
    omega

/-- The words of the starts, in the order of the input, are the input. -/
theorem Factored.flatMap_starts (h : Factored s n ws ln) {p : Nat} (hp : p < n) :
    ((List.range (p + 1)).filter fun a => decide (ws a = a)).flatMap (content s ln) =
      readBytes (ws p + ln p) s := by
  induction p with
  | zero =>
    have hws : ws 0 = 0 := le_zero.mp (h.start_le 0 hp)
    simp [hws, content, readBytes]
  | succ p ih =>
    have hle := h.start_le (p + 1) hp
    have hp' : p < n := by omega
    rw [range_succ, filter_append, flatMap_append, ih hp']
    by_cases hws : ws (p + 1) = p + 1
    · -- a new word: the one before ends here
      have hend : ws p + ln p = p + 1 := by
        have hlt := h.lt_end p hp'
        by_contra hne
        have := (h.same p hp' (p + 1) (by have := h.start_le p hp'; omega) (by omega)).1
        have := h.start_le p hp'
        omega
      simp [hws, hend, content, readBytes, range_add, map_map, Function.comp_def]
    · have hsame := h.same (p + 1) hp p (by omega) (by have := h.lt_end _ hp; omega)
      simp [hws, hsame.1, hsame.2]

theorem map_eq_of_map_eq {α β γ : Type} {f : α → β} {g : α → γ} :
    ∀ {l₁ l₂ : List α}, (∀ a ∈ l₁, ∀ b ∈ l₂, f a = f b → g a = g b) →
      l₁.map f = l₂.map f → l₁.map g = l₂.map g := by
  intro l₁
  induction l₁ with
  | nil =>
    intro l₂ _ h
    rw [map_nil, eq_comm, map_eq_nil_iff] at h
    rw [h]
  | cons a l₁ ih =>
    intro l₂ hg h
    cases l₂ with
    | nil => cases h
    | cons b l₂ =>
      rw [map_cons, map_cons, List.cons.injEq] at h
      rw [map_cons, map_cons, hg a mem_cons_self b mem_cons_self h.1,
        ih (fun x hx y hy => hg x (mem_cons_of_mem a hx) y (mem_cons_of_mem b hy)) h.2]

theorem Factored.content_eq (h : Factored s n ws ln) {p q : Nat} (hp : p < n) (hq : q < n)
    (hsp : ws p = p) (hsq : ws q = q) (he : conj s ws ln p = conj s ws ln q) :
    content s ln p = content s ln q := by
  obtain ⟨hln, -⟩ := h.off_eq hp hq he
  rw [content, content, hln]
  refine map_congr_left fun k hk => ?_
  have hk := mem_range.mp hk
  have hbyte : ∀ {x : Nat}, ws x = x → k < ln x → conjByte s ws ln x k = s (x + k) := by
    intro x hx hkx
    rw [conjByte, hx, Nat.sub_self, Nat.zero_add, mod_eq_of_lt hkx]
  have hval : conjByte s ws ln p k = conjByte s ws ln q k := congrFun he k
  rwa [hbyte hsp (by omega), hbyte hsq hk] at hval

/-- The words in the opposite order of their rows are the input. -/
theorem Rows.written_all (h : Rows s n ws ln ord b) (hn : 0 < n) :
    written s ws ln ord n = readBytes n s := by
  have hfac := h.factored
  have hperm : (visits ws ord n).Perm ((List.range n).filter fun a => decide (ws a = a)) := by
    refine List.Perm.filter _ ?_
    refine (perm_ext_iff_of_nodup ?_ nodup_range).mpr fun x => ?_
    · refine List.Nodup.map_on (fun i hi j hj he => ?_) nodup_range
      exact h.enum.inj (mem_range.mp hi) (mem_range.mp hj) he
    · rw [mem_map, mem_range]
      constructor
      · rintro ⟨i, hi, rfl⟩
        exact h.enum.lt i (mem_range.mp hi)
      · intro hx
        obtain ⟨i, hi, rfl⟩ := h.enum.surj hx
        exact ⟨i, mem_range.mpr hi, rfl⟩
  have hstart : ∀ x ∈ (List.range n).filter (fun a => decide (ws a = a)), x < n ∧ ws x = x := by
    intro x hx
    rw [mem_filter, mem_range, decide_eq_true_eq] at hx
    exact hx
  have hstart' : ∀ x ∈ (visits ws ord n).reverse, x < n ∧ ws x = x := fun x hx =>
    hstart x (hperm.mem_iff.mp (mem_reverse.mp hx))
  -- both lists have the words from the greatest to the least
  have hrows : ((visits ws ord n).reverse.map (conj s ws ln)).Pairwise (fun x y => y ≤ x) := by
    rw [pairwise_map, pairwise_reverse]
    refine List.Pairwise.filter _ (pairwise_map.mpr ?_)
    refine List.Pairwise.imp_of_mem ?_ (pairwise_lt_range (n := n))
    intro i j _ hj hij
    rcases key_lt_iff.mp (h.enum.sorted i j hij (mem_range.mp hj)) with hlt | ⟨heq, -⟩
    · exact hlt.le
    · exact heq.le
  have hinput : (((List.range n).filter fun a => decide (ws a = a)).map (conj s ws ln)).Pairwise
      (fun x y => y ≤ x) := by
    rw [pairwise_map]
    refine List.Pairwise.imp_of_mem ?_ (List.Pairwise.filter _ (pairwise_lt_range (n := n)))
    intro p q hp hq hpq
    have hword : ∀ {x : Nat}, ws x = x → conj s ws ln x = wordAt s (ws x) (ln x) := by
      intro x hx
      rw [conj, conjByte_eq, hx, Nat.sub_self, shift_zero, wordAt]
    rw [hword (hstart p hp).2, hword (hstart q hq).2]
    exact hfac.anti p q hpq.le (hstart q hq).1
  have hmap : (visits ws ord n).reverse.map (conj s ws ln) =
      ((List.range n).filter fun a => decide (ws a = a)).map (conj s ws ln) :=
    List.Perm.eq_of_pairwise (fun x y _ _ hxy hyx => le_antisymm hyx hxy) hrows hinput
      (((reverse_perm _).trans hperm).map _)
  have hcontent : (visits ws ord n).reverse.map (content s ln) =
      ((List.range n).filter fun a => decide (ws a = a)).map (content s ln) := by
    refine map_eq_of_map_eq (fun x hx y hy he => ?_) hmap
    obtain ⟨hx, hxs⟩ := hstart' x hx
    obtain ⟨hy, hys⟩ := hstart y hy
    exact hfac.content_eq hx hy hxs hys he
  have hlast : ws (n - 1) + ln (n - 1) = n := by
    have h1 := hfac.end_le (n - 1) (by omega)
    have h2 := hfac.lt_end (n - 1) (by omega)
    omega
  have hall := hfac.flatMap_starts (p := n - 1) (by omega)
  rw [hlast, Nat.sub_add_cancel hn] at hall
  rw [written, ← hall, flatMap_def, flatMap_def, hcontent]

/-! ## All cycles -/

/-- Before row `i`: the words of the rows before are written and their rows are marked. -/
structure Visited (s : Nat → UInt8) (n : Nat) (ws ln ord : Nat → Nat) (b : Nat → UInt8)
    (i : Nat) (w : Walk) : Prop where
  seen : ∀ r < n, (∃ j < i, ord j = ws (ord r)) → w.rank r = -1
  fresh : ∀ r < n, (∀ j < i, ord j ≠ ws (ord r)) → w.rank r = lfMap b n r
  wi : w.wi + (written s ws ln ord i).length = n
  out : ∀ k (hk : k < (written s ws ln ord i).length),
    w.out (w.wi + k) = (written s ws ln ord i).get ⟨k, hk⟩

/-- The row of a word start comes before those of the other positions of the word. -/
theorem Factored.key_start_lt (h : Factored s n ws ln) {p : Nat} (hp : p < n) (hne : ws p ≠ p) :
    key s ws ln (ws p) < key s ws ln p := by
  have hle := h.start_le p hp
  have hconj : conj s ws ln (ws p) ≤ conj s ws ln p := by
    rw [conj, conj, conjByte_eq, conjByte_eq, h.ws_ws hp, h.ln_ws hp, Nat.sub_self, shift_zero]
    exact (h.lyndon p hp).le_shift _
  rw [key_lt_iff]
  rcases lt_or_eq_of_le hconj with hlt | heq
  · exact .inl hlt
  · exact .inr ⟨heq, by omega⟩

/-- One row of the loop: its word is written if the row is that of a word start, and
otherwise the row was visited. -/
theorem visited_step (h : Rows s n ws ln ord b) {i : Nat} (hi : i < n) {w : Walk}
    (hw : Visited s n ws ln ord b i w) :
    ∃ w', (if w.rank i ≥ 0 then runCycle b n i w else some w) = some w' ∧
      Visited s n ws ln ord b (i + 1) w' := by
  have hfac := h.factored
  have ha : ord i < n := h.enum.lt i hi
  have hwi := hw.wi
  have hsucc := written_succ s ws ln ord i
  by_cases hstart : ws (ord i) = ord i
  · rw [if_pos hstart] at hsucc
    have hnone : ∀ j < i, ord j ≠ ord i := by
      intro j hj he
      have := h.enum.inj (by omega) hi he
      omega
    have hroom : ln (ord i) + (written s ws ln ord i).length ≤ n := by
      have hmono := written_mono s ws ln ord (succ_le_of_lt hi)
      rw [h.written_all (by omega), readBytes_length, hsucc, length_append] at hmono
      simpa [content] using hmono
    have hfresh : Fresh n ws ln ord b (ord i) i w :=
      ⟨hi, rfl, hstart, fun r hr hra => hw.fresh r hr fun j hj => by rw [hra]; exact hnone j hj,
        by omega⟩
    have hrank : w.rank i ≥ 0 := by
      rw [hfresh.rank i hi hstart]
      omega
    obtain ⟨w', hrun, hw'⟩ := runCycle_ok h hfresh (by omega)
    have hwi' := hw'.wi
    have hpos := hfac.pos ha
    refine ⟨w', by rw [if_pos hrank, hrun], ⟨?_, ?_, ?_, ?_⟩⟩
    · rintro r hr ⟨j, hj, hjr⟩
      rcases Nat.lt_succ_iff_lt_or_eq.mp hj with hj | rfl
      · rw [hw'.kept r hr fun hra => absurd (hjr.trans hra) (hnone j hj)]
        exact hw.seen r hr ⟨j, hj, hjr⟩
      · have hle := hfac.start_le _ (h.enum.lt r hr)
        exact hw'.marked r hr hjr.symm hpos (by omega)
    · intro r hr hnot
      rw [hw'.kept r hr fun hra => absurd hra.symm (hnot i (lt_succ_self i))]
      exact hw.fresh r hr fun j hj => hnot j (by omega)
    · rw [hsucc, length_append, content, length_map, length_range]
      omega
    · intro k hk
      have hlen : (content s ln (ord i)).length = ln (ord i) := by simp [content]
      simp only [hsucc, get_eq_getElem] at hk ⊢
      rw [length_append, hlen] at hk
      rcases Nat.lt_or_ge k (ln (ord i)) with hkl | hkl
      · rw [getElem_append_left (by omega), hw'.new k hkl, Nat.sub_self, Nat.add_zero]
        simp [content]
      · rw [getElem_append_right (by omega), hw'.old _ (by omega)]
        have hidx : w'.wi + k = w.wi + (k - (content s ln (ord i)).length) := by omega
        rw [hidx]
        exact hw.out _ (by omega)
  · rw [if_neg hstart, nil_append] at hsucc
    obtain ⟨j, hj, hja⟩ := h.enum.surj (x := ws (ord i)) (by
      have := hfac.start_le _ ha
      omega)
    have hji : j < i := by
      rw [← h.enum.lt_iff hj hi, hja]
      exact hfac.key_start_lt ha hstart
    have hrank : ¬ w.rank i ≥ 0 := by
      rw [hw.seen i hi ⟨j, hji, hja⟩]
      decide
    refine ⟨w, by rw [if_neg hrank], ⟨?_, fun r hr hnot => hw.fresh r hr fun j hj =>
      hnot j (by omega), by rw [hsucc, hwi], by rw [hsucc]; exact hw.out⟩⟩
    rintro r hr ⟨k, hk, hkr⟩
    rcases Nat.lt_succ_iff_lt_or_eq.mp hk with hk | rfl
    · exact hw.seen r hr ⟨k, hk, hkr⟩
    · exact absurd (by rw [hkr]; exact hfac.ws_ws (h.enum.lt r hr)) hstart

theorem runCycles_ok (h : Rows s n ws ln ord b) (hn : 0 < n) {w : Walk} (hwi : w.wi = n)
    (hrank : ∀ r < n, w.rank r = lfMap b n r) :
    ∃ w', runCycles b n w = some w' ∧ readBytes n w'.out = readBytes n s := by
  have hrun : ∃ w', runCycles b n w = some w' ∧ Visited s n ws ln ord b n w' := by
    refine forUp_inv (P := fun i o => ∃ w', o = some w' ∧ Visited s n ws ln ord b i w')
      (Nat.zero_le n) ?_ ?_
    · refine ⟨w, rfl, ⟨?_, fun r hr _ => hrank r hr, hwi, fun k hk => absurd hk (Nat.not_lt_zero k)⟩⟩
      rintro r - ⟨j, hj, -⟩
      exact absurd hj (Nat.not_lt_zero j)
    · rintro i o - hi ⟨w', rfl, hw'⟩
      exact visited_step h hi hw'
  obtain ⟨w', hrun, hw'⟩ := hrun
  refine ⟨w', hrun, ?_⟩
  have hall := h.written_all hn
  have hwi' := hw'.wi
  have hlen : (written s ws ln ord n).length = n := by rw [hall, readBytes_length]
  rw [← hall]
  refine ext_getElem (by rw [readBytes_length, hlen]) fun k hk hk' => ?_
  have hout := hw'.out k hk'
  rw [show w'.wi + k = k by omega] at hout
  simpa [readBytes] using hout

end Bwt89

/-!
# The bijective transform is a bijection

`bbwt` leaves the last bytes of the conjugates (`bbwt_ok`), and `ibbwt` gives the input
back from them (`ibbwt_ok`).  So `bbwt` is one to one on the strings of one length, which
are finitely many, and `ibbwt` is also its right inverse (`bbwt_bijection`).
-/

namespace Bwt89

open Library List
open Function (update update_of_ne update_self)

/-- What `bbwt` writes does not depend on the output buffer and is a transform of the
input. -/
theorem bbwt_ok {s : List UInt8} (hn : 0 < s.length) (hmax : s.length ≤ maxN) :
    ∃ (b : Nat → UInt8) (ws ln ord : Nat → Nat),
      Rows (bytesOf s) s.length ws ln ord b ∧
        ∀ alloc out, (∀ k, alloc k = true) →
          bbwt alloc s out = some (.ok, readBytes s.length b) := by
  obtain ⟨f, hf, hfac⟩ := factorize_ok (bytesOf s) hn
  obtain ⟨r, hr⟩ : ∃ r, sortPositions (bytesOf s) f.ws f.ln s.length
      { ord := forUp 0 s.length (fun i ord => update ord i i) fun _ => 0
        tmp := fun _ => 0 } = r := ⟨_, rfl⟩
  have henum : Enumerates (key (bytesOf s) f.ws f.ln) s.length r.ord := by
    rw [← hr]
    exact sortPositions_ok hfac (identity_ok s.length _)
  refine ⟨fun i => bytesOf s (prev f.ws f.ln (r.ord i)), f.ws, f.ln, r.ord,
    ⟨hfac, henum, fun i _ => rfl⟩, fun alloc out halloc => ?_⟩
  have hemit : ∀ i < s.length, forUp 0 s.length (emitConjugate (bytesOf s) f.ws f.ln r.ord)
      (bytesOf out) i = bytesOf s (prev f.ws f.ln (r.ord i)) := by
    refine forUp_inv (P := fun k (a : Nat → UInt8) =>
      ∀ i < k, a i = bytesOf s (prev f.ws f.ln (r.ord i))) (Nat.zero_le _)
      (fun i hi => absurd hi (Nat.not_lt_zero i)) ?_
    intro k a _ _ h i hi
    rcases Nat.lt_succ_iff_lt_or_eq.mp hi with hi | rfl
    · rw [emitConjugate, update_of_ne hi.ne, h i hi]
    · rw [emitConjugate, update_self]
      rfl
  simp only [bbwt, if_neg (not_lt.mpr hmax), if_neg hn.ne', halloc, Bool.not_true,
    Bool.false_eq_true, if_false, hf, Option.map_some, hr, readBytes_congr hemit]

/-- The inverse of a transform of a string is the string. -/
theorem ibbwt_ok {s b : List UInt8} (hlen : b.length = s.length) (hn : 0 < s.length)
    (hmax : s.length ≤ maxN) {ws ln ord : Nat → Nat}
    (h : Rows (bytesOf s) s.length ws ln ord (bytesOf b)) {alloc : Nat → Bool}
    (halloc : ∀ k, alloc k = true) (out : List UInt8) :
    ibbwt alloc b out = some (.ok, s) := by
  let start : Walk := ⟨0, bytesOf out, (buildRanks (bytesOf b) s.length).rank, s.length, false⟩
  have hwalk : ∃ w, runCycles (bytesOf b) s.length start = some w ∧
      readBytes s.length w.out = readBytes s.length (bytesOf s) :=
    runCycles_ok h hn rfl (buildRanks_eq (bytesOf b) s.length)
  obtain ⟨w, hrun, hout⟩ := hwalk
  rw [readBytes_bytesOf] at hout
  simp only [ibbwt, hlen, if_neg (not_lt.mpr hmax), if_neg hn.ne', halloc, Bool.not_true,
    Bool.false_eq_true, if_false, hrun, start, Option.map_some, hout]

/-- Each string has a transform, whatever is in the output buffer, from which the inverse
gives it back. -/
theorem exists_transform (s : List UInt8) (hmax : s.length ≤ maxN) :
    ∃ b : List UInt8, b.length = s.length ∧
      ∀ alloc out, (∀ k, alloc k = true) → out.length = s.length →
        bbwt alloc s out = some (.ok, b) ∧ ibbwt alloc b out = some (.ok, s) := by
  rcases Nat.eq_zero_or_pos s.length with h0 | hn
  · obtain rfl := length_eq_zero_iff.mp h0
    refine ⟨[], rfl, fun alloc out _ hout => ?_⟩
    obtain rfl := length_eq_zero_iff.mp hout
    exact ⟨rfl, rfl⟩
  · obtain ⟨b, ws, ln, ord, hrows, hb⟩ := bbwt_ok hn hmax
    have hread : Rows (bytesOf s) s.length ws ln ord (bytesOf (readBytes s.length b)) :=
      ⟨hrows.factored, hrows.enum, fun i hi => by rw [bytesOf_readBytes b hi, hrows.last i hi]⟩
    refine ⟨readBytes s.length b, readBytes_length _ _, fun alloc out halloc _ => ?_⟩
    exact ⟨hb alloc out halloc, ibbwt_ok (readBytes_length _ _) hn hmax hread halloc out⟩

/-- The transform is one to one on the strings of a length, and so onto. -/
theorem exists_preimage (b : List UInt8) (hmax : b.length ≤ maxN) :
    ∃ t : List UInt8, t.length = b.length ∧
      ∀ alloc out, (∀ k, alloc k = true) → out.length = b.length →
        bbwt alloc t out = some (.ok, b) ∧ ibbwt alloc b out = some (.ok, t) := by
  have htransform : ∀ v : List.Vector UInt8 b.length, ∃ c : List.Vector UInt8 b.length,
      ∀ alloc out, (∀ k, alloc k = true) → out.length = b.length →
        bbwt alloc v.val out = some (.ok, c.val) ∧
          ibbwt alloc c.val out = some (.ok, v.val) := by
    intro v
    obtain ⟨c, hlen, hc⟩ := exists_transform v.val (v.property.symm ▸ hmax)
    refine ⟨⟨c, hlen.trans v.property⟩, fun alloc out halloc hout => ?_⟩
    exact hc alloc out halloc (hout.trans v.property.symm)
  choose f hf using htransform
  have hinj : Function.Injective f := by
    intro v v' he
    have h1 := (hf v (fun _ => true) b (fun _ => rfl) rfl).2
    have h2 := (hf v' (fun _ => true) b (fun _ => rfl) rfl).2
    rw [he, h2] at h1
    exact Subtype.ext (congrArg Prod.snd (Option.some.inj h1)).symm
  obtain ⟨v, hv⟩ := Finite.injective_iff_surjective.mp hinj ⟨b, rfl⟩
  refine ⟨v.val, v.property, fun alloc out halloc hout => ?_⟩
  have h := hf v alloc out halloc hout
  rwa [hv] at h

/-- Each string is the last column of a sorting of conjugates. -/
theorem exists_rows {b : List UInt8} (hn : 0 < b.length) (hmax : b.length ≤ maxN) :
    ∃ (s : Nat → UInt8) (ws ln ord : Nat → Nat), Rows s b.length ws ln ord (bytesOf b) := by
  obtain ⟨t, hlen, ht⟩ := exists_preimage b hmax
  obtain ⟨c, ws, ln, ord, hrows, hc⟩ := bbwt_ok (hlen ▸ hn) (hlen ▸ hmax)
  have hb : readBytes t.length c = b := by
    have h1 := (ht (fun _ => true) b (fun _ => rfl) rfl).1
    rw [hc _ _ fun _ => rfl] at h1
    exact congrArg Prod.snd (Option.some.inj h1)
  refine ⟨bytesOf t, ws, ln, ord, hlen ▸ ⟨hrows.factored, hrows.enum, fun i hi => ?_⟩⟩
  rw [← hb, bytesOf_readBytes c hi, hrows.last i hi]

/-- The two calls undo each other, both ways, on the strings they accept. -/
theorem bbwt_bijection (s : List UInt8) (hmax : s.length ≤ maxN) {alloc : Nat → Bool}
    (halloc : ∀ k, alloc k = true) {out out' : List UInt8} (hout : out.length = s.length)
    (hout' : out'.length = s.length) :
    (∃ b, bbwt alloc s out = some (.ok, b) ∧ b.length = s.length ∧
      ibbwt alloc b out' = some (.ok, s)) ∧
    ∃ t, ibbwt alloc s out = some (.ok, t) ∧ t.length = s.length ∧
      bbwt alloc t out' = some (.ok, s) := by
  constructor
  · obtain ⟨b, hlen, hb⟩ := exists_transform s hmax
    exact ⟨b, (hb alloc out halloc hout).1, hlen, (hb alloc out' halloc hout').2⟩
  · obtain ⟨t, hlen, ht⟩ := exists_preimage s hmax
    exact ⟨t, (ht alloc out halloc hout).2, hlen, (ht alloc out' halloc hout').1⟩

/-- The word "banana". -/
def banana : List UInt8 := [98, 97, 110, 97, 110, 97]

theorem bbwt_bijection_banana :
    (∃ b, bbwt (fun _ => true) banana banana = some (.ok, b) ∧ b.length = 6 ∧
      ibbwt (fun _ => true) b banana = some (.ok, banana)) ∧
    ∃ t, ibbwt (fun _ => true) banana banana = some (.ok, t) ∧ t.length = 6 ∧
      bbwt (fun _ => true) t banana = some (.ok, banana) :=
  bbwt_bijection banana (by decide) (fun _ => rfl) rfl rfl

end Bwt89
