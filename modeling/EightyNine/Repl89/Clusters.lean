import EightyNine.Repl89.EditOk

/-!
# librepl89: letters and marks

A segmentation by scalars in which a mark stays with what is before it.  On letters,
combining marks and line feeds it is the one of libu89, and it keeps what `Segments`
asks for.
-/

namespace Repl89

open List

open U89 (utf8Decode utf8Prev utf8Valid text text_cons)

variable {s : List UInt8} {pos q i : Nat}

/-- C0 and C1 controls. -/
def isCc (cp : Nat) : Bool := cp < 0x20 || 0x7F ≤ cp && cp < 0xA0

/-- The combining diacritical marks. -/
def isDiacritic (cp : Nat) : Bool := 0x300 ≤ cp && cp < 0x370

/-- A boundary: the ends, and between two scalars that do not belong together. -/
def marksBoundary (s : List UInt8) (pos : Nat) : Bool :=
  pos == 0 || pos == s.length ||
    match utf8Prev s pos, utf8Decode s pos with
    | .ok (a, _), .ok (b, _) =>
      if a = 0x0D ∧ b = 0x0A then false else isCc a || isCc b || !isDiacritic b
    | _, _ => false

/-- The next boundary after `q`, at most `k` further on. -/
def marksNext (s : List UInt8) : Nat → Nat → Nat
  | 0, q => q
  | k + 1, q => if marksBoundary s (q + 1) then q + 1 else marksNext s k (q + 1)

/-- The last boundary before an offset. -/
def marksPrev (s : List UInt8) : Nat → Nat
  | 0 => 0
  | q + 1 => if marksBoundary s q then q else marksPrev s q

/-- Letters of one cell, with their marks. -/
def marks : Unicode where
  isControl := isCc
  isMark := isDiacritic
  defaultIgnorable := fun _ => false
  eastAsianWidth := fun _ => .other
  isEmojiPresentation := fun _ => false
  graphemeNext := fun s pos => marksNext s (s.length - pos) pos
  graphemePrev := marksPrev
  graphemeBoundary := marksBoundary

/-! ## Starts of scalars -/

theorem between_of_lead {cs : List Char} (hlt : pos < (text cs).length)
    (h : U89.continues ((text cs).getD pos 0) = false) : Between (text cs) pos := by
  induction cs generalizing pos with
  | nil => simp at hlt
  | cons c cs ih =>
    rw [text_cons] at hlt h ⊢
    rcases Nat.lt_or_ge pos (String.utf8EncodeChar c).length with hin | hout
    · obtain ⟨b, l, hbl, -, hl, -⟩ := U89.utf8EncodeChar_shape c
      cases pos with
      | zero => exact ⟨[], c :: cs, by simp, rfl⟩
      | succ k =>
        rw [getD_eq_getElem?_getD, List.getElem?_append_left hin, hbl,
          List.getElem?_cons_succ, List.getElem?_eq_getElem (by rw [hbl] at hin; simpa using hin),
          Option.getD_some, hl _ (getElem_mem _)] at h
        cases h
    · obtain ⟨k, rfl⟩ := Nat.exists_eq_add_of_le hout
      have hk : U89.continues ((text cs).getD k 0) = false := by
        rwa [getD_eq_getElem?_getD, List.getElem?_append_right (by omega),
          Nat.add_sub_cancel_left, ← getD_eq_getElem?_getD] at h
      obtain ⟨as, bs, htext, rfl⟩ := ih (by simp only [length_append] at hlt; omega) hk
      exact ⟨c :: as, bs, by simp [htext], by simp⟩

theorem exists_text (h : utf8Valid s = true) : ∃ cs, s = text cs := by
  obtain ⟨cps, hcps⟩ := U89.utf8Valid_iff.mp h
  obtain ⟨cs, -, rfl⟩ := U89.codes_iff.mp hcps
  exact ⟨cs, rfl⟩

theorem between_of_decode {cp next : Nat} (hs : utf8Valid s = true)
    (h : utf8Decode s pos = .ok (cp, next)) : Between s pos := by
  obtain ⟨cs, rfl⟩ := exists_text hs
  obtain ⟨c, ⟨r, hr⟩, -, -⟩ := U89.utf8Decode_iff.mp h
  obtain ⟨b, l, hbl, hb, -, -⟩ := U89.utf8EncodeChar_shape c
  refine between_of_lead (U89.lt_of_drop hr.symm) ?_
  have hget : (text cs)[pos]? = some b := by
    rw [← Nat.add_zero pos, ← List.getElem?_drop, ← hr, hbl]
    rfl
  rw [getD_eq_getElem?_getD, hget]
  exact hb

/-- Between two scalars, the one on the right decodes. -/
theorem Between.decode (h : Between s pos) (hlt : pos < s.length) :
    ∃ cp next, utf8Decode s pos = .ok (cp, next) := by
  obtain ⟨as, bs, rfl, rfl⟩ := h
  cases bs with
  | nil => simp at hlt
  | cons b bs =>
    refine ⟨_, _, U89.utf8Decode_iff.mpr ⟨b, ⟨text bs, ?_⟩, rfl, rfl⟩⟩
    rw [drop_left, text_cons]

/-- Between two scalars, the one on the left decodes. -/
theorem Between.prev (h : Between s pos) (h0 : pos ≠ 0) :
    ∃ cp q, utf8Prev s pos = .ok (cp, q) := by
  obtain ⟨as, bs, rfl, rfl⟩ := h
  rcases eq_nil_or_concat as with rfl | ⟨as, a, rfl⟩
  · exact absurd rfl h0
  · refine ⟨_, (text as).length, U89.utf8Prev_iff.mpr ⟨a, ⟨text bs, ?_⟩, rfl, ?_⟩⟩
    · rw [concat_eq_append, U89.text_snoc, append_assoc, drop_left]
    · rw [concat_eq_append, U89.text_snoc, length_append]

theorem decode_lf (h : s[i]? = some 0x0A) : utf8Decode s i = .ok (0x0A, i + 1) := by
  refine U89.utf8Decode_iff.mpr ⟨'\n', ?_, rfl, rfl⟩
  obtain ⟨hi, hv⟩ := List.getElem?_eq_some_iff.mp h
  rw [drop_eq_getElem_cons hi, hv]
  exact ⟨_, rfl⟩

/-! ## Boundaries -/

theorem marksNext_spec (h : pos + k = s.length) :
    (0 < k → pos < marksNext s k pos ∧ marksBoundary s (marksNext s k pos) = true) ∧
      ∀ q, pos < q → marksBoundary s q = true → marksNext s k pos ≤ q ∨ s.length < q := by
  induction k generalizing pos with
  | zero =>
    refine ⟨fun h0 => absurd h0 (Nat.lt_irrefl 0), fun q hq _ => .inr (by omega)⟩
  | succ k ih =>
    rw [marksNext]
    split
    · rename_i hb
      exact ⟨fun _ => ⟨Nat.lt_succ_self pos, hb⟩, fun q hq _ => .inl hq⟩
    · rename_i hb
      obtain ⟨hsome, hleast⟩ := ih (show pos + 1 + k = s.length by omega)
      refine ⟨fun _ => ?_, fun q hq hqb => ?_⟩
      · have hk : 0 < k := by
          rcases Nat.eq_zero_or_pos k with rfl | hk
          · exact absurd (by rw [h]; simp [marksBoundary]) hb
          · exact hk
        have := hsome hk
        exact ⟨by omega, this.2⟩
      · rcases Nat.lt_or_ge (pos + 1) q with hlt | hge
        · exact hleast q hlt hqb
        · rw [show q = pos + 1 by omega] at hqb
          exact absurd hqb hb

theorem marksPrev_spec (h0 : 0 < pos) :
    marksPrev s pos < pos ∧ marksBoundary s (marksPrev s pos) = true := by
  induction pos with
  | zero => exact absurd h0 (Nat.lt_irrefl 0)
  | succ q ih =>
    rw [marksPrev]
    split
    · rename_i hb
      exact ⟨Nat.lt_succ_self q, hb⟩
    · rename_i hb
      have hq : 0 < q := by
        rcases Nat.eq_zero_or_pos q with rfl | hq
        · exact absurd (by simp [marksBoundary]) hb
        · exact hq
      have := ih hq
      exact ⟨by omega, this.2⟩

theorem marksBoundary_le (hs : utf8Valid s = true) (h : marksBoundary s pos = true) :
    Between s pos := by
  obtain ⟨cs, rfl⟩ := exists_text hs
  unfold marksBoundary at h
  simp only [Bool.or_eq_true, beq_iff_eq] at h
  rcases h with (rfl | rfl) | h
  · exact ⟨[], cs, rfl, rfl⟩
  · exact ⟨cs, [], by simp, rfl⟩
  · cases hd : utf8Decode (text cs) pos with
    | ok r => exact between_of_decode hs hd
    | error e =>
      rw [hd] at h
      split at h
      · rename_i hok
        cases hok
      · cases h

/-- `marks` has what `u89.h` says of clusters. -/
theorem marks_segments : marks.Segments where
  control_cr := by decide
  between := fun _ _ => marksBoundary_le
  zero := fun s _ => by simp [marks, marksBoundary]
  stop := fun s _ => by simp [marks, marksBoundary]
  next_gt := fun s pos _ hlt => ((marksNext_spec (by omega)).1 (by omega)).1
  next_boundary := fun s pos _ hlt => ((marksNext_spec (by omega)).1 (by omega)).2
  next_least := by
    intro s pos q hs hq hb
    have hle := (marksBoundary_le hs hb).le
    exact ((marksNext_spec (by omega)).2 q hq hb).resolve_right (by omega)
  prev_lt := fun s pos _ h0 _ => (marksPrev_spec h0).1
  prev_boundary := fun s pos _ h0 _ => (marksPrev_spec h0).2
  after_lf := by
    intro s i hs hlf
    obtain ⟨hi, -⟩ := List.getElem?_eq_some_iff.mp hlf
    have hd := decode_lf hlf
    have hprev : utf8Prev s (i + 1) = .ok (0x0A, i) :=
      U89.utf8Prev_iff_decode.mpr ⟨Nat.lt_succ_self i, hd⟩
    show marksBoundary s (i + 1) = true
    unfold marksBoundary
    by_cases hend : i + 1 = s.length
    · simp [hend]
    · obtain ⟨as, bs, rfl, rfl⟩ := between_of_decode hs hd
      obtain ⟨c, ⟨r, hr⟩, hc, hnext⟩ := U89.utf8Decode_iff.mp hd
      rw [drop_left] at hr
      cases bs with
      | nil => simp at hi
      | cons b bs =>
        have hb : utf8Decode (text as ++ text (b :: bs)) (text as).length =
            .ok (b.toNat, (text as).length + (String.utf8EncodeChar b).length) :=
          U89.utf8Decode_iff.mpr ⟨b, ⟨text bs, by rw [drop_left]; rfl⟩, rfl, rfl⟩
        rw [hd] at hb
        have hpair := Except.ok.inj hb
        have hlen : (text as).length + 1 = (text as).length + (String.utf8EncodeChar b).length :=
          congrArg Prod.snd hpair
        have hbet : Between (text as ++ text (b :: bs)) ((text as).length + 1) :=
          ⟨as ++ [b], bs, by simp, by rw [hlen]; simp⟩
        obtain ⟨cp, next, hdec⟩ := hbet.decode (by
          have := hbet.le
          omega)
        rw [hprev, hdec]
        simp [isCc]
  before_lf := by
    intro s i hs hlf hcr
    have hd := decode_lf hlf
    show marksBoundary s i = true
    unfold marksBoundary
    by_cases h0 : i = 0
    · simp [h0]
    · obtain ⟨a, q, hprev⟩ := (between_of_decode hs hd).prev h0
      have ha : a ≠ 0x0D := by
        rintro rfl
        obtain ⟨c, hc, hcp, -⟩ := U89.utf8Prev_iff.mp hprev
        refine hcr (mem_of_mem_drop (hc.subset ?_))
        rw [U89.utf8EncodeChar_ascii (by omega), ← hcp]
        simp
      rw [hprev, hd]
      simp [ha, isCc]

end Repl89
