import EightyNine.Repl89.Edit
import EightyNine.U89.Sizes

/-!
# librepl89: what edits keep

The bytes of the editor are the encoding of allowed scalars and the cursor is between two
of them (`Edit.Sound`), whatever is typed, recalled or deleted.
-/

namespace Repl89

open List

open U89 (utf8Decode utf8Valid text text_nil text_cons text_inj)

variable {u : Unicode} {s t p : List UInt8} {pos i : Nat} {e : Edit} {granted : Bool}

/-! ## Texts -/

/-- The encoding of allowed scalars. -/
def Content (u : Unicode) (s : List UInt8) : Prop :=
  ∃ cs : List Char, s = text cs ∧ ∀ c ∈ cs, allowedControl u c.toNat = true

@[simp] theorem text_append (as bs : List Char) : text (as ++ bs) = text as ++ text bs :=
  flatMap_append

theorem Content.nil : Content u [] := ⟨[], rfl, by simp⟩

theorem Content.append (hs : Content u s) (ht : Content u t) : Content u (s ++ t) := by
  obtain ⟨as, rfl, ha⟩ := hs
  obtain ⟨bs, rfl, hb⟩ := ht
  refine ⟨as ++ bs, (text_append as bs).symm, fun c hc => ?_⟩
  exact (mem_append.mp hc).elim (ha c) (hb c)

theorem utf8Valid_text (cs : List Char) : utf8Valid (text cs) = true :=
  U89.utf8Valid_iff.mpr ⟨_, U89.codes_text cs⟩

theorem Content.valid (h : Content u s) : utf8Valid s = true := by
  obtain ⟨cs, rfl, -⟩ := h
  exact utf8Valid_text cs

theorem allowed_of_text {as bs cs : List Char} (h : text cs = text as ++ text bs)
    (hc : ∀ c ∈ cs, allowedControl u c.toNat = true) :
    (∀ c ∈ as, allowedControl u c.toNat = true) ∧ ∀ c ∈ bs, allowedControl u c.toNat = true := by
  have hmap : cs.map Char.toNat = as.map Char.toNat ++ bs.map Char.toNat := by
    rw [← map_append]
    exact text_inj (h.trans (text_append as bs).symm)
  have hall : ∀ n ∈ as.map Char.toNat ++ bs.map Char.toNat, allowedControl u n = true := by
    rw [← hmap]
    intro n hn
    obtain ⟨c, hcs, rfl⟩ := mem_map.mp hn
    exact hc c hcs
  exact ⟨fun c h => hall _ (mem_append_left _ (mem_map_of_mem h)),
    fun c h => hall _ (mem_append_right _ (mem_map_of_mem h))⟩

theorem Between.le (h : Between s pos) : pos ≤ s.length := by
  obtain ⟨as, bs, rfl, rfl⟩ := h
  simp

theorem Between.take (h : Between s pos) (hs : Content u s) : Content u (s.take pos) := by
  obtain ⟨as, bs, rfl, rfl⟩ := h
  obtain ⟨cs, hcs, hc⟩ := hs
  rw [take_left]
  exact ⟨as, rfl, (allowed_of_text hcs.symm hc).1⟩

theorem Between.drop (h : Between s pos) (hs : Content u s) : Content u (s.drop pos) := by
  obtain ⟨as, bs, rfl, rfl⟩ := h
  obtain ⟨cs, hcs, hc⟩ := hs
  rw [drop_left]
  exact ⟨bs, rfl, (allowed_of_text hcs.symm hc).2⟩

theorem between_append (hs : Content u s) (ht : Content u t) : Between (s ++ t) s.length := by
  obtain ⟨as, rfl, -⟩ := hs
  obtain ⟨bs, rfl, -⟩ := ht
  exact ⟨as, bs, rfl, rfl⟩

theorem between_take_append (h : Between s pos) (hs : Content u s) (ht : Content u t) :
    Between (s.take pos ++ t) pos := by
  have := between_append (h.take hs) ht
  rwa [length_take, Nat.min_eq_left h.le] at this

theorem Content.no_cr (hu : u.Segments) (h : Content u s) : (0x0D : UInt8) ∉ s := by
  obtain ⟨cs, rfl, hc⟩ := h
  intro hmem
  obtain ⟨c, hcs, hb⟩ := mem_flatMap.mp hmem
  by_cases hlow : c.toNat < 0x80
  · rw [U89.utf8EncodeChar_ascii hlow, mem_singleton] at hb
    have hn : c.toNat = 0x0D := by
      have := congrArg UInt8.toNat hb
      simp only [Nat.toUInt8, UInt8.toNat_ofNat', UInt8.reduceToNat] at this
      omega
    have := hc c hcs
    rw [hn] at this
    simp [allowedControl, hu.control_cr] at this
  · have := U89.utf8EncodeChar_high (by omega) hb
    simp at this

/-! ## The content check -/

theorem scanAllowed_text {cs : List Char} (h : p.drop pos = text cs) :
    scanAllowed u p pos = true ↔ ∀ c ∈ cs, allowedControl u c.toNat = true := by
  induction cs generalizing pos with
  | nil =>
    rw [scanAllowed, if_neg (by have := drop_eq_nil_iff.mp h; omega)]
    simp
  | cons c cs ih =>
    have hd : utf8Decode p pos = .ok (c.toNat, pos + (String.utf8EncodeChar c).length) :=
      U89.utf8Decode_iff.mpr ⟨c, ⟨_, h.symm⟩, rfl, rfl⟩
    rw [scanAllowed, if_pos (U89.lt_of_drop h)]
    split
    next herr =>
      rw [hd] at herr
      cases herr
    next cp next hok =>
      rw [hd] at hok
      cases hok
      rw [forall_mem_cons, ← ih (U89.drop_after h)]
      cases allowedControl u c.toNat <;> simp

theorem contentCheck_ok : contentCheck u p = .ok ↔ Content u p := by
  unfold contentCheck
  constructor
  · intro h
    split at h
    · cases h
    · split at h
      · cases h
      · rename_i hvalid hscan
        obtain ⟨cps, hcps⟩ := U89.utf8Valid_iff.mp (by simpa using hvalid)
        obtain ⟨cs, -, rfl⟩ := U89.codes_iff.mp hcps
        exact ⟨cs, rfl, (scanAllowed_text rfl).mp (by simpa using hscan)⟩
  · rintro ⟨cs, rfl, hc⟩
    rw [if_neg (by simp [utf8Valid_text]), if_neg]
    simpa using (scanAllowed_text (show (text cs).drop 0 = text cs from rfl)).mpr hc

/-! ## Buffers -/

theorem Buf.insert_ok (h : (Buf.insert granted b pos p).1 = .ok) :
    (Buf.insert granted b pos p).2.data = b.data.take pos ++ p ++ b.data.drop pos := by
  unfold Buf.insert at h ⊢
  split
  · rename_i hp
    simp [length_eq_zero_iff.mp hp]
  · rename_i hp
    rw [if_neg hp] at h
    cases hres : b.reserve granted p.length with
    | none =>
      rw [hres] at h
      cases h
    | some r => rfl

theorem Buf.insert_granted : (Buf.insert true b pos p).1 = .ok := by
  unfold Buf.insert Buf.reserve
  split
  · rfl
  · dsimp only
    split <;> rename_i hres
    · split at hres
      · cases hres
      · simp at hres
        split at hres <;> cases hres
    · rfl

theorem Buf.delete_data (b : Buf) (pos n : Nat) :
    (b.delete pos n).data = b.data.take pos ++ b.data.drop (pos + n) := by
  unfold Buf.delete
  split
  · rename_i hn
    rw [hn, Nat.add_zero, take_append_drop]
  · rfl

/-! ## Insertion -/

/-- The bytes with `p` put in at the cursor. -/
def Edit.typed (e : Edit) (p : List UInt8) : List UInt8 :=
  e.data.take e.cursor ++ p ++ e.data.drop e.cursor

theorem Edit.insert_ok (h : (Edit.insert u granted e p).1 = .ok) :
    Content u p ∧ (Edit.insert u granted e p).2.data = e.typed p ∧
      (Edit.insert u granted e p).2.cursor = e.cursor + p.length := by
  unfold Edit.insert at h ⊢
  cases hc : contentCheck u p with
  | ok =>
    rw [hc] at h
    dsimp only at h ⊢
    have hdata : (e.buf.insert granted e.cursor p).1 = .ok → _ := Buf.insert_ok
    cases hins : e.buf.insert granted e.cursor p with
    | mk err b =>
      rw [hins] at h hdata
      cases err with
      | ok => exact ⟨contentCheck_ok.mp hc, hdata rfl, rfl⟩
      | _ => cases h
  | _ =>
    rw [hc] at h
    cases h

theorem Edit.insert_err (h : (Edit.insert u granted e p).1 ≠ .ok) :
    (Edit.insert u granted e p).2 = e := by
  unfold Edit.insert at h ⊢
  cases hc : contentCheck u p with
  | ok =>
    rw [hc] at h
    dsimp only at h ⊢
    cases hins : e.buf.insert granted e.cursor p with
    | mk err b =>
      rw [hins] at h
      cases err with
      | ok => exact absurd rfl h
      | _ => rfl
  | _ => rfl

theorem Edit.insert_granted (hp : Content u p) : (Edit.insert u true e p).1 = .ok := by
  unfold Edit.insert
  rw [contentCheck_ok.mpr hp]
  dsimp only
  have : (e.buf.insert true e.cursor p).1 = .ok := Buf.insert_granted
  cases hins : e.buf.insert true e.cursor p with
  | mk err b =>
    rw [hins] at this
    cases this
    rfl

/-! ## Lines -/

theorem getElem?_getD (h : i < s.length) : s[i]? = some (s.getD i 0) := by
  rw [getD_eq_getElem?_getD, getElem?_eq_getElem h]
  rfl

theorem lineBeginLoop_le (s : List UInt8) (i : Nat) : lineBeginLoop s i ≤ i := by
  induction i with
  | zero => exact Nat.le_refl 0
  | succ i ih =>
    rw [lineBeginLoop]
    split
    · exact Nat.le_refl _
    · exact Nat.le_succ_of_le ih

theorem lineBeginLoop_after (h : i ≤ s.length) :
    lineBeginLoop s i = 0 ∨ ∃ k, s[k]? = some 0x0A ∧ lineBeginLoop s i = k + 1 := by
  induction i with
  | zero => exact .inl rfl
  | succ i ih =>
    rw [lineBeginLoop]
    split
    · rename_i hlf
      refine .inr ⟨i, ?_, rfl⟩
      rw [getElem?_getD (by omega), beq_iff_eq.mp hlf]
    · exact ih (by omega)

theorem lineEndLoop_ge (s : List UInt8) (k i : Nat) : i ≤ lineEndLoop s k i := by
  induction k generalizing i with
  | zero => exact Nat.le_refl i
  | succ k ih =>
    rw [lineEndLoop]
    split
    · split
      · exact Nat.le_refl i
      · exact Nat.le_trans (Nat.le_succ i) (ih (i + 1))
    · exact Nat.le_refl i

theorem lineEndLoop_before {k : Nat} (h : i + k = s.length) :
    lineEndLoop s k i = s.length ∨ s[lineEndLoop s k i]? = some 0x0A := by
  induction k generalizing i with
  | zero => exact .inl h
  | succ k ih =>
    rw [lineEndLoop, if_pos (by omega)]
    split
    · rename_i hlf
      right
      rw [getElem?_getD (by omega), beq_iff_eq.mp hlf]
    · exact ih (by omega)

/-! ## What edits keep -/

/-- Allowed scalars, and the cursor between two of them. -/
structure Edit.Sound (u : Unicode) (e : Edit) : Prop where
  content : Content u e.data
  between : Between e.data e.cursor

/-- The cursor is at the boundary of a grapheme cluster. -/
def Edit.OnBoundary (u : Unicode) (e : Edit) : Prop :=
  u.graphemeBoundary e.data e.cursor = true

theorem Edit.init_sound : Edit.init.Sound u := ⟨Content.nil, [], [], rfl, rfl⟩

theorem Edit.reset_sound (e : Edit) : e.reset.Sound u := ⟨Content.nil, [], [], rfl, rfl⟩

namespace Edit.Sound

theorem le (h : e.Sound u) : e.cursor ≤ e.data.length := h.between.le

theorem insert (h : e.Sound u) (granted : Bool) (p : List UInt8) :
    (e.insert u granted p).2.Sound u := by
  by_cases hok : (e.insert u granted p).1 = .ok
  · obtain ⟨hp, hdata, hcur⟩ := Edit.insert_ok hok
    have hs := (h.between.take h.content).append hp
    have ht := h.between.drop h.content
    refine ⟨?_, ?_⟩
    · rw [hdata]
      exact hs.append ht
    · rw [hdata, hcur]
      have := between_append hs ht
      rwa [length_append, length_take, Nat.min_eq_left h.le] at this
  · rw [Edit.insert_err hok]
    exact h

theorem cut (h : e.Sound u) {p q : Nat} (hp : Between e.data p)
    (hq : Between e.data q) (hle : p ≤ q) : Sound u ⟨e.buf.delete p (q - p), p⟩ := by
  have hdata : Edit.data ⟨e.buf.delete p (q - p), p⟩ = e.data.take p ++ e.data.drop q := by
    rw [Edit.data, Buf.delete_data, Nat.add_sub_cancel' hle]
    rfl
  refine ⟨?_, ?_⟩
  · rw [hdata]
    exact (hp.take h.content).append (hq.drop h.content)
  · rw [hdata]
    exact between_take_append hp h.content (hq.drop h.content)

variable (hu : u.Segments)
include hu

theorem prev_between (h : e.Sound u) (h0 : e.cursor ≠ 0) :
    Between e.data (u.graphemePrev e.data e.cursor) :=
  hu.between _ _ h.content.valid
    (hu.prev_boundary _ _ h.content.valid (Nat.pos_of_ne_zero h0) h.le)

theorem next_between (h : e.Sound u) (hlt : e.cursor < e.data.length) :
    Between e.data (u.graphemeNext e.data e.cursor) :=
  hu.between _ _ h.content.valid (hu.next_boundary _ _ h.content.valid hlt)

theorem lineBegin_boundary (h : e.Sound u) :
    u.graphemeBoundary e.data (lineBegin e) = true := by
  rcases lineBeginLoop_after h.le with h0 | ⟨k, hk, hk1⟩
  · rw [lineBegin, h0]
    exact hu.zero _ h.content.valid
  · rw [lineBegin, hk1]
    exact hu.after_lf _ _ h.content.valid hk

theorem lineEnd_boundary (h : e.Sound u) : u.graphemeBoundary e.data (lineEnd e) = true := by
  rcases lineEndLoop_before (s := e.data) (i := e.cursor) (k := e.data.length - e.cursor)
    (by have := h.le; omega) with hend | hlf
  · rw [lineEnd, hend]
    exact hu.stop _ h.content.valid
  · exact hu.before_lf _ _ h.content.valid hlf (h.content.no_cr hu)

theorem deletePrev (h : e.Sound u) : (e.deletePrev u).Sound u := by
  unfold Edit.deletePrev
  split
  · exact h
  · rename_i h0
    exact h.cut (h.prev_between hu h0) h.between
      (Nat.le_of_lt (hu.prev_lt _ _ h.content.valid (Nat.pos_of_ne_zero h0) h.le))

theorem deleteNext (h : e.Sound u) : (e.deleteNext u).Sound u := by
  unfold Edit.deleteNext
  split
  · exact h
  · rename_i hlt
    exact h.cut h.between (h.next_between hu (by omega))
      (Nat.le_of_lt (hu.next_gt _ _ h.content.valid (by omega)))

theorem left (h : e.Sound u) : (e.left u).Sound u := by
  unfold Edit.left
  split
  · exact h
  · exact ⟨h.content, h.prev_between hu ‹_›⟩

theorem right (h : e.Sound u) : (e.right u).Sound u := by
  unfold Edit.right
  split
  · exact h
  · exact ⟨h.content, h.next_between hu (by omega)⟩

theorem lineBegin_between (h : e.Sound u) : Between e.data (lineBegin e) :=
  hu.between _ _ h.content.valid (h.lineBegin_boundary hu)

theorem lineEnd_between (h : e.Sound u) : Between e.data (lineEnd e) :=
  hu.between _ _ h.content.valid (h.lineEnd_boundary hu)

theorem home (h : e.Sound u) : e.home.Sound u := ⟨h.content, h.lineBegin_between hu⟩

theorem toEnd (h : e.Sound u) : e.toEnd.Sound u := ⟨h.content, h.lineEnd_between hu⟩

theorem killBegin (h : e.Sound u) : e.killBegin.Sound u :=
  h.cut (h.lineBegin_between hu) h.between (lineBeginLoop_le _ _)

theorem killEnd (h : e.Sound u) : e.killEnd.Sound u :=
  h.cut h.between (h.lineEnd_between hu) (lineEndLoop_ge _ _ _)

end Edit.Sound

end Repl89
