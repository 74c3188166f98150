import EightyNine.U89.NormalForm

/-!
# Case folding

Two passes over the text, one that adds up the bytes and one that writes them, with
the same choice for each scalar: itself, or the scalars of its row.
-/

namespace U89

open List

open Library (Block)

variable (T : Tables)

/-! ## The code -/

/-- The table and the mode of `u89_casefold`. -/
def foldTable (mode : Int) : List Mapping :=
  if mode = 0 then T.casefoldMap else T.casefoldTurkicMap

/-- The scalars that `fold_add` and `fold_write_cp` go through. -/
def foldSeq (rows : List Mapping) (cp : Nat) : List Nat :=
  match findRow rows cp with
  | none => [cp]
  | some row => T.scalars row

/-- `next_cp`. -/
def nextCp (s : List UInt8) (i : Nat) : Option (Nat × Nat) :=
  match utf8Decode s i with
  | .error _ => none
  | .ok r => some r

theorem lt_nextCp {s : List UInt8} {i : Nat} {r : Nat × Nat} (h : nextCp s i = some r) :
    i < r.2 := by
  unfold nextCp at h
  split at h
  · cases h
  · rename_i hd
    cases h
    obtain ⟨c, _, _, hnext⟩ := utf8Decode_iff.mp hd
    have := utf8EncodeChar_pos c
    omega

/-- `fold_add`. -/
def foldAdd (rows : List Mapping) (cp total : Nat) : Nat :=
  (foldSeq T rows cp).foldl (fun total cp => total + utf8Len cp) total

/-- The loop of `fold_length`. -/
def foldLengthFrom (rows : List Mapping) (s : List UInt8) (i total : Nat) : Option Nat :=
  if i < s.length then
    match _ : nextCp s i with
    | none => none
    | some r => foldLengthFrom rows s r.2 (foldAdd T rows r.1 total)
  else some total
termination_by s.length - i
decreasing_by
  rename_i h
  have := lt_nextCp h
  omega

/-- `fold_write_cp`. -/
def foldWriteCp (rows : List Mapping) (cp : Nat) (d : Block UInt8 × Nat) : Block UInt8 × Nat :=
  (foldSeq T rows cp).foldl
    (fun d cp => (d.1.putAll d.2 (utf8Encode cp), d.2 + (utf8Encode cp).length)) d

/-- The loop of `u89_casefold` over `fold_wr_step`, and whether it came to the end. -/
def foldWriteFrom (rows : List Mapping) (s : List UInt8) (i : Nat) (d : Block UInt8 × Nat) :
    (Block UInt8 × Nat) × Bool :=
  if i < s.length then
    match _ : nextCp s i with
    | none => (d, false)
    | some r => foldWriteFrom rows s r.2 (foldWriteCp T rows r.1 d)
  else (d, true)
termination_by s.length - i
decreasing_by
  rename_i h
  have := lt_nextCp h
  omega

/-- `u89_casefold`: what it returns, and the destination after it. -/
def casefold (mode : Int) (s : List UInt8) (dst : Option (Block UInt8)) (dstCap : Nat) :
    Int × Option (Block UInt8) :=
  if mode ≠ 0 ∧ mode ≠ 1 then (Status.einval.code, dst)
  else
    let rows := foldTable T mode
    match foldLengthFrom T rows s 0 0 with
    | none => (Status.eutf8.code, dst)
    | some total =>
      match dst with
      | none => (toInt total, none)
      | some d =>
        if dstCap < total then (Status.enospc.code, some d)
        else
          let r := foldWriteFrom T rows s 0 (d, 0)
          if r.2 then (toInt r.1.2, some r.1.1)
          else (Status.eutf8.code, some r.1.1)

/-! ## The folded text -/

/-- The folded form of a sequence of scalars. -/
def folded (mode : Int) (cps : List Nat) : List Nat := cps.flatMap (foldSeq T (foldTable T mode))

variable {T} {rows : List Mapping} {s : List UInt8} {cs : List Char} {i total n : Nat}
  {d : Block UInt8 × Nat}

theorem utf8Len_eq (cp : Nat) : utf8Len cp = (utf8Encode cp).length := by
  unfold utf8Len utf8Encode
  split
  · rfl
  · split
    · rfl
    · split
      · rfl
      · split <;> rfl

@[simp] theorem utf8Size_nil : utf8Size [] = 0 := rfl

@[simp] theorem utf8Size_append (l l' : List Nat) :
    utf8Size (l ++ l') = utf8Size l + utf8Size l' := by
  simp [utf8Size]

theorem utf8Size_cons (cp : Nat) (l : List Nat) :
    utf8Size (cp :: l) = (utf8Encode cp).length + utf8Size l := by
  simp [utf8Size]

theorem utf8Encode_length (cp : Nat) : (utf8Encode cp).length ≤ 4 := by
  rw [← utf8Len_eq]
  unfold utf8Len
  split
  · omega
  · split
    · omega
    · split
      · omega
      · split <;> omega

theorem utf8Size_le (l : List Nat) : utf8Size l ≤ 4 * l.length := by
  induction l with
  | nil => simp
  | cons cp l ih =>
    have := utf8Encode_length cp
    rw [utf8Size_cons, length_cons]
    omega

theorem foldl_utf8Len (l : List Nat) (total : Nat) :
    l.foldl (fun total cp => total + utf8Len cp) total = total + utf8Size l := by
  induction l generalizing total with
  | nil => rfl
  | cons cp l ih =>
    rw [foldl_cons, ih, utf8Len_eq, utf8Size_cons, Nat.add_assoc]

/-- The destination after `n` bytes. -/
structure Filled (d : Block UInt8 × Nat) (n : Nat) : Prop where
  off : d.2 = n
  writes : d.1.writes.length = n
  within : d.1.Within n

theorem Filled.foldl (h : Filled d n) (l : List Nat) :
    Filled (l.foldl (fun d cp => (d.1.putAll d.2 (utf8Encode cp), d.2 + (utf8Encode cp).length)) d)
      (n + utf8Size l) := by
  induction l generalizing d n with
  | nil => exact h
  | cons cp l ih =>
    rw [foldl_cons, utf8Size_cons, ← Nat.add_assoc]
    refine ih ⟨?_, ?_, ?_⟩
    · rw [h.off]
    · rw [Block.writes_putAll, h.writes]
    · refine (h.within.mono (Nat.le_add_right _ _)).putAll ?_
      rw [h.off]

theorem nextCp_eq {c : Char} {r : List UInt8} (h : s.drop i = String.utf8EncodeChar c ++ r) :
    nextCp s i = some (c.toNat, i + (String.utf8EncodeChar c).length) := by
  rw [nextCp, utf8Decode_iff.mpr ⟨c, ⟨r, h.symm⟩, rfl, rfl⟩]

theorem nextCp_some {r : Nat × Nat} (h : nextCp s i = some r) :
    ∃ c : Char, ∃ t, s.drop i = String.utf8EncodeChar c ++ t ∧
      r = (c.toNat, i + (String.utf8EncodeChar c).length) := by
  unfold nextCp at h
  split at h
  · cases h
  · rename_i hd
    cases h
    obtain ⟨c, ⟨t, ht⟩, hcp, hnext⟩ := utf8Decode_iff.mp hd
    exact ⟨c, t, ht.symm, Prod.ext hcp hnext⟩

theorem foldLengthFrom_text (h : s.drop i = text cs) : foldLengthFrom T rows s i total =
    some (total + utf8Size ((cs.map Char.toNat).flatMap (foldSeq T rows))) := by
  induction cs generalizing i total with
  | nil =>
    have := drop_eq_nil_iff.mp h
    rw [foldLengthFrom, if_neg (by omega)]
    rfl
  | cons c cs ih =>
    rw [foldLengthFrom, if_pos (lt_of_drop h)]
    split
    · rename_i hnone
      rw [nextCp_eq h] at hnone
      cases hnone
    · rename_i r hr
      rw [nextCp_eq h] at hr
      cases hr
      rw [ih (drop_after h), foldAdd, foldl_utf8Len, map_cons, flatMap_cons,
        utf8Size_append, Nat.add_assoc]

theorem text_of_foldLengthFrom {n : Nat} (h : foldLengthFrom T rows s i total = some n) :
    ∃ cs, s.drop i = text cs := by
  induction i, total using foldLengthFrom.induct T rows s with
  | case1 i total hlt hnone =>
    rw [foldLengthFrom, if_pos hlt] at h
    split at h
    · cases h
    · rename_i hr
      rw [hnone] at hr
      cases hr
  | case2 i total hlt r hr ih =>
    rw [foldLengthFrom, if_pos hlt] at h
    split at h
    · cases h
    · rename_i r' hr'
      rw [hr] at hr'
      cases hr'
      obtain ⟨cs, hcs⟩ := ih h
      obtain ⟨c, t, ht, rfl⟩ := nextCp_some hr
      rw [drop_after ht] at hcs
      exact ⟨c :: cs, by rw [ht, hcs, text_cons]⟩
  | case3 i total hge => exact ⟨[], drop_eq_nil_of_le (by omega)⟩

theorem foldWriteFrom_text (h : s.drop i = text cs) (hd : Filled d n) :
    (foldWriteFrom T rows s i d).2 = true ∧ Filled (foldWriteFrom T rows s i d).1
      (n + utf8Size ((cs.map Char.toNat).flatMap (foldSeq T rows))) := by
  induction cs generalizing i d n with
  | nil =>
    have := drop_eq_nil_iff.mp h
    rw [foldWriteFrom, if_neg (by omega)]
    exact ⟨rfl, hd⟩
  | cons c cs ih =>
    rw [foldWriteFrom, if_pos (lt_of_drop h)]
    split
    · rename_i hnone
      rw [nextCp_eq h] at hnone
      cases hnone
    · rename_i r hr
      rw [nextCp_eq h] at hr
      cases hr
      have hnext := ih (drop_after h) (hd.foldl (foldSeq T rows c.toNat))
      rw [Nat.add_assoc, ← utf8Size_append] at hnext
      exact hnext

/-- A call on a text whose folded form takes `n` bytes. -/
theorem casefold_text {mode : Int} {cps : List Nat} (hm : mode = 0 ∨ mode = 1)
    (hs : Codes cps s) (hn : utf8Size (folded T mode cps) = n) (get : Nat → UInt8) (dstCap : Nat) :
    casefold T mode s none dstCap = (toInt n, none) ∧
    (dstCap < n →
      casefold T mode s (some (.fresh get)) dstCap = (Status.enospc.code, some (.fresh get))) ∧
    (n ≤ dstCap → ∃ d, casefold T mode s (some (.fresh get)) dstCap = (toInt n, some d) ∧
      d.writes.length = n ∧ d.Within n) := by
  obtain ⟨cs, rfl, rfl⟩ := codes_iff.mp hs
  have hlen : foldLengthFrom T (foldTable T mode) (text cs) 0 0 = some n := by
    rw [foldLengthFrom_text (s := text cs) (i := 0) rfl, Nat.zero_add]
    exact congrArg some hn
  have hstart : Filled (.fresh get, 0) 0 := ⟨rfl, rfl, Block.within_fresh _ _⟩
  have hdrop : (text cs).drop 0 = text cs := rfl
  have hwrite : (foldWriteFrom T (foldTable T mode) (text cs) 0 (.fresh get, 0)).2 = true ∧
      Filled (foldWriteFrom T (foldTable T mode) (text cs) 0 (.fresh get, 0)).1
        (0 + utf8Size ((cs.map Char.toNat).flatMap (foldSeq T (foldTable T mode)))) :=
    foldWriteFrom_text hdrop hstart
  rw [Nat.zero_add] at hwrite
  have hfilled : Filled (foldWriteFrom T (foldTable T mode) (text cs) 0 (.fresh get, 0)).1 n :=
    hn ▸ hwrite.2
  have hmode : ¬(mode ≠ 0 ∧ mode ≠ 1) := by omega
  refine ⟨?_, fun hlt => ?_, fun hle => ?_⟩
  · simp only [casefold, if_neg hmode, hlen]
  · simp only [casefold, if_neg hmode, hlen, if_pos hlt]
  · simp only [casefold, if_neg hmode, hlen, if_neg (not_lt.mpr hle), hwrite.1, if_true,
      hfilled.off]
    exact ⟨_, rfl, hfilled.writes, hfilled.within⟩

end U89
