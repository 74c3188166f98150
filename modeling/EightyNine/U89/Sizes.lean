import EightyNine.U89.Casefold

/-!
# The sizes that are asked for

A call without a destination asks how many bytes the same call would write.  The
answer is an `int`.  The normalizer checks that the size fits where it only
answers, and nobody checks it after writing, so a size from `2 ^ 31` on comes back
as something else.  Below that the sizes agree, and nothing is written beyond a
block (`normalizeAgrees_iff`, `casefoldAgrees_iff`).
-/

namespace U89

open List Option

open Library (Block)

/-! ## What the sizes promise -/

/-- A status other than `U89_OK`. -/
def IsError (ret : Int) : Prop := ∃ st : Status, ret = st.code

/-- Nothing was written beyond the two capacities. -/
def Outcome.Inside (o : Outcome) (dstCap workCap : Nat) : Prop :=
  (∀ d ∈ o.dst, d.Within dstCap) ∧ ∀ w ∈ o.work, w.Within workCap

/-- The sizes of `u89_normalize_ex` agree with what it writes. -/
structure NormalizeAgrees (T : Tables) (mode : Int) (s : List UInt8) : Prop where
  /-- The size asked for is the number of bytes written, if there is one. -/
  query : ∀ (work : Option (Nat → Nat)) (workCap dstCap : Nat),
    IsError (normalizeEx T mode s none dstCap (work.map .fresh) workCap).ret ∨
      ∃ enough, ∀ (dst : Nat → UInt8) (cap : Nat), enough ≤ cap →
        ∃ d ∈ (normalizeEx T mode s (some (.fresh dst)) cap (work.map .fresh) workCap).dst,
          (d.writes.length : Int) =
            (normalizeEx T mode s none dstCap (work.map .fresh) workCap).ret
  /-- Nothing was written by a call that returns a negative value. -/
  negative : ∀ (dst : Nat → UInt8) (dstCap : Nat) (work : Option (Nat → Nat)) (workCap : Nat),
    (normalizeEx T mode s (some (.fresh dst)) dstCap (work.map .fresh) workCap).ret < 0 →
      ∀ d ∈ (normalizeEx T mode s (some (.fresh dst)) dstCap (work.map .fresh) workCap).dst,
        d.writes = []
  inside : ∀ (dst : Option (Nat → UInt8)) (dstCap : Nat) (work : Option (Nat → Nat))
    (workCap : Nat),
    (normalizeEx T mode s (dst.map .fresh) dstCap (work.map .fresh) workCap).Inside dstCap workCap
  workBound : ∀ (dst : Option (Nat → UInt8)) (dstCap : Nat) (work : Nat → Nat) (workCap : Nat),
    ∀ bound, normalizeWorkBound s = .ok bound → bound ≤ workCap →
      (normalizeEx T mode s (dst.map .fresh) dstCap (some (.fresh work)) workCap).ret ≠
        Status.ework.code
  outBound : ∀ (dst : Nat → UInt8) (dstCap : Nat) (work : Option (Nat → Nat)) (workCap : Nat),
    ∀ bound, normalizeOutBound s = .ok bound → bound ≤ dstCap →
      (normalizeEx T mode s (some (.fresh dst)) dstCap (work.map .fresh) workCap).ret ≠
        Status.enospc.code

/-- The sizes of `u89_casefold` agree with what it writes. -/
structure CasefoldAgrees (T : Tables) (mode : Int) (s : List UInt8) : Prop where
  query : ∀ dstCap, IsError (casefold T mode s none dstCap).1 ∨
    ∃ enough, ∀ (dst : Nat → UInt8) (cap : Nat), enough ≤ cap →
      ∃ d ∈ (casefold T mode s (some (.fresh dst)) cap).2,
        (d.writes.length : Int) = (casefold T mode s none dstCap).1
  negative : ∀ (dst : Nat → UInt8) (dstCap : Nat),
    (casefold T mode s (some (.fresh dst)) dstCap).1 < 0 →
      ∀ d ∈ (casefold T mode s (some (.fresh dst)) dstCap).2, d.writes = []
  inside : ∀ (dst : Nat → UInt8) (dstCap : Nat),
    ∀ d ∈ (casefold T mode s (some (.fresh dst)) dstCap).2, d.Within dstCap
  outBound : ∀ (dst : Nat → UInt8) (dstCap : Nat),
    ∀ bound, normalizeOutBound s = .ok bound → bound ≤ dstCap →
      (casefold T mode s (some (.fresh dst)) dstCap).1 ≠ Status.enospc.code

/-! ## Sizes as `int` -/

variable {T : Tables} {mode : Int} {s : List UInt8} {cps l : List Nat} {cs : List Char}
  {n dstCap workCap : Nat} {compat : Bool}

theorem toInt_eq (n : Nat) : toInt n =
    if n % 2 ^ 32 < 2 ^ 31 then ((n % 2 ^ 32 : Nat) : Int)
    else ((n % 2 ^ 32 : Nat) : Int) - 4294967296 := by
  have hlimit : ((2 ^ 32 : Nat) : Int) = 4294967296 := rfl
  unfold toInt Int.bmod
  rw [hlimit]
  dsimp only
  split <;> split <;> omega

theorem toInt_of_lt (h : n < 2 ^ 31) : toInt n = n := by
  rw [toInt_eq, if_pos (by omega)]
  omega

theorem toInt_nonneg_iff : 0 ≤ toInt n ↔ n % 2 ^ 32 < 2 ^ 31 := by
  rw [toInt_eq]
  split <;> omega

theorem toInt_lt (n : Nat) : toInt n < 2147483648 := by
  rw [toInt_eq]
  split <;> omega

theorem code_neg (st : Status) : st.code < 0 := by
  cases st <;> decide

variable {st : Status}

theorem code_inj {st' : Status} (h : st.code = st'.code) : st = st' := by
  cases st <;> cases st' <;> first | rfl | cases h

/-! ## The decoding loop -/

/-- The decomposition of a string of characters. -/
def decomposed (T : Tables) (compat : Bool) (cs : List Char) : List Nat :=
  (cs.map Char.toNat).flatMap (decomposition T compat)

theorem decodeAppend_eq (T : Tables) (compat : Bool) (s : List UInt8) (cap : Nat) (p : Progress)
    {c : Char} {r : List UInt8} (h : s.drop p.i = String.utf8EncodeChar c ++ r) :
    decodeAppend T s compat cap p =
      if p.m + (decomposition T compat c.toNat).length > cap then .error .ework
      else .ok ⟨p.i + (String.utf8EncodeChar c).length,
        p.w.putAll p.m (decomposition T compat c.toNat),
        p.m + (decomposition T compat c.toNat).length⟩ := by
  rw [decodeAppend, utf8Decode_iff.mpr ⟨c, ⟨r, h.symm⟩, rfl, rfl⟩]
  dsimp only
  rw [(decomposeOne_fits c.toNat compat).1]

variable {p : Progress}

theorem decodeAppend_some {q : Progress} (h : decodeAppend T s compat workCap p = .ok q) :
    ∃ c : Char, ∃ r, s.drop p.i = String.utf8EncodeChar c ++ r := by
  unfold decodeAppend at h
  split at h
  · cases h
  · rename_i hd
    obtain ⟨c, ⟨r, hr⟩, _⟩ := utf8Decode_iff.mp hd
    exact ⟨c, r, hr.symm⟩

theorem decodeAppend_error
    (h : decodeAppend T s compat workCap p = .error st) : st = .eutf8 ∨ st = .ework := by
  unfold decodeAppend at h
  split at h
  · cases h
    exact .inl rfl
  · split at h
    · cases h
      exact .inr rfl
    · split at h
      · cases h
        exact .inr rfl
      · cases h

/-- The loop stays in the workspace, and comes to the end only with the decomposition of a
text that it had room for. -/
theorem decodeLoop_ends (compat : Bool) (h : p.w.Holds l) (hm : p.m = l.length)
    (hw : p.w.Within workCap) (hl : l.length ≤ workCap) :
    (decodeLoop T s compat workCap p).1.w.Within workCap ∧
      ((∃ st, (decodeLoop T s compat workCap p).2 = some st ∧ (st = .eutf8 ∨ st = .ework)) ∨
        (decodeLoop T s compat workCap p).2 = none ∧ ∃ cs, s.drop p.i = text cs ∧
          (decodeLoop T s compat workCap p).1.w.Holds (l ++ decomposed T compat cs) ∧
          (decodeLoop T s compat workCap p).1.m = (l ++ decomposed T compat cs).length ∧
          (l ++ decomposed T compat cs).length ≤ workCap) := by
  induction p using decodeLoop.induct T s compat workCap generalizing l with
  | case1 p hlt st hst =>
    rw [decodeLoop, if_pos hlt]
    split
    · rename_i st' hst'
      exact ⟨hw, .inl ⟨st', rfl, decodeAppend_error hst'⟩⟩
    · rename_i q hq
      rw [hst] at hq
      cases hq
  | case2 p hlt q hq ih =>
    obtain ⟨c, r, hr⟩ := decodeAppend_some hq
    have hstep := decodeAppend_eq T compat s workCap p hr
    rw [hq] at hstep
    split at hstep
    · cases hstep
    · rename_i hfits
      cases hstep
      rw [hm] at hfits
      have hnext := ih (l := l ++ decomposition T compat c.toNat)
        (by rw [hm]; exact h.putAll) (by rw [hm, length_append])
        (hw.putAll (by omega)) (by rw [length_append]; omega)
      rw [decodeLoop, if_pos hlt]
      split
      · rename_i hst'
        rw [hq] at hst'
        cases hst'
      · rename_i q' hq'
        rw [hq] at hq'
        cases hq'
        refine ⟨hnext.1, hnext.2.imp id ?_⟩
        rintro ⟨hnone, cs, hcs, hholds, hlen, hcap⟩
        rw [drop_after hr] at hcs
        rw [append_assoc] at hholds hlen hcap
        exact ⟨hnone, c :: cs, by rw [hr, hcs, text_cons], hholds, hlen, hcap⟩
  | case3 p hge =>
    rw [decodeLoop, if_neg hge]
    refine ⟨hw, .inr ⟨rfl, [], drop_eq_nil_of_le (by omega), ?_, ?_, ?_⟩⟩
    · rw [decomposed, map_nil, flatMap_nil, append_nil]
      exact h
    · rw [decomposed, map_nil, flatMap_nil, append_nil, hm]
    · rw [decomposed, map_nil, flatMap_nil, append_nil]
      exact hl

/-- A text for which there is room is decoded to the end. -/
theorem decodeLoop_text (h : s.drop p.i = text cs)
    (hcap : p.m + (decomposed T compat cs).length ≤ workCap) :
    (decodeLoop T s compat workCap p).2 = none := by
  induction cs generalizing p with
  | nil =>
    have := drop_eq_nil_iff.mp h
    rw [decodeLoop, if_neg (by omega)]
  | cons c cs ih =>
    have hstep := decodeAppend_eq T compat s workCap p h
    rw [decomposed, map_cons, flatMap_cons, length_append, ← decomposed] at hcap
    rw [if_neg (by omega)] at hstep
    rw [decodeLoop, if_pos (lt_of_drop h)]
    split
    · rename_i hst
      rw [hstep] at hst
      cases hst
    · rename_i q hq
      rw [hstep] at hq
      cases hq
      exact ih (drop_after h) (by show p.m + _ + _ ≤ _; omega)

/-! ## A call of the normalizer -/

variable {w : Block Nat}

theorem outBytesOf_eq (h : w.Holds l) : outBytesOf w l.length = utf8Size l := by
  rw [outBytesOf, h.forUp fun total cp => total + utf8Len cp, foldl_utf8Len, Nat.zero_add]

theorem encodeAll_filled (h : w.Holds l) (get : Nat → UInt8) :
    Filled (encodeAll w l.length (.fresh get)) (utf8Size l) := by
  have hloop := h.forUp (fun (d : Block UInt8 × Nat) cp =>
    (d.1.putAll d.2 (utf8Encode cp), d.2 + (utf8Encode cp).length)) (.fresh get, 0)
  have hfilled := Filled.foldl (d := (.fresh get, 0)) (n := 0)
    ⟨rfl, rfl, Block.within_fresh _ _⟩ l
  rw [Nat.zero_add] at hfilled
  rw [encodeAll, hloop]
  exact hfilled

/-- What a call does with a normal form of `n` bytes. -/
inductive Delivered (n dstCap : Nat) (w : Block Nat) : Option (Block UInt8) → Outcome → Prop
  | long : 0x7FFFFFFF < n → Delivered n dstCap w none ⟨Status.enospc.code, none, some w⟩
  | size : n ≤ 0x7FFFFFFF → Delivered n dstCap w none ⟨toInt n, none, some w⟩
  | small {d : Block UInt8} : dstCap < n →
      Delivered n dstCap w (some d) ⟨Status.enospc.code, some d, some w⟩
  | written {d d' : Block UInt8} : n ≤ dstCap → d'.writes.length = n → d'.Within n →
      Delivered n dstCap w (some d) ⟨toInt n, some d', some w⟩

/-- The mode is one of the four. -/
def FormMode (mode : Int) : Prop := 0 ≤ mode ∧ mode ≤ 3

theorem normalizeEx_mode (hm : ¬FormMode mode) (dst : Option (Block UInt8))
    (work : Option (Block Nat)) :
    normalizeEx T mode s dst dstCap work workCap = ⟨Status.einval.code, dst, work⟩ := by
  unfold FormMode at hm
  unfold normalizeEx
  split
  · rfl
  · rw [if_pos (by omega)]

theorem normalizeEx_none (hm : FormMode mode) (dst : Option (Block UInt8)) :
    normalizeEx T mode s dst dstCap none workCap =
      if s.length ≠ 0 then ⟨Status.einval.code, dst, none⟩ else ⟨0, dst, none⟩ := by
  obtain ⟨h0, h3⟩ := hm
  rw [normalizeEx, if_neg (by omega), if_neg (by omega)]

theorem normalizeEx_some (hm : FormMode mode) (dst : Option (Block UInt8)) (w : Block Nat) :
    normalizeEx T mode s dst dstCap (some w) workCap =
      match (decodeLoop T s (formCompat mode) workCap ⟨0, w, 0⟩).2 with
      | some st => ⟨st.code, dst, some (decodeLoop T s (formCompat mode) workCap ⟨0, w, 0⟩).1.w⟩
      | none => deliver (arrange T mode (decodeLoop T s (formCompat mode) workCap ⟨0, w, 0⟩).1.w
          (decodeLoop T s (formCompat mode) workCap ⟨0, w, 0⟩).1.m) dst dstCap := by
  have h0 : ¬mode < 0 := Int.not_lt.mpr hm.1
  have h3 : ¬mode > 3 := Int.not_lt.mpr hm.2
  exact (if_neg h0).trans (if_neg h3)

/-- From the decomposition of a text in the workspace its normal form is arranged there. -/
theorem arrange_holds (h : w.Holds (decomposed T (formCompat mode) cs))
    (hw : w.Within n) (hn : (decomposed T (formCompat mode) cs).length ≤ n) :
    (arrange T mode w (decomposed T (formCompat mode) cs).length).1.Holds
        (normalForm T mode (cs.map Char.toNat)) ∧
      (arrange T mode w (decomposed T (formCompat mode) cs).length).2 =
        (normalForm T mode (cs.map Char.toNat)).length ∧
      (arrange T mode w (decomposed T (formCompat mode) cs).length).1.Within n := by
  have hre := reorder_holds (T := T) h hw hn
  have hlen : (canonicalOrder T [] (decomposed T (formCompat mode) cs)).length =
      (decomposed T (formCompat mode) cs).length := by
    rw [canonicalOrder_length]
    exact Nat.zero_add _
  unfold arrange normalForm
  rw [← decomposed]
  cases formCompose mode with
  | false => exact ⟨hre.1, hlen.symm, hre.2⟩
  | true =>
    have hcomp := compose_holds (T := T) hre.1 hre.2 (hlen ▸ hn)
    rw [hlen] at hcomp
    exact hcomp

theorem deliver_delivered {c : Block Nat × Nat} (h : c.1.Holds l) (hm : c.2 = l.length)
    (dst : Option (Nat → UInt8)) :
    Delivered (utf8Size l) dstCap c.1 (dst.map .fresh) (deliver c (dst.map .fresh) dstCap) := by
  have htotal := outBytesOf_eq h
  unfold deliver
  rw [hm, htotal]
  cases dst with
  | none =>
    dsimp only [map_none]
    split
    · exact .long ‹_›
    · exact .size (by omega)
  | some get =>
    have hfilled := encodeAll_filled h get
    dsimp only [map_some]
    split
    · exact .small ‹_›
    · rw [hfilled.off]
      exact .written (by omega) hfilled.writes hfilled.within

/-- With a workspace, a call stops in the decoding loop or delivers the normal form. -/
theorem normalizeEx_ends (T : Tables) (s : List UInt8) (dstCap workCap : Nat)
    (hm : FormMode mode) (dst : Option (Nat → UInt8)) (work : Nat → Nat) :
    (∃ st w, (decodeLoop T s (formCompat mode) workCap ⟨0, .fresh work, 0⟩).2 = some st ∧
      (st = .eutf8 ∨ st = .ework) ∧ w.Within workCap ∧
      normalizeEx T mode s (dst.map .fresh) dstCap (some (.fresh work)) workCap =
        ⟨st.code, dst.map .fresh, some w⟩) ∨
    (decodeLoop T s (formCompat mode) workCap ⟨0, .fresh work, 0⟩).2 = none ∧
    ∃ cs w, s = text cs ∧ w.Within workCap ∧
      Delivered (utf8Size (normalForm T mode (cs.map Char.toNat))) dstCap w (dst.map .fresh)
        (normalizeEx T mode s (dst.map .fresh) dstCap (some (.fresh work)) workCap) := by
  rw [normalizeEx_some hm]
  have hstart : (Block.fresh work).Holds [] := Block.holds_nil
  have hloop := decodeLoop_ends (T := T) (s := s) (formCompat mode) (p := ⟨0, .fresh work, 0⟩)
    hstart rfl (Block.within_fresh work workCap) (Nat.zero_le _)
  obtain ⟨hwithin, ⟨st, hst, herr⟩ | ⟨hnone, cs, hcs, hholds, hlen, hcap⟩⟩ := hloop
  · rw [hst]
    exact .inl ⟨st, _, rfl, herr, hwithin, rfl⟩
  · rw [hnone]
    rw [nil_append] at hholds hlen hcap
    dsimp only
    rw [hlen]
    have harr := arrange_holds hholds hwithin hcap
    exact .inr ⟨rfl, cs, _, by simpa using hcs, harr.2.2, deliver_delivered harr.1 harr.2.1 dst⟩

/-! ## The normalizer -/

theorem codes_text (cs : List Char) : Codes (cs.map Char.toNat) (text cs) :=
  codes_iff.mpr ⟨cs, rfl, rfl⟩

theorem text_inj {cs cs' : List Char} (h : text cs = text cs') :
    cs.map Char.toNat = cs'.map Char.toNat :=
  (codes_text cs').unique (h ▸ codes_text cs)

theorem text_length (cs : List Char) : cs.length ≤ (text cs).length := by
  induction cs with
  | nil => exact le_rfl
  | cons c cs ih =>
    have := utf8EncodeChar_pos c
    rw [text_cons, length_append, length_cons]
    omega

variable {bound : Nat}

theorem outBound_eq (h : normalizeOutBound s = .ok bound) :
    bound = s.length * 72 := by
  unfold normalizeOutBound at h
  split at h
  · cases h
  · split at h
    · cases h
    · cases h
      rfl

theorem workBound_eq (h : normalizeWorkBound s = .ok bound) :
    bound = s.length * 18 ∧ ∃ cs, s = text cs := by
  unfold normalizeWorkBound at h
  split at h
  · cases h
  · rename_i hvalid
    rw [Bool.not_eq_true', Bool.not_eq_false, utf8Valid_iff] at hvalid
    obtain ⟨cps, hcps⟩ := hvalid
    obtain ⟨cs, _, hcs⟩ := codes_iff.mp hcps
    split at h
    · cases h
    · cases h
      exact ⟨rfl, cs, hcs.symm⟩

theorem size_le_bound (h : normalizeOutBound (text cs) = .ok bound)
    (hl : l.length ≤ 18 * cs.length) : utf8Size l ≤ bound := by
  have h1 := utf8Size_le l
  have h2 := text_length cs
  rw [outBound_eq h]
  omega

/-- The decoding loop comes to the end in a workspace of the size of the bound. -/
theorem decodeLoop_bound (h : normalizeWorkBound s = .ok bound)
    (hcap : bound ≤ workCap) (compat : Bool) (work : Nat → Nat) :
    (decodeLoop T s compat workCap ⟨0, .fresh work, 0⟩).2 = none := by
  obtain ⟨rfl, cs, rfl⟩ := workBound_eq h
  have h1 : ((cs.map Char.toNat).flatMap (decomposition T compat)).length ≤
      18 * (cs.map Char.toNat).length := decompositions_length _
  have h2 := text_length cs
  rw [length_map] at h1
  refine decodeLoop_text (p := ⟨0, .fresh work, 0⟩) rfl ?_
  show 0 + (decomposed T compat cs).length ≤ workCap
  rw [decomposed]
  omega

/-- How a call ends, whatever it is given. -/
inductive Ended (T : Tables) (mode : Int) (s : List UInt8) (dst : Option (Block UInt8))
    (dstCap workCap : Nat) : Outcome → Prop
  | stopped {st : Status} {work : Option (Block Nat)} : st ≠ .enospc →
      (∀ w ∈ work, w.Within workCap) → Ended T mode s dst dstCap workCap ⟨st.code, dst, work⟩
  | empty : Ended T mode s dst dstCap workCap ⟨0, dst, none⟩
  | delivered {cs : List Char} {w : Block Nat} {o : Outcome} : FormMode mode → s = text cs →
      w.Within workCap →
      Delivered (utf8Size (normalForm T mode (cs.map Char.toNat))) dstCap w dst o →
      Ended T mode s dst dstCap workCap o

theorem within_map_fresh {α : Type} (get : Option (Nat → α)) (n : Nat) :
    ∀ b ∈ get.map Block.fresh, b.Within n := by
  intro b hb
  obtain ⟨f, _, rfl⟩ := map_eq_some_iff.mp hb
  exact Block.within_fresh f n

theorem normalizeEx_ended (T : Tables) (mode : Int) (s : List UInt8) (dst : Option (Nat → UInt8))
    (dstCap : Nat) (work : Option (Nat → Nat)) (workCap : Nat) :
    Ended T mode s (dst.map .fresh) dstCap workCap
      (normalizeEx T mode s (dst.map .fresh) dstCap (work.map .fresh) workCap) := by
  by_cases hm : FormMode mode
  · cases work with
    | none =>
      rw [map_none, normalizeEx_none hm]
      split
      · exact .stopped (by decide) (by simp)
      · exact .empty
    | some get =>
      rw [map_some]
      rcases normalizeEx_ends T s dstCap workCap hm dst get with
        ⟨st, w, _, hst, hw, heq⟩ | ⟨_, cs, w, hs, hw, hdel⟩
      · rw [heq]
        refine .stopped (by rcases hst with rfl | rfl <;> decide) fun w' hw' => ?_
        cases hw'
        exact hw
      · exact .delivered hm hs hw hdel
  · rw [normalizeEx_mode hm]
    exact .stopped (by decide) (within_map_fresh work workCap)

variable {o : Outcome}

theorem Ended.inside {dst : Option (Nat → UInt8)}
    (h : Ended T mode s (dst.map .fresh) dstCap workCap o) : o.Inside dstCap workCap := by
  have hdst := within_map_fresh dst dstCap
  cases h with
  | stopped _ hw => exact ⟨hdst, hw⟩
  | empty => exact ⟨hdst, by simp⟩
  | delivered _ _ hw hdel =>
    generalize dst.map Block.fresh = d0 at hdel hdst
    cases hdel with
    | long _ | size _ | small _ => exact ⟨hdst, by simpa using hw⟩
    | written hle _ hd => exact ⟨by simpa using hd.mono hle, by simpa using hw⟩

/-- The size of a normal form, as the `int` it is returned as, is not negative. -/
def FormFits (T : Tables) (mode : Int) (s : List UInt8) : Prop :=
  FormMode mode → ∀ cps, Codes cps s → utf8Size (normalForm T mode cps) % 2 ^ 32 < 2 ^ 31

variable {dst : Nat → UInt8}

theorem Ended.negative (h : FormFits T mode s)
    (ho : Ended T mode s (some (.fresh dst)) dstCap workCap o) (hneg : o.ret < 0) :
    ∀ d ∈ o.dst, d.writes = [] := by
  cases ho with
  | stopped _ _ | empty => simp [Block.fresh]
  | @delivered cs w _ hm hs _ hdel =>
    have hfits := toInt_nonneg_iff.mpr (h hm _ (hs ▸ codes_text cs))
    cases hdel with
    | small _ => simp [Block.fresh]
    | written _ _ _ =>
      dsimp only at hneg
      omega

theorem Ended.outBound (h : FormFits T mode s)
    (ho : Ended T mode s (some (.fresh dst)) dstCap workCap o)
    (hbound : normalizeOutBound s = .ok bound) (hcap : bound ≤ dstCap) :
    o.ret ≠ Status.enospc.code := by
  cases ho with
  | stopped hst _ => exact fun heq => hst (code_inj heq)
  | empty =>
    show (0 : Int) ≠ -3
    decide
  | @delivered cs w _ hm hs _ hdel =>
    subst hs
    have hlen := normalForm_length (T := T) mode (cs.map Char.toNat)
    rw [length_map] at hlen
    have hsize := size_le_bound hbound hlen
    have hfits := toInt_nonneg_iff.mpr (h hm _ (codes_text cs))
    cases hdel with
    | small hlt => omega
    | written _ _ _ =>
      intro heq
      have := code_neg .enospc
      simp only at heq
      omega

/-- In a workspace of the size of the bound no call runs out of it. -/
theorem normalizeEx_work (h : FormFits T mode s)
    (hbound : normalizeWorkBound s = .ok bound) (hcap : bound ≤ workCap)
    (dst : Option (Nat → UInt8)) (work : Nat → Nat) :
    (normalizeEx T mode s (dst.map .fresh) dstCap (some (.fresh work)) workCap).ret ≠
      Status.ework.code := by
  by_cases hm : FormMode mode
  · rcases normalizeEx_ends T s dstCap workCap hm dst work with
      ⟨st, w, hst, _⟩ | ⟨_, cs, w, hs, _, hdel⟩
    · rw [decodeLoop_bound hbound hcap] at hst
      cases hst
    · have hfits := toInt_nonneg_iff.mpr (h hm _ (hs ▸ codes_text cs))
      intro heq
      have := code_neg .ework
      generalize normalizeEx T mode s (dst.map .fresh) dstCap (some (.fresh work)) workCap = o
        at hdel heq
      generalize dst.map Block.fresh = d0 at hdel
      cases hdel with
      | long _ => cases heq
      | size _ | written _ _ _ =>
        simp only at heq
        omega
      | small _ => cases heq
  · rw [normalizeEx_mode hm]
    intro heq
    have hst : Status.einval = Status.ework := code_inj heq
    cases hst

theorem normalizeEx_query (T : Tables) (mode : Int) (s : List UInt8) (work : Option (Nat → Nat))
    (workCap dstCap : Nat) :
    IsError (normalizeEx T mode s none dstCap (work.map .fresh) workCap).ret ∨
      ∃ enough, ∀ (dst : Nat → UInt8) (cap : Nat), enough ≤ cap →
        ∃ d ∈ (normalizeEx T mode s (some (.fresh dst)) cap (work.map .fresh) workCap).dst,
          (d.writes.length : Int) =
            (normalizeEx T mode s none dstCap (work.map .fresh) workCap).ret := by
  by_cases hm : FormMode mode
  · cases work with
    | none =>
      rw [map_none, normalizeEx_none hm]
      split
      · exact .inl ⟨.einval, rfl⟩
      · rename_i hs
        refine .inr ⟨0, fun dst cap _ => ⟨.fresh dst, ?_, rfl⟩⟩
        rw [normalizeEx_none hm, if_neg hs]
        rfl
    | some get =>
      rw [map_some]
      rcases normalizeEx_ends T s dstCap workCap hm none get with
        ⟨st, w, _, _, _, heq⟩ | ⟨hnone, cs, w, hs, _, hdel⟩
      · rw [map_none] at heq
        rw [heq]
        exact .inl ⟨st, rfl⟩
      · rw [map_none] at hdel
        generalize normalizeEx T mode s none dstCap (some (.fresh get)) workCap = o at hdel
        cases hdel with
        | long _ => exact .inl ⟨.enospc, rfl⟩
        | size hle =>
          refine .inr ⟨utf8Size (normalForm T mode (cs.map Char.toNat)), fun dst cap hcap => ?_⟩
          rcases normalizeEx_ends T s cap workCap hm (some dst) get with
            ⟨st, w, hst, _⟩ | ⟨_, cs', w, hs', _, hdel⟩
          · rw [hnone] at hst
            cases hst
          · rw [map_some] at hdel
            rw [text_inj (hs'.symm.trans hs)] at hdel
            generalize normalizeEx T mode s (some (.fresh dst)) cap (some (.fresh get)) workCap =
              o at hdel
            cases hdel with
            | small hlt => omega
            | written _ hlen _ =>
              refine ⟨_, rfl, ?_⟩
              dsimp only
              rw [hlen, toInt_of_lt (by omega)]
  · rw [normalizeEx_mode hm]
    exact .inl ⟨.einval, rfl⟩

theorem normalizeAgrees_of (h : FormFits T mode s) : NormalizeAgrees T mode s where
  query := normalizeEx_query T mode s
  negative dst dstCap work workCap :=
    (normalizeEx_ended T mode s (some dst) dstCap work workCap).negative h
  inside dst dstCap work workCap := (normalizeEx_ended T mode s dst dstCap work workCap).inside
  workBound dst _ work _ _ hbound hcap := normalizeEx_work h hbound hcap dst work
  outBound dst dstCap work workCap _ hbound hcap :=
    (normalizeEx_ended T mode s (some dst) dstCap work workCap).outBound h hbound hcap

theorem formFits_of (h : NormalizeAgrees T mode s) : FormFits T mode s := by
  intro hm cps hs
  obtain ⟨cs, rfl, rfl⟩ := codes_iff.mp hs
  by_contra hlarge
  have hloop : (decodeLoop T (text cs) (formCompat mode)
      (decomposed T (formCompat mode) cs).length ⟨0, .fresh fun _ => 0, 0⟩).2 = none := by
    refine decodeLoop_text (p := ⟨0, .fresh fun _ => 0, 0⟩) rfl ?_
    exact (Nat.zero_add _).le
  generalize hn : utf8Size (normalForm T mode (cs.map Char.toNat)) = n at hlarge
  have hneg := h.negative (fun _ => 0) n (some fun _ => 0)
    (decomposed T (formCompat mode) cs).length
  rw [map_some] at hneg
  rcases normalizeEx_ends T (text cs) n (decomposed T (formCompat mode) cs).length hm
    (some fun _ => 0) (fun _ => 0) with ⟨st, w, hst, _⟩ | ⟨_, cs', w, hcs, _, hdel⟩
  · rw [hloop] at hst
    cases hst
  · rw [← text_inj hcs, hn, map_some] at hdel
    generalize normalizeEx T mode (text cs) (some (.fresh fun _ => 0)) n
      (some (.fresh fun _ => 0)) (decomposed T (formCompat mode) cs).length = o at hdel hneg
    cases hdel with
    | small hlt => exact absurd hlt (lt_irrefl _)
    | written _ hlen _ =>
      have hlt : toInt n < 0 := Int.not_le.mp fun h0 => hlarge (toInt_nonneg_iff.mp h0)
      dsimp only at hneg
      have hnil := hneg hlt _ rfl
      rw [hnil] at hlen
      subst hlen
      exact hlarge (by decide)

/-- The normalizer agrees just when the size it returns is not negative. -/
theorem normalizeAgrees_iff : NormalizeAgrees T mode s ↔ FormFits T mode s :=
  ⟨formFits_of, normalizeAgrees_of⟩

/-! ## The folder -/

/-- The size of a folded text, as the `int` it is returned as, is that size. -/
def FoldFits (T : Tables) (mode : Int) (s : List UInt8) : Prop :=
  mode = 0 ∨ mode = 1 → ∀ cps, Codes cps s → utf8Size (folded T mode cps) < 2 ^ 31

/-- A call stops before it looks at the destination, or it is given a text. -/
theorem casefold_ends (T : Tables) (mode : Int) (s : List UInt8) :
    (∃ st : Status, st ≠ .enospc ∧ ∀ dst dstCap, casefold T mode s dst dstCap = (st.code, dst)) ∨
      (mode = 0 ∨ mode = 1) ∧ ∃ cs, s = text cs := by
  by_cases hm : mode ≠ 0 ∧ mode ≠ 1
  · refine .inl ⟨.einval, by decide, fun dst dstCap => ?_⟩
    rw [casefold, if_pos hm]
  · cases hlen : foldLengthFrom T (foldTable T mode) s 0 0 with
    | none =>
      refine .inl ⟨.eutf8, by decide, fun dst dstCap => ?_⟩
      simp only [casefold, if_neg hm, hlen]
    | some n =>
      obtain ⟨cs, hcs⟩ := text_of_foldLengthFrom hlen
      exact .inr ⟨by omega, cs, hcs⟩

theorem folded_length (mode : Int) (cps : List Nat) :
    (folded T mode cps).length ≤ 18 * cps.length := by
  have hseq : ∀ cp, (foldSeq T (foldTable T mode) cp).length ≤ 18 := by
    intro cp
    unfold foldSeq
    split
    · simp
    · rename_i row hrow
      rw [Tables.scalars, length_map, length_range]
      refine T.small row ?_
      have hmem := findRow_mem hrow
      unfold foldTable at hmem
      split at hmem <;> simp [hmem]
  unfold folded
  induction cps with
  | nil => simp
  | cons cp cps ih =>
    have := hseq cp
    rw [flatMap_cons, length_append, length_cons]
    omega

theorem casefoldAgrees_of (h : FoldFits T mode s) : CasefoldAgrees T mode s := by
  rcases casefold_ends T mode s with ⟨st, hst, hcall⟩ | ⟨hm, cs, rfl⟩
  · refine ⟨fun dstCap => .inl ?_, fun dst dstCap _ => ?_, fun dst dstCap => ?_, ?_⟩
    · rw [hcall]
      exact ⟨st, rfl⟩
    · rw [hcall]
      simp [Block.fresh]
    · rw [hcall]
      exact within_map_fresh (some dst) dstCap
    · intro dst dstCap bound _ _ heq
      rw [hcall] at heq
      exact hst (code_inj heq)
  · have hfits := h hm _ (codes_text cs)
    have hcall := casefold_text (T := T) hm (codes_text cs) rfl
    refine ⟨fun dstCap => .inr ⟨utf8Size (folded T mode (cs.map Char.toNat)),
      fun dst cap hcap => ?_⟩, fun dst dstCap hneg => ?_, fun dst dstCap => ?_, ?_⟩
    · obtain ⟨d, hd, hlen, _⟩ := (hcall dst cap).2.2 hcap
      rw [hd, (hcall dst dstCap).1]
      refine ⟨d, rfl, ?_⟩
      dsimp only
      rw [hlen, toInt_of_lt hfits]
    · rcases lt_or_ge dstCap (utf8Size (folded T mode (cs.map Char.toNat))) with hlt | hge
      · rw [(hcall dst dstCap).2.1 hlt]
        simp [Block.fresh]
      · obtain ⟨d, hd, _⟩ := (hcall dst dstCap).2.2 hge
        rw [hd] at hneg
        dsimp only at hneg
        rw [toInt_of_lt hfits] at hneg
        omega
    · rcases lt_or_ge dstCap (utf8Size (folded T mode (cs.map Char.toNat))) with hlt | hge
      · rw [(hcall dst dstCap).2.1 hlt]
        exact within_map_fresh (some dst) dstCap
      · obtain ⟨d, hd, _, hwithin⟩ := (hcall dst dstCap).2.2 hge
        rw [hd]
        simpa using hwithin.mono hge
    · intro dst dstCap bound hbound hcap
      have hlen := folded_length (T := T) mode (cs.map Char.toNat)
      rw [length_map] at hlen
      have hsize := size_le_bound hbound hlen
      obtain ⟨d, hd, _⟩ := (hcall dst dstCap).2.2 (hsize.trans hcap)
      rw [hd]
      dsimp only
      rw [toInt_of_lt hfits]
      intro heq
      have := code_neg .enospc
      omega

theorem foldFits_of (h : CasefoldAgrees T mode s) : FoldFits T mode s := by
  intro hm cps hs
  by_contra hlarge
  have hcall := casefold_text (T := T) hm hs rfl
  generalize utf8Size (folded T mode cps) = n at hlarge hcall
  obtain ⟨d, hd, hlen, _⟩ := (hcall (fun _ => 0) n).2.2 le_rfl
  rcases Int.lt_or_le (toInt n) 0 with hneg | hpos
  · -- everything is written, and the result is negative
    have hret := h.negative (fun _ => 0) n
    rw [hd] at hret
    dsimp only at hret
    have hnil := hret hneg d rfl
    rw [hnil] at hlen
    rw [← hlen] at hlarge
    exact hlarge (by decide)
  · -- the answer is no error, and too small
    have hsmall := toInt_lt n
    have hquery : (casefold T mode s none 0).1 = toInt n := by rw [(hcall (fun _ => 0) 0).1]
    rcases h.query 0 with herr | ⟨enough, hwrite⟩
    · rw [hquery] at herr
      obtain ⟨st, hst⟩ := herr
      have := code_neg st
      omega
    · obtain ⟨d', hd', hlen'⟩ := hwrite (fun _ => 0) (max enough n) (le_max_left _ _)
      obtain ⟨d2, hd2, hlen2, _⟩ := (hcall (fun _ => 0) (max enough n)).2.2 (le_max_right _ _)
      rw [hd2] at hd'
      cases hd'
      rw [hquery, hlen2] at hlen'
      omega

/-- The folder agrees just when the size is below the limit of an `int`. -/
theorem casefoldAgrees_iff : CasefoldAgrees T mode s ↔ FoldFits T mode s :=
  ⟨foldFits_of, casefoldAgrees_of⟩

/-- For every mode and every string, the sizes that are asked for agree with what is written
just when they fit. -/
theorem sizes_iff (T : Tables) (mode : Int) (s : List UInt8) :
    (NormalizeAgrees T mode s ↔ FormFits T mode s) ∧
      (CasefoldAgrees T mode s ↔ FoldFits T mode s) :=
  ⟨normalizeAgrees_iff, casefoldAgrees_iff⟩

/-! ## A text that is too long -/

/-- A few rows of the generated data: the fold of `A`, and no class or decomposition. -/
def fewRows : Tables where
  cccRanges := []
  canon := []
  compat := []
  casefoldMap := [⟨0x41, 0, 1⟩]
  casefoldTurkicMap := [⟨0x41, 0, 1⟩]
  compTbl := []
  mappingPool _ := 0x61
  small := by simp

theorem codes_replicate (n : Nat) : Codes (replicate n 0x61) (replicate n 0x61) := by
  refine ⟨fun cp hcp => ?_, ?_⟩
  · rw [(mem_replicate.mp hcp).2]
    rfl
  · induction n with
    | zero => rfl
    | succ n ih =>
      rw [replicate_succ, flatMap_cons, ih]
      rfl

theorem folded_replicate (n : Nat) :
    folded fewRows 0 (replicate n 0x61) = replicate n 0x61 := by
  unfold folded
  induction n with
  | zero => rfl
  | succ n ih =>
    rw [replicate_succ, flatMap_cons, ih]
    rfl

/-- A text of `2 ^ 31` letters `a`: the answer is negative, and so is the result of the call
that writes it. -/
theorem not_sizes_agree :
    ¬∀ (T : Tables) (mode : Int) (s : List UInt8),
      NormalizeAgrees T mode s ∧ CasefoldAgrees T mode s := by
  intro h
  have hagrees := (h fewRows 0 (replicate (2 ^ 31) 0x61)).2
  have hfits := casefoldAgrees_iff.mp hagrees (.inl rfl) _ (codes_replicate (2 ^ 31))
  have hcodes := congrArg length (codes_replicate (2 ^ 31)).2
  rw [folded_replicate, utf8Size, hcodes, length_replicate] at hfits
  exact absurd hfits (lt_irrefl _)

end U89
