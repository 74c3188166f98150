import EightyNine.J89.NumberOk

/-!
# Values against the grammar

A parser of values takes whitespace and a value of the grammar (`Parses`).  Given
one for the values of nesting `n`, the loops over items and members take the
arrays and objects of nesting `n + 1`, so the parser descends level by level
(`parseValue_parses`).
-/

namespace J89

open Library List

variable {α : Type}

theorem bind_of_ok {β γ : Type} {x : Result β} {a : β} (h : x = .ok a) (f : β → Result γ) :
    (x >>= f) = f a := by
  rw [h]
  rfl

/-! ## Whitespace -/

variable {s : Bytes}

theorem isWs_iff {b : UInt8} :
    isWs (cur (b :: s)) = true ↔ b = 0x20 ∨ b = 0x09 ∨ b = 0x0A ∨ b = 0x0D := by
  have h : ∀ {c : Char}, c.toNat < 128 → (cur (b :: s) = ch c ↔ b = byte c) := fun hc =>
    (cur_eq_ch hc).trans ⟨fun ⟨_, h⟩ => (cons.inj h).1, fun h => ⟨s, by rw [h]⟩⟩
  simp only [isWs, Bool.or_eq_true, beq_iff_eq, or_assoc]
  rw [h (by decide), h (by decide), h (by decide), h (by decide)]
  rfl

theorem skipWs_eq (s : Bytes) :
    ∃ w, Ws w ∧ s = w ++ skipWs s ∧ isWs (cur (skipWs s)) = false := by
  induction s with
  | nil => exact ⟨[], by simp [Ws], rfl, by decide⟩
  | cons b s ih =>
    rw [skipWs]
    cases hb : isWs (cur (b :: s)) with
    | false => exact ⟨[], by simp [Ws], rfl, by simpa using hb⟩
    | true =>
      obtain ⟨w, hw, hs, hcur⟩ := ih
      refine ⟨b :: w, ?_, ?_, by simpa using hcur⟩
      · intro c hc
        rcases mem_cons.mp hc with rfl | hc
        · exact isWs_iff.mp hb
        · exact hw c hc
      · simpa using hs

theorem skipWs_of_not (h : isWs (cur s) = false) : skipWs s = s := by
  cases s with
  | nil => rfl
  | cons b s => exact if_neg (by rw [h]; simp)

variable {w : Bytes}

theorem skipWs_append (hw : Ws w) (s : Bytes) : skipWs (w ++ s) = skipWs s := by
  induction w with
  | nil => rfl
  | cons b w ih =>
    rw [cons_append, skipWs, if_pos (isWs_iff.mpr (hw b mem_cons_self)),
      ih fun c hc => hw c (mem_cons_of_mem b hc)]

@[simp] theorem skipWs_skipWs (s : Bytes) : skipWs (skipWs s) = skipWs s := by
  obtain ⟨_, _, _, h⟩ := skipWs_eq s
  exact skipWs_of_not h

theorem Ws.append {w' : Bytes} (h : Ws w) (h' : Ws w') : Ws (w ++ w') := fun b hb =>
  (mem_append.mp hb).elim (h b) (h' b)

theorem Ws.nil : Ws [] := fun _ h => absurd h not_mem_nil

variable {c : Char}

theorem skipWs_ch (hw : Ws w) (hc : isWs (ch c) = false)
    (hlt : c.toNat < 128) (s : Bytes) : skipWs (w ++ byte c :: s) = byte c :: s := by
  have hcur : cur (byte c :: s) = ch c := (cur_eq_ch hlt).mpr ⟨s, rfl⟩
  rw [skipWs_append hw, skipWs_of_not (by rw [hcur]; exact hc)]

/-! ## Literals and what follows a value -/

variable {tok : List Char} {r : Bytes}

theorem litChars_iff (htok : ∀ c ∈ tok, c.toNat < 128) :
    litChars tok s = .ok r ↔ s = tok.map byte ++ r := by
  induction tok generalizing s with
  | nil =>
    exact ⟨fun h => by cases h; rfl, fun h => by rw [h]; rfl⟩
  | cons c tok ih =>
    have hc : c.toNat < 128 := htok c mem_cons_self
    have ih {s : Bytes} := @ih s fun d hd => htok d (mem_cons_of_mem c hd)
    rw [litChars, bind_eq_ok, map_cons, cons_append]
    constructor
    · rintro ⟨s', hstep, hrest⟩
      rw [litChar] at hstep
      split at hstep
      case isTrue => cases hstep
      case isFalse hcur =>
        obtain ⟨t, rfl⟩ := (cur_eq_ch hc).mp (not_not.mp hcur)
        cases hstep
        rw [ih] at hrest
        exact congrArg _ hrest
    · rintro rfl
      refine ⟨tok.map byte ++ r, ?_, ih.mpr rfl⟩
      exact if_neg (not_not.mpr ((cur_eq_ch hc).mpr ⟨_, rfl⟩))

variable {t : Json α}

theorem parseLit_iff (htok : ∀ c ∈ tok, c.toNat < 128) {node : Json α} :
    parseLit tok node s = .ok (t, r) ↔ s = tok.map byte ++ r ∧ t = node := by
  rw [parseLit, bind_eq_ok]
  constructor
  · rintro ⟨r', h, heq⟩
    cases heq
    exact ⟨(litChars_iff htok).mp h, rfl⟩
  · rintro ⟨h, rfl⟩
    exact ⟨r, (litChars_iff htok).mpr h, rfl⟩

/-- What can follow a value. -/
def Stops (r : Bytes) : Prop :=
  r = [] ∨ isWs (cur r) = true ∨ cur r = ch ',' ∨ cur r = ch ']' ∨ cur r = ch '}'

theorem Stops.follows (h : Stops r) : Follows r := by
  rcases h with rfl | h | h | h | h
  · exact ⟨by decide, by decide, by decide, by decide⟩
  · simp only [isWs, Bool.or_eq_true, beq_iff_eq, or_assoc] at h
    rcases h with h | h | h | h <;>
      exact ⟨by rw [h]; decide, by rw [h]; decide, by rw [h]; decide, by rw [h]; decide⟩
  all_goals exact ⟨by rw [h]; decide, by rw [h]; decide, by rw [h]; decide, by rw [h]; decide⟩

theorem Stops.ws_append (hw : Ws w) (hr : Stops r) : Stops (w ++ r) := by
  cases w with
  | nil => exact hr
  | cons b w => exact .inr (.inl (isWs_iff.mpr (hw b mem_cons_self)))

theorem Stops.comma (s : Bytes) : Stops (byte ',' :: s) :=
  .inr (.inr (.inl ((cur_eq_ch (by decide)).mpr ⟨s, rfl⟩)))

theorem Stops.bracket (s : Bytes) : Stops (byte ']' :: s) :=
  .inr (.inr (.inr (.inl ((cur_eq_ch (by decide)).mpr ⟨s, rfl⟩))))

theorem Stops.brace (s : Bytes) : Stops (byte '}' :: s) :=
  .inr (.inr (.inr (.inr ((cur_eq_ch (by decide)).mpr ⟨s, rfl⟩))))

/-! ## Parsers of values -/

/-- A parser takes whitespace and a value of nesting at most `n`. -/
structure Parses (num : Numeral → Option α) (n : Nat) (parser : Bytes → Result (Json α × Bytes)) :
    Prop where
  sound : ∀ {s r : Bytes} {t : Json α}, parser s = .ok (t, r) →
    ∃ w x, Ws w ∧ s = w ++ (x ++ r) ∧ Value num n x t
  complete : ∀ {w x r : Bytes} {t : Json α}, Ws w → Value num n x t → Stops r →
    parser (w ++ (x ++ r)) = .ok (t, r)
  skips : ∀ s, parser (skipWs s) = parser s
  bracket : ∀ {s : Bytes}, cur (skipWs s) = ch ']' → ∀ p, parser s ≠ .ok p

/-! ## Arrays -/

section

variable {num : Numeral → Option α} {n : Nat} {parser : Bytes → Result (Json α × Bytes)}

variable {acc : List (Json α)} {s' : Bytes}

theorem arrayItem_sound {round : Round (List (Json α)) (List (Json α))} (hp : Parses num n parser)
    (h : arrayItem parser acc s = .ok (round, s')) :
    ∃ e : Padded (Json α), e.Blank ∧ Value num n e.text e.val ∧
      ((round = .done (acc ++ [e.val]) ∧ s = e.bytes ++ byte ']' :: s') ∨
        ∃ w, Ws w ∧ round = .again (acc ++ [e.val]) ∧ s = e.bytes ++ byte ',' :: (w ++ s')) := by
  obtain ⟨⟨t, r⟩, hval, hrest⟩ := bind_eq_ok.mp h
  obtain ⟨w, x, hw, rfl, hx⟩ := hp.sound hval
  obtain ⟨w', hw', hr, -⟩ := skipWs_eq r
  refine ⟨⟨w, x, w', t⟩, ⟨hw, hw'⟩, hx, ?_⟩
  simp only at hrest
  split at hrest
  case isTrue hc =>
    obtain ⟨r', hr'⟩ := (cur_eq_ch (by decide)).mp hc
    cases hrest
    obtain ⟨w'', hw'', hrest, -⟩ := skipWs_eq r'
    refine .inr ⟨w'', hw'', rfl, ?_⟩
    rw [hr'] at hr ⊢
    rw [consumeComma, show bump (byte ',' :: r') = r' from rfl, ← hrest, hr]
    simp [Padded.bytes]
  case isFalse =>
    split at hrest
    case isFalse => cases hrest
    case isTrue hc =>
      obtain ⟨r', hr'⟩ := (cur_eq_ch (by decide)).mp hc
      cases hrest
      refine .inl ⟨rfl, ?_⟩
      rw [hr'] at hr ⊢
      rw [show bump (byte ']' :: r') = r' from rfl, hr]
      simp [Padded.bytes]

variable {e : Padded (Json α)}

theorem arrayItem_last (hp : Parses num n parser)
    (hb : e.Blank) (hv : Value num n e.text e.val) (r : Bytes) :
    arrayItem parser acc (e.bytes ++ byte ']' :: r) = .ok (.done (acc ++ [e.val]), r) := by
  have htext : e.bytes ++ byte ']' :: r = e.before ++ (e.text ++ (e.after ++ byte ']' :: r)) := by
    simp [Padded.bytes]
  have hskip := skipWs_ch hb.2 (c := ']') (by decide) (by decide) r
  have hcur : cur (byte ']' :: r) = ch ']' := (cur_eq_ch (by decide)).mpr ⟨r, rfl⟩
  rw [htext]
  refine bind_eq_ok.mpr ⟨_, hp.complete hb.1 hv ((Stops.bracket r).ws_append hb.2), ?_⟩
  simp only [hskip, hcur]
  rw [if_neg (by decide)]
  rfl

theorem arrayItem_more (hp : Parses num n parser)
    (hb : e.Blank) (hv : Value num n e.text e.val) (s : Bytes) :
    arrayItem parser acc (e.bytes ++ byte ',' :: s) =
      .ok (.again (acc ++ [e.val]), skipWs s) := by
  have htext : e.bytes ++ byte ',' :: s = e.before ++ (e.text ++ (e.after ++ byte ',' :: s)) := by
    simp [Padded.bytes]
  have hskip := skipWs_ch hb.2 (c := ',') (by decide) (by decide) s
  have hcur : cur (byte ',' :: s) = ch ',' := (cur_eq_ch (by decide)).mpr ⟨s, rfl⟩
  rw [htext]
  refine bind_eq_ok.mpr ⟨_, hp.complete hb.1 hv ((Stops.comma s).ws_append hb.2), ?_⟩
  simp only [hskip, hcur]
  rfl

theorem arrayItem_consumes (hp : Parses num n parser) : Consumes (arrayItem parser) := by
  intro acc s acc' r h
  obtain ⟨e, -, -, ⟨hround, -⟩ | ⟨w, -, -, rfl⟩⟩ := arrayItem_sound hp h
  · cases hround
  · simp only [length_append, length_cons]
    omega

theorem scan_arrayItem_skipWs (hp : Parses num n parser) (acc : List (Json α)) (s : Bytes) :
    scan .rounds (arrayItem parser) acc (skipWs s) = scan .rounds (arrayItem parser) acc s := by
  have hstep : arrayItem parser acc (skipWs s) = arrayItem parser acc s := by
    simp only [arrayItem, hp.skips]
  rw [scan_eq (arrayItem_consumes hp), scan_eq (arrayItem_consumes hp), hstep]

/-- Whitespace in front of the items belongs to the first of them. -/
def Padded.push (w : Bytes) (e : Padded α) : Padded α := { e with before := w ++ e.before }

theorem commas_cons (x : Bytes) {xs : List Bytes} (h : xs ≠ []) :
    commas (x :: xs) = x ++ byte ',' :: commas xs := by
  obtain ⟨y, ys, rfl⟩ := exists_cons_of_ne_nil h
  rfl

/-- The items of an array that is not empty, with the bracket behind them. -/
theorem scan_arrayItem_sound (hp : Parses num n parser) {ts : List (Json α)}
    (h : scan .rounds (arrayItem parser) acc s = .ok (ts, r)) :
    ∃ es : List (Padded (Json α)), es ≠ [] ∧ (∀ e ∈ es, e.Blank) ∧
      (∀ e ∈ es, Value num n e.text e.val) ∧
      s = commas (es.map Padded.bytes) ++ byte ']' :: r ∧ ts = acc ++ es.map Padded.val := by
  refine scan_induct (Q := fun acc s ts r => ∃ es : List (Padded (Json α)), es ≠ [] ∧
    (∀ e ∈ es, e.Blank) ∧ (∀ e ∈ es, Value num n e.text e.val) ∧
      s = commas (es.map Padded.bytes) ++ byte ']' :: r ∧ ts = acc ++ es.map Padded.val) ?_ ?_ h
  · intro acc s ts r h
    obtain ⟨e, hb, hv, ⟨hround, rfl⟩ | ⟨w, hw, hround, -⟩⟩ := arrayItem_sound hp h
    · cases hround
      exact ⟨[e], by simp, by simpa using hb, by simpa using hv, rfl, rfl⟩
    · cases hround
  · intro acc s acc' s' ts r h ih
    obtain ⟨e, hb, hv, ⟨hround, -⟩ | ⟨w, hw, hround, rfl⟩⟩ := arrayItem_sound hp h
    · cases hround
    · cases hround
      obtain ⟨es, hne, hblank, hval, rfl, rfl⟩ := ih
      obtain ⟨e', es, rfl⟩ := exists_cons_of_ne_nil hne
      have hb' := hblank e' mem_cons_self
      refine ⟨e :: e'.push w :: es, by simp, ?_, ?_, ?_, by simp [Padded.push]⟩
      · intro d hd
        rcases mem_cons.mp hd with rfl | hd
        · exact hb
        · rcases mem_cons.mp hd with rfl | hd
          · exact ⟨hw.append hb'.1, hb'.2⟩
          · exact hblank d (mem_cons_of_mem _ hd)
      · intro d hd
        rcases mem_cons.mp hd with rfl | hd
        · exact hv
        · rcases mem_cons.mp hd with rfl | hd
          · exact hval e' mem_cons_self
          · exact hval d (mem_cons_of_mem _ hd)
      · have hpush : (e'.push w).bytes = w ++ e'.bytes := by simp [Padded.push, Padded.bytes]
        cases es with
        | nil | cons d es => simp [commas, hpush]

theorem scan_arrayItem_complete (hp : Parses num n parser) (r : Bytes) :
    ∀ {es : List (Padded (Json α))} (acc : List (Json α)), es ≠ [] → (∀ e ∈ es, e.Blank) →
      (∀ e ∈ es, Value num n e.text e.val) →
      scan .rounds (arrayItem parser) acc (commas (es.map Padded.bytes) ++ byte ']' :: r) =
        .ok (acc ++ es.map Padded.val, r) := by
  intro es
  induction es with
  | nil => intro acc hne; exact absurd rfl hne
  | cons e es ih =>
    intro acc _ hblank hval
    have hb := hblank e mem_cons_self
    have hv := hval e mem_cons_self
    cases es with
    | nil => exact scan_done (arrayItem_consumes hp) (arrayItem_last hp hb hv r)
    | cons e' es =>
      have ih := ih (acc ++ [e.val]) (by simp) (fun d hd => hblank d (mem_cons_of_mem e hd))
        fun d hd => hval d (mem_cons_of_mem e hd)
      rw [map_cons, commas_cons _ (by simp), append_assoc, cons_append,
        scan_again (arrayItem_consumes hp) (arrayItem_more hp hb hv _), scan_arrayItem_skipWs hp, ih,
        append_assoc]
      rfl

theorem parseArray_sound (hp : Parses num n parser)
    (h : parseArray parser (byte '[' :: s) = .ok (t, r)) :
    ∃ x, byte '[' :: s = x ++ r ∧ Value num (n + 1) x t := by
  rw [parseArray, show bump (byte '[' :: s) = s from rfl] at h
  obtain ⟨w, hw, hs, -⟩ := skipWs_eq s
  simp only at h
  split at h
  case isTrue hc =>
    obtain ⟨r', hr'⟩ := (cur_eq_ch (by decide)).mp hc
    cases h
    rw [hr'] at hs
    refine ⟨_, ?_, .emptyArray hw⟩
    rw [hr', hs]
    simp [bump]
  case isFalse =>
    obtain ⟨⟨ts, r'⟩, hscan, heq⟩ := bind_eq_ok.mp h
    cases heq
    rw [scan_arrayItem_skipWs hp] at hscan
    obtain ⟨es, hne, hblank, hval, rfl, rfl⟩ := scan_arrayItem_sound hp hscan
    exact ⟨_, by simp, .array hne hblank hval⟩

theorem parseArray_empty (hw : Ws w) (r : Bytes) :
    parseArray parser (byte '[' :: (w ++ byte ']' :: r)) = .ok (.array [], r) := by
  have hskip := skipWs_ch hw (c := ']') (by decide) (by decide) r
  have hcur : cur (byte ']' :: r) = ch ']' := (cur_eq_ch (by decide)).mpr ⟨r, rfl⟩
  rw [parseArray, show bump (byte '[' :: (w ++ byte ']' :: r)) = w ++ byte ']' :: r from rfl]
  simp only [hskip, hcur]
  rfl

theorem parseArray_items (hp : Parses num n parser) {es : List (Padded (Json α))} (hne : es ≠ [])
    (hblank : ∀ e ∈ es, e.Blank) (hval : ∀ e ∈ es, Value num n e.text e.val) (r : Bytes) :
    parseArray parser (byte '[' :: (commas (es.map Padded.bytes) ++ byte ']' :: r)) =
      .ok (.array (es.map Padded.val), r) := by
  have hscan := scan_arrayItem_complete hp r [] hne hblank hval
  rw [← scan_arrayItem_skipWs hp] at hscan
  rw [parseArray, show bump (byte '[' :: (commas (es.map Padded.bytes) ++ byte ']' :: r)) =
    commas (es.map Padded.bytes) ++ byte ']' :: r from rfl]
  -- the first item starts with a value, so there is no bracket
  have hcur : cur (skipWs (commas (es.map Padded.bytes) ++ byte ']' :: r)) ≠ ch ']' := by
    intro hc
    have hitem : ∀ p, arrayItem parser [] (skipWs (commas (es.map Padded.bytes) ++ byte ']' :: r)) ≠
        .ok p := by
      intro p h
      obtain ⟨_, hval, -⟩ := bind_eq_ok.mp h
      exact hp.bracket (by rwa [skipWs_skipWs]) _ hval
    rw [scan_eq (arrayItem_consumes hp)] at hscan
    cases hstep : arrayItem parser [] (skipWs (commas (es.map Padded.bytes) ++ byte ']' :: r)) with
    | error e => rw [hstep] at hscan; cases hscan
    | ok p => exact hitem p hstep
  simp only
  rw [if_neg hcur]
  exact bind_eq_ok.mpr ⟨_, hscan, rfl⟩

/-! ## Objects -/

theorem hasDup_iff {members : List (Bytes × Json α)} {key : Bytes} :
    hasDup members key = true ↔ key ∈ members.map Prod.fst := by
  simp only [hasDup, any_eq_true, beq_iff_eq, mem_map]

/-- What stands in front of the separator behind a member. -/
theorem objectMember_sound (hp : Parses num n parser) {acc : List (Bytes × Json α)}
    {round : Round (List (Bytes × Json α)) (List (Bytes × Json α))}
    (h : objectMember parser acc s = .ok (round, s')) :
    ∃ m : Member α, m.Blank ∧ StrBody m.key.text m.key.val ∧
      Value num n m.value.text m.value.val ∧ m.key.val ∉ acc.map Prod.fst ∧
      ((round = .done (acc ++ [m.val]) ∧ s = m.bytes ++ byte '}' :: s') ∨
        round = .again (acc ++ [m.val]) ∧ s = m.bytes ++ byte ',' :: s') := by
  obtain ⟨w, hw, hs, -⟩ := skipWs_eq s
  rw [objectMember] at h
  simp only at h
  split at h
  case isTrue => cases h
  case isFalse hq =>
  obtain ⟨s1, hs1⟩ := (cur_eq_ch (by decide)).mp (not_not.mp hq)
  rw [hs1] at h hs
  obtain ⟨⟨key, s2⟩, hkey, hrest⟩ := bind_eq_ok.mp h
  obtain ⟨x, hx, hs2⟩ := parseString_iff.mp hkey
  obtain ⟨w2, hw2, hs3, -⟩ := skipWs_eq s2
  simp only at hrest
  split at hrest
  case isTrue => cases hrest
  case isFalse hcolon =>
  obtain ⟨s3, hs4⟩ := (cur_eq_ch (by decide)).mp (not_not.mp hcolon)
  rw [hs4] at hrest hs3
  obtain ⟨⟨value, s4⟩, hvalue, hend⟩ := bind_eq_ok.mp hrest
  rw [hp.skips, show bump (byte ':' :: s3) = s3 from rfl] at hvalue
  obtain ⟨w4, y, hw4, hs5, hy⟩ := hp.sound hvalue
  obtain ⟨w5, hw5, hs6, -⟩ := skipWs_eq s4
  simp only at hend
  split at hend
  case isTrue => cases hend
  case isFalse hdup =>
  rw [hasDup_iff] at hdup
  refine ⟨⟨⟨w, x, w2, key⟩, ⟨w4, y, w5, value⟩⟩, ⟨⟨hw, hw2⟩, hw4, hw5⟩, hx, hy, hdup, ?_⟩
  split at hend
  case isTrue hc =>
    obtain ⟨r, hr⟩ := (cur_eq_ch (by decide)).mp hc
    cases hend
    refine .inr ⟨rfl, ?_⟩
    rw [hr] at hs6 ⊢
    rw [hs, hs2, hs3, hs5, hs6]
    simp [Member.bytes, Padded.bytes, bump]
  case isFalse =>
    split at hend
    case isFalse => cases hend
    case isTrue hc =>
      obtain ⟨r, hr⟩ := (cur_eq_ch (by decide)).mp hc
      cases hend
      refine .inl ⟨rfl, ?_⟩
      rw [hr] at hs6 ⊢
      rw [hs, hs2, hs3, hs5, hs6]
      simp [Member.bytes, Padded.bytes, bump]

/-- A member whose key is new is read up to the separator behind it. -/
theorem objectMember_step (hp : Parses num n parser) {acc : List (Bytes × Json α)} {m : Member α}
    (hb : m.Blank) (hkey : StrBody m.key.text m.key.val) (hv : Value num n m.value.text m.value.val)
    (hnew : m.key.val ∉ acc.map Prod.fst) (hc : isWs (ch c) = false)
    (hlt : c.toNat < 128) (hr : Stops (byte c :: r)) :
    objectMember parser acc (m.bytes ++ byte c :: r) =
      if ch c = ch ',' then .ok (.again (acc ++ [m.val]), r)
      else if ch c = ch '}' then .ok (.done (acc ++ [m.val]), r)
      else fail "expected , or \x7d" := by
  obtain ⟨⟨w, x, w2, key⟩, ⟨w4, y, w5, value⟩⟩ := m
  obtain ⟨⟨hw, hw2⟩, hw4, hw5⟩ := hb
  have hquote : skipWs (w ++ (quoted x ++ (w2 ++ byte ':' :: (w4 ++ (y ++ (w5 ++ byte c :: r)))))) =
      quoted x ++ (w2 ++ byte ':' :: (w4 ++ (y ++ (w5 ++ byte c :: r)))) :=
    skipWs_ch hw (c := '"') (by decide) (by decide) _
  have hcolon := skipWs_ch hw2 (c := ':') (by decide) (by decide)
    (w4 ++ (y ++ (w5 ++ byte c :: r)))
  have hsep := skipWs_ch hw5 hc hlt r
  have hcurq : cur (quoted x ++ (w2 ++ byte ':' :: (w4 ++ (y ++ (w5 ++ byte c :: r))))) = ch '"' :=
    (cur_eq_ch (by decide)).mpr ⟨_, rfl⟩
  have hcurc : cur (byte ':' :: (w4 ++ (y ++ (w5 ++ byte c :: r)))) = ch ':' :=
    (cur_eq_ch (by decide)).mpr ⟨_, rfl⟩
  have hcurs : cur (byte c :: r) = ch c := (cur_eq_ch hlt).mpr ⟨r, rfl⟩
  have hstr : parseString (quoted x ++ (w2 ++ byte ':' :: (w4 ++ (y ++ (w5 ++ byte c :: r))))) =
      .ok (key, w2 ++ byte ':' :: (w4 ++ (y ++ (w5 ++ byte c :: r)))) :=
    parseString_iff.mpr ⟨x, hkey, rfl⟩
  have hval : parser (w4 ++ (y ++ (w5 ++ byte c :: r))) = .ok (value, w5 ++ byte c :: r) :=
    hp.complete hw4 hv (hr.ws_append hw5)
  have htext : Member.bytes ⟨⟨w, x, w2, key⟩, ⟨w4, y, w5, value⟩⟩ ++ byte c :: r =
      w ++ (quoted x ++ (w2 ++ byte ':' :: (w4 ++ (y ++ (w5 ++ byte c :: r))))) := by
    simp [Member.bytes, Padded.bytes]
  have hdup : ¬ hasDup acc key = true := fun h => hnew (hasDup_iff.mp h)
  rw [htext, objectMember]
  simp only [hquote, hcurq]
  rw [if_neg (by simp), bind_of_ok hstr]
  simp only [hcolon, hcurc]
  rw [if_neg (by simp), hp.skips]
  show (parser (w4 ++ (y ++ (w5 ++ byte c :: r))) >>= _) = _
  rw [bind_of_ok hval]
  simp only [hsep, hcurs]
  rw [if_neg hdup]
  rfl

theorem objectMember_consumes (hp : Parses num n parser) : Consumes (objectMember parser) := by
  intro acc s acc' r h
  obtain ⟨m, -, -, -, -, ⟨hround, -⟩ | ⟨-, rfl⟩⟩ := objectMember_sound hp h
  · cases hround
  · simp only [length_append, length_cons]
    omega

theorem scan_objectMember_skipWs (hp : Parses num n parser) (acc : List (Bytes × Json α))
    (s : Bytes) :
    scan .rounds (objectMember parser) acc (skipWs s) =
      scan .rounds (objectMember parser) acc s := by
  have hstep : objectMember parser acc (skipWs s) = objectMember parser acc s := by
    simp only [objectMember, skipWs_skipWs]
  rw [scan_eq (objectMember_consumes hp), scan_eq (objectMember_consumes hp), hstep]

theorem nodup_concat {l : List (Bytes × Json α)} {m : Bytes × Json α}
    (h : (l.map Prod.fst).Nodup) (hnew : m.1 ∉ l.map Prod.fst) :
    ((l ++ [m]).map Prod.fst).Nodup := by
  rw [map_append]
  exact nodup_append.mpr ⟨h, nodup_singleton _, fun a ha b hb => by
    rw [map_singleton, mem_singleton] at hb
    rintro rfl
    exact hnew (hb ▸ ha)⟩

/-- The members of an object that is not empty, with the brace behind them. -/
theorem scan_objectMember_sound (hp : Parses num n parser) {acc ts : List (Bytes × Json α)}
    (hacc : (acc.map Prod.fst).Nodup)
    (h : scan .rounds (objectMember parser) acc s = .ok (ts, r)) :
    ∃ ms : List (Member α), ms ≠ [] ∧ (∀ m ∈ ms, m.Blank) ∧
      (∀ m ∈ ms, StrBody m.key.text m.key.val) ∧
      (∀ m ∈ ms, Value num n m.value.text m.value.val) ∧
      s = commas (ms.map Member.bytes) ++ byte '}' :: r ∧ ts = acc ++ ms.map Member.val ∧
      (ts.map Prod.fst).Nodup := by
  refine scan_induct (Q := fun acc s ts r => (acc.map Prod.fst).Nodup → ∃ ms : List (Member α),
    ms ≠ [] ∧ (∀ m ∈ ms, m.Blank) ∧ (∀ m ∈ ms, StrBody m.key.text m.key.val) ∧
      (∀ m ∈ ms, Value num n m.value.text m.value.val) ∧
      s = commas (ms.map Member.bytes) ++ byte '}' :: r ∧ ts = acc ++ ms.map Member.val ∧
      (ts.map Prod.fst).Nodup) ?_ ?_ h hacc
  · intro acc s ts r h hacc
    obtain ⟨m, hb, hk, hv, hnew, ⟨hround, rfl⟩ | ⟨hround, -⟩⟩ := objectMember_sound hp h
    · cases hround
      exact ⟨[m], by simp, by simpa using hb, by simpa using hk, by simpa using hv, rfl, rfl,
        nodup_concat hacc hnew⟩
    · cases hround
  · intro acc s acc' s' ts r h ih hacc
    obtain ⟨m, hb, hk, hv, hnew, ⟨hround, -⟩ | ⟨hround, rfl⟩⟩ := objectMember_sound hp h
    · cases hround
    · cases hround
      obtain ⟨ms, hne, hblank, hkey, hval, rfl, rfl, hnodup⟩ := ih (nodup_concat hacc hnew)
      refine ⟨m :: ms, by simp, ?_, ?_, ?_, ?_, by simp, hnodup⟩
      · exact forall_mem_cons.mpr ⟨hb, hblank⟩
      · exact forall_mem_cons.mpr ⟨hk, hkey⟩
      · exact forall_mem_cons.mpr ⟨hv, hval⟩
      · rw [map_cons, commas_cons _ (by simpa using hne), append_assoc]
        rfl

theorem scan_objectMember_complete (hp : Parses num n parser) (r : Bytes) :
    ∀ {ms : List (Member α)} (acc : List (Bytes × Json α)), ms ≠ [] → (∀ m ∈ ms, m.Blank) →
      (∀ m ∈ ms, StrBody m.key.text m.key.val) →
      (∀ m ∈ ms, Value num n m.value.text m.value.val) →
      ((acc ++ ms.map Member.val).map Prod.fst).Nodup →
      scan .rounds (objectMember parser) acc (commas (ms.map Member.bytes) ++ byte '}' :: r) =
        .ok (acc ++ ms.map Member.val, r) := by
  intro ms
  induction ms with
  | nil => intro acc hne; exact absurd rfl hne
  | cons m ms ih =>
    intro acc _ hblank hkey hval hnodup
    have hb := hblank m mem_cons_self
    have hk := hkey m mem_cons_self
    have hv := hval m mem_cons_self
    have hnew : m.key.val ∉ acc.map Prod.fst := by
      rw [map_cons, map_append, nodup_append] at hnodup
      exact fun hmem => hnodup.2.2 _ hmem m.key.val mem_cons_self rfl
    cases ms with
    | nil =>
      exact scan_done (objectMember_consumes hp)
        (objectMember_step hp hb hk hv hnew (by decide) (by decide) (Stops.brace r))
    | cons m' ms =>
      have ih := ih (acc ++ [m.val]) (by simp) (fun d hd => hblank d (mem_cons_of_mem m hd))
        (fun d hd => hkey d (mem_cons_of_mem m hd))
        (fun d hd => hval d (mem_cons_of_mem m hd)) (by simpa using hnodup)
      have hstep : ∀ s, objectMember parser acc (m.bytes ++ byte ',' :: s) =
          .ok (.again (acc ++ [m.val]), s) := fun s =>
        objectMember_step hp hb hk hv hnew (by decide) (by decide) (Stops.comma s)
      rw [map_cons, commas_cons _ (by simp), append_assoc, cons_append,
        scan_again (objectMember_consumes hp) (hstep _), ih, append_assoc]
      rfl

theorem parseObject_sound (hp : Parses num n parser)
    (h : parseObject parser (byte '{' :: s) = .ok (t, r)) :
    ∃ x, byte '{' :: s = x ++ r ∧ Value num (n + 1) x t := by
  rw [parseObject, show bump (byte '{' :: s) = s from rfl] at h
  obtain ⟨w, hw, hs, -⟩ := skipWs_eq s
  simp only at h
  split at h
  case isTrue hc =>
    obtain ⟨r', hr'⟩ := (cur_eq_ch (by decide)).mp hc
    cases h
    rw [hr'] at hs
    refine ⟨_, ?_, .emptyObject hw⟩
    rw [hr', hs]
    simp [bump]
  case isFalse =>
    obtain ⟨⟨ts, r'⟩, hscan, heq⟩ := bind_eq_ok.mp h
    cases heq
    rw [scan_objectMember_skipWs hp] at hscan
    obtain ⟨ms, hne, hblank, hkey, hval, rfl, rfl, hnodup⟩ :=
      scan_objectMember_sound hp (by simp) hscan
    rw [nil_append, map_map] at hnodup
    exact ⟨_, by simp, .object hne hblank hkey hval hnodup⟩

theorem parseObject_empty (hw : Ws w) (r : Bytes) :
    parseObject parser (byte '{' :: (w ++ byte '}' :: r)) = .ok (.object [], r) := by
  have hskip := skipWs_ch hw (c := '}') (by decide) (by decide) r
  have hcur : cur (byte '}' :: r) = ch '}' := (cur_eq_ch (by decide)).mpr ⟨r, rfl⟩
  rw [parseObject, show bump (byte '{' :: (w ++ byte '}' :: r)) = w ++ byte '}' :: r from rfl]
  simp only [hskip, hcur]
  rfl

theorem parseObject_members (hp : Parses num n parser) {ms : List (Member α)} (hne : ms ≠ [])
    (hblank : ∀ m ∈ ms, m.Blank) (hkey : ∀ m ∈ ms, StrBody m.key.text m.key.val)
    (hval : ∀ m ∈ ms, Value num n m.value.text m.value.val)
    (hnodup : (ms.map fun m => m.key.val).Nodup) (r : Bytes) :
    parseObject parser (byte '{' :: (commas (ms.map Member.bytes) ++ byte '}' :: r)) =
      .ok (.object (ms.map Member.val), r) := by
  have hscan := scan_objectMember_complete hp r [] hne hblank hkey hval
    (by rw [nil_append, map_map]; exact hnodup)
  rw [← scan_objectMember_skipWs hp] at hscan
  rw [parseObject, show bump (byte '{' :: (commas (ms.map Member.bytes) ++ byte '}' :: r)) =
    commas (ms.map Member.bytes) ++ byte '}' :: r from rfl]
  -- a member starts with a quote, so there is no brace
  have hcur : cur (skipWs (commas (ms.map Member.bytes) ++ byte '}' :: r)) ≠ ch '}' := by
    intro hc
    have hstep : objectMember parser [] (skipWs (commas (ms.map Member.bytes) ++ byte '}' :: r)) =
        fail "expected object key" := by
      rw [objectMember]
      simp only [skipWs_skipWs]
      exact if_pos (by rw [hc]; decide)
    rw [scan_eq (objectMember_consumes hp), hstep] at hscan
    cases hscan
  simp only
  rw [if_neg hcur]
  exact bind_eq_ok.mpr ⟨_, hscan, rfl⟩

end

/-! ## Values -/

section

variable {num : Numeral → Option α} {n : Nat} {number : Bytes → Result (α × Bytes)}

/-- A parser of nested values takes the arrays and objects of nesting at most `n`. -/
structure ParsesNested (num : Numeral → Option α) (n : Nat)
    (nested : Int → Bytes → Result (Json α × Bytes)) : Prop where
  sound : ∀ {s r : Bytes} {t : Json α}, cur s = ch '{' ∨ cur s = ch '[' →
    nested (cur s) s = .ok (t, r) → ∃ x, s = x ++ r ∧ Value num n x t
  complete : ∀ {x r : Bytes} {t : Json α}, cur x = ch '{' ∨ cur x = ch '[' → Value num n x t →
    nested (cur x) (x ++ r) = .ok (t, r)

theorem cur_quoted (x : Bytes) : cur (quoted x) = ch '"' := (cur_eq_ch (by decide)).mpr ⟨_, rfl⟩

theorem Numeral.cur_text (x : Numeral) (r : Bytes) :
    cur (x.text ++ r) = ch '-' ∨ isDigit (cur (x.text ++ r)) = true := by
  obtain ⟨neg, int, hne, hzero, frac, exp⟩ := x
  obtain ⟨d, ds, rfl⟩ := List.exists_cons_of_ne_nil hne
  cases neg with
  | true => exact .inl ((cur_eq_ch (by decide)).mpr ⟨_, rfl⟩)
  | false => exact .inr (isDigit_digit d _)

theorem parsesNested_none : ParsesNested num 0 (parseNested none) where
  sound := fun _ h => (by cases h)
  complete := by
    intro x r t hc hx
    cases hx with
    | null => exact absurd hc (by decide)
    | bool v => cases v <;> exact absurd hc (by decide)
    | @number _ x a h =>
      have hcur := Numeral.cur_text x []
      rw [List.append_nil] at hcur
      rcases hc with hc | hc <;> rw [hc] at hcur <;> exact absurd hcur (by decide)
    | string h => rw [cur_quoted] at hc; exact absurd hc (by decide)

theorem parsesNested_some {parser : Bytes → Result (Json α × Bytes)} (hp : Parses num n parser) :
    ParsesNested num (n + 1) (parseNested (some parser)) where
  sound := by
    intro s r t hc h
    rw [parseNested] at h
    rcases hc with hc | hc
    · obtain ⟨s, rfl⟩ := (cur_eq_ch (by decide)).mp hc
      simp only [hc, if_true] at h
      exact parseObject_sound hp h
    · obtain ⟨s, rfl⟩ := (cur_eq_ch (by decide)).mp hc
      simp only [hc] at h
      rw [if_neg (by decide)] at h
      exact parseArray_sound hp h
  complete := by
    intro x r t hc hx
    cases hx with
    | null => exact absurd hc (by decide)
    | bool v => cases v <;> exact absurd hc (by decide)
    | @number _ x a h =>
      have hcur := Numeral.cur_text x []
      rw [List.append_nil] at hcur
      rcases hc with hc | hc <;> rw [hc] at hcur <;> exact absurd hcur (by decide)
    | string h => rw [cur_quoted] at hc; exact absurd hc (by decide)
    | @emptyArray _ w hw =>
      have hcur : cur (byte '[' :: (w ++ [byte ']'])) = ch '[' := (cur_eq_ch (by decide)).mpr ⟨_, rfl⟩
      rw [hcur, parseNested, if_neg (by decide)]
      simpa using parseArray_empty hw r
    | @array _ es hne hblank hval =>
      have hcur : cur (byte '[' :: (commas (es.map Padded.bytes) ++ [byte ']'])) = ch '[' :=
        (cur_eq_ch (by decide)).mpr ⟨_, rfl⟩
      rw [hcur, parseNested, if_neg (by decide)]
      simpa using parseArray_items hp hne hblank hval r
    | @emptyObject _ w hw =>
      have hcur : cur (byte '{' :: (w ++ [byte '}'])) = ch '{' := (cur_eq_ch (by decide)).mpr ⟨_, rfl⟩
      rw [hcur, parseNested, if_pos rfl]
      simpa using parseObject_empty hw r
    | @object _ ms hne hblank hkey hval hnodup =>
      have hcur : cur (byte '{' :: (commas (ms.map Member.bytes) ++ [byte '}'])) = ch '{' :=
        (cur_eq_ch (by decide)).mpr ⟨_, rfl⟩
      rw [hcur, parseNested, if_pos rfl]
      simpa using parseObject_members hp hne hblank hkey hval hnodup r

variable {nested : Int → Bytes → Result (Json α × Bytes)}

theorem parseValueAt_sound (hnum : Reads number num) (hnest : ParsesNested num n nested)
    (h : parseValueAt number nested s = .ok (t, r)) :
    ∃ x, skipWs s = x ++ r ∧ Value num n x t := by
  rw [parseValueAt] at h
  generalize skipWs s = s at h ⊢
  simp only at h
  split at h
  case isTrue hc => exact hnest.sound (.inl hc) h
  split at h
  case isTrue hc => exact hnest.sound (.inr hc) h
  split at h
  case isTrue hc =>
    obtain ⟨s, rfl⟩ := (cur_eq_ch (by decide)).mp hc
    obtain ⟨⟨v, r'⟩, hstr, heq⟩ := bind_eq_ok.mp h
    cases heq
    obtain ⟨x, hx, hs⟩ := parseString_iff.mp hstr
    exact ⟨_, hs, .string hx⟩
  split at h
  case isTrue =>
    obtain ⟨rfl, rfl⟩ := (parseLit_iff (by simp)).mp h
    exact ⟨_, rfl, .bool true⟩
  split at h
  case isTrue =>
    obtain ⟨rfl, rfl⟩ := (parseLit_iff (by simp)).mp h
    exact ⟨_, rfl, .bool false⟩
  split at h
  case isTrue =>
    obtain ⟨rfl, rfl⟩ := (parseLit_iff (by simp)).mp h
    exact ⟨_, rfl, .null⟩
  split at h
  case isTrue =>
    obtain ⟨⟨a, r'⟩, hread, heq⟩ := bind_eq_ok.mp h
    cases heq
    obtain ⟨x, rfl, hx⟩ := hnum.sound hread
    exact ⟨_, rfl, .number hx⟩
  case isFalse => cases h

theorem parseValueAt_of_cur (nested : Int → Bytes → Result (Json α × Bytes)) {c : Int}
    (hcur : cur s = c) (hws : isWs c = false) :
    parseValueAt number nested s =
      if c = ch '{' then nested c s
      else if c = ch '[' then nested c s
      else if c = ch '"' then do
        let (bytes, r) ← parseString s
        .ok (.string bytes, r)
      else if c = ch 't' then parseLit "true".toList (.bool true) s
      else if c = ch 'f' then parseLit "false".toList (.bool false) s
      else if c = ch 'n' then parseLit "null".toList .null s
      else if c = ch '-' ∨ isDigit c then do
        let (x, r) ← number s
        .ok (.number x, r)
      else fail "unexpected character" := by
  have hskip : skipWs s = s := skipWs_of_not (by rw [hcur]; exact hws)
  rw [parseValueAt]
  simp only [hskip, hcur]

theorem parseValueAt_number (hnum : Reads number num) {x : Numeral} {a : α} (hx : num x = some a)
    (hr : Stops r) : parseValueAt number nested (x.text ++ r) = .ok (.number a, r) := by
  have hc := x.cur_text r
  generalize hcur : cur (x.text ++ r) = c at hc
  have hrange : c = 45 ∨ 48 ≤ c ∧ c ≤ 57 := hc.imp (fun h => h) fun h => by
    simp only [isDigit, Bool.and_eq_true, decide_eq_true_eq] at h
    exact h
  have hws : isWs c = false := by
    simp only [isWs, ch, Char.reduceToNat, Bool.or_eq_false_iff, beq_eq_false_iff_ne]
    omega
  have hne : ∀ {d : Char}, ¬ (ch d = 45 ∨ 48 ≤ ch d ∧ ch d ≤ 57) → c ≠ ch d :=
    fun hd h => hd (h ▸ hrange)
  rw [parseValueAt_of_cur nested hcur hws, if_neg (hne (by decide)), if_neg (hne (by decide)),
    if_neg (hne (by decide)), if_neg (hne (by decide)), if_neg (hne (by decide)),
    if_neg (hne (by decide)), if_pos hc]
  exact bind_eq_ok.mpr ⟨_, hnum.complete hr.follows hx, rfl⟩

variable {x : Bytes}

theorem parseValueAt_nested (hnest : ParsesNested num n nested) (hlt : c.toNat < 128)
    (hc : c = '{' ∨ c = '[') (hx : Value num n (byte c :: x) t) :
    parseValueAt number nested (byte c :: x ++ r) = .ok (t, r) := by
  have hcur : ∀ y, cur (byte c :: y) = ch c := fun y => (cur_eq_ch hlt).mpr ⟨y, rfl⟩
  have hread := hnest.complete (r := r) (by rw [hcur]; exact hc.imp (congrArg ch) (congrArg ch)) hx
  rw [hcur] at hread
  rw [cons_append] at hread ⊢
  rcases hc with rfl | rfl
  · rw [parseValueAt_of_cur nested (hcur _) (by decide), if_pos rfl]
    exact hread
  · rw [parseValueAt_of_cur nested (hcur _) (by decide), if_neg (by decide), if_pos rfl]
    exact hread

theorem parseValueAt_complete (hnum : Reads number num) (hnest : ParsesNested num n nested)
    (hx : Value num n x t) (hr : Stops r) :
    parseValueAt number nested (x ++ r) = .ok (t, r) := by
  cases hx with
  | null =>
    have hcur : cur (ascii "null" ++ r) = ch 'n' := (cur_eq_ch (by decide)).mpr ⟨_, rfl⟩
    rw [parseValueAt_of_cur nested hcur (by decide), if_neg (by decide), if_neg (by decide),
      if_neg (by decide), if_neg (by decide), if_neg (by decide), if_pos rfl]
    exact (parseLit_iff (by simp)).mpr ⟨rfl, rfl⟩
  | bool v =>
    cases v with
    | true =>
      have hcur : cur (ascii "true" ++ r) = ch 't' := (cur_eq_ch (by decide)).mpr ⟨_, rfl⟩
      show parseValueAt number nested (ascii "true" ++ r) = _
      rw [parseValueAt_of_cur nested hcur (by decide), if_neg (by decide), if_neg (by decide),
        if_neg (by decide), if_pos rfl]
      exact (parseLit_iff (by simp)).mpr ⟨rfl, rfl⟩
    | false =>
      have hcur : cur (ascii "false" ++ r) = ch 'f' := (cur_eq_ch (by decide)).mpr ⟨_, rfl⟩
      show parseValueAt number nested (ascii "false" ++ r) = _
      rw [parseValueAt_of_cur nested hcur (by decide), if_neg (by decide), if_neg (by decide),
        if_neg (by decide), if_neg (by decide), if_pos rfl]
      exact (parseLit_iff (by simp)).mpr ⟨rfl, rfl⟩
  | number h => exact parseValueAt_number hnum h hr
  | string h =>
    rename_i y v
    have hcur : cur (quoted y ++ r) = ch '"' := (cur_eq_ch (by decide)).mpr ⟨_, rfl⟩
    rw [parseValueAt_of_cur nested hcur (by decide), if_neg (by decide), if_neg (by decide),
      if_pos rfl]
    exact bind_eq_ok.mpr ⟨(v, r), parseString_iff.mpr ⟨y, h, rfl⟩, rfl⟩
  | emptyArray hw => exact parseValueAt_nested hnest (by decide) (.inr rfl) (.emptyArray hw)
  | array hne hblank hval =>
    exact parseValueAt_nested hnest (by decide) (.inr rfl) (.array hne hblank hval)
  | emptyObject hw => exact parseValueAt_nested hnest (by decide) (.inl rfl) (.emptyObject hw)
  | object hne hblank hkey hval hnodup =>
    exact parseValueAt_nested hnest (by decide) (.inl rfl) (.object hne hblank hkey hval hnodup)

/-- A reader of numerals and a parser of what is nested make a parser of values. -/
theorem parseValueAt_parses (hnum : Reads number num) (hnest : ParsesNested num n nested) :
    Parses num n (parseValueAt number nested) := by
  have hskips : ∀ s, parseValueAt number nested (skipWs s) = parseValueAt number nested s :=
    fun s => by simp only [parseValueAt, skipWs_skipWs]
  refine ⟨?_, ?_, hskips, ?_⟩
  · intro s r t h
    obtain ⟨w, hw, hs, -⟩ := skipWs_eq s
    obtain ⟨x, hx, hval⟩ := parseValueAt_sound hnum hnest h
    exact ⟨w, x, hw, by rw [← hx, ← hs], hval⟩
  · intro w x r t hw hx hr
    rw [← hskips, skipWs_append hw, hskips]
    exact parseValueAt_complete hnum hnest hx hr
  · intro s hc p h
    rw [← hskips, parseValueAt_of_cur nested hc (by decide), if_neg (by decide),
      if_neg (by decide), if_neg (by decide), if_neg (by decide), if_neg (by decide),
      if_neg (by decide), if_neg (by decide)] at h
    cases h

/-- The parser takes the values that fit on the levels that are left. -/
theorem parseValue_parses (hnum : Reads number num) :
    ∀ levels, Parses num levels (parseValue number levels) := by
  intro levels
  induction levels with
  | zero => exact parseValueAt_parses hnum parsesNested_none
  | succ levels ih => exact parseValueAt_parses hnum (parsesNested_some ih)

/-! ## Documents -/

theorem bomStart_eq (buf : Bytes) : buf = bomStart buf ∨ buf = bom ++ bomStart buf := by
  unfold bomStart
  split
  · exact .inr rfl
  · exact .inl rfl

variable {buf : Bytes}

theorem bomStart_of_nonneg (h : 0 ≤ cur buf) : bomStart buf = buf := by
  unfold bomStart
  split
  · exact absurd (show (0 : Int) ≤ -17 from h) (by decide)
  · rfl

theorem Value.cur_nonneg (h : Value num n x t) (r : Bytes) :
    0 ≤ cur (x ++ r) := by
  have hcons : ∀ {c : Char} (s : Bytes), c.toNat < 128 → 0 ≤ cur (byte c :: s) := fun s hc => by
    rw [(cur_eq_ch hc).mpr ⟨s, rfl⟩]
    exact Int.natCast_nonneg _
  cases h with
  | null => exact hcons (c := 'n') _ (by decide)
  | bool v =>
    cases v with
    | true => exact hcons (c := 't') _ (by decide)
    | false => exact hcons (c := 'f') _ (by decide)
  | number h =>
    rcases Numeral.cur_text _ r with hc | hc
    · rw [hc]; exact Int.natCast_nonneg _
    · simp only [isDigit, Bool.and_eq_true, decide_eq_true_eq] at hc
      exact le_trans (Int.natCast_nonneg _) hc.1
  | string h => exact hcons (c := '"') _ (by decide)
  | emptyArray hw | array hne hblank hval => exact hcons (c := '[') _ (by decide)
  | emptyObject hw | object hne hblank hkey hval hnodup => exact hcons (c := '{') _ (by decide)

theorem cur_ws_append_nonneg (hw : Ws w) (hs : 0 ≤ cur s) : 0 ≤ cur (w ++ s) := by
  cases w with
  | nil => exact hs
  | cons b w =>
    have hb := hw b mem_cons_self
    have hlt : b.toNat < 128 := by rcases hb with rfl | rfl | rfl | rfl <;> decide
    rw [cons_append, cur_of_lt hlt]
    exact Int.natCast_nonneg _

theorem eof_iff : eof s = true ↔ s = [] := isEmpty_iff

/-- The parser takes the documents of the grammar, with their trees. -/
theorem parseBytes_iff (hnum : Reads number num) :
    parseBytes number buf = .ok t ↔ Document num buf t := by
  have hp := parseValue_parses hnum maxDepth
  constructor
  · intro h
    obtain ⟨⟨root, r⟩, hval, hrest⟩ := bind_eq_ok.mp h
    simp only at hrest
    split at hrest
    case isFalse => cases hrest
    case isTrue heof =>
      cases hrest
      obtain ⟨w, x, hw, hs, hx⟩ := hp.sound hval
      obtain ⟨w', hw', hr, -⟩ := skipWs_eq r
      rw [eof_iff.mp heof, append_nil] at hr
      subst hr
      refine ⟨w, x, r, hw, hw', hx, ?_⟩
      rw [← hs]
      exact bomStart_eq buf
  · rintro ⟨w, x, w', hw, hw', hx, hbuf⟩
    have hstart : bomStart buf = w ++ (x ++ w') := by
      rcases hbuf with rfl | rfl
      · exact bomStart_of_nonneg (cur_ws_append_nonneg hw (hx.cur_nonneg w'))
      · rfl
    have hstops : Stops w' := by
      have h := Stops.ws_append (r := []) hw' (.inl rfl)
      rwa [append_nil] at h
    have hval := hp.complete hw hx hstops
    rw [← hstart] at hval
    refine bind_eq_ok.mpr ⟨(t, w'), hval, ?_⟩
    have hskip : skipWs w' = [] := by
      have h := skipWs_append hw' []
      rwa [append_nil] at h
    simp only [hskip]
    rfl

end

end J89
