import EightyNine.J89.Exact
import EightyNine.J89.Refuse

/-!
# Readings that shadow a plain one

A reading with requests gives what the plain reader gives, with the requests for it,
unless one of these is refused (`Shadows`).  There is a rule for each way to build a
reader: after each other, on a condition, with a request more, in a loop.
-/

namespace J89

open Library List

/-! ## The plain parser ends with a value or a message -/

/-- The call gave a value or failed with a message. -/
def Told {α : Type} (x : Result α) : Prop := ∀ e, x = .error e → ∃ message, e = .error message

section

variable {α β σ : Type}

theorem told_ok (a : α) : Told (.ok a) := fun _ h => by cases h

theorem told_fail (m : String) : Told (fail m : Result α) := fun _ h => by
  cases h
  exact ⟨m, rfl⟩

variable {f : α → Result β}

theorem Told.then {x : Result α} (hx : Told x)
    (hf : ∀ a, x = .ok a → Told (f a)) : Told (x >>= f) := by
  cases x with
  | error e =>
    intro e' h
    cases h
    exact hx e rfl
  | ok a => exact hf a rfl

theorem Told.bind {x : Result α} (hx : Told x) (hf : ∀ a, Told (f a)) :
    Told (x >>= f) := hx.then fun a _ => hf a

variable {c : Prop}

theorem Told.ite [Decidable c] {x y : Result α} (hx : Told x) (hy : Told y) :
    Told (if c then x else y) := by
  split
  · exact hx
  · exact hy

theorem Told.ne_rounds {x : Result α} (h : Told x) : x ≠ .error .rounds := by
  intro hx
  obtain ⟨m, hm⟩ := h _ hx
  cases hm

variable {G : Bytes → Prop}

theorem told_scan {step : Step Failure σ UInt8 α} (hc : Consumes step)
    (hgood : ∀ {acc s acc' r}, step acc s = .ok (.again acc', r) → G s → G r)
    (hstep : ∀ acc s, G s → Told (step acc s)) (acc : σ) (s : Bytes) (hs : G s) :
    Told (scan .rounds step acc s) := by
  intro e h
  obtain ⟨acc', s', hs', he⟩ := scan_error hc hgood s acc hs h
  exact hstep acc' s' hs' e he

end

namespace Refused

/-- A call that failed with a message. -/
def Refuses {α : Type} (y : Result α) : Prop := ∃ message, y = .error (.error message)

/-- The reading `y`, which began somewhere after `log`, is the plain reading `x` with the
requests `asks`, if they are granted. -/
structure Shadows {α β : Type} (mem : Memory) (log : Requests) (asks : α → Requests)
    (build : α → β) (x : Result (α × Bytes)) (y : Result (Reading β)) : Prop where
  fails : ∀ e, x = .error e → Refuses y
  refused : ∀ a r, x = .ok (a, r) → ¬ Granted mem .checked log.length (asks a) → Refuses y
  gives : ∀ a r, x = .ok (a, r) → Granted mem .checked log.length (asks a) →
    y = .ok ((build a, log ++ asks a), r)

section

variable {α α' β β' σ σ' : Type} {mem : Memory} {log : Requests} {asks : α → Requests}
  {asks' : α' → Requests} {build : α → β} {build' : α' → β'}

theorem Refuses.bind {y : Result α} (h : Refuses y) (k : α → Result α') : Refuses (y >>= k) := by
  obtain ⟨e, rfl⟩ := h
  exact ⟨e, rfl⟩

variable {x : Result (α × Bytes)} {y : Result (Reading β)}

/-- A reading that is refused, where the plain one fails or asks for too much. -/
theorem Shadows.of_refuses (hy : Refuses y)
    (h : ∀ a r, x = .ok (a, r) → ¬ Granted mem .checked log.length (asks a)) :
    Shadows mem log asks build x y where
  fails _ _ := hy
  refused _ _ _ _ := hy
  gives a r hx hg := absurd hg (h a r hx)

theorem Shadows.fail (m m' : String) : Shadows mem log asks build (fail m) (fail m') :=
  .of_refuses ⟨_, rfl⟩ fun _ _ h => by cases h

variable {r : Bytes}

theorem Shadows.ok {a : α} {b : β} {log' : Requests}
    (hg : Granted mem .checked log.length (asks a)) (hb : b = build a)
    (hl : log' = log ++ asks a) :
    Shadows mem log asks build (.ok (a, r)) (.ok ((b, log'), r)) where
  fails _ h := by cases h
  refused a' r' h hn := by
    cases h
    exact absurd hg hn
  gives a' r' h _ := by
    cases h
    rw [hb, hl]

theorem Shadows.ite [Decidable c] {x' : Result (α × Bytes)}
    {y' : Result (Reading β)} (h : c → Shadows mem log asks build x y)
    (h' : ¬ c → Shadows mem log asks build x' y') :
    Shadows mem log asks build (if c then x else x') (if c then y else y') := by
  split
  · exact h ‹_›
  · exact h' ‹_›

theorem Shadows.bind {f : α × Bytes → Result (α' × Bytes)} {k : Reading β → Result (Reading β')}
    (h : Shadows mem log asks build x y)
    (hmore : ∀ a r a' r', x = .ok (a, r) → f (a, r) = .ok (a', r') → asks a <+: asks' a')
    (hk : ∀ a r, x = .ok (a, r) → Granted mem .checked log.length (asks a) →
      Shadows mem log asks' build' (f (a, r)) (k ((build a, log ++ asks a), r))) :
    Shadows mem log asks' build' (x >>= f) (y >>= k) := by
  cases hx : x with
  | error e =>
    exact .of_refuses ((h.fails e hx).bind k) fun _ _ h => by cases h
  | ok p =>
    obtain ⟨a, r⟩ := p
    by_cases hg : Granted mem .checked log.length (asks a)
    · rw [h.gives a r hx hg]
      exact hk a r hx hg
    · refine .of_refuses ((h.refused a r hx hg).bind k) fun a' r' h' hg' => hg ?_
      exact hg'.of_prefix (hmore a r a' r' hx h')

variable {t : Requests}

/-- A request of the reading that the plain one does not have. -/
theorem Shadows.need {k : Requests → Result (Reading β)}
    (ht : Granted mem .checked log.length t)
    (hmore : ∀ a r, x = .ok (a, r) → t ++ [.checked] <+: asks a)
    (hk : Granted mem .checked log.length (t ++ [.checked]) →
      Shadows mem log asks build x (k (log ++ (t ++ [.checked])))) :
    Shadows mem log asks build x (need mem (log ++ t) >>= k) := by
  have hiff : Granted mem .checked log.length (t ++ [.checked]) ↔
      mem (log ++ t).length = true := by
    rw [granted_append, granted_cons, and_iff_right ht, and_iff_left granted_nil,
      length_append]
    exact ⟨fun h => h rfl, fun h _ => h⟩
  rw [Refused.need]
  split
  · rename_i hmem
    have := hk (hiff.mpr hmem)
    rwa [← append_assoc] at this
  · rename_i hmem
    refine .of_refuses ⟨_, rfl⟩ fun a r hx hg => hmem ?_
    exact hiff.mp (hg.of_prefix (hmore a r hx))

/-- A reading that began after `t` more requests. -/
theorem Shadows.after
    (ht : Granted mem .checked log.length t) (h : Shadows mem (log ++ t) asks build x y) :
    Shadows mem log (fun a => t ++ asks a) build x y := by
  have hiff : ∀ a, Granted mem .checked log.length (t ++ asks a) ↔
      Granted mem .checked (log ++ t).length (asks a) := by
    intro a
    rw [granted_append, and_iff_right ht, length_append]
  refine ⟨h.fails, fun a r hx hn => h.refused a r hx (mt (hiff a).mpr hn), fun a r hx hg => ?_⟩
  rw [h.gives a r hx ((hiff a).mp hg), append_assoc]

/-! ### Loops -/

def roundAsks (asks : σ → Requests) (asks' : α → Requests) : Round σ α → Requests
  | .again acc => asks acc
  | .done a => asks' a

def roundBuild (build : σ → σ') (build' : α → β) : Round σ α → Round σ' β
  | .again acc => .again (build acc)
  | .done a => .done (build' a)

variable {plain : Step Failure σ UInt8 α}
  {step : σ' → Requests → Bytes → Result (Reading (Round σ' β))}
  (loopAsks : σ → Requests) (loopBuild : σ → σ')

theorem scanFor_more (hmore : ∀ acc s round r, plain acc s = .ok (round, r) →
      loopAsks acc <+: roundAsks loopAsks asks round) :
    ∀ (n : Nat) (acc : σ) (s : Bytes) (a : α) (r : Bytes),
      scanFor .rounds plain n acc s = .ok (a, r) → loopAsks acc <+: asks a := by
  intro n
  induction n with
  | zero => intro acc s a r h; cases h
  | succ n ih =>
    intro acc s a r h
    rw [scanFor] at h
    cases hs : plain acc s with
    | error e => rw [hs] at h; cases h
    | ok p =>
      obtain ⟨round, r'⟩ := p
      rw [hs] at h
      cases round with
      | done a' => cases h; exact hmore acc s _ _ hs
      | again acc' => exact (hmore acc s _ _ hs).trans (ih acc' r' a r h)

variable {G : Bytes → Prop} {s : Bytes}

theorem Shadows.scan (hgood : ∀ {acc s acc' r}, plain acc s = .ok (.again acc', r) → G s → G r)
    (hstep : ∀ acc s, G s → Granted mem .checked log.length (loopAsks acc) →
      Shadows mem log (roundAsks loopAsks asks) (roundBuild loopBuild build) (plain acc s)
        (step (loopBuild acc) (log ++ loopAsks acc) s))
    (hmore : ∀ acc s round r, plain acc s = .ok (round, r) →
      loopAsks acc <+: roundAsks loopAsks asks round)
    (htold : ∀ acc s, G s → Told (scan .rounds plain acc s))
    {acc : σ} (hs : G s) (hg : Granted mem .checked log.length (loopAsks acc)) :
    Shadows mem log asks build (scan .rounds plain acc s)
      (scan .rounds (carry step) (loopBuild acc, log ++ loopAsks acc) s) := by
  suffices hfor : ∀ n acc s, scanFor .rounds plain n acc s ≠ .error .rounds → G s →
      Granted mem .checked log.length (loopAsks acc) →
      Shadows mem log asks build (scanFor .rounds plain n acc s)
        (scanFor .rounds (carry step) n (loopBuild acc, log ++ loopAsks acc) s) from
    hfor _ acc s (htold acc s hs).ne_rounds hs hg
  intro n
  induction n with
  | zero => intro acc s h; exact absurd rfl h
  | succ n ih =>
    intro acc s hne hgs hg
    have hs := hstep acc s hgs hg
    -- A step that is refused ends the loop.
    have hends : Refuses (step (loopBuild acc) (log ++ loopAsks acc) s) →
        Refuses (scanFor .rounds (carry step) (n + 1) (loopBuild acc, log ++ loopAsks acc) s) := by
      rintro ⟨e, he⟩
      refine ⟨e, ?_⟩
      rw [scanFor, carry, he]
      rfl
    rw [scanFor] at hne ⊢
    cases hx : plain acc s with
    | error e =>
      exact .of_refuses (hends (hs.fails e hx)) fun _ _ h => by cases h
    | ok p =>
      obtain ⟨round, r⟩ := p
      rw [hx] at hne
      cases round with
      | done a =>
        refine ⟨fun _ h => ?_, fun a' r' h hn => ?_, fun a' r' h hg' => ?_⟩
        · cases h
        · cases h
          exact hends (hs.refused _ _ hx hn)
        · cases h
          rw [scanFor, carry, hs.gives _ _ hx hg']
          rfl
      | again acc' =>
        by_cases hg' : Granted mem .checked log.length (loopAsks acc')
        · have hrun : scanFor .rounds (carry step) (n + 1) (loopBuild acc, log ++ loopAsks acc) s =
              scanFor .rounds (carry step) n (loopBuild acc', log ++ loopAsks acc') r := by
            rw [scanFor, carry, hs.gives _ _ hx hg']
            rfl
          rw [hrun]
          exact ih acc' r hne (hgood hx hgs) hg'
        · refine .of_refuses (hends (hs.refused _ _ hx hg')) fun a' r' h hga => hg' ?_
          exact hga.of_prefix (scanFor_more loopAsks hmore n acc' r a' r' h)

end

end Refused

section

variable {α β : Type}

theorem Told.refuses {x : Result α} (h : Told x) {e : Failure} (hx : x = .error e) :
    Refused.Refuses (.error e : Result α) := by
  obtain ⟨m, rfl⟩ := h e hx
  exact ⟨m, rfl⟩

theorem told_hexDigits (n v : Nat) (s : Bytes) : Told (hexDigits n v s) := by
  induction n generalizing v s with
  | zero => exact told_ok _
  | succ n ih => exact (Told.ite (told_fail _) (told_ok _)).bind fun _ => ih _ _

theorem told_strReadCp (s : Bytes) : Told (strReadCp s) := by
  refine (told_hexDigits _ _ _).bind fun _ => .ite ?_ (.ite (told_fail _) (told_ok _))
  refine .ite (told_fail _) (.ite (told_fail _) ((told_hexDigits _ _ _).bind fun p => ?_))
  obtain ⟨lo, r⟩ := p
  simp only
  split
  · exact told_fail _
  · exact told_ok _

theorem told_strEscape (b s : Bytes) : Told (strEscape b s) := by
  refine .ite ((told_strReadCp _).bind fun p => .bind ?_ fun _ => told_ok _)
    (.ite (told_fail _) (told_ok _))
  rw [strEmitCp]
  split
  · exact told_fail _
  · exact told_ok _

theorem told_strRaw (b s : Bytes) : Told (strRaw b s) := by
  refine .ite (told_fail _) (.ite ?_ (told_ok _))
  rw [strUtf8Emit]
  split
  · exact told_fail _
  · exact told_ok _

theorem told_strStep (b s : Bytes) : Told (strStep b s) :=
  .ite (told_fail _) (.ite (told_ok _)
    (.bind (.ite (told_strEscape _ _) (told_strRaw _ _)) fun _ => told_ok _))

theorem told_parseString (s : Bytes) : Told (parseString s) :=
  told_scan (G := fun _ => True) strStep_consumes (fun _ h => h)
    (fun b s _ => told_strStep b s) _ _ trivial

/-! ### Numbers -/

theorem ShortFractions.of_suffix (h : ShortFractions s) (hr : r <:+ s) :
    ShortFractions r := fun ds hin => h ds (hin.trans hr.isInfix)

theorem told_takeFrac (hs : ShortFractions s) : Told (takeFrac s) := by
  by_cases hdot : cur s = ch '.'
  · obtain ⟨s, rfl⟩ := (cur_eq_ch (by decide)).mp hdot
    obtain ⟨ds, r, rfl, hr⟩ := exists_digits s
    have hle : (ds.length : Int) ≤ cIntMax :=
      hs ds (prefix_append (byte '.' :: ds.text) r).isInfix
    have hscan := scanFracDigits_text hr ds (n := 0) (by decide)
    rw [zero_add, if_pos hle] at hscan
    rw [takeFrac, if_neg (not_not.mpr hdot),
      show bump (byte '.' :: (ds.text ++ r)) = ds.text ++ r from rfl]
    simp only [hscan]
    exact .ite (.bind (told_ok _) fun _ => told_ok _) (told_ok _)
  · rw [takeFrac, if_pos hdot]
    exact told_ok _

theorem told_scanNumber (hs : ShortFractions s) : Told (scanNumber s) := by
  rw [scanNumber]
  cases hneg : takeNeg s with
  | mk neg s1 =>
  cases hint : readIntPart neg s1 with
  | none =>
    simp only [hint]
    exact told_fail _
  | some p =>
  obtain ⟨acc, s2⟩ := p
  obtain ⟨int, -, hs1, -⟩ := readIntPart_sound hint
  have hs2 : ShortFractions s2 := hs.of_suffix (by
    rw [takeNeg_sound hneg, hs1]
    exact (suffix_append _ _).trans (suffix_append _ _))
  simp only [hint]
  refine (told_takeFrac hs2).bind fun p => ?_
  cases p with
  | none => exact told_fail _
  | some p =>
    refine .bind (.ite (told_ok _) (.bind ?_ fun _ => told_ok _)) fun _ => told_ok _
    exact .ite (told_ok _) (told_fail _)

theorem told_numberNode (t : Token) : Told (numberNode t) := by
  rw [numberNode]
  split
  · split
    · exact told_fail _
    · exact told_ok _
  · exact .ite (told_fail _) (told_ok _)

theorem told_parseNumber (hs : ShortFractions s) : Told (parseNumber s) :=
  (told_scanNumber hs).bind fun _ => (told_numberNode _).bind fun _ => told_ok _

/-! ### Values -/

theorem skipWs_suffix (s : Bytes) : skipWs s <:+ s := by
  obtain ⟨w, -, hs, -⟩ := skipWs_eq s
  exact ⟨w, hs.symm⟩

theorem bump_suffix (s : Bytes) : bump s <:+ s := tail_suffix s

theorem parseString_suffix {v : Bytes} (hq : cur s = ch '"')
    (h : parseString s = .ok (v, r)) : r <:+ s := by
  obtain ⟨s, rfl⟩ := (cur_eq_ch (by decide)).mp hq
  obtain ⟨x, -, hs⟩ := parseString_iff.mp h
  exact ⟨_, hs.symm⟩

theorem told_litChars (tok : List Char) (s : Bytes) : Told (litChars tok s) := by
  induction tok generalizing s with
  | nil => exact told_ok _
  | cons c tok ih => exact (Told.ite (told_fail _) (told_ok _)).bind fun _ => ih _

variable {num : Numeral → Option α} {n : Nat} {parser : Bytes → Result (Json α × Bytes)}

theorem arrayItem_suffix (hp : Parses num n parser) {acc acc' : List (Json α)}
    (h : arrayItem parser acc s = .ok (.again acc', r)) : r <:+ s := by
  obtain ⟨e, -, -, ⟨hround, -⟩ | ⟨w, -, -, rfl⟩⟩ := arrayItem_sound hp h
  · cases hround
  · exact ((suffix_append w r).trans (suffix_cons _ _)).trans (suffix_append _ _)

theorem objectMember_suffix (hp : Parses num n parser) {acc acc' : List (Bytes × Json α)}
    (h : objectMember parser acc s = .ok (.again acc', r)) : r <:+ s := by
  obtain ⟨m, -, -, -, -, ⟨hround, -⟩ | ⟨-, rfl⟩⟩ := objectMember_sound hp h
  · cases hround
  · exact (suffix_cons _ _).trans (suffix_append _ _)

theorem told_arrayItem (h : ∀ s, ShortFractions s → Told (parser s)) (acc : List (Json α))
    (s : Bytes) (hs : ShortFractions s) : Told (arrayItem parser acc s) :=
  (h s hs).bind fun _ => .ite (told_ok _) (.ite (told_ok _) (told_fail _))

theorem told_objectMember (h : ∀ s, ShortFractions s → Told (parser s))
    (acc : List (Bytes × Json α)) (s : Bytes) (hs : ShortFractions s) :
    Told (objectMember parser acc s) := by
  rw [objectMember]
  simp only
  split
  case isTrue => exact told_fail _
  case isFalse hq =>
    refine (told_parseString _).then fun p hkey => .ite (told_fail _) ?_
    have hr : p.2 <:+ s := (parseString_suffix (not_not.mp hq) hkey).trans (skipWs_suffix s)
    have hvalue : skipWs (bump (skipWs p.2)) <:+ s :=
      (((skipWs_suffix _).trans (bump_suffix _)).trans (skipWs_suffix _)).trans hr
    exact (h _ (hs.of_suffix hvalue)).bind fun _ =>
      .ite (told_fail _) (.ite (told_ok _) (.ite (told_ok _) (told_fail _)))

theorem told_parseValueAt {number : Bytes → Result (α × Bytes)}
    (hn : ∀ s, ShortFractions s → Told (number s)) {nested : Int → Bytes → Result (Json α × Bytes)}
    (h : ∀ c s, ShortFractions s → Told (nested c s)) (s : Bytes) (hs : ShortFractions s) :
    Told (parseValueAt number nested s) :=
  have hs' := hs.of_suffix (skipWs_suffix s)
  .ite (h _ _ hs') (.ite (h _ _ hs') (.ite ((told_parseString _).bind fun _ => told_ok _)
    (.ite ((told_litChars _ _).bind fun _ => told_ok _)
      (.ite ((told_litChars _ _).bind fun _ => told_ok _)
        (.ite ((told_litChars _ _).bind fun _ => told_ok _)
          (.ite ((hn _ hs').bind fun _ => told_ok _) (told_fail _)))))))

theorem told_scan_arrayItem (hp : Parses num n parser)
    (h : ∀ s, ShortFractions s → Told (parser s)) (acc : List (Json α)) (s : Bytes)
    (hs : ShortFractions s) : Told (scan .rounds (arrayItem parser) acc s) :=
  told_scan (arrayItem_consumes hp) (fun hstep hs => hs.of_suffix (arrayItem_suffix hp hstep))
    (told_arrayItem h) acc s hs

theorem told_scan_objectMember (hp : Parses num n parser)
    (h : ∀ s, ShortFractions s → Told (parser s)) (acc : List (Bytes × Json α)) (s : Bytes)
    (hs : ShortFractions s) : Told (scan .rounds (objectMember parser) acc s) :=
  told_scan (objectMember_consumes hp)
    (fun hstep hs => hs.of_suffix (objectMember_suffix hp hstep)) (told_objectMember h) acc s hs

theorem told_parseValue (levels : Nat) :
    ∀ s, ShortFractions s → Told (parseValue parseNumber levels s) := by
  induction levels with
  | zero => exact told_parseValueAt (fun _ => told_parseNumber) fun _ _ _ => told_fail _
  | succ levels ih =>
    have hp := parseValue_parses parseNumber_reads levels
    refine told_parseValueAt (fun _ => told_parseNumber) fun c s hs => ?_
    have hs' := hs.of_suffix ((skipWs_suffix _).trans (bump_suffix s))
    refine .ite ?_ ?_
    · exact .ite (told_ok _) ((told_scan_objectMember hp ih _ _ hs').bind fun _ => told_ok _)
    · exact .ite (told_ok _) ((told_scan_arrayItem hp ih _ _ hs').bind fun _ => told_ok _)

end

end J89
