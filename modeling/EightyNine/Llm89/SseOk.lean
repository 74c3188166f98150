import EightyNine.Llm89.Sse
import Mathlib.Logic.Basic

/-!
# The parser decodes the stream

After the bytes of some calls the parser tracks the decoding of the lines that ended and
holds the line that has not (`Tracks`).  Each byte keeps this, whatever call it comes
with, so the calls return and emit what the decoding of all their bytes has.
-/

namespace Llm89

open List

attribute [local simp] splitLines feed

/-! ## Lines -/

/-- What follows a CR, whose LF is part of the same line end. -/
def dropLf : List UInt8 → List UInt8
  | 0x0A :: s => s
  | s => s

theorem dropLf_lf (s : List UInt8) : dropLf (lf :: s) = s := rfl

variable {c : UInt8}

theorem dropLf_other (hc : c ≠ lf) (s : List UInt8) : dropLf (c :: s) = c :: s := by
  unfold dropLf
  split
  · rename_i heq
    exact absurd (cons.inj heq).1 hc
  · rfl

theorem splitLines_lf (s : List UInt8) :
    splitLines (lf :: s) = ([] :: (splitLines s).1, (splitLines s).2) := by
  rw [splitLines]
  · exact if_pos (Or.inr rfl)
  · intro s' h
    exact absurd h (by decide)

theorem splitLines_cr (s : List UInt8) :
    splitLines (cr :: s) = ([] :: (splitLines (dropLf s)).1, (splitLines (dropLf s)).2) := by
  cases s with
  | nil => rfl
  | cons c s =>
    by_cases hc : c = lf
    · subst hc
      rfl
    · rw [dropLf_other hc, splitLines]
      · exact if_pos (Or.inl rfl)
      · intro s' _ h
        exact hc (cons.inj h).1

theorem splitLines_other (hcr : c ≠ cr) (hlf : c ≠ lf) (s : List UInt8) :
    splitLines (c :: s) = match splitLines s with
      | ([], rest) => ([], c :: rest)
      | (line :: lines, rest) => ((c :: line) :: lines, rest) := by
  rw [splitLines]
  · exact if_neg (not_or.mpr ⟨hcr, hlf⟩)
  · intro s' h
    exact absurd h hcr

/-- The lines of a stream whose first line has started. -/
def splitFrom (l s : List UInt8) : List (List UInt8) × List UInt8 :=
  match splitLines s with
  | ([], rest) => ([], l ++ rest)
  | (line :: lines, rest) => ((l ++ line) :: lines, rest)

theorem splitFrom_nil (s : List UInt8) : splitFrom [] s = splitLines s := by
  unfold splitFrom
  split <;> rename_i h <;> rw [h] <;> rfl

theorem splitFrom_lf (l s : List UInt8) :
    splitFrom l (lf :: s) = (l :: (splitLines s).1, (splitLines s).2) := by
  rw [splitFrom, splitLines_lf]
  simp

theorem splitFrom_cr (l s : List UInt8) :
    splitFrom l (cr :: s) = (l :: (splitLines (dropLf s)).1, (splitLines (dropLf s)).2) := by
  rw [splitFrom, splitLines_cr]
  simp

theorem splitFrom_other (hcr : c ≠ cr) (hlf : c ≠ lf) (l s : List UInt8) :
    splitFrom l (c :: s) = splitFrom (l ++ [c]) s := by
  rw [splitFrom, splitFrom, splitLines_other hcr hlf]
  rcases splitLines s with ⟨_ | ⟨line, lines⟩, rest⟩ <;> simp

theorem splitFrom_grows (l s : List UInt8) :
    (∃ t, splitFrom l s = ([], l ++ t)) ∨ ∃ t lines rest, splitFrom l s = ((l ++ t) :: lines, rest) := by
  unfold splitFrom
  split
  · exact Or.inl ⟨_, rfl⟩
  · exact Or.inr ⟨_, _, _, rfl⟩

/-! ## Decoding from the middle of a line -/

section

variable {limit : Nat} {emit : EmitFn}

/-- The decoding that goes on where a line has started. -/
def decodeFrom (limit : Nat) (emit : EmitFn) (l : List UInt8) (d : Decoding) (s : List UInt8) :
    Decoding :=
  ((splitFrom l s).1.foldl (Decoding.line limit emit) d).rest limit (splitFrom l s).2

theorem decode_eq (s : List UInt8) :
    decode limit emit s = decodeFrom limit emit [] ⟨[], [], .running⟩ s := by
  rw [decodeFrom, splitFrom_nil]
  rfl

theorem decodeFrom_end (l : List UInt8) (d : Decoding) :
    decodeFrom limit emit l d [] = d.rest limit l := by
  rw [decodeFrom, splitFrom, splitLines]
  simp

theorem decodeFrom_lf (l : List UInt8) (d : Decoding) (s : List UInt8) :
    decodeFrom limit emit l d (lf :: s) = decodeFrom limit emit [] (d.line limit emit l) s := by
  rw [decodeFrom, decodeFrom, splitFrom_lf, splitFrom_nil]
  rfl

theorem decodeFrom_cr (l : List UInt8) (d : Decoding) (s : List UInt8) :
    decodeFrom limit emit l d (cr :: s) =
      decodeFrom limit emit [] (d.line limit emit l) (dropLf s) := by
  rw [decodeFrom, decodeFrom, splitFrom_cr, splitFrom_nil]
  rfl

theorem decodeFrom_other (hcr : c ≠ cr) (hlf : c ≠ lf) (l : List UInt8) (d : Decoding)
    (s : List UInt8) : decodeFrom limit emit l d (c :: s) = decodeFrom limit emit (l ++ [c]) d s := by
  rw [decodeFrom, decodeFrom, splitFrom_other hcr hlf]

variable {d : Decoding}

theorem lines_halted (h : d.status ≠ .running) (lines : List (List UInt8)) :
    lines.foldl (Decoding.line limit emit) d = d := by
  induction lines with
  | nil => rfl
  | cons line lines ih => rw [foldl_cons, Decoding.line, if_pos h, ih]

theorem decodeFrom_halted (h : d.status ≠ .running) (l s : List UInt8) :
    decodeFrom limit emit l d s = d := by
  rw [decodeFrom, lines_halted h, Decoding.rest, if_neg fun hd => h hd.1]

variable {l : List UInt8}

theorem TooLong.append (h : TooLong limit l) (t : List UInt8) :
    TooLong limit (l ++ t) := by
  have hl := h.2
  refine ⟨h.1, ?_⟩
  rw [length_append]
  omega

theorem decodeFrom_tooLong (h : TooLong limit l)
    (hd : d.status = .running) (s : List UInt8) :
    decodeFrom limit emit l d s = { d with status := .failed } := by
  rw [decodeFrom]
  obtain ⟨t, hs⟩ | ⟨t, lines, rest, hs⟩ := splitFrom_grows l s
  · rw [hs, foldl_nil, Decoding.rest, if_pos ⟨hd, h.append t⟩]
  · have hline : d.line limit emit (l ++ t) = { d with status := .failed } := by
      rw [Decoding.line, if_neg (not_not.mpr hd), if_pos (h.append t)]
    rw [hs, foldl_cons, hline, lines_halted (by simp), Decoding.rest, if_neg (by simp)]

/-! ## Data lines -/

theorem isData_iff (line : List UInt8) :
    line.take 5 = dataName ++ [colonByte] ↔
      line.findIdx? (· == colonByte) = some 4 ∧ line.take 4 = dataName := by
  constructor
  · intro h
    have hsplit : line = dataName ++ [colonByte] ++ line.drop 5 := by
      rw [← h, take_append_drop]
    constructor
    · rw [hsplit]
      rfl
    · rw [hsplit]
      rfl
  · rintro ⟨hfind, hname⟩
    obtain ⟨hlen, hcolon, -⟩ := findIdx?_eq_some_iff_getElem.mp hfind
    rw [take_succ_eq_append_getElem hlen, hname, beq_iff_eq.mp hcolon]

theorem dataValue_colon {line : List UInt8} (h : line.head? = some colonByte) :
    dataValue line = none := by
  refine if_neg fun hdata => ?_
  cases line with
  | nil => cases h
  | cons c line =>
    rw [head?_cons, Option.some_inj] at h
    subst h
    exact absurd (cons.inj hdata).1 (by decide)

theorem payload_append {values : List (List UInt8)} (h : values ≠ []) (v : List UInt8) :
    payload (values ++ [v]) = payload values ++ [lf] ++ v := by
  induction values with
  | nil => exact absurd rfl h
  | cons w values ih =>
    cases values with
    | nil => simp [payload, intercalate_cons_cons]
    | cons x values =>
      have hx := ih (cons_ne_nil x values)
      unfold payload at hx ⊢
      rw [cons_append, cons_append, intercalate_cons_cons, ← cons_append, hx,
        intercalate_cons_cons]
      simp only [append_assoc]

/-! ## The parser tracks the decoding -/

/-- The parser holds the line `l` that has not ended and stands where the decoding `d` does. -/
structure Tracks (limit : Nat) (p : Sse) (l : List UInt8) (d : Decoding) : Prop where
  emitted : p.emitted = d.events
  failed : p.failed = decide (d.status = .failed)
  stopped : p.stopped = decide (d.status = .stopped)
  lineLimit : p.line.limit = limit
  dataLimit : p.data.limit = limit
  line : d.status = .running → p.line.data = l
  short : ¬ TooLong limit l
  data : d.status = .running → p.data.data = payload d.values
  hasData : d.status = .running → p.hasData = decide (d.values ≠ [])
  fits : ¬ TooLong limit (payload d.values)

theorem Buf.append_fits {b : Buf} (hb : ¬ TooLong b.limit b.data) (bytes : List UInt8) :
    (b.append bytes).1 = (if TooLong b.limit (b.data ++ bytes) then 1 else 0) ∧
      (b.append bytes).2.limit = b.limit ∧
      (¬ TooLong b.limit (b.data ++ bytes) → (b.append bytes).2.data = b.data ++ bytes) := by
  have hiff : (b.limit ≠ 0 ∧ bytes.length > b.limit - b.data.length) ↔
      TooLong b.limit (b.data ++ bytes) := by
    unfold TooLong at hb ⊢
    rw [length_append]
    omega
  unfold Buf.append
  by_cases h : TooLong b.limit (b.data ++ bytes)
  · rw [if_pos (hiff.mpr h), if_pos h]
    exact ⟨rfl, rfl, fun hn => absurd h hn⟩
  · rw [if_neg (hiff.not.mpr h), if_neg h]
    exact ⟨rfl, rfl, fun _ => rfl⟩

theorem not_tooLong_nil : ¬ TooLong limit [] := fun h => absurd h.2 (Nat.not_lt_zero _)

variable {p : Sse}

theorem Tracks.fail (h : Tracks limit p l d)
    (hrun : d.status = .running) {q : Sse} (hemitted : q.emitted = p.emitted)
    (hfailed : q.failed = true) (hstopped : q.stopped = p.stopped)
    (hline : q.line.limit = p.line.limit) (hdata : q.data.limit = p.data.limit) :
    Tracks limit q [] { d with status := .failed } where
  emitted := hemitted.trans h.emitted
  failed := hfailed
  stopped := hstopped.trans (h.stopped.trans (by rw [hrun]; rfl))
  lineLimit := hline.trans h.lineLimit
  dataLimit := hdata.trans h.dataLimit
  line := fun hf => nomatch hf
  short := not_tooLong_nil
  data := fun hf => nomatch hf
  hasData := fun hf => nomatch hf
  fits := h.fits

/-- A `data` field appends its value, or ends the stream. -/
theorem dataField_tracks (h : Tracks limit p l d)
    (hrun : d.status = .running) (value : List UInt8) :
    Tracks limit { dataField p value with line := p.line.reset } []
      (if TooLong limit (payload (d.values ++
          [if value.head? = some space then value.tail else value])) then
        { d with status := .failed }
      else
        { d with values := d.values ++ [if value.head? = some space then value.tail else value] }) := by
  unfold dataField
  dsimp only
  generalize (if value.head? = some space then value.tail else value) = v
  -- the value goes behind the payload so far and its LF, if there is one
  have hvalue : ∀ (b : Buf) (w : List UInt8), b.limit = limit → b.data = w → ¬ TooLong limit w →
      payload (d.values ++ [v]) = w ++ v → Tracks limit
        { (if (b.append v).1 ≠ 0 then { p with data := (b.append v).2, failed := true }
            else { p with data := (b.append v).2, hasData := true } : Sse) with
          line := p.line.reset } []
        (if TooLong limit (payload (d.values ++ [v])) then { d with status := .failed }
          else { d with values := d.values ++ [v] }) := by
    intro b w hlimit hw hfits hpay
    subst hw
    obtain ⟨hcode, hlim, hdata⟩ := Buf.append_fits (hlimit ▸ hfits) v
    rw [hlimit] at hcode hlim hdata
    rw [hpay]
    by_cases hlong : TooLong limit (b.data ++ v)
    · rw [if_pos hlong] at hcode ⊢
      rw [if_pos (by rw [hcode]; decide)]
      exact h.fail hrun rfl rfl rfl rfl (hlim.trans h.dataLimit.symm)
    · rw [if_neg hlong] at hcode ⊢
      rw [if_neg (by rw [hcode]; decide)]
      exact {
        emitted := h.emitted
        failed := h.failed
        stopped := h.stopped
        lineLimit := h.lineLimit
        dataLimit := hlim
        line := fun _ => rfl
        short := not_tooLong_nil
        data := fun _ => (hdata hlong).trans hpay.symm
        hasData := fun _ => (decide_eq_true (append_ne_nil_of_right_ne_nil _
          (cons_ne_nil v []))).symm
        fits := by
          show ¬ TooLong limit (payload (d.values ++ [v]))
          rw [hpay]
          exact hlong }
  have hdata := h.data hrun
  have hhas := h.hasData hrun
  by_cases hne : d.values = []
  · have hfirst : ¬ p.hasData = true := by simp [hhas, hne]
    rw [if_neg hfirst, if_neg (not_not.mpr rfl)]
    refine hvalue p.data [] h.dataLimit ?_ not_tooLong_nil ?_
    · rw [hdata, hne]
      rfl
    · rw [hne]
      exact intercalate_singleton
  · have hfits : ¬ TooLong p.data.limit p.data.data := by
      rw [h.dataLimit, hdata]
      exact h.fits
    obtain ⟨hcode, hlim, hjoint⟩ := Buf.append_fits hfits [lf]
    rw [h.dataLimit, hdata] at hcode hjoint
    have hlater : p.hasData = true := hhas.trans (decide_eq_true hne)
    rw [if_pos hlater]
    by_cases hlong : TooLong limit (payload d.values ++ [lf])
    · rw [if_pos hlong] at hcode
      rw [if_pos (by rw [hcode]; decide), payload_append hne, if_pos (hlong.append v)]
      exact h.fail hrun rfl rfl rfl rfl hlim
    · rw [if_neg hlong] at hcode
      rw [if_neg (by rw [hcode]; decide)]
      exact hvalue _ _ (hlim.trans h.dataLimit) (hjoint hlong) hlong (payload_append hne v)

theorem finishEvent_tracks (h : Tracks limit p l d)
    (hrun : d.status = .running) :
    Tracks limit { finishEvent emit p with line := p.line.reset } [] (d.blank emit) := by
  have hfailed := h.failed
  have hstopped := h.stopped
  rw [hrun] at hfailed hstopped
  have hhas := h.hasData hrun
  unfold finishEvent Decoding.blank
  by_cases hne : d.values = []
  · have hnone : ¬ p.hasData = true := by simp [hhas, hne]
    rw [if_neg hnone, if_pos hne]
    exact ⟨h.emitted, h.failed, h.stopped, h.lineLimit, h.dataLimit, fun _ => rfl,
      not_tooLong_nil, fun _ => by rw [hne]; rfl, fun _ => by rw [hne]; rfl, h.fits⟩
  · have hsome : p.hasData = true := hhas.trans (decide_eq_true hne)
    rw [if_pos hsome, if_neg hne]
    cases emit with
    | none =>
      exact ⟨h.emitted, hfailed, hstopped, h.lineLimit, h.dataLimit, fun _ => rfl,
        not_tooLong_nil, fun _ => rfl, fun _ => rfl, not_tooLong_nil⟩
    | some emit =>
      dsimp only
      rw [h.emitted, h.data hrun]
      by_cases hstop : emit d.events (payload d.values) = 0
      · rw [if_neg (not_not.mpr hstop), if_pos hstop]
        exact ⟨rfl, hfailed, hstopped, h.lineLimit, h.dataLimit, fun _ => rfl,
          not_tooLong_nil, fun _ => rfl, fun _ => rfl, not_tooLong_nil⟩
      · rw [if_pos hstop, if_neg hstop]
        exact ⟨rfl, hfailed, rfl, h.lineLimit, h.dataLimit, (nomatch ·), not_tooLong_nil,
          (nomatch ·), (nomatch ·), not_tooLong_nil⟩

theorem dispatchLine_tracks (h : Tracks limit p l d)
    (hrun : d.status = .running) :
    Tracks limit (dispatchLine emit p) [] (d.line limit emit l) := by
  have hignored : dataValue l = none → l ≠ [] →
      Tracks limit { p with line := p.line.reset } [] (d.line limit emit l) := by
    intro hnone hl
    rw [Decoding.line, if_neg (not_not.mpr hrun), if_neg h.short, if_neg hl, hnone]
    exact ⟨h.emitted, h.failed, h.stopped, h.lineLimit, h.dataLimit, fun _ => rfl,
      not_tooLong_nil, h.data, h.hasData, h.fits⟩
  unfold dispatchLine
  rw [h.line hrun]
  dsimp only
  by_cases hl : l = []
  · rw [if_pos hl, Decoding.line, if_neg (not_not.mpr hrun), if_neg h.short, if_pos hl]
    exact finishEvent_tracks h hrun
  rw [if_neg hl]
  by_cases hcomment : l.head? = some colonByte
  · rw [if_pos hcomment]
    exact hignored (dataValue_colon hcomment) hl
  rw [if_neg hcomment]
  split
  · rename_i hfind
    refine hignored (if_neg fun hdata => ?_) hl
    rw [((isData_iff l).mp hdata).1] at hfind
    cases hfind
  · rename_i colon hfind
    by_cases hdata : colon = 4 ∧ l.take 4 = dataName
    · obtain ⟨rfl, hname⟩ := hdata
      have hvalue : dataValue l =
          some (if (l.drop 5).head? = some space then l.drop 6 else l.drop 5) :=
        if_pos ((isData_iff l).mpr ⟨hfind, hname⟩)
      have htracks := dataField_tracks h hrun (l.drop 5)
      rw [if_pos ⟨rfl, hname⟩, Decoding.line, if_neg (not_not.mpr hrun), if_neg h.short, if_neg hl,
        hvalue]
      rw [tail_drop] at htracks
      exact htracks
    · rw [if_neg hdata]
      refine hignored (if_neg fun hd => hdata ?_) hl
      obtain ⟨hfour, hname⟩ := (isData_iff l).mp hd
      rw [hfour] at hfind
      exact ⟨(Option.some_inj.mp hfind).symm, hname⟩

theorem finishEvent_afterCr (p : Sse) : (finishEvent emit p).afterCr = p.afterCr := by
  unfold finishEvent
  split
  · split
    · dsimp only
      split <;> rfl
    · rfl
  · rfl

theorem dataField_afterCr (p : Sse) (value : List UInt8) :
    (dataField p value).afterCr = p.afterCr := by
  unfold dataField
  dsimp only
  generalize (if p.hasData = true then p.data.append [lf] else (0, p.data)) = joint
  generalize (if value.head? = some space then value.tail else value) = v
  split
  · rfl
  · split <;> rfl

theorem dispatchLine_afterCr (p : Sse) : (dispatchLine emit p).afterCr = p.afterCr := by
  unfold dispatchLine
  dsimp only
  split
  · exact finishEvent_afterCr p
  · split
    · rfl
    · split
      · rfl
      · split
        · exact dataField_afterCr p _
        · rfl

/-! ## Whole calls -/

/-- What is left of a stream whose first LF may belong to the line end before. -/
def skipLf (afterCr : Bool) (s : List UInt8) : List UInt8 := if afterCr then dropLf s else s

theorem Tracks.code (h : Tracks limit p l d) :
    p.code = d.status.code := by
  rw [Sse.code, h.failed, h.stopped]
  cases d.status <;> rfl

theorem Tracks.setAfterCr (h : Tracks limit p l d)
    (b : Bool) : Tracks limit { p with afterCr := b } l d :=
  ⟨h.emitted, h.failed, h.stopped, h.lineLimit, h.dataLimit, h.line, h.short, h.data, h.hasData,
    h.fits⟩

variable (emit)

/-- One byte, and the events decoded so far. -/
theorem feedByte_tracks (h : Tracks limit p l d)
    (c : UInt8) : ∃ l' d', Tracks limit (feedByte emit p c).2 l' d' ∧
      (∀ r, (feedByte emit p c).1 = some r → d'.status ≠ .running ∧ r = d'.status.code) ∧
      ∀ s, decodeFrom limit emit l d (skipLf p.afterCr (c :: s)) =
        decodeFrom limit emit l' d' (skipLf (feedByte emit p c).2.afterCr s) := by
  have hfailed := h.failed
  have hstopped := h.stopped
  by_cases hd : d.status = .running
  · rw [hd] at hfailed hstopped
    have hon := h.setAfterCr false
    rw [feedByte, if_neg (by rw [hstopped]; decide), if_neg (by rw [hfailed]; decide)]
    by_cases hskip : p.afterCr = true ∧ c = lf
    · -- the LF of a CRLF
      obtain ⟨hcr, rfl⟩ := hskip
      rw [if_pos ⟨hcr, rfl⟩]
      exact ⟨l, d, hon, (fun _ hr => nomatch hr), fun s => by rw [skipLf, if_pos hcr, dropLf_lf]; rfl⟩
    have hsame : ∀ s, skipLf p.afterCr (c :: s) = c :: s := by
      intro s
      unfold skipLf
      split
      · rename_i hcr
        exact dropLf_other (fun hc => hskip ⟨hcr, hc⟩) s
      · rfl
    rw [if_neg hskip]
    by_cases hcr : c = cr
    · subst hcr
      rw [if_pos rfl]
      exact ⟨[], d.line limit emit l, (dispatchLine_tracks hon hd).setAfterCr true, (fun _ hr => nomatch hr),
        fun s => by rw [hsame, decodeFrom_cr]; rfl⟩
    by_cases hlf : c = lf
    · subst hlf
      rw [if_neg hcr, if_pos rfl]
      refine ⟨[], d.line limit emit l, dispatchLine_tracks hon hd, (fun _ hr => nomatch hr), fun s => ?_⟩
      rw [hsame, decodeFrom_lf, dispatchLine_afterCr]
      rfl
    · have hfits : ¬ TooLong p.line.limit p.line.data := by
        rw [h.lineLimit, h.line hd]
        exact h.short
      obtain ⟨hcode, hlim, hdata⟩ := Buf.append_fits hfits [c]
      rw [h.lineLimit, h.line hd] at hcode hdata
      rw [if_neg hcr, if_neg hlf]
      dsimp only
      by_cases hlong : TooLong limit (l ++ [c])
      · rw [if_pos hlong] at hcode
        rw [if_pos (by rw [hcode]; decide)]
        refine ⟨[], { d with status := .failed }, h.fail hd rfl rfl rfl hlim rfl, ?_, fun s => ?_⟩
        · rintro r ⟨⟩
          exact ⟨by simp, rfl⟩
        · rw [hsame, decodeFrom_other hcr hlf, decodeFrom_tooLong hlong hd,
            decodeFrom_halted (by simp)]
      · rw [if_neg hlong] at hcode
        rw [if_neg (by rw [hcode]; decide)]
        exact ⟨l ++ [c], d, ⟨h.emitted, h.failed, h.stopped, hlim.trans h.lineLimit, h.dataLimit,
          fun _ => hdata hlong, hlong, h.data, h.hasData, h.fits⟩, (fun _ hr => nomatch hr),
          fun s => by rw [hsame, decodeFrom_other hcr hlf]; rfl⟩
  · have hbyte : feedByte emit p c = (some d.status.code, p) := by
      rw [feedByte, hstopped, hfailed]
      cases hs : d.status with
      | running => exact absurd hs hd
      | failed | stopped => rfl
    rw [hbyte]
    refine ⟨l, d, h, ?_, fun s => by rw [decodeFrom_halted hd, decodeFrom_halted hd]⟩
    rintro r ⟨⟩
    exact ⟨hd, rfl⟩

theorem feed_tracks (h : Tracks limit p l d)
    (s : List UInt8) : ∃ l' d', Tracks limit (feed emit p s).2 l' d' ∧
      (feed emit p s).1 = d'.status.code ∧
      ∀ t, decodeFrom limit emit l d (skipLf p.afterCr (s ++ t)) =
        decodeFrom limit emit l' d' (skipLf (feed emit p s).2.afterCr t) := by
  induction s generalizing p l d with
  | nil => exact ⟨l, d, h, h.code, fun t => rfl⟩
  | cons c s ih =>
    obtain ⟨l', d', h', hreturn, hdecode⟩ := feedByte_tracks emit h c
    rw [feed]
    rcases hbyte : feedByte emit p c with ⟨_ | r, q⟩
    · rw [hbyte] at h' hdecode
      obtain ⟨l2, d2, h2, hcode, hrest⟩ := ih h'
      exact ⟨l2, d2, h2, hcode, fun t => (hdecode (s ++ t)).trans (hrest t)⟩
    · rw [hbyte] at h' hdecode hreturn
      obtain ⟨hd, rfl⟩ := hreturn r rfl
      exact ⟨l', d', h', rfl, fun t => by
        rw [cons_append, hdecode, decodeFrom_halted hd, decodeFrom_halted hd]⟩

/-- Where the parser stands, the decoding has nothing more to do. -/
theorem Tracks.decodeFrom_end (h : Tracks limit p l d) :
    decodeFrom limit emit l d (skipLf p.afterCr []) = d := by
  rw [show skipLf p.afterCr [] = [] from ite_self [], Llm89.decodeFrom_end, Decoding.rest,
    if_neg fun hd => h.short hd.2]

theorem feed_decodes (h : Tracks limit p l d)
    (s : List UInt8) :
    (feed emit p s).1 = (decodeFrom limit emit l d (skipLf p.afterCr s)).status.code ∧
      (feed emit p s).2.emitted = (decodeFrom limit emit l d (skipLf p.afterCr s)).events := by
  obtain ⟨l', d', h', hcode, hdecode⟩ := feed_tracks emit h s
  have hend := hdecode []
  rw [append_nil, h'.decodeFrom_end] at hend
  rw [hend]
  exact ⟨hcode, h'.emitted⟩

/-- Each call returns and emits what the decoding of the bytes up to its end has. -/
theorem feedAll_decodes (h : Tracks limit p l d)
    (chunks : List (List UInt8)) :
    (∀ k < chunks.length, (feedAll emit p chunks).1[k]? = some
      (decodeFrom limit emit l d (skipLf p.afterCr (chunks.take (k + 1)).flatten)).status.code) ∧
    (feedAll emit p chunks).2.code =
      (decodeFrom limit emit l d (skipLf p.afterCr chunks.flatten)).status.code ∧
    (feedAll emit p chunks).2.emitted =
      (decodeFrom limit emit l d (skipLf p.afterCr chunks.flatten)).events := by
  induction chunks generalizing p l d with
  | nil =>
    rw [flatten_nil, h.decodeFrom_end]
    exact ⟨fun k hk => absurd hk (Nat.not_lt_zero k), h.code, h.emitted⟩
  | cons chunk chunks ih =>
    obtain ⟨l', d', h', -, hdecode⟩ := feed_tracks emit h chunk
    obtain ⟨hcodes, hcode, hemitted⟩ := ih h'
    rw [flatten_cons, hdecode]
    refine ⟨?_, hcode, hemitted⟩
    intro k hk
    cases k with
    | zero =>
      rw [take_succ_cons, take_zero, flatten_cons, flatten_nil, append_nil]
      exact congrArg some (feed_decodes emit h chunk).1
    | succ k =>
      rw [take_succ_cons, flatten_cons, hdecode]
      exact hcodes k (Nat.lt_of_succ_lt_succ hk)

theorem tracks_init (limit : Nat) : Tracks limit (sseInit limit) [] ⟨[], [], .running⟩ :=
  ⟨rfl, rfl, rfl, rfl, rfl, fun _ => rfl, not_tooLong_nil, fun _ => rfl, fun _ => rfl,
    not_tooLong_nil⟩

/-- A decoding that failed or stopped is not changed by what follows. -/
theorem decode_halted {s : List UInt8} (h : (decode limit emit s).status ≠ .running)
    (t : List UInt8) : decode limit emit (s ++ t) = decode limit emit s := by
  obtain ⟨l', d', h', -, hdecode⟩ := feed_tracks emit (tracks_init limit) s
  have hend := hdecode []
  rw [append_nil, h'.decodeFrom_end] at hend
  have hmore := hdecode t
  rw [decode_eq] at h ⊢
  rw [decode_eq]
  have hd : d'.status ≠ .running := hend ▸ h
  rw [decodeFrom_halted hd] at hmore
  exact hmore.trans hend.symm

theorem sse_exact (limit : Nat) (emit : EmitFn) (chunks : List (List UInt8)) :
    (∀ k < chunks.length, (feedAll emit (sseInit limit) chunks).1[k]? =
      some (decode limit emit (chunks.take (k + 1)).flatten).status.code) ∧
    (feedAll emit (sseInit limit) chunks).2.code = (feed emit (sseInit limit) chunks.flatten).1 ∧
    (feedAll emit (sseInit limit) chunks).2.emitted =
      (feed emit (sseInit limit) chunks.flatten).2.emitted ∧
    (feed emit (sseInit limit) chunks.flatten).1 =
      (decode limit emit chunks.flatten).status.code ∧
    (feed emit (sseInit limit) chunks.flatten).2.emitted =
      (decode limit emit chunks.flatten).events ∧
    ((decode limit emit chunks.flatten).status ≠ .running → ∀ more,
      decode limit emit (chunks.flatten ++ more) = decode limit emit chunks.flatten) := by
  obtain ⟨hcodes, hcode, hemitted⟩ := feedAll_decodes emit (tracks_init limit) chunks
  obtain ⟨hwhole, hevents⟩ := feed_decodes emit (tracks_init limit) chunks.flatten
  refine ⟨?_, hcode.trans hwhole.symm, hemitted.trans hevents.symm, ?_, ?_, decode_halted emit⟩
  · intro k hk
    rw [decode_eq]
    exact hcodes k hk
  · rw [decode_eq]
    exact hwhole
  · rw [decode_eq]
    exact hevents

end

end Llm89
