import EightyNine.Jrpc89.Io
import Mathlib.Data.List.Forall2
import Mathlib.Data.List.TakeWhile

/-!
# Frames arrive as they were sent

The writes of some frames put their bytes and newlines on the pipe one after the other,
however the attempts are interrupted and split.  A read takes in the bytes up to the
next newline, whether they fit or not (`readLoop_absorb`), so the reads of a pipe deliver
its frames in order.
-/

namespace Jrpc89

open List

/-! ## Writing -/

variable {buf : List UInt8}

theorem writeOnce_spec (w : Writer) (hbuf : buf ≠ []) :
    (∃ n, 1 ≤ n ∧ n ≤ buf.length ∧ (writeOnce w buf).1 = some n ∧
      (writeOnce w buf).2.written = w.written ++ buf.take n) ∨
    (writeOnce w buf).1 = none ∧ (writeOnce w buf).2.written = w.written := by
  rcases w with ⟨written, interrupts, takes, later⟩
  induction interrupts with
  | zero =>
    rw [writeOnce]
    cases takes with
    | none => exact Or.inr ⟨rfl, rfl⟩
    | some n =>
      have hpos := length_pos_iff.mpr hbuf
      exact Or.inl ⟨max 1 (min n buf.length), Nat.le_max_left 1 _, by omega, rfl, rfl⟩
  | succ n ih =>
    rw [writeOnce]
    exact ih

/-- The attempts of a writer do not fail. -/
def Writer.Steady (w : Writer) : Prop := w.takes.isSome ∧ ∀ n, (w.later n).2.isSome

variable {w : Writer}

theorem Writer.Steady.next (h : w.Steady) : w.next.Steady :=
  ⟨h.2 0, fun n => h.2 (n + 1)⟩

theorem writeOnce_steady (h : w.Steady) (buf : List UInt8) :
    (writeOnce w buf).1.isSome ∧ (writeOnce w buf).2.Steady := by
  rcases w with ⟨written, interrupts, takes, later⟩
  induction interrupts with
  | zero =>
    obtain ⟨n, rfl⟩ := Option.isSome_iff_exists.mp h.1
    rw [writeOnce]
    exact ⟨rfl, h.next⟩
  | succ n ih =>
    rw [writeOnce]
    exact ih h

/-- The bytes arrive, or, if the write fails, some of the first of them. -/
theorem writeBytes_spec (w : Writer) (buf : List UInt8) :
    ∃ n ≤ buf.length, (writeBytes w buf).2.written = w.written ++ buf.take n ∧
      ((writeBytes w buf).1 = true ↔ n = buf.length) := by
  induction hlen : buf.length using Nat.strong_induction_on generalizing w buf with
  | _ m ih =>
    subst hlen
    by_cases hbuf : buf = []
    · subst hbuf
      rw [writeBytes]
      exact ⟨0, Nat.le_refl 0, by simp, by simp⟩
    · have hpos := length_pos_iff.mpr hbuf
      rw [writeBytes, dif_neg hbuf]
      obtain ⟨put, h1, hle, hput, hwritten⟩ | ⟨hput, hwritten⟩ := writeOnce_spec w hbuf
      · split
        · rename_i hone
          rw [hone] at hput
          cases hput
        · rename_i put' w' hone
          rw [hone] at hput hwritten
          obtain rfl := Option.some_inj.mp hput
          obtain ⟨n, hn, hrest, hiff⟩ := ih (buf.drop put').length
            (by rw [length_drop]; omega) w' (buf.drop put') rfl
          rw [length_drop] at hn hiff
          refine ⟨put' + n, by omega, ?_, ?_⟩
          · rw [hrest, hwritten, append_assoc, take_add]
          · rw [hiff]
            omega
      · split
        · rename_i w' hone
          rw [hone] at hwritten
          exact ⟨0, Nat.zero_le _, by simpa using hwritten, by simp; omega⟩
        · rename_i hone
          rw [hone] at hput
          cases hput

theorem writeBytes_steady (h : w.Steady) (buf : List UInt8) :
    (writeBytes w buf).1 = true ∧ (writeBytes w buf).2.Steady := by
  induction hlen : buf.length using Nat.strong_induction_on generalizing w buf with
  | _ m ih =>
    subst hlen
    by_cases hbuf : buf = []
    · subst hbuf
      rw [writeBytes]
      exact ⟨rfl, h⟩
    · have hpos := length_pos_iff.mpr hbuf
      obtain ⟨hput, hsteady⟩ := writeOnce_steady h buf
      rw [writeBytes, dif_neg hbuf]
      split
      · rename_i hone
        rw [hone] at hput
        cases hput
      · rename_i put w' hone
        rw [hone] at hsteady
        have h1 := writeOnce_pos hone
        exact ih (buf.drop put).length (by rw [length_drop]; omega) hsteady _ rfl

/-- The frames that are accepted. -/
def Sendable (json : List UInt8) : Prop := json ≠ [] ∧ newline ∉ json

instance (json : List UInt8) : Decidable (Sendable json) := inferInstanceAs (Decidable (_ ∧ _))

/-- What a frame is on the pipe. -/
def encode (json : List UInt8) : List UInt8 := json ++ [newline]

/-- A call writes all of a frame, or, if it fails, some of the first bytes. -/
theorem fdWriteFrame_spec (w : Writer) (json : List UInt8) :
    (¬ Sendable json ∧ fdWriteFrame w json = (.einval, w)) ∨
    (Sendable json ∧ ∃ n ≤ (encode json).length,
      (fdWriteFrame w json).2.written = w.written ++ (encode json).take n ∧
      (fdWriteFrame w json).1 = (if n = (encode json).length then .ok else .eio)) := by
  unfold fdWriteFrame
  by_cases hempty : json = []
  · exact Or.inl ⟨fun h => h.1 hempty, if_pos hempty⟩
  by_cases hline : json.contains newline = true
  · exact Or.inl ⟨fun h => h.2 (contains_iff_mem.mp hline), by rw [if_neg hempty, if_pos hline]⟩
  refine Or.inr ⟨⟨hempty, fun h => hline (contains_iff_mem.mpr h)⟩, ?_⟩
  rw [if_neg hempty, if_neg hline]
  have hlen : (encode json).length = json.length + 1 := by rw [encode, length_append]; rfl
  rw [hlen]
  obtain ⟨n, hn, hwritten, hiff⟩ := writeBytes_spec w json
  rcases hbytes : writeBytes w json with ⟨_ | _, w1⟩
  · rw [hbytes] at hwritten hiff
    refine ⟨n, by omega, ?_, ?_⟩
    · dsimp only
      rw [hwritten, encode, take_append_of_le_length hn]
    · exact (if_neg (by omega)).symm
  · rw [hbytes] at hwritten hiff
    obtain rfl := hiff.mp rfl
    rw [take_length] at hwritten
    dsimp only at hwritten ⊢
    obtain ⟨m, hm, hlast, hall⟩ := writeBytes_spec w1 [newline]
    rcases hend : writeBytes w1 [newline] with ⟨_ | _, w2⟩
    · rw [hend] at hlast hall
      have hm0 : m = 0 := by
        have : m ≠ 1 := fun h => Bool.false_ne_true (hall.mpr h)
        rw [length_singleton] at hm
        omega
      refine ⟨json.length, by omega, ?_, ?_⟩
      · subst hm0
        dsimp only at hlast ⊢
        rw [hlast, hwritten, encode, take_append_of_le_length (Nat.le_refl _), take_length,
          take_zero, append_nil]
      · exact (if_neg (by omega)).symm
    · rw [hend] at hlast hall
      have hm1 := hall.mp rfl
      refine ⟨json.length + 1, Nat.le_refl _, ?_, (if_pos rfl).symm⟩
      dsimp only at hlast ⊢
      rw [hlast, hm1, take_length, hwritten, ← hlen, take_length, encode, append_assoc]

theorem fdWriteFrame_steady (h : w.Steady) (json : List UInt8) :
    (fdWriteFrame w json).1 ≠ .eio ∧ (fdWriteFrame w json).2.Steady := by
  unfold fdWriteFrame
  by_cases hempty : json = []
  · rw [if_pos hempty]
    exact ⟨nofun, h⟩
  rw [if_neg hempty]
  by_cases hline : json.contains newline = true
  · rw [if_pos hline]
    exact ⟨nofun, h⟩
  rw [if_neg hline]
  obtain ⟨hsent, h1⟩ := writeBytes_steady h json
  rcases hbytes : writeBytes w json with ⟨b, w1⟩
  rw [hbytes] at hsent h1
  dsimp only at hsent h1 ⊢
  subst hsent
  obtain ⟨hlast, h2⟩ := writeBytes_steady h1 [newline]
  dsimp only
  rcases hend : writeBytes w1 [newline] with ⟨b, w2⟩
  rw [hend] at hlast h2
  dsimp only at hlast h2 ⊢
  subst hlast
  exact ⟨nofun, h2⟩

/-- Frames written one after the other, until a call fails. -/
def writeAll (w : Writer) : List (List UInt8) → List Status × Writer
  | [] => ([], w)
  | json :: frames =>
    match fdWriteFrame w json with
    | (.eio, w) => ([.eio], w)
    | (st, w) => (st :: (writeAll w frames).1, (writeAll w frames).2)

/-- The code of a frame whose write does not fail. -/
def sentCode (json : List UInt8) : Status := if Sendable json then .ok else .einval

/-- What a pipe holds after some frames were sent. -/
def encodeAll (frames : List (List UInt8)) : List UInt8 :=
  (frames.filter (Sendable ·)).flatMap encode

/-- The writes of some frames put the first bytes of their encoding on the pipe. -/
theorem writeAll_spec (w : Writer) (frames : List (List UInt8)) :
    ∃ n, (writeAll w frames).2.written = w.written ++ (encodeAll frames).take n := by
  induction frames generalizing w with
  | nil => exact ⟨0, by simp [writeAll]⟩
  | cons json frames ih =>
    obtain ⟨hbad, hcall⟩ | ⟨hgood, n, hn, hwritten, hcode⟩ := fdWriteFrame_spec w json
    · obtain ⟨m, hrest⟩ := ih w
      refine ⟨m, ?_⟩
      rw [writeAll, hcall, encodeAll, filter_cons_of_neg (by simpa using hbad)]
      exact hrest
    · have hall : encodeAll (json :: frames) = encode json ++ encodeAll frames := by
        rw [encodeAll, filter_cons_of_pos (by simpa using hgood), flatMap_cons]
        rfl
      rw [hall, writeAll]
      rcases hcall : fdWriteFrame w json with ⟨st, w1⟩
      rw [hcall] at hwritten hcode
      dsimp only at hwritten hcode
      by_cases hfull : n = (encode json).length
      · obtain ⟨m, hrest⟩ := ih w1
        rw [if_pos hfull] at hcode
        subst hcode hfull
        refine ⟨(encode json).length + m, ?_⟩
        dsimp only
        rw [hrest, hwritten, take_length, append_assoc, take_length_add_append]
      · rw [if_neg hfull] at hcode
        subst hcode
        refine ⟨n, ?_⟩
        dsimp only
        rw [hwritten, take_append_of_le_length hn]

/-- Without failures each call answers for its frame, and the pipe holds all of them. -/
theorem writeAll_steady (h : w.Steady) (frames : List (List UInt8)) :
    (writeAll w frames).1 = frames.map sentCode ∧
      (writeAll w frames).2.written = w.written ++ encodeAll frames := by
  induction frames generalizing w with
  | nil => exact ⟨rfl, (append_nil _).symm⟩
  | cons json frames ih =>
    obtain ⟨hsent, hsteady⟩ := fdWriteFrame_steady h json
    obtain ⟨hbad, hcall⟩ | ⟨hgood, n, -, hwritten, hcode⟩ := fdWriteFrame_spec w json
    · obtain ⟨hcodes, hrest⟩ := ih h
      rw [writeAll, hcall, encodeAll, filter_cons_of_neg (by simpa using hbad), map_cons,
        sentCode, if_neg hbad]
      exact ⟨congrArg _ hcodes, hrest⟩
    · have hall : encodeAll (json :: frames) = encode json ++ encodeAll frames := by
        rw [encodeAll, filter_cons_of_pos (by simpa using hgood), flatMap_cons]
        rfl
      have hfull : n = (encode json).length := by
        by_contra hne
        rw [if_neg hne] at hcode
        exact hsent hcode
      rw [if_pos hfull] at hcode
      rw [hall, writeAll, map_cons, sentCode, if_pos hgood]
      rcases hcall : fdWriteFrame w json with ⟨st, w1⟩
      rw [hcall] at hwritten hcode hsteady
      obtain ⟨hcodes, hrest⟩ := ih hsteady
      dsimp only at hwritten hcode
      subst hcode hfull
      refine ⟨congrArg _ hcodes, ?_⟩
      dsimp only
      rw [hrest, hwritten, take_length, append_assoc]

/-! ## Reading -/

/-- Bytes that do not end a frame. -/
def absorb (limit : Nat) (f : Frame) (bytes : List UInt8) : Frame :=
  bytes.foldl (fun f c => (ingest f limit c).2) f

variable {c : UInt8}

theorem ingest_other (hc : c ≠ newline) (f : Frame) (limit : Nat) :
    (ingest f limit c).1 = false ∧ (ingest f limit c).2.found = f.found := by
  unfold ingest
  by_cases hbig : f.toobig = true
  · rw [if_pos hbig]
    exact ⟨beq_eq_false_iff_ne.mpr hc, rfl⟩
  · rw [if_neg hbig, if_neg hc]
    split <;> exact ⟨rfl, rfl⟩

variable {bytes : List UInt8} {r : Reader} {f : Frame} {t : List (Option UInt8)}

/-- The loop takes in the bytes before a newline or the end. -/
theorem readLoop_absorb (hline : newline ∉ bytes)
    (hfound : f.found = false) (hitems : r.items = bytes.map some ++ t)
    (limit : Nat) : ∃ r', r'.items = t ∧
      readLoop r f limit = readLoop r' (absorb limit f bytes) limit := by
  induction bytes generalizing r f with
  | nil => exact ⟨r, hitems, rfl⟩
  | cons c bytes ih =>
    obtain ⟨hc, hbytes⟩ := not_or.mp fun h' => hline (mem_cons.mpr h')
    obtain ⟨hread, htail⟩ := readOne_eq r
    obtain ⟨hstep, hkeeps⟩ := ingest_other (Ne.symm hc) f limit
    rw [hitems] at hread htail
    rcases hone : readOne r with ⟨one, r1⟩
    rw [hone] at hread htail
    dsimp only at hread htail
    subst hread
    obtain ⟨r2, h2, hloop⟩ := ih hbytes (f := (ingest f limit c).2) (hkeeps.trans hfound) htail
    refine ⟨r2, h2, ?_⟩
    have hread : readStep r f limit = (false, (ingest f limit c).2, r1) := by
      rw [readStep, hone, map_cons, cons_append, ReadOne.ofItems]
      dsimp only
      rw [hstep]
    rw [readLoop, hfound, if_neg Bool.false_ne_true]
    split
    · rename_i heq
      rw [hread] at heq
      cases heq
    · rename_i f' r' heq
      rw [hread] at heq
      cases heq
      exact hloop

/-- What the variables hold after some bytes that do not end the frame. -/
structure Holds (cap : Nat) (f : Frame) (bytes : List UInt8) : Prop where
  length : f.buf.length = cap
  found : f.found = false
  err : f.err = false
  eof : f.eof = false
  toobig : f.toobig = decide (cap - 1 < bytes.length)
  kept : bytes.length ≤ cap - 1 → f.i = bytes.length ∧ f.buf.take bytes.length = bytes

theorem holds_start (buf : List UInt8) :
    Holds buf.length ⟨buf, 0, false, false, false, false⟩ [] :=
  ⟨rfl, rfl, rfl, rfl, (decide_eq_false (Nat.not_lt_zero _)).symm, fun _ => ⟨rfl, rfl⟩⟩

variable {cap : Nat}

theorem Holds.ingest (hcap : 0 < cap)
    (h : Holds cap f bytes) (hc : c ≠ newline) :
    Holds cap (Jrpc89.ingest f (cap - 1) c).2 (bytes ++ [c]) := by
  have hlen : (bytes ++ [c]).length = bytes.length + 1 := by rw [length_append]; rfl
  unfold Jrpc89.ingest
  by_cases hbig : cap - 1 < bytes.length
  · have htoobig := h.toobig.trans (decide_eq_true hbig)
    rw [if_pos htoobig]
    exact ⟨h.length, h.found, h.err, h.eof, htoobig.trans (decide_eq_true (by omega)).symm,
      fun hle => by omega⟩
  · have htoobig := h.toobig.trans (decide_eq_false hbig)
    obtain ⟨hi, hbuf⟩ := h.kept (by omega)
    rw [if_neg (by rw [htoobig]; exact Bool.false_ne_true), if_neg hc, hi]
    by_cases hfull : bytes.length ≥ cap - 1
    · rw [if_pos hfull]
      exact ⟨h.length, h.found, h.err, h.eof, (decide_eq_true (by omega)).symm,
        fun hle => by omega⟩
    · rw [if_neg hfull]
      refine ⟨(length_set ..).trans h.length, h.found, h.err, h.eof,
        htoobig.trans (decide_eq_false (by omega)).symm, fun _ => ⟨hlen.symm, ?_⟩⟩
      have hin : bytes.length < f.buf.length := by rw [h.length]; omega
      rw [hlen]
      dsimp only
      rw [take_succ_eq_append_getElem (by rw [length_set]; exact hin),
        take_set_of_le (Nat.le_refl _), hbuf, getElem_set_self]

theorem Holds.absorb (hcap : 0 < cap) {seen : List UInt8}
    (h : Holds cap f seen) (hline : newline ∉ bytes) :
    Holds cap (absorb (cap - 1) f bytes) (seen ++ bytes) := by
  induction bytes generalizing f seen with
  | nil => rwa [append_nil]
  | cons c bytes ih =>
    obtain ⟨hc, hbytes⟩ := not_or.mp fun h' => hline (mem_cons.mpr h')
    have hrest := ih (h.ingest hcap (Ne.symm hc)) hbytes
    rwa [append_assoc] at hrest

/-- What a call reports: a frame, or why there is none. -/
inductive Outcome where
  | frame (json : List UInt8)
  | failed (st : Status)

/-- A call of status OK holds the frame and its terminator, every other an empty string. -/
def ReadFrame.Shows (res : ReadFrame) : Outcome → Prop
  | .frame json => res.status = .ok ∧ res.outLen = json.length ∧ res.buf.take json.length = json ∧
      res.buf[json.length]? = some 0
  | .failed st => res.status = st ∧ res.outLen = 0 ∧ res.buf[0]? = some 0

/-- A frame that ends with its newline, for a capacity. -/
def whole (cap : Nat) (json : List UInt8) : Outcome :=
  if json.length ≤ cap - 1 then .frame json else .failed .etoolong

/-- A frame that the end of the stream cuts. -/
def cut (cap : Nat) (tail : List UInt8) : Outcome :=
  if tail = [] then .failed .eof
  else if tail.length ≤ cap - 1 then .failed .etrunc
  else .failed .etoolong

theorem readLoop_stop {r' : Reader} {f' : Frame} {limit : Nat} (hfound : f.found = false)
    (hstep : readStep r f limit = (true, f', r')) : readLoop r f limit = (f', r') := by
  rw [readLoop, hfound, if_neg Bool.false_ne_true]
  split
  · rename_i heq
    rw [hstep] at heq
    cases heq
    rfl
  · rename_i heq
    rw [hstep] at heq
    cases heq

theorem getElem?_clear (buf : List UInt8) (h : 0 < buf.length) : (buf.set 0 0)[0]? = some 0 := by
  rw [getElem?_set_self h]

/-- The loop reads on over bytes without a newline. -/
theorem readLoop_reaches (hbuf : buf ≠ []) (hline : newline ∉ bytes)
    (hitems : r.items = bytes.map some ++ t) : ∃ f1 r1 r2, Holds buf.length f1 bytes ∧
      readLoop r ⟨buf, 0, false, false, false, false⟩ (buf.length - 1) =
        readLoop r1 f1 (buf.length - 1) ∧
      readOne r1 = (ReadOne.ofItems t, r2) ∧ r2.items = t.tail := by
  obtain ⟨r1, h1, hloop⟩ := readLoop_absorb hline
    (show (⟨buf, 0, false, false, false, false⟩ : Frame).found = false from rfl) hitems
    (buf.length - 1)
  have hholds := (holds_start buf).absorb (length_pos_iff.mpr hbuf) hline
  obtain ⟨hread, htail⟩ := readOne_eq r1
  rw [h1] at hread htail
  exact ⟨_, r1, _, hholds, hloop, Prod.ext hread rfl, htail⟩

theorem readFrame_newline (hbuf : buf ≠ []) {json : List UInt8}
    (hline : newline ∉ json)
    (hitems : r.items = json.map some ++ some newline :: t) (outLen : Nat) :
    (fdReadFrame r buf outLen).1.Shows (whole buf.length json) ∧
      (fdReadFrame r buf outLen).2.items = t := by
  have hcap := length_pos_iff.mpr hbuf
  obtain ⟨f1, r1, r2, hholds, hloop, hone, htail⟩ := readLoop_reaches hbuf hline hitems
  by_cases hbig : buf.length - 1 < json.length
  · have htoobig := hholds.toobig.trans (decide_eq_true hbig)
    have hstep : readStep r1 f1 (buf.length - 1) = (true, f1, r2) := by
      rw [readStep, hone]
      dsimp only [ReadOne.ofItems]
      rw [ingest, if_pos htoobig]
      rfl
    rw [fdReadFrame, if_neg (by omega), hloop, readLoop_stop hholds.found hstep, whole,
      if_neg (by omega)]
    simp only [hholds.found, hholds.err, htoobig, if_true, Bool.false_eq_true, if_false]
    exact ⟨⟨rfl, rfl, getElem?_clear _ (by rw [hholds.length]; exact hcap)⟩, htail⟩
  · have htoobig := hholds.toobig.trans (decide_eq_false hbig)
    obtain ⟨hi, hkept⟩ := hholds.kept (by omega)
    have hstep : readStep r1 f1 (buf.length - 1) = (true, { f1 with found := true }, r2) := by
      rw [readStep, hone]
      dsimp only [ReadOne.ofItems]
      rw [ingest, if_neg (by rw [htoobig]; exact Bool.false_ne_true), if_pos rfl]
    rw [fdReadFrame, if_neg (by omega), hloop, readLoop_stop hholds.found hstep, whole,
      if_pos (by omega)]
    refine ⟨⟨rfl, hi, ?_, ?_⟩, htail⟩
    · show (f1.buf.set f1.i 0).take json.length = json
      rw [hi, take_set_of_le (Nat.le_refl _), hkept]
    · show (f1.buf.set f1.i 0)[json.length]? = some 0
      rw [hi, getElem?_set_self (by rw [hholds.length]; omega)]

variable {tail : List UInt8}

theorem readFrame_end (hbuf : buf ≠ [])
    (hline : newline ∉ tail) (hitems : r.items = tail.map some) (outLen : Nat) :
    (fdReadFrame r buf outLen).1.Shows (cut buf.length tail) ∧
      (fdReadFrame r buf outLen).2.items = [] := by
  have hcap := length_pos_iff.mpr hbuf
  obtain ⟨f1, r1, r2, hholds, hloop, hone, htail⟩ := readLoop_reaches hbuf hline
    (hitems.trans (append_nil _).symm)
  have hstep : readStep r1 f1 (buf.length - 1) = (true, { f1 with eof := true }, r2) := by
    rw [readStep, hone, ReadOne.ofItems]
  rw [fdReadFrame, if_neg (by omega), hloop, readLoop_stop hholds.found hstep]
  simp only [hholds.found, hholds.err, if_true, Bool.false_eq_true, if_false]
  have hclear := getElem?_clear f1.buf (by rw [hholds.length]; exact hcap)
  unfold cut
  by_cases hbig : buf.length - 1 < tail.length
  · have htoobig := hholds.toobig.trans (decide_eq_true hbig)
    rw [if_pos htoobig, if_neg (by rintro rfl; exact Nat.not_lt_zero _ hbig), if_neg (by omega)]
    exact ⟨⟨rfl, rfl, hclear⟩, htail⟩
  · have htoobig := hholds.toobig.trans (decide_eq_false hbig)
    obtain ⟨hi, -⟩ := hholds.kept (by omega)
    rw [if_neg (by rw [htoobig]; exact Bool.false_ne_true), hi, endStatus]
    by_cases hempty : tail = []
    · rw [if_pos hempty, hempty]
      exact ⟨⟨rfl, rfl, hclear⟩, htail⟩
    · have hle : tail.length ≤ buf.length - 1 := by omega
      have hpos : ¬ tail.length = 0 := fun h => hempty (eq_nil_of_length_eq_zero h)
      rw [if_neg hempty, if_neg hpos, if_pos hle]
      exact ⟨⟨rfl, rfl, hclear⟩, htail⟩

theorem ingest_length (f : Frame) (limit : Nat) (c : UInt8) :
    (ingest f limit c).2.buf.length = f.buf.length := by
  unfold ingest
  split
  · rfl
  · split
    · rfl
    · split
      · rfl
      · exact length_set ..

theorem readStep_length (r : Reader) (f : Frame) (limit : Nat) :
    (readStep r f limit).2.1.buf.length = f.buf.length := by
  unfold readStep
  split
  · exact ingest_length f limit _
  · rfl
  · rfl

theorem readLoop_length (r : Reader) (f : Frame) (limit : Nat) :
    (readLoop r f limit).1.buf.length = f.buf.length := by
  induction hn : r.items.length using Nat.strong_induction_on generalizing r f with
  | _ n ih =>
    subst hn
    rw [readLoop]
    split
    · rfl
    · have hlength := readStep_length r f limit
      split
      · rename_i heq
        rw [heq] at hlength
        exact hlength
      · rename_i f' r' heq
        rw [heq] at hlength
        exact (ih _ (readStep_shorter heq) r' f' rfl).trans hlength

theorem readFrame_failed (r : Reader) (hbuf : buf ≠ []) (outLen : Nat)
    (h : (fdReadFrame r buf outLen).1.status ≠ .ok) :
    (fdReadFrame r buf outLen).1.outLen = 0 ∧ (fdReadFrame r buf outLen).1.buf[0]? = some 0 := by
  have hcap := length_pos_iff.mpr hbuf
  have hlength := readLoop_length r ⟨buf, 0, false, false, false, false⟩ (buf.length - 1)
  rw [fdReadFrame, if_neg (by omega)] at h ⊢
  rcases hloop : readLoop r ⟨buf, 0, false, false, false, false⟩ (buf.length - 1) with ⟨f, r'⟩
  rw [hloop] at h hlength
  dsimp only at h hlength ⊢
  have hclear := getElem?_clear f.buf (by omega)
  by_cases hfound : f.found = true
  · rw [if_pos hfound] at h
    exact absurd rfl h
  · rw [if_neg hfound]
    split
    · exact ⟨rfl, hclear⟩
    · split
      · exact ⟨rfl, hclear⟩
      · split <;> exact ⟨rfl, hclear⟩

/-! ## The frames of a pipe -/

/-- The buffer of a call, which has room for the terminator at least. -/
abbrev Buffer := {buf : List UInt8 // buf ≠ []}

/-- One call after the other; `*out_len` has some value before each. -/
def readAll (r : Reader) : List (Buffer × Nat) → List ReadFrame
  | [] => []
  | (buf, outLen) :: calls =>
    (fdReadFrame r buf outLen).1 :: readAll (fdReadFrame r buf outLen).2 calls

/-- What the calls report of some frames, and of a last one that the end cuts. -/
def outcomes (frames : List (List UInt8)) (tail : List UInt8) : List Nat → List Outcome
  | [] => []
  | cap :: caps =>
    match frames with
    | [] => cut cap tail :: outcomes [] [] caps
    | json :: frames => whole cap json :: outcomes frames tail caps

theorem readAll_spec {frames : List (List UInt8)} (hframes : ∀ json ∈ frames, newline ∉ json)
    (htail : newline ∉ tail)
    (hitems : r.items = (frames.flatMap encode ++ tail).map some) (calls : List (Buffer × Nat)) :
    List.Forall₂ ReadFrame.Shows (readAll r calls)
      (outcomes frames tail (calls.map fun call => call.1.1.length)) := by
  induction calls generalizing frames tail r with
  | nil => exact .nil
  | cons call calls ih =>
    obtain ⟨⟨buf, hbuf⟩, outLen⟩ := call
    rw [map_cons]
    cases frames with
    | nil =>
      obtain ⟨hshows, hrest⟩ := readFrame_end hbuf htail hitems outLen
      have hnone : ∀ json ∈ ([] : List (List UInt8)), newline ∉ json := fun _ h => nomatch h
      exact .cons hshows (ih hnone not_mem_nil hrest)
    | cons json frames =>
      rw [flatMap_cons, encode, append_assoc, append_assoc, map_append] at hitems
      obtain ⟨hshows, hrest⟩ := readFrame_newline hbuf (hframes json mem_cons_self) hitems outLen
      exact .cons hshows (ih (fun j hj => hframes j (mem_cons_of_mem _ hj)) htail hrest)

/-- A cut of a pipe leaves some frames, and the first bytes of the next. -/
theorem take_flatMap (frames : List (List UInt8)) (n : Nat) :
    ∃ k tail, (frames.flatMap encode).take n = (frames.take k).flatMap encode ++ tail ∧
      (tail = [] ∨ ∃ json, frames[k]? = some json ∧ tail <+: json) := by
  induction frames generalizing n with
  | nil => exact ⟨0, [], by simp, Or.inl rfl⟩
  | cons json frames ih =>
    rw [flatMap_cons]
    by_cases hn : n ≤ json.length
    · refine ⟨0, json.take n, ?_, Or.inr ⟨json, rfl, take_prefix n json⟩⟩
      rw [take_zero, flatMap_nil, nil_append, encode, append_assoc, take_append_of_le_length hn]
    · obtain ⟨k, tail, htake, hnext⟩ := ih (n - (encode json).length)
      refine ⟨k + 1, tail, ?_, hnext⟩
      have hlen : (encode json).length = json.length + 1 := by rw [encode, length_append]; rfl
      rw [take_append, take_of_length_le (by omega), htake, take_succ_cons,
        flatMap_cons, append_assoc]

/-- The frames that are accepted of some. -/
def accepted (frames : List (List UInt8)) : List (List UInt8) := frames.filter (Sendable ·)

theorem frames_exact (interrupts : Nat) (takes : Option Nat) (later : Nat → Nat × Option Nat)
    (frames : List (List UInt8)) :
    let w : Writer := ⟨[], interrupts, takes, later⟩
    let written := (writeAll w frames).2.written
    (w.Steady → (writeAll w frames).1 = frames.map sentCode ∧
      ∀ interrupts later calls, List.Forall₂ ReadFrame.Shows
        (readAll ⟨written.map some, interrupts, later⟩ calls)
        (outcomes (accepted frames) [] (calls.map fun call => call.1.1.length))) ∧
    (∀ n, ∃ k tail, (tail = [] ∨ ∃ json, (accepted frames)[k]? = some json ∧ tail <+: json) ∧
      written.take n = ((accepted frames).take k).flatMap encode ++ tail ∧
      ∀ interrupts later calls, List.Forall₂ ReadFrame.Shows
        (readAll ⟨(written.take n).map some, interrupts, later⟩ calls)
        (outcomes ((accepted frames).take k) tail (calls.map fun call => call.1.1.length))) ∧
    ∀ (r : Reader) (buf : Buffer) (outLen : Nat), (fdReadFrame r buf.1 outLen).1.status ≠ .ok →
      (fdReadFrame r buf.1 outLen).1.outLen = 0 ∧
        (fdReadFrame r buf.1 outLen).1.buf[0]? = some 0 := by
  intro w written
  have hnewline : ∀ json ∈ accepted frames, newline ∉ json := fun json h =>
    (of_decide_eq_true (mem_filter.mp h).2).2
  refine ⟨fun hsteady => ?_, fun n => ?_, fun r buf => readFrame_failed r buf.2⟩
  · obtain ⟨hcodes, hwritten⟩ := writeAll_steady hsteady frames
    refine ⟨hcodes, fun interrupts later calls => readAll_spec hnewline not_mem_nil ?_ calls⟩
    show written.map some = _
    rw [show written = [] ++ encodeAll frames from hwritten, append_nil]
    rfl
  · obtain ⟨m, hm⟩ := writeAll_spec w frames
    obtain ⟨k, tail, htake, htail⟩ := take_flatMap (accepted frames) (min n m)
    have hcut : written.take n = ((accepted frames).take k).flatMap encode ++ tail := by
      rw [← htake, show written = [] ++ (encodeAll frames).take m from hm, nil_append,
        take_take]
      rfl
    refine ⟨k, tail, htail, hcut, fun interrupts later calls => ?_⟩
    refine readAll_spec (fun json h => hnewline json (mem_of_mem_take h)) ?_ ?_ calls
    · obtain rfl | ⟨json, hjson, hfirst⟩ := htail
      · exact not_mem_nil
      · exact fun h => hnewline json (mem_of_getElem? hjson) (hfirst.subset h)
    · show (written.take n).map some = _
      rw [hcut]

/-- Two frames leave over interrupts and attempts of one byte. -/
theorem frames_exact_steady :
    (writeAll ⟨[], 1, some 2, fun _ => (1, some 1)⟩ [[0x7B, 0x7D], [], [0x5B, 0x5D]]).1 =
      [.ok, .einval, .ok] :=
  ((frames_exact 1 (some 2) (fun _ => (1, some 1)) _).1 ⟨rfl, fun _ => rfl⟩).1

end Jrpc89
