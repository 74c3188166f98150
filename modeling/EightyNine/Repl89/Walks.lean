import EightyNine.Repl89.Places

/-!
# librepl89: the walks

The three walks of the renderer take the steps of a pen (`Grid.step`): the drawing walk,
the walk of vertical movement, and the reflow of a drawing under its own width.
-/

namespace Repl89

open Library (forUp forUp_inv whileLoop)
open U89 (utf8Valid)

variable {u : Unicode} {v : View} {e : Edit} {m : Mode} {g : Grid} {p : List UInt8}
  {pos cursor i : Nat} {as : List (Nat × Atom)} {t : Track}

/-! ## Prompts -/

/-- The clusters of a prompt from `pos` on take `w` cells. -/
inductive Wide (u : Unicode) (p : List UInt8) : Nat → Nat → Prop
  | stop : Wide u p p.length 0
  | step {pos w : Nat} (hlt : pos < p.length) (hgt : pos < u.graphemeNext p pos)
      (hnext : Wide u p (u.graphemeNext p pos) w) :
      Wide u p pos (clusterWidth u p pos (u.graphemeNext p pos) + w)

theorem exists_wide (hu : u.Segments) (hp : utf8Valid p = true) (hle : pos ≤ p.length) :
    ∃ w, Wide u p pos w := by
  have hk : ∀ k pos, pos ≤ p.length → p.length - pos ≤ k → ∃ w, Wide u p pos w := by
    intro k
    induction k with
    | zero =>
      intro pos hle hk
      rw [show pos = p.length by omega]
      exact ⟨0, .stop⟩
    | succ k ih =>
      intro pos hle hk
      rcases Nat.lt_or_ge pos p.length with hlt | hge
      · have hgt := hu.next_gt _ _ hp hlt
        obtain ⟨w, hw⟩ := ih _ (next_le hu hp hlt) (by omega)
        exact ⟨_, .step hlt hgt hw⟩
      · rw [show pos = p.length by omega]
        exact ⟨0, .stop⟩
  exact hk _ pos hle (Nat.le_refl _)

theorem promptCols_loop {w : Nat} (h : Wide u p pos w) {col fuel : Nat}
    (hcol : col + w < 4294967296) (hf : p.length - pos < fuel) :
    whileLoop (fun st => st.1 < p.length) (fun st => some (promptStep u p st)) fuel (pos, col) =
      some (p.length, col + w) := by
  induction h generalizing col fuel with
  | stop =>
    cases fuel with
    | zero => omega
    | succ fuel => simp [whileLoop]
  | @step pos w hlt hgt _ ih =>
    cases fuel with
    | zero => omega
    | succ fuel =>
      have hround : promptStep u p (pos, col) =
          (u.graphemeNext p pos, col + clusterWidth u p pos (u.graphemeNext p pos)) := by
        simp only [promptStep, u32_eq (show col + clusterWidth u p pos (u.graphemeNext p pos) <
          4294967296 by omega)]
      rw [whileLoop, if_pos (by simpa using hlt), Option.bind_some, hround,
        ih (by omega) (by omega), Nat.add_assoc]

theorem promptCols_eq {w : Nat} (h : Wide u p 0 w) (hw : w < 4294967296) :
    promptCols u p = some w := by
  rw [promptCols, promptCols_loop h (by omega) (by omega)]
  simp

/-- The grid of a view. -/
def View.grid (u : Unicode) (v : View) : Grid where
  cols := v.cols
  tabWidth := v.tabWidth
  promptWidth := fun i => (promptCols u (v.promptFor i)).getD 0

/-- A terminal of two columns at least and as wide as each prompt, with tab stops. -/
structure View.Fits (u : Unicode) (v : View) : Prop where
  valid : ∀ i, utf8Valid (v.promptFor i) = true
  prompt : ∀ i w, Wide u (v.promptFor i) 0 w → w ≤ v.cols
  cols : 2 ≤ v.cols
  cols_lt : v.cols < 2147483648
  tab : 1 ≤ v.tabWidth
  tab_lt : v.tabWidth < 4294967296

section

variable (hu : u.Segments) (hv : v.Fits u)
include hu hv

theorem View.Fits.wide (i : Nat) :
    ∃ w, Wide u (v.promptFor i) 0 w ∧ w ≤ v.cols ∧ promptCols u (v.promptFor i) = some w ∧
      (v.grid u).promptWidth i = w := by
  obtain ⟨w, hw⟩ := exists_wide hu (hv.valid i) (Nat.zero_le _)
  have hle := hv.prompt i w hw
  have hlt := hv.cols_lt
  have hcols := promptCols_eq hw (by omega)
  refine ⟨w, hw, hle, hcols, ?_⟩
  show (promptCols u (v.promptFor i)).getD 0 = w
  rw [hcols]
  rfl

theorem View.Fits.grid : (v.grid u).Fits where
  cols := hv.cols
  cols_lt := hv.cols_lt
  tab := hv.tab
  tab_lt := hv.tab_lt
  prompt := fun i => by
    obtain ⟨w, -, hle, -, hw⟩ := hv.wide hu i
    rw [hw]
    exact hle

theorem View.Fits.promptCols (i : Nat) :
    Repl89.promptCols u (v.promptFor i) = some ((v.grid u).promptWidth i) := by
  obtain ⟨w, -, -, hcols, hw⟩ := hv.wide hu i
  rw [hw]
  exact hcols

end

/-! ## Loops over the clusters -/

/-- A loop whose rounds take the steps of the pen ends where the run of the pen ends. -/
theorem whileLoop_run {σ : Type} (cursor : Nat) (posOf : σ → Nat) (body : σ → Option σ)
    (R : σ → Track → Prop) {data : List UInt8} (hg : g.Fits)
    (hpos : ∀ s t, R s t → posOf s = t.pos)
    (hstep : ∀ s t, R s t → t.Ok g cursor → t.pos < data.length →
      ∃ s', body s = some s' ∧ R s' (g.step cursor t (u.graphemeNext data t.pos)
        (atomAt u data t.pos (u.graphemeNext data t.pos))))
    (h : Cut u data pos as) {s : σ} (hs : R s t) (ht : t.pos = pos) (hok : t.Ok g cursor)
    (fuel : Nat) (hf : data.length - pos < fuel) :
    ∃ s', whileLoop (fun s => posOf s < data.length) body fuel s = some s' ∧
      R s' (g.run cursor data.length t as) ∧ (g.run cursor data.length t as).Ok g cursor := by
  induction h generalizing s t fuel with
  | stop =>
    cases fuel with
    | zero => omega
    | succ fuel =>
      refine ⟨s, ?_, hs, hok⟩
      rw [whileLoop, if_neg (by simp [hpos s t hs, ht])]
  | @step pos as hlt hgt hnext ih =>
    cases fuel with
    | zero => omega
    | succ fuel =>
      subst ht
      obtain ⟨s', hbody, hs'⟩ := hstep s t hs hok hlt
      have hok' := hok.step hg (atomAt_narrow (u := u) data t.pos (u.graphemeNext data t.pos)) hgt
      obtain ⟨s'', hloop, hend, hokend⟩ := ih hs' rfl hok' fuel (by omega)
      refine ⟨s'', ?_, ?_, ?_⟩
      · rw [whileLoop, if_pos (by simpa [hpos s t hs] using hlt), hbody]
        exact hloop
      · rw [Grid.run, hnext.nextPos]
        exact hend
      · rw [Grid.run, hnext.nextPos]
        exact hokend

/-! ## Drawing -/

section

variable {d : Draw} {s : List UInt8}

@[simp] theorem drawEmit_fields : (drawEmit m d s).pos = d.pos ∧ (drawEmit m d s).row = d.row ∧
    (drawEmit m d s).col = d.col ∧ (drawEmit m d s).cursorRow = d.cursorRow ∧
    (drawEmit m d s).cursorCol = d.cursorCol ∧ (drawEmit m d s).cursorSeen = d.cursorSeen ∧
    (drawEmit m d s).lineStart = d.lineStart ∧ (drawEmit m d s).lineIndex = d.lineIndex := by
  unfold drawEmit
  split <;> simp

@[simp] theorem drawRowEnd_fields : (drawRowEnd m d).pos = d.pos ∧
    (drawRowEnd m d).cursorRow = d.cursorRow ∧ (drawRowEnd m d).cursorCol = d.cursorCol ∧
    (drawRowEnd m d).cursorSeen = d.cursorSeen ∧ (drawRowEnd m d).lineIndex = d.lineIndex := by
  unfold drawRowEnd
  split <;> simp

/-- The walk that a drawing is. -/
def Draw.track (d : Draw) : Track where
  pos := d.pos
  pen := ⟨d.row, d.col, d.lineStart, d.lineIndex⟩
  mark := if d.cursorSeen then some (d.cursorRow, d.cursorCol) else none

@[simp] theorem drawSpaces_fields (n : Nat) : (drawSpaces m d n).pos = d.pos ∧
    (drawSpaces m d n).row = d.row ∧ (drawSpaces m d n).col = d.col ∧
    (drawSpaces m d n).cursorRow = d.cursorRow ∧ (drawSpaces m d n).cursorCol = d.cursorCol ∧
    (drawSpaces m d n).cursorSeen = d.cursorSeen ∧ (drawSpaces m d n).lineStart = d.lineStart ∧
    (drawSpaces m d n).lineIndex = d.lineIndex := by
  refine forUp_inv (P := fun _ (d' : Draw) => d'.pos = d.pos ∧ d'.row = d.row ∧ d'.col = d.col ∧
    d'.cursorRow = d.cursorRow ∧ d'.cursorCol = d.cursorCol ∧ d'.cursorSeen = d.cursorSeen ∧
    d'.lineStart = d.lineStart ∧ d'.lineIndex = d.lineIndex) (Nat.zero_le n) (by simp) ?_
  intro i d' _ _ h
  simpa using h

/-- A mark at the pen `q`, or none. -/
def markAt (mark : Bool) (q : Pen) (old : Option (Nat × Nat)) : Option (Nat × Nat) :=
  if mark then some (q.row, q.col) else old

/-- The pen begins a line that it stands at the start of. -/
theorem drawBegin (hu : u.Segments) (hv : v.Fits u) (m : Mode) (d : Draw) :
    ∃ d', (if d.lineStart then drawPrompt u m v d else some d) = some d' ∧
      d'.track = { d.track with pen := (v.grid u).begin d.track.pen } := by
  cases hl : d.lineStart with
  | false => exact ⟨d, rfl, by simp [Draw.track, Grid.begin, hl]⟩
  | true =>
    refine ⟨_, by rw [if_pos rfl, drawPrompt, hv.promptCols hu]; rfl, ?_⟩
    simp [Draw.track, Grid.begin, hl]

theorem drawTab_track (u : Unicode) (d : Draw) (mark : Bool) : (drawTab m v d mark).track =
    ⟨d.pos, (v.grid u).after d.track.pen .tab,
      markAt mark ((v.grid u).place d.track.pen .tab) d.track.mark⟩ := by
  cases hf : needWrap d.col (tabAdvance d.col v.tabWidth) v.cols <;> cases mark <;>
    simp [drawTab, hf, drawWrapTab, drawNewline, markCursor, Draw.track, markAt,
      Grid.after, Grid.place, Grid.full, Grid.span, View.grid, Pen.wrap]

theorem drawCluster_track (d : Draw) (start stop : Nat) (mark : Bool) :
    (drawCluster u m v e d start stop mark).track =
      ⟨d.pos, (v.grid u).after d.track.pen (.cells (clusterWidth u e.data start stop)),
        markAt mark
          ((v.grid u).place d.track.pen (.cells (clusterWidth u e.data start stop)))
          d.track.mark⟩ := by
  cases hf : needWrap d.col (clusterWidth u e.data start stop) v.cols <;> cases mark <;>
    simp [drawCluster, hf, drawNewline, markCursor, Draw.track, markAt, Grid.after, Grid.place,
      Grid.full, Grid.span, View.grid, Pen.wrap]

theorem drawLf_track (u : Unicode) (d : Draw) (mark : Bool) :
    (drawLf m (if mark then markCursor d else d)).track =
      ⟨d.pos, (v.grid u).after d.track.pen .lf,
        markAt mark ((v.grid u).place d.track.pen .lf) d.track.mark⟩ := by
  cases mark <;>
    simp [drawLf, markCursor, Draw.track, markAt, Grid.after, Grid.place, Grid.full]

theorem drawStep_track (hu : u.Segments) (hv : v.Fits u) (m : Mode) (d : Draw) :
    ∃ d', drawStep u m v e d = some d' ∧
      d'.track = (v.grid u).step e.cursor d.track (u.graphemeNext e.data d.pos)
        (atomAt u e.data d.pos (u.graphemeNext e.data d.pos)) := by
  obtain ⟨b, hb, hbt⟩ := drawBegin hu hv m d
  have hpos : b.pos = d.pos := congrArg Track.pos hbt
  have hpen : b.track.pen = (v.grid u).begin d.track.pen := by rw [hbt]
  have hmark : b.track.mark = d.track.mark := by rw [hbt]
  have hset : ∀ (d' : Draw) n, ({ d' with pos := n } : Draw).track = { d'.track with pos := n } :=
    fun _ _ => rfl
  refine ⟨_, by rw [drawStep, hb]; rfl, ?_⟩
  rw [hset, hpos, Grid.step, atomAt]
  have hif : ∀ q : Pen, markAt (d.pos == e.cursor) q d.track.mark =
      if d.track.pos = e.cursor then some (q.row, q.col) else d.track.mark := by
    intro q
    by_cases h : d.pos = e.cursor <;> simp [markAt, Draw.track, h]
  split
  · rw [drawLf_track u, hpen, hmark, hif]
  · split
    · rw [drawTab_track u, hpen, hmark, hif]
    · rw [drawCluster_track, hpen, hmark, hif]

end

/-! ## Vertical movement -/

section

/-- The walk that a state of vertical movement is. -/
def VmoveState.track (s : VmoveState) : Track where
  pos := s.pos
  pen := ⟨s.row, s.col, s.lineStart, s.lineIndex⟩
  mark := if s.foundCursor then some (s.curRow, s.curCol) else none

theorem vmoveBegin (hu : u.Segments) (hv : v.Fits u) (s : VmoveState) :
    ∃ s', (if s.lineStart then vmoveLineStart u v s else some s) = some s' ∧
      s'.foundCursor = s.foundCursor ∧
      s'.track = { s.track with pen := (v.grid u).begin s.track.pen } := by
  cases hl : s.lineStart with
  | false => exact ⟨s, rfl, rfl, by simp [VmoveState.track, Grid.begin, hl]⟩
  | true =>
    refine ⟨_, by rw [if_pos rfl, vmoveLineStart, hv.promptCols hu]; rfl, ?_, ?_⟩
    · rfl
    · simp [VmoveState.track, Grid.begin, hl]

theorem vmoveTab_track (u : Unicode) (s : VmoveState) (mark : Bool) : (vmoveTab v s mark).track =
    ⟨s.pos, (v.grid u).after s.track.pen .tab,
      markAt mark ((v.grid u).place s.track.pen .tab) s.track.mark⟩ := by
  cases hf : needWrap s.col (tabAdvance s.col v.tabWidth) v.cols <;> cases mark <;>
    simp [vmoveTab, hf, vmoveWrapTab, vmoveWrap, vmoveMarkCursor, VmoveState.track, markAt,
      Grid.after, Grid.place, Grid.full, Grid.span, View.grid, Pen.wrap]

theorem vmoveCluster_track (s : VmoveState) (start stop : Nat) (mark : Bool) :
    (vmoveCluster u v e s start stop mark).track =
      ⟨s.pos, (v.grid u).after s.track.pen (.cells (clusterWidth u e.data start stop)),
        markAt mark
          ((v.grid u).place s.track.pen (.cells (clusterWidth u e.data start stop)))
          s.track.mark⟩ := by
  cases hf : needWrap s.col (clusterWidth u e.data start stop) v.cols <;> cases mark <;>
    simp [vmoveCluster, hf, vmoveWrap, vmoveMarkCursor, VmoveState.track, markAt, Grid.after,
      Grid.place, Grid.full, Grid.span, View.grid, Pen.wrap]

theorem vmoveLf_track (u : Unicode) (v : View) (s : VmoveState) (mark : Bool) :
    (vmoveLf (if mark then vmoveMarkCursor s else s)).track =
      ⟨s.pos, (v.grid u).after s.track.pen .lf,
        markAt mark ((v.grid u).place s.track.pen .lf) s.track.mark⟩ := by
  cases mark <;>
    simp [vmoveLf, vmoveMarkCursor, VmoveState.track, markAt, Grid.after, Grid.place, Grid.full]

/-- What a round of the walk does behind the start of the line, with a mark or without. -/
theorem vmoveDraw_track (u : Unicode) (v : View) (e : Edit) (s : VmoveState) (mark : Bool)
    (next : Nat) :
    ({ (if clusterIs s.pos next e.data 0x0A then vmoveLf (if mark then vmoveMarkCursor s else s)
        else if clusterIs s.pos next e.data 0x09 then vmoveTab v s mark
        else vmoveCluster u v e s s.pos next mark) with pos := next } : VmoveState).track =
      ⟨next, (v.grid u).after s.track.pen (atomAt u e.data s.pos next),
        markAt mark ((v.grid u).place s.track.pen (atomAt u e.data s.pos next))
          s.track.mark⟩ := by
  have hset : ∀ (s : VmoveState) n, ({ s with pos := n } : VmoveState).track =
      { s.track with pos := n } := fun _ _ => rfl
  rw [hset, atomAt]
  split
  · rw [vmoveLf_track u v]
  · split
    · rw [vmoveTab_track u]
    · rw [vmoveCluster_track]

/-- A round of the walk of vertical movement is a step of the pen. -/
theorem vmoveStep_track (hu : u.Segments) (hv : v.Fits u) (s : VmoveState)
    (hok : s.track.Ok (v.grid u) e.cursor) :
    ∃ s', vmoveStep u v e s = some s' ∧
      s'.track = (v.grid u).step e.cursor s.track (u.graphemeNext e.data s.pos)
        (atomAt u e.data s.pos (u.graphemeNext e.data s.pos)) := by
  obtain ⟨b, hb, hfound, hbt⟩ := vmoveBegin hu hv s
  have hpos : b.pos = s.pos := congrArg Track.pos hbt
  have hpen : b.track.pen = (v.grid u).begin s.track.pen := by rw [hbt]
  have hmark : b.track.mark = s.track.mark := by rw [hbt]
  refine ⟨_, by rw [vmoveStep, hb]; rfl, ?_⟩
  rw [vmoveDraw_track u v e b, hpos, hpen, hmark, Grid.step]
  congr 1
  by_cases h : s.pos = e.cursor
  · -- the cursor was not met before its offset
    have hnone : s.track.mark = none := by
      by_contra hsome
      have : e.cursor < s.pos := hok.mark hsome
      omega
    have hnot : b.foundCursor = false := by
      rw [hfound]
      by_contra hf
      simp [VmoveState.track, hf] at hnone
    simp [markAt, VmoveState.track, h, hnot]
  · simp [markAt, VmoveState.track, h]

end

/-! ## Reflow -/

section

/-- The walk that a reflow under the width of its drawing is. -/
structure ReflowWalk.Stands (v : View) (w : ReflowWalk) (t : Track) : Prop where
  cols : w.rs.cols = v.cols
  subrow : w.rs.subrow = 0
  col : w.oldCol = w.rs.col
  pos : w.pos = t.pos
  pen : t.pen = ⟨w.rs.baseRow, w.rs.col, w.lineStart, w.lineIndex⟩
  mark : t.mark = if w.cursorSeen then some (w.rs.cursorRow, w.rs.cursorCol) else none
  start : w.lineStart = true → w.rs.col = 0

variable {w : ReflowWalk}

theorem reflowAtom_fits {rs : ReflowState} {width : Nat} (hcols : rs.cols < 2147483648)
    (hle : rs.col + width ≤ rs.cols) (mark : Bool) : reflowAtom rs width mark =
      { (if mark then reflowMark rs else rs) with col := rs.col + width } := by
  have hu32 := u32_eq (show rs.col + width < 4294967296 by omega)
  cases mark <;> simp [reflowAtom, hu32, Nat.not_lt.mpr hle, reflowMark]

theorem rwAtom_fits {width : Nat} (hcols : w.rs.cols < 2147483648) (hcol : w.oldCol = w.rs.col)
    (hle : w.rs.col + width ≤ w.rs.cols) (mark : Bool) : rwAtom w width mark =
      { w with
        rs := { (if mark then reflowMark w.rs else w.rs) with col := w.rs.col + width }
        oldCol := w.rs.col + width } := by
  rw [rwAtom, reflowAtom_fits hcols hle, hcol, u32_eq (by omega)]

theorem rwPromptRun_loop {w : ReflowWalk} {cells : Nat} (h : Wide u p pos cells)
    (hcols : w.rs.cols < 2147483648) (hcol : w.oldCol = w.rs.col)
    (hle : w.rs.col + cells ≤ w.rs.cols) {fuel : Nat} (hf : p.length - pos < fuel) :
    whileLoop (fun st => st.2 < p.length) (fun st => some (rwPromptOne u p st)) fuel (w, pos) =
      some ({ w with
        rs := { w.rs with col := w.rs.col + cells }, oldCol := w.rs.col + cells }, p.length) := by
  induction h generalizing w fuel with
  | stop =>
    cases fuel with
    | zero => omega
    | succ fuel =>
      rw [whileLoop, if_neg (by simp), Nat.add_zero]
      cases w
      simp_all
  | @step pos cells hlt hgt _ ih =>
    cases fuel with
    | zero => omega
    | succ fuel =>
      rw [whileLoop, if_pos (by simpa using hlt), Option.bind_some, rwPromptOne]
      dsimp only
      rw [rwAtom_fits hcols hcol (by omega)]
      rw [ih (by exact hcols) rfl (by show w.rs.col + _ + cells ≤ w.rs.cols; omega) (by omega)]
      simp [Nat.add_assoc]

theorem rwBegin (hu : u.Segments) (hv : v.Fits u) (hs : w.Stands v t) :
    ∃ w', (if w.lineStart then rwPrompt u v w else some w) = some w' ∧
      w'.cursorSeen = w.cursorSeen ∧
      w'.Stands v { t with pen := (v.grid u).begin t.pen } := by
  cases hl : w.lineStart with
  | false =>
    refine ⟨w, rfl, rfl, hs.cols, hs.subrow, hs.col, hs.pos, ?_, hs.mark, hs.start⟩
    rw [begin_of_begun _ (by rw [hs.pen]; exact hl)]
    exact hs.pen
  | true =>
    obtain ⟨cells, hwide, hle, -, hw⟩ := hv.wide hu w.lineIndex
    have h0 := hs.start hl
    have hlt := hv.cols_lt
    have hrun : rwPromptRun u w (v.promptFor w.lineIndex) =
        some { w with
          rs := { w.rs with col := w.rs.col + cells }, oldCol := w.rs.col + cells } := by
      rw [rwPromptRun, rwPromptRun_loop hwide (by rw [hs.cols]; exact hlt) hs.col
        (by rw [hs.cols, h0]; omega) (by omega)]
      rfl
    refine ⟨_, by rw [if_pos rfl, rwPrompt, hrun]; rfl, ?_, ?_⟩
    · rfl
    · refine ⟨hs.cols, hs.subrow, rfl, hs.pos, ?_, hs.mark, fun h => (by cases h)⟩
      simp [Grid.begin, hs.pen, hl, h0, hw]

theorem rwTakeMark_eq (hs : w.Stands v t) (hok : t.Ok g e.cursor) :
    rwTakeMark e w =
      ({ w with cursorSeen := w.cursorSeen || w.pos == e.cursor }, w.pos == e.cursor) := by
  unfold rwTakeMark
  cases hseen : w.cursorSeen with
  | true =>
    have hlt : e.cursor < w.pos := by
      rw [hs.pos]
      exact hok.mark (by rw [hs.mark, hseen]; simp)
    have hne : (w.pos == e.cursor) = false := by simpa using Nat.ne_of_gt hlt
    cases w
    simp_all
  | false =>
    by_cases hpos : w.pos = e.cursor
    · simp [hpos]
    · cases w
      simp_all

theorem rwSpaces_fits {n : Nat} (hn : 0 < n) (hcols : w.rs.cols < 2147483648)
    (hcol : w.oldCol = w.rs.col) (hle : w.rs.col + n ≤ w.rs.cols) (mark : Bool) :
    rwSpaces w n mark =
      { w with
        rs := { (if mark then reflowMark w.rs else w.rs) with col := w.rs.col + n }
        oldCol := w.rs.col + n } := by
  have hcols' : (if mark then reflowMark w.rs else w.rs).cols = w.rs.cols := by
    cases mark <;> rfl
  rw [rwSpaces, if_pos hn, rwAtom_fits hcols hcol (by omega)]
  refine forUp_inv (P := fun i (w' : ReflowWalk) => w' =
    { w with
      rs := { (if mark then reflowMark w.rs else w.rs) with col := w.rs.col + i }
      oldCol := w.rs.col + i }) (Nat.succ_le_of_lt hn) rfl ?_
  rintro i w' - hi rfl
  rw [rwAtom_fits (by rw [hcols']; exact hcols) rfl (by
    show w.rs.col + i + 1 ≤ _
    rw [hcols']
    omega)]
  rfl

theorem ReflowWalk.Stands.fit (hs : w.Stands v t) (hbegun : w.lineStart = false) (a : Atom) :
    ReflowWalk.Stands v (if (v.grid u).full t.pen a then rwWrap w else w)
      { t with pen := (v.grid u).place t.pen a } := by
  cases hf : (v.grid u).full t.pen a with
  | false =>
    rw [place_of_fits hf]
    exact hs
  | true =>
    rw [place_of_full hf]
    refine ⟨hs.cols, rfl, rfl, hs.pos, ?_, hs.mark, fun _ => rfl⟩
    simp [Pen.wrap, hs.pen, rwWrap, reflowRowEnd, hs.subrow, hbegun]

/-- The walk with the mark at its pen, and `n` cells further on. -/
theorem ReflowWalk.Stands.advance (hs : w.Stands v t) (hok : t.Ok (v.grid u) e.cursor)
    (hbegun : w.lineStart = false) (n : Nat) (mark : Bool) :
    ReflowWalk.Stands v
      { w with
        rs := { (if mark then reflowMark w.rs else w.rs) with col := w.rs.col + n }
        oldCol := w.rs.col + n
        cursorSeen := w.cursorSeen || mark }
      ⟨t.pos, { t.pen with col := t.pen.col + n }, markAt mark t.pen t.mark⟩ := by
  have hrow : w.rs.baseRow < 4294967296 := by
    have := hok.on.row
    rw [hs.pen] at this
    exact this
  cases mark with
  | false =>
    exact ⟨hs.cols, hs.subrow, rfl, hs.pos, by simp [hs.pen], by simp [markAt, hs.mark],
      fun h => by rw [hbegun] at h; cases h⟩
  | true =>
    refine ⟨hs.cols, hs.subrow, rfl, hs.pos, by simp [hs.pen, reflowMark], ?_,
      fun h => by rw [hbegun] at h; cases h⟩
    simp [markAt, hs.pen, reflowMark, hs.subrow, u32_eq hrow]

theorem ReflowWalk.Stands.setPos (hs : w.Stands v t) (n : Nat) :
    ReflowWalk.Stands v { w with pos := n } { t with pos := n } :=
  ⟨hs.cols, hs.subrow, hs.col, rfl, hs.pen, hs.mark, hs.start⟩

theorem rwLf_stands (hs : w.Stands v t) (hok : t.Ok (v.grid u) e.cursor) : (rwLf e w).Stands v
    ⟨t.pos, (v.grid u).after t.pen .lf,
      markAt (w.pos == e.cursor) ((v.grid u).place t.pen .lf) t.mark⟩ := by
  have hrow : w.rs.baseRow < 4294967296 := by
    have := hok.on.row
    rw [hs.pen] at this
    exact this
  have hcode : rwLf e w =
      { rwWrap (if w.pos == e.cursor then { w with rs := reflowMark w.rs } else w) with
        lineStart := true
        lineIndex := w.lineIndex + 1
        cursorSeen := w.cursorSeen || w.pos == e.cursor } := by
    rw [rwLf, rwTakeMark_eq hs hok]
    by_cases hc : w.pos = e.cursor <;> simp [hc, rwWrap]
  rw [hcode]
  cases hc : w.pos == e.cursor with
  | true =>
    refine ⟨hs.cols, rfl, rfl, hs.pos, ?_, ?_, fun _ => rfl⟩
    · simp [Grid.after, hs.pen, rwWrap, reflowRowEnd, reflowMark, hs.subrow]
    · simp [Grid.place, Grid.full, markAt, hs.pen, rwWrap, reflowRowEnd, reflowMark, hs.subrow,
        u32_eq hrow]
  | false =>
    refine ⟨hs.cols, rfl, rfl, hs.pos, ?_, ?_, fun _ => rfl⟩
    · simp [Grid.after, hs.pen, rwWrap, reflowRowEnd, hs.subrow]
    · simp [markAt, hs.mark, rwWrap, reflowRowEnd]

theorem rwTakeMark_frame (e : Edit) (w : ReflowWalk) :
    (rwTakeMark e w).1 = { w with cursorSeen := (rwTakeMark e w).1.cursorSeen } := by
  unfold rwTakeMark
  split
  · rfl
  · split <;> rfl

section

variable (hu : u.Segments) (hv : v.Fits u) (hs : w.Stands v t)
  (hok : t.Ok (v.grid u) e.cursor) (hbegun : w.lineStart = false)
include hu hv hs hok hbegun

/-- The walk behind an atom, when it marked the cursor and went on by the cells of the atom. -/
theorem ReflowWalk.Stands.draw {a : Atom} (ha : a.Narrow) (hlf : a ≠ .lf) {w' w'' : ReflowWalk}
    (hw' : w' = if (v.grid u).full t.pen a then rwWrap w else w)
    (hw'' : 0 < (v.grid u).took t.pen a ∨ a ≠ .tab →
      w'.rs.cols < 2147483648 → w'.oldCol = w'.rs.col →
      w'.rs.col + (v.grid u).took t.pen a ≤ w'.rs.cols →
      w'' = { w' with
        rs := { (if (rwTakeMark e w').2 then reflowMark w'.rs else w'.rs) with
          col := w'.rs.col + (v.grid u).took t.pen a }
        oldCol := w'.rs.col + (v.grid u).took t.pen a
        cursorSeen := (rwTakeMark e w').1.cursorSeen }) :
    w''.Stands v ⟨t.pos, (v.grid u).after t.pen a,
      markAt (w.pos == e.cursor) ((v.grid u).place t.pen a) t.mark⟩ := by
  have hg := hv.grid hu
  have hle := place_took hg hok.on ha
  have hfit := hs.fit (u := u) hbegun a
  rw [← hw'] at hfit
  have hok' : Track.Ok (v.grid u) e.cursor { t with pen := (v.grid u).place t.pen a } :=
    ⟨place_on hok.on, hok.mark⟩
  have hpos : w'.pos = w.pos := by
    rw [hw']
    split <;> rfl
  have hbegun' : w'.lineStart = false := by
    rw [hw']
    split <;> exact hbegun
  have hcol : w'.rs.col = ((v.grid u).place t.pen a).col := by
    have := hfit.pen
    dsimp only at this
    rw [this]
  have htook : 0 < (v.grid u).took t.pen a ∨ a ≠ .tab := by
    cases a with
    | tab =>
      left
      rw [Grid.took]
      split
      · have := hg.tab
        have := hg.cols
        unfold tabAfterWrap
        split <;> omega
      · exact tabAdvance_pos hg _
    | _ => exact .inr (by simp)
  rw [hw'' htook (by rw [hfit.cols]; exact hv.cols_lt) hfit.col
    (by rw [hfit.cols, hcol]; exact hle), rwTakeMark_eq hfit hok', after_eq hg hok.on ha hlf,
    ← hpos]
  exact hfit.advance hok' hbegun' _ _

theorem rwTab_stands : (rwTab v e v.cols w).Stands v
    ⟨t.pos, (v.grid u).after t.pen .tab,
      markAt (w.pos == e.cursor) ((v.grid u).place t.pen .tab) t.mark⟩ := by
  refine hs.draw hu hv hok hbegun (a := .tab) trivial (by simp) rfl fun hn hcols hcol hle => ?_
  have hfull : (v.grid u).full t.pen .tab =
      decide (u32 (w.oldCol + tabAdvance w.oldCol v.tabWidth) > v.cols) := by
    simp [Grid.full, needWrap, Grid.span, View.grid, hs.pen, hs.col]
  have hspan : (v.grid u).span t.pen .tab = tabAdvance w.oldCol v.tabWidth := by
    simp [Grid.span, View.grid, hs.pen, hs.col]
  have hcode : rwTab v e v.cols w =
      rwSpaces (rwTakeMark e (if (v.grid u).full t.pen .tab then rwWrap w else w)).1
        ((v.grid u).took t.pen .tab)
        (rwTakeMark e (if (v.grid u).full t.pen .tab then rwWrap w else w)).2 := by
    rw [rwTab, Grid.took, hspan, hfull]
    by_cases h : u32 (w.oldCol + tabAdvance w.oldCol v.tabWidth) > v.cols <;>
      simp [h, rwWrapTab, View.grid]
  rw [hcode, rwTakeMark_frame]
  refine rwSpaces_fits ?_ ?_ ?_ ?_ _
  · exact hn.resolve_right (by simp)
  · exact hcols
  · exact hcol
  · exact hle

theorem rwCluster_stands (start stop : Nat) : (rwCluster u e v.cols w start stop).Stands v
    ⟨t.pos, (v.grid u).after t.pen (.cells (clusterWidth u e.data start stop)),
      markAt (w.pos == e.cursor)
        ((v.grid u).place t.pen (.cells (clusterWidth u e.data start stop))) t.mark⟩ := by
  refine hs.draw hu hv hok hbegun (a := .cells (clusterWidth u e.data start stop))
    (clusterWidth_le _ _ _) (by simp) rfl fun _ hcols hcol hle => ?_
  have hfull : (v.grid u).full t.pen (.cells (clusterWidth u e.data start stop)) =
      decide (u32 (w.oldCol + clusterWidth u e.data start stop) > v.cols) := by
    simp [Grid.full, needWrap, Grid.span, View.grid, hs.pen, hs.col]
  have hcode : rwCluster u e v.cols w start stop =
      rwAtom (rwTakeMark e (if (v.grid u).full t.pen
          (.cells (clusterWidth u e.data start stop)) then rwWrap w else w)).1
        (clusterWidth u e.data start stop)
        (rwTakeMark e (if (v.grid u).full t.pen
          (.cells (clusterWidth u e.data start stop)) then rwWrap w else w)).2 := by
    rw [rwCluster, hfull]
    simp
  rw [hcode, rwTakeMark_frame]
  refine rwAtom_fits ?_ ?_ ?_ _
  · exact hcols
  · exact hcol
  · exact hle

end

/-- A round of the reflow under the width of the drawing is a step of the pen. -/
theorem rwStep_stands (hu : u.Segments) (hv : v.Fits u) (hs : w.Stands v t)
    (hok : t.Ok (v.grid u) e.cursor) :
    ∃ w', rwStep u v e v.cols w = some w' ∧
      w'.Stands v ((v.grid u).step e.cursor t (u.graphemeNext e.data t.pos)
        (atomAt u e.data t.pos (u.graphemeNext e.data t.pos))) := by
  obtain ⟨b, hb, -, hbs⟩ := rwBegin hu hv hs
  have hok1 : Track.Ok (v.grid u) e.cursor { t with pen := (v.grid u).begin t.pen } :=
    ⟨hok.on.begin (hv.grid hu), hok.mark⟩
  have hbegun : b.lineStart = false := by
    have := congrArg Pen.fresh hbs.pen
    rw [begin_fresh] at this
    exact this.symm
  have hpos : b.pos = t.pos := hbs.pos
  have hif : ∀ q : Pen, markAt (b.pos == e.cursor) q t.mark =
      if t.pos = e.cursor then some (q.row, q.col) else t.mark := by
    intro q
    by_cases h : t.pos = e.cursor <;> simp [markAt, hpos, h]
  refine ⟨_, by rw [rwStep, hb]; rfl, ?_⟩
  rw [Grid.step, atomAt, hpos]
  split
  · have := (rwLf_stands hbs hok1).setPos (u.graphemeNext e.data t.pos)
    rw [hif] at this
    exact this
  · split
    · have := (rwTab_stands hu hv hbs hok1 hbegun).setPos (u.graphemeNext e.data t.pos)
      rw [hif] at this
      exact this
    · have := (rwCluster_stands hu hv hbs hok1 hbegun t.pos
        (u.graphemeNext e.data t.pos)).setPos (u.graphemeNext e.data t.pos)
      rw [hif] at this
      exact this

end

end Repl89
