import EightyNine.Repl89.Edit

/-!
# librepl89: layout

`src/repl89_render.c`: cluster widths, the drawing walk, vertical movement, the reflow
of a drawing under another width, and the repaints.  An `unsigned int` is a number below
`2 ^ 32`.  A prompt or a continuation prompt may be missing (`NULL`).  A walk that would
not end, for a segmentation that does not move on, is `none`.  Where a sink is given it
takes every byte.
-/

namespace Repl89

open Library (forUp whileLoop)
open U89 (utf8Decode)

/-- Arithmetic of `unsigned int`. -/
def u32 (n : Nat) : Nat := n % 4294967296

section

variable (u : Unicode)

/-! ## Widths of clusters -/

/-- `repl89_flags`. -/
structure Flags where
  base : Bool
  wide : Bool
  emoji : Bool

/-- `flags_of`. -/
def flagsOf (cp : Nat) : Flags :=
  if u.isMark cp then ⟨false, false, false⟩
  else if u.defaultIgnorable cp then ⟨false, false, false⟩
  else
    let eaw := u.eastAsianWidth cp
    ⟨true, eaw == .w || eaw == .f, u.isEmojiPresentation cp⟩

/-- `flags_add`. -/
def flagsAdd (acc f : Flags) : Flags :=
  ⟨acc.base || f.base, acc.wide || f.wide, acc.emoji || f.emoji⟩

/-- `width_of_flags`. -/
def widthOfFlags (f : Flags) : Nat :=
  if f.wide then 2
  else if f.emoji then 2
  else if f.base then 1
  else 0

/-- The loop of `repl89_cluster_width` over `width_step`.  A scalar has a byte at least, so
that one round for each byte is enough. -/
def widthLoop (s : List UInt8) : Nat → Nat → Flags → Flags
  | 0, _, acc => acc
  | k + 1, pos, acc =>
    match utf8Decode s pos with
    | .error _ => acc
    | .ok (cp, next) => widthLoop s k next (flagsAdd acc (flagsOf u cp))

/-- `repl89_cluster_width`. -/
def clusterWidth (s : List UInt8) (start stop : Nat) : Nat :=
  widthOfFlags (widthLoop u (s.take stop) (stop - start + 1) start ⟨false, false, false⟩)

/-! ## Prompts -/

/-- `prompt_step`, where a position is left. -/
def promptStep (p : List UInt8) (st : Nat × Nat) : Nat × Nat :=
  let next := u.graphemeNext p st.1
  (next, u32 (st.2 + clusterWidth u p st.1 next))

/-- `prompt_cols`. -/
def promptCols (p : List UInt8) : Option Nat :=
  (whileLoop (fun st => st.1 < p.length) (fun st => some (promptStep u p st))
    (p.length + 1) (0, 0)).map Prod.snd

/-- What a layout is given besides the editor. -/
structure View where
  prompt : Option (List UInt8)
  cont : Option (List UInt8)
  cols : Nat
  tabWidth : Nat

/-- `prompt_for`, `v_prompt` and `rw_prompt_text`. -/
def View.promptFor (v : View) (lineIndex : Nat) : List UInt8 :=
  (if lineIndex > 0 then v.cont else v.prompt).getD []

/-- `tab_advance`. -/
def tabAdvance (col tabWidth : Nat) : Nat :=
  if tabWidth = 0 then 0 else tabWidth - col % tabWidth

/-- `need_wrap`. -/
def needWrap (col w cols : Nat) : Bool := u32 (col + w) > cols

/-- `physical_col`. -/
def physicalCol (col cols : Nat) : Nat :=
  if cols = 0 then 0
  else if col ≥ cols then cols - 1
  else col

/-- `tab_after_wrap`. -/
def tabAfterWrap (tabWidth cols : Nat) : Nat :=
  if tabWidth > cols then cols else tabWidth

/-- `cluster_is`. -/
def clusterIs (start stop : Nat) (data : List UInt8) (c : UInt8) : Bool :=
  if stop - start ≠ 1 then false
  else if data.getD start 0 != c then false
  else true

/-- The digits that `%u` writes. -/
def digits (n : Nat) : List UInt8 := (Nat.toDigits 10 n).map fun c => UInt8.ofNat c.toNat

/-- The escape sequence `CSI n final`. -/
def csi (n : Nat) (final : UInt8) : List UInt8 := [0x1B, 0x5B] ++ digits n ++ [final]

/-- `\x1b[K`. -/
def eraseSuffix : List UInt8 := [0x1B, 0x5B, 0x4B]

/-- `\r\n`. -/
def crlf : List UInt8 := [0x0D, 0x0A]

/-! ## Drawing -/

/-- `repl89_draw`, with the bytes that the sink took. -/
structure Draw where
  pos : Nat
  row : Nat
  col : Nat
  cursorRow : Nat
  cursorCol : Nat
  cursorSeen : Bool
  lineStart : Bool
  lineIndex : Nat
  out : List UInt8

/-- `repl89_region`. -/
structure Region where
  cols : Nat
  rows : Nat
  cursorRow : Nat
  cursorCol : Nat
  endRow : Nat
  endCol : Nat
  deriving DecidableEq

/-- How a walk draws: into a sink or not, and over an old drawing or not. -/
structure Mode where
  sink : Bool
  repaint : Bool

section

variable (m : Mode) (v : View) (e : Edit)

/-- `draw_init`. -/
def drawInit : Draw where
  pos := 0
  row := 0
  col := 0
  cursorRow := 0
  cursorCol := 0
  cursorSeen := false
  lineStart := true
  lineIndex := 0
  out := []

/-- `draw_emit`. -/
def drawEmit (d : Draw) (p : List UInt8) : Draw :=
  if m.sink then { d with out := d.out ++ p } else d

/-- `draw_row_end`. -/
def drawRowEnd (d : Draw) : Draw :=
  drawEmit m (if m.repaint then drawEmit m d eraseSuffix else d) crlf

/-- `draw_newline`. -/
def drawNewline (d : Draw) : Draw :=
  { drawRowEnd m d with row := u32 (d.row + 1), col := 0, lineStart := false }

/-- `draw_spaces`. -/
def drawSpaces (d : Draw) (n : Nat) : Draw :=
  forUp 0 n (fun _ d => drawEmit m d [0x20]) d

/-- `mark_cursor`. -/
def markCursor (d : Draw) : Draw :=
  { d with cursorRow := d.row, cursorCol := d.col, cursorSeen := true }

/-- `draw_wrap_tab`. -/
def drawWrapTab (d : Draw) : Draw × Nat :=
  (drawNewline m d, tabAfterWrap v.tabWidth v.cols)

/-- `draw_tab`. -/
def drawTab (d : Draw) (mark : Bool) : Draw :=
  let adv := tabAdvance d.col v.tabWidth
  let (d, adv) := if needWrap d.col adv v.cols then drawWrapTab m v d else (d, adv)
  let d := if mark then markCursor d else d
  let d := drawSpaces m d adv
  { d with col := u32 (d.col + adv) }

/-- `draw_prompt`. -/
def drawPrompt (d : Draw) : Option Draw := do
  let p := v.promptFor d.lineIndex
  let col ← promptCols u p
  return { drawEmit m d p with col := col, lineStart := false }

/-- `draw_lf`. -/
def drawLf (d : Draw) : Draw :=
  { drawRowEnd m d with
    row := u32 (d.row + 1), col := 0, lineStart := true, lineIndex := d.lineIndex + 1 }

/-- `draw_cluster`. -/
def drawCluster (d : Draw) (start stop : Nat) (mark : Bool) : Draw :=
  let w := clusterWidth u e.data start stop
  let d := if needWrap d.col w v.cols then drawNewline m d else d
  let d := if mark then markCursor d else d
  let d := drawEmit m d ((e.data.take stop).drop start)
  { d with col := u32 (d.col + w) }

/-- `draw_step`, where a position is left. -/
def drawStep (d : Draw) : Option Draw := do
  let d ← (if d.lineStart then drawPrompt u m v d else some d)
  let start := d.pos
  let next := u.graphemeNext e.data start
  let mark := d.pos == e.cursor
  let d :=
    if clusterIs start next e.data 0x0A then drawLf m (if mark then markCursor d else d)
    else if clusterIs start next e.data 0x09 then drawTab m v d mark
    else drawCluster u m v e d start next mark
  return { d with pos := next }

/-- `draw_place_cursor`. -/
def drawPlaceCursor (d : Draw) (up : Nat) : Draw :=
  let d := if up > 0 then drawEmit m d (csi up 0x41) else d
  let d := drawEmit m d [0x0D]
  let col := physicalCol d.cursorCol v.cols
  if col > 0 then drawEmit m d (csi col 0x43) else d

/-- `draw_finish`. -/
def drawFinish (d : Draw) : Option (Draw × Region) := do
  let d ← (if d.lineStart then drawPrompt u m v d else some d)
  let d := if d.cursorSeen then d else markCursor d
  let up := u32 (d.row + 4294967296 - d.cursorRow)
  let d := if m.repaint then drawEmit m d eraseSuffix else drawPlaceCursor m v d up
  return (d, {
    cols := v.cols
    rows := u32 (d.row + 1)
    cursorRow := d.cursorRow
    cursorCol := d.cursorCol
    endRow := d.row
    endCol := d.col })

/-- `draw_run`: the bytes drawn and the region. -/
def drawRun : Option (List UInt8 × Region) := do
  let d ← whileLoop (fun d => d.pos < e.data.length) (drawStep u m v e) (e.data.length + 1)
    drawInit
  let (d, reg) ← drawFinish u m v d
  return (d.out, reg)

end

section

variable (v : View) (e : Edit)

/-- `repl89_render_draw`. -/
def renderDraw : Option (List UInt8 × Region) := drawRun u ⟨true, false⟩ v e

/-- `repl89_layout`. -/
def layout : Option Region := (drawRun u ⟨false, false⟩ v e).map Prod.snd

/-! ## Vertical movement -/

/-- `vmove_state`. -/
structure VmoveState where
  pos : Nat
  row : Nat
  col : Nat
  lineStart : Bool
  lineIndex : Nat
  foundCursor : Bool
  curRow : Nat
  curCol : Nat
  rows : Nat

/-- `vmove_target`. -/
structure VmoveTarget where
  row : Nat
  wantCol : Nat
  best : Nat
  bestCol : Nat
  bestDist : Nat
  found : Bool

/-- `vmove_init`. -/
def vmoveInit : VmoveState where
  pos := 0
  row := 0
  col := 0
  lineStart := true
  lineIndex := 0
  foundCursor := false
  curRow := 0
  curCol := 0
  rows := 0

/-- `vmove_line_start`. -/
def vmoveLineStart (s : VmoveState) : Option VmoveState := do
  let col ← promptCols u (v.promptFor s.lineIndex)
  return { s with col := col, lineStart := false }

/-- `vmove_mark_cursor`. -/
def vmoveMarkCursor (s : VmoveState) : VmoveState :=
  { s with curRow := s.row, curCol := s.col, foundCursor := true }

/-- `vmove_wrap`. -/
def vmoveWrap (s : VmoveState) : VmoveState :=
  { s with row := u32 (s.row + 1), col := 0, lineStart := false }

/-- `vmove_wrap_tab`. -/
def vmoveWrapTab (s : VmoveState) : VmoveState × Nat :=
  (vmoveWrap s, tabAfterWrap v.tabWidth v.cols)

/-- `vmove_tab`. -/
def vmoveTab (s : VmoveState) (mark : Bool) : VmoveState :=
  let adv := tabAdvance s.col v.tabWidth
  let (s, adv) := if needWrap s.col adv v.cols then vmoveWrapTab v s else (s, adv)
  let s := if mark then vmoveMarkCursor s else s
  { s with col := u32 (s.col + adv) }

/-- `vmove_lf`. -/
def vmoveLf (s : VmoveState) : VmoveState :=
  { s with row := u32 (s.row + 1), col := 0, lineStart := true, lineIndex := s.lineIndex + 1 }

/-- `vmove_cluster`. -/
def vmoveCluster (s : VmoveState) (start stop : Nat) (mark : Bool) : VmoveState :=
  let w := clusterWidth u e.data start stop
  let s := if needWrap s.col w v.cols then vmoveWrap s else s
  let s := if mark then vmoveMarkCursor s else s
  { s with col := u32 (s.col + w) }

/-- `vmove_step`, where a position is left. -/
def vmoveStep (s : VmoveState) : Option VmoveState := do
  let s ← (if s.lineStart then vmoveLineStart u v s else some s)
  let start := s.pos
  let next := u.graphemeNext e.data start
  let mark := s.pos == e.cursor && !s.foundCursor
  let s :=
    if clusterIs start next e.data 0x0A then vmoveLf (if mark then vmoveMarkCursor s else s)
    else if clusterIs start next e.data 0x09 then vmoveTab v s mark
    else vmoveCluster u v e s start next mark
  return { s with pos := next }

/-- `vmove_locate`. -/
def vmoveLocate : Option VmoveState := do
  let s ← whileLoop (fun s => s.pos < e.data.length) (vmoveStep u v e) (e.data.length + 1)
    vmoveInit
  let s ← (if s.foundCursor then some s else
    if s.lineStart then vmoveLineStart u v s else some s)
  let s := if s.foundCursor then s else vmoveMarkCursor s
  return { s with rows := u32 (s.row + 1) }

/-- `REPL89_WANT_CURSOR`. -/
def wantCursor : Nat := 4294967295

/-- `want_or_cursor`. -/
def wantOrCursor (want : Nat) (s : VmoveState) : Nat :=
  if want = wantCursor then s.curCol else want

/-- `col_dist`. -/
def colDist (a b : Nat) : Nat := if a > b then a - b else b - a

/-- `vmove_set_best`. -/
def vmoveSetBest (t : VmoveTarget) (off col dist : Nat) : VmoveTarget :=
  { t with best := off, bestCol := col, bestDist := dist, found := true }

/-- `vmove_consider`. -/
def vmoveConsider (t : VmoveTarget) (off col : Nat) : VmoveTarget :=
  let dist := colDist col t.wantCol
  if !t.found then vmoveSetBest t off col dist
  else if dist < t.bestDist then vmoveSetBest t off col dist
  else t

/-- `vmove_scan_step`, where a position is left; the flag says to go on. -/
def vmoveScanStep (st : Bool × VmoveState × VmoveTarget) :
    Option (Bool × VmoveState × VmoveTarget) := do
  let (_, s, t) := st
  if s.pos ≥ e.data.length then return (false, s, t)
  let s ← (if s.lineStart then vmoveLineStart u v s else some s)
  let t := if s.row = t.row then vmoveConsider t s.pos s.col else t
  let start := s.pos
  let next := u.graphemeNext e.data start
  let s :=
    if clusterIs start next e.data 0x0A then vmoveLf s
    else if clusterIs start next e.data 0x09 then vmoveTab v s false
    else vmoveCluster u v e s start next false
  let s := { s with pos := next }
  let t := if s.row = t.row then vmoveConsider t s.pos s.col else t
  return (!(s.row > t.row), s, t)

/-- The end of `vmove_scan`, behind its loop. -/
def vmoveScanEnd (s : VmoveState) (t : VmoveTarget) : Option VmoveTarget :=
  if s.row = t.row then do
    let s ← (if s.lineStart then vmoveLineStart u v s else some s)
    return vmoveConsider t s.pos s.col
  else some t

/-- `vmove_scan`. -/
def vmoveScan (t : VmoveTarget) : Option VmoveTarget := do
  let (_, s, t) ← whileLoop Prod.fst (vmoveScanStep u v e) (e.data.length + 2)
    (true, vmoveInit, t)
  vmoveScanEnd u v s t

/-- `repl89_vmove`; the target and its column, where the move is in range. -/
structure Vmove where
  curRow : Nat
  curCol : Nat
  rows : Nat
  target : Option (Nat × Nat)
  deriving DecidableEq

/-- `repl89_layout_vertical`. -/
def layoutVertical (direction : Int) (wantCol : Nat) : Option Vmove := do
  let s ← vmoveLocate u v e
  let want := wantOrCursor wantCol s
  let stay : Vmove := ⟨s.curRow, s.curCol, s.rows, none⟩
  let move (row : Nat) : Option Vmove := do
    let t ← vmoveScan u v e ⟨row, want, 0, 0, 0, false⟩
    return { stay with target := some (t.best, t.bestCol) }
  if direction < 0 then
    if s.curRow = 0 then return stay
    else move (s.curRow - 1)
  else
    if u32 (s.curRow + 1) ≥ s.rows then return stay
    else move (u32 (s.curRow + 1))

/-! ## Reflow -/

/-- `repl89_reflow_state`. -/
structure ReflowState where
  cols : Nat
  baseRow : Nat
  subrow : Nat
  col : Nat
  cursorRow : Nat
  cursorCol : Nat

/-- `repl89_reflow_walk`. -/
structure ReflowWalk where
  rs : ReflowState
  pos : Nat
  oldCol : Nat
  lineStart : Bool
  lineIndex : Nat
  cursorSeen : Bool

/-- `repl89_reflow`. -/
structure Reflow where
  rows : Nat
  cursorRow : Nat
  cursorCol : Nat

/-- `reflow_mark`. -/
def reflowMark (rs : ReflowState) : ReflowState :=
  { rs with cursorRow := u32 (rs.baseRow + rs.subrow), cursorCol := rs.col }

/-- `reflow_wrap`. -/
def reflowWrap (rs : ReflowState) : ReflowState :=
  { rs with subrow := u32 (rs.subrow + 1), col := 0 }

/-- `reflow_atom`. -/
def reflowAtom (rs : ReflowState) (width : Nat) (mark : Bool) : ReflowState :=
  let rs := if u32 (rs.col + width) > rs.cols then reflowWrap rs else rs
  let rs := if mark then reflowMark rs else rs
  { rs with col := u32 (rs.col + width) }

/-- `reflow_row_end`. -/
def reflowRowEnd (rs : ReflowState) : ReflowState :=
  { rs with baseRow := u32 (rs.baseRow + rs.subrow + 1), subrow := 0, col := 0 }

/-- `reflow_total`. -/
def reflowTotal (rs : ReflowState) : Nat := u32 (rs.baseRow + rs.subrow + 1)

/-- `rw_atom`. -/
def rwAtom (w : ReflowWalk) (width : Nat) (mark : Bool) : ReflowWalk :=
  { w with rs := reflowAtom w.rs width mark, oldCol := u32 (w.oldCol + width) }

/-- `rw_prompt_one`. -/
def rwPromptOne (p : List UInt8) (st : ReflowWalk × Nat) : ReflowWalk × Nat :=
  let next := u.graphemeNext p st.2
  (rwAtom st.1 (clusterWidth u p st.2 next) false, next)

/-- `rw_prompt_run`. -/
def rwPromptRun (w : ReflowWalk) (p : List UInt8) : Option ReflowWalk :=
  (whileLoop (fun st => st.2 < p.length) (fun st => some (rwPromptOne u p st)) (p.length + 1)
    (w, 0)).map Prod.fst

/-- `rw_prompt`. -/
def rwPrompt (w : ReflowWalk) : Option ReflowWalk := do
  let w ← rwPromptRun u w (v.promptFor w.lineIndex)
  return { w with lineStart := false }

/-- `rw_take_mark`. -/
def rwTakeMark (w : ReflowWalk) : ReflowWalk × Bool :=
  if w.cursorSeen then (w, false)
  else if w.pos ≠ e.cursor then (w, false)
  else ({ w with cursorSeen := true }, true)

/-- `rw_wrap`. -/
def rwWrap (w : ReflowWalk) : ReflowWalk :=
  { w with rs := reflowRowEnd w.rs, oldCol := 0 }

/-- `rw_lf`. -/
def rwLf (w : ReflowWalk) : ReflowWalk :=
  let (w, mark) := rwTakeMark e w
  let w := if mark then { w with rs := reflowMark w.rs } else w
  { rwWrap w with lineStart := true, lineIndex := w.lineIndex + 1 }

/-- `rw_spaces`. -/
def rwSpaces (w : ReflowWalk) (n : Nat) (mark : Bool) : ReflowWalk :=
  let w := if n > 0 then rwAtom w 1 mark else w
  forUp 1 n (fun _ w => rwAtom w 1 false) w

/-- `rw_wrap_tab`. -/
def rwWrapTab (oldCols : Nat) (w : ReflowWalk) : ReflowWalk × Nat :=
  (rwWrap w, tabAfterWrap v.tabWidth oldCols)

/-- `rw_tab`. -/
def rwTab (oldCols : Nat) (w : ReflowWalk) : ReflowWalk :=
  let adv := tabAdvance w.oldCol v.tabWidth
  let (w, adv) := if u32 (w.oldCol + adv) > oldCols then rwWrapTab v oldCols w else (w, adv)
  let (w, mark) := rwTakeMark e w
  rwSpaces w adv mark

/-- `rw_cluster`. -/
def rwCluster (oldCols : Nat) (w : ReflowWalk) (start stop : Nat) : ReflowWalk :=
  let width := clusterWidth u e.data start stop
  let w := if u32 (w.oldCol + width) > oldCols then rwWrap w else w
  let (w, mark) := rwTakeMark e w
  rwAtom w width mark

/-- `rw_step`. -/
def rwStep (oldCols : Nat) (w : ReflowWalk) : Option ReflowWalk := do
  let w ← (if w.lineStart then rwPrompt u v w else some w)
  let start := w.pos
  let next := u.graphemeNext e.data start
  let w :=
    if clusterIs start next e.data 0x0A then rwLf e w
    else if clusterIs start next e.data 0x09 then rwTab v e oldCols w
    else rwCluster u e oldCols w start next
  return { w with pos := next }

/-- `rw_run`. -/
def rwRun (oldCols : Nat) (w : ReflowWalk) : Option Reflow := do
  let w ← whileLoop (fun w => w.pos < e.data.length) (rwStep u v e oldCols)
    (e.data.length + 1) w
  let w ← (if w.lineStart then rwPrompt u v w else some w)
  let w := if w.cursorSeen then w else { w with rs := reflowMark w.rs }
  return ⟨reflowTotal w.rs, w.rs.cursorRow, w.rs.cursorCol⟩

/-- `repl89_layout_reflow`, with the new width in the view. -/
def layoutReflow (oldCols : Nat) : Option Reflow :=
  rwRun u v e oldCols {
    rs := ⟨v.cols, 0, 0, 0, 0, 0⟩
    pos := 0
    oldCol := 0
    lineStart := true
    lineIndex := 0
    cursorSeen := false }

end

end

end Repl89
