import EightyNine.Repl89.Walks

/-!
# librepl89: the row of a vertical move

The rows and the cursor that the three walks report are those of the pen.  The scan of
vertical movement considers the boundaries of its row, except the one where a row that
continues another begins, and also the one where its row ran full.
-/

namespace Repl89

open List

open Library (whileLoop)
open U89 (utf8Valid)

variable {u : Unicode} {v : View} {e : Edit} {m : Mode} {g : Grid} {pos i : Nat}
  {as : List (Nat × Atom)} {t : VmoveTarget} {p : Pen} {stop : Nat}

/-! ## What the walks report -/

@[simp] theorem drawPlaceCursor_fields (d : Draw) (up : Nat) :
    (drawPlaceCursor m v d up).row = d.row ∧ (drawPlaceCursor m v d up).col = d.col ∧
      (drawPlaceCursor m v d up).cursorRow = d.cursorRow ∧
      (drawPlaceCursor m v d up).cursorCol = d.cursorCol := by
  unfold drawPlaceCursor
  dsimp only
  split <;> split <;> simp

section

variable (hu : u.Segments) (hv : v.Fits u) (hd : utf8Valid e.data = true)
include hu hv

theorem drawFinish_ends (m : Mode) (d : Draw) :
    ∃ d' reg, drawFinish u m v d = some (d', reg) ∧
      (⟨reg.rows, reg.cursorRow, reg.cursorCol⟩ : Reflow) = (v.grid u).ends d.track := by
  obtain ⟨b, hb, hbt⟩ := drawBegin hu hv m d
  refine ⟨_, _, by rw [drawFinish, hb]; rfl, ?_⟩
  have hends : (v.grid u).ends d.track =
      ⟨u32 (b.row + 1), (b.track.mark.getD (b.row, b.col)).1,
        (b.track.mark.getD (b.row, b.col)).2⟩ := by
    have hpen : (v.grid u).begin d.track.pen = b.track.pen := by rw [hbt]
    have hmark : d.track.mark = b.track.mark := by rw [hbt]
    rw [Grid.ends, hpen, hmark]
    rfl
  rw [hends]
  cases hseen : b.cursorSeen <;> cases m.repaint <;> simp [hseen, Draw.track, markCursor]

include hd

theorem cut_run (cursor : Nat) :
    Cut u e.data 0 (atoms u e.data) ∧
      Track.Ok (v.grid u) cursor ⟨0, Pen.init, none⟩ ∧ (v.grid u).Fits :=
  ⟨cut_atoms hu hd, Track.init_ok _ _, hv.grid hu⟩

theorem drawRun_lay (m : Mode) :
    ∃ out reg, drawRun u m v e = some (out, reg) ∧
      (⟨reg.rows, reg.cursorRow, reg.cursorCol⟩ : Reflow) =
        (v.grid u).lay e.cursor e.data.length (atoms u e.data) := by
  obtain ⟨hcut, hok, hg⟩ := cut_run hu hv hd e.cursor
  obtain ⟨d, hloop, hd, -⟩ := whileLoop_run e.cursor Draw.pos
    (drawStep u m v e) (fun d t => d.track = t) hg
    (fun d t h => by rw [← h]; rfl)
    (fun d t h _ _ => by subst h; exact drawStep_track hu hv m d)
    hcut (s := drawInit) rfl rfl hok (e.data.length + 1) (by omega)
  obtain ⟨d', reg, hfinish, hends⟩ := drawFinish_ends hu hv m d
  rw [hd] at hends
  exact ⟨d'.out, reg, by rw [drawRun, hloop]; simp [hfinish], hends⟩

theorem layout_lay : ∃ reg, layout u v e = some reg ∧
    (⟨reg.rows, reg.cursorRow, reg.cursorCol⟩ : Reflow) =
      (v.grid u).lay e.cursor e.data.length (atoms u e.data) := by
  obtain ⟨out, reg, hrun, hlay⟩ := drawRun_lay hu hv hd ⟨false, false⟩
  exact ⟨reg, by rw [layout, hrun]; rfl, hlay⟩

theorem vmoveLocate_lay : ∃ s, vmoveLocate u v e = some s ∧
    (⟨s.rows, s.curRow, s.curCol⟩ : Reflow) =
      (v.grid u).lay e.cursor e.data.length (atoms u e.data) := by
  obtain ⟨hcut, hok, hg⟩ := cut_run hu hv hd e.cursor
  obtain ⟨s, hloop, hs, -⟩ := whileLoop_run e.cursor VmoveState.pos
    (vmoveStep u v e) (fun s t => s.track = t) hg
    (fun s t h => by rw [← h]; rfl)
    (fun s t h hok _ => by subst h; exact vmoveStep_track hu hv s hok)
    hcut (s := vmoveInit) rfl rfl hok (e.data.length + 1) (by omega)
  obtain ⟨b, hb, hfound, hbt⟩ := vmoveBegin hu hv s
  have hrun : s.track = (v.grid u).run e.cursor e.data.length ⟨0, Pen.init, none⟩
      (atoms u e.data) := hs
  rw [Grid.lay, ← hrun]
  have hpen : (v.grid u).begin s.track.pen = b.track.pen := by rw [hbt]
  rw [vmoveLocate, hloop]
  cases hf : s.foundCursor with
  | true =>
    refine ⟨_, by simp [hf]; rfl, ?_⟩
    have hmark : s.track.mark = some (s.curRow, s.curCol) := by simp [VmoveState.track, hf]
    rw [Grid.ends, hmark, begin_row]
    simp [hf, VmoveState.track]
  | false =>
    have hmark : s.track.mark = none := by simp [VmoveState.track, hf]
    refine ⟨_, by simp [hf, hb]; rfl, ?_⟩
    rw [Grid.ends, hmark, hpen]
    simp [hfound, hf, vmoveMarkCursor, VmoveState.track]

theorem layoutReflow_lay : ∃ rf, layoutReflow u v e v.cols = some rf ∧
    rf = (v.grid u).lay e.cursor e.data.length (atoms u e.data) := by
  obtain ⟨hcut, hok, hg⟩ := cut_run hu hv hd e.cursor
  obtain ⟨w, hloop, hw, hwok⟩ := whileLoop_run e.cursor ReflowWalk.pos
    (rwStep u v e v.cols) (fun w t => w.Stands v t) hg
    (fun w t h => h.pos)
    (fun w t h hok _ => rwStep_stands hu hv h hok)
    hcut (s := ⟨⟨v.cols, 0, 0, 0, 0, 0⟩, 0, 0, true, 0, false⟩)
    ⟨rfl, rfl, rfl, rfl, rfl, rfl, fun _ => rfl⟩ rfl hok (e.data.length + 1) (by omega)
  obtain ⟨b, hb, hseen, hbs⟩ := rwBegin hu hv hw
  refine ⟨_, by rw [layoutReflow, rwRun, hloop]; simp [hb]; rfl, ?_⟩
  have hrow : b.rs.baseRow < 4294967296 := by
    have h1 := hbs.pen
    have h2 := (hwok.on.begin hg).row
    dsimp only at h1
    rw [h1] at h2
    exact h2
  rw [Grid.lay, Grid.ends]
  have hpen := hbs.pen
  have hmark := hbs.mark
  dsimp only at hpen hmark
  rw [hpen, hmark]
  cases b.cursorSeen <;> simp [reflowTotal, hbs.subrow, reflowMark, u32_eq hrow]

end

/-! ## The scan -/

@[simp] theorem vmoveConsider_row (t : VmoveTarget) (off col : Nat) :
    (vmoveConsider t off col).row = t.row := by
  simp only [vmoveConsider]
  split
  · rfl
  · split <;> rfl

@[simp] theorem vmoveConsider_wantCol (t : VmoveTarget) (off col : Nat) :
    (vmoveConsider t off col).wantCol = t.wantCol := by
  simp only [vmoveConsider]
  split
  · rfl
  · split <;> rfl

/-- The loop of the scan reads the layout. -/
theorem vmoveScan_loop (hu : u.Segments) (hv : v.Fits u) (h : Cut u e.data pos as)
    {s : VmoveState} (hs : s.pos = pos) {fuel : Nat} (hf : e.data.length - pos + 1 < fuel) :
    ((whileLoop Prod.fst (vmoveScanStep u v e) fuel (true, s, t)).bind fun st =>
      vmoveScanEnd u v st.2.1 st.2.2) =
        some ((v.grid u).scan e.data.length s.track.pen as t) := by
  induction h generalizing s t fuel with
  | stop =>
    obtain ⟨k, rfl⟩ : ∃ k, fuel = k + 2 := ⟨fuel - 2, by omega⟩
    have hround : vmoveScanStep u v e (true, s, t) = some (false, s, t) := by
      simp [vmoveScanStep, hs]
    obtain ⟨b, hb, -, hbt⟩ := vmoveBegin hu hv s
    have hpos : b.pos = e.data.length := (congrArg Track.pos hbt).trans hs
    have hcol : b.col = ((v.grid u).begin s.track.pen).col := congrArg (·.pen.col) hbt
    rw [whileLoop, if_pos rfl, hround, Option.bind_some, whileLoop, if_neg (by simp),
      Option.bind_some, Grid.scan, vmoveScanEnd, hb, ← hcol, ← hpos]
    show _ = some (if s.row = t.row then _ else t)
    split <;> rfl
  | @step pos as hlt hgt hnext ih =>
    obtain ⟨k, rfl⟩ : ∃ k, fuel = k + 1 := ⟨fuel - 1, by omega⟩
    obtain ⟨b, hb, -, hbt⟩ := vmoveBegin hu hv s
    have hbpos : b.pos = pos := (congrArg Track.pos hbt).trans hs
    have hpen : b.track.pen = (v.grid u).begin s.track.pen := by rw [hbt]
    have hbrow : b.row = ((v.grid u).begin s.track.pen).row := congrArg (·.pen.row) hbt
    have hbcol : b.col = ((v.grid u).begin s.track.pen).col := congrArg (·.pen.col) hbt
    have hdraw := vmoveDraw_track u v e b false (u.graphemeNext e.data b.pos)
    rw [hbpos, hpen] at hdraw
    generalize hs' : ({ (if clusterIs pos (u.graphemeNext e.data pos) e.data 0x0A then
        vmoveLf (if false then vmoveMarkCursor b else b)
      else if clusterIs pos (u.graphemeNext e.data pos) e.data 0x09 then vmoveTab v b false
      else vmoveCluster u v e b pos (u.graphemeNext e.data pos) false) with
        pos := u.graphemeNext e.data pos } : VmoveState) = s' at hdraw
    have hround : vmoveScanStep u v e (true, s, t) =
        (let t' := if b.row = t.row then vmoveConsider t pos b.col else t
         let t' := if s'.row = t'.row then vmoveConsider t' s'.pos s'.col else t'
         some (!decide (s'.row > t'.row), s', t')) := by
      have hlt' : ¬ s.pos ≥ e.data.length := by omega
      simp [vmoveScanStep, hlt', hb, hbpos, ← hs']
    have hpos' : s'.pos = u.graphemeNext e.data pos := congrArg Track.pos hdraw
    have hpen' := congrArg Track.pen hdraw
    dsimp only at hpen'
    have hrow' : s'.row = _ := congrArg Pen.row hpen'
    have hcol' : s'.col = _ := congrArg Pen.col hpen'
    rw [whileLoop, if_pos rfl, hround, Grid.scan]
    dsimp only
    rw [Option.bind_some, hbrow, hbcol, hrow', hcol', hpos', hnext.nextPos]
    generalize (v.grid u).after ((v.grid u).begin s.track.pen)
      (atomAt u e.data pos (u.graphemeNext e.data pos)) = q at *
    generalize ht1 : (if ((v.grid u).begin s.track.pen).row = t.row then
      vmoveConsider t pos ((v.grid u).begin s.track.pen).col else t) = t1
    have hr1 : t1.row = t.row := by
      rw [← ht1]
      split <;> simp
    rw [hr1]
    generalize ht2 : (if q.row = t.row then
      vmoveConsider t1 (u.graphemeNext e.data pos) q.col else t1) = t2
    have hr2 : t2.row = t.row := by
      rw [← ht2]
      split <;> simp [hr1]
    rw [hr2]
    by_cases hgo : q.row > t.row
    · obtain ⟨k', rfl⟩ : ∃ k', k = k' + 1 := ⟨k - 1, by omega⟩
      rw [if_pos hgo, whileLoop, if_neg (by simp [hgo]), Option.bind_some, vmoveScanEnd,
        if_neg (by show ¬ s'.row = t2.row; rw [hr2, hrow']; omega)]
    · have htrue : (!decide (q.row > t.row)) = true := by simpa using hgo
      rw [if_neg hgo, htrue, ih hpos' (by omega), hpen']

theorem vmoveScan_scan (hu : u.Segments) (hv : v.Fits u) (hd : utf8Valid e.data = true) :
    vmoveScan u v e t = some ((v.grid u).scan e.data.length Pen.init (atoms u e.data) t) :=
  vmoveScan_loop hu hv (cut_atoms hu hd) (s := vmoveInit) rfl (by omega)

/-! ## Candidates -/

/-- The boundaries of a list considered in order. -/
def considerAll (t : VmoveTarget) (xs : List (Nat × Nat)) : VmoveTarget :=
  xs.foldl (fun t x => vmoveConsider t x.1 x.2) t

@[simp] theorem considerAll_nil (t : VmoveTarget) : considerAll t [] = t := rfl

@[simp] theorem considerAll_cons (t : VmoveTarget) (x : Nat × Nat) (xs : List (Nat × Nat)) :
    considerAll t (x :: xs) = considerAll (vmoveConsider t x.1 x.2) xs := rfl

theorem vmoveConsider_twice (t : VmoveTarget) (off col : Nat) :
    vmoveConsider (vmoveConsider t off col) off col = vmoveConsider t off col := by
  cases hf : t.found with
  | false => simp [vmoveConsider, vmoveSetBest, hf]
  | true =>
    by_cases hlt : colDist col t.wantCol < t.bestDist
    · simp [vmoveConsider, vmoveSetBest, hf, hlt]
    · simp [vmoveConsider, hf, hlt]

/-- A target that is the first nearest of a list. -/
structure Nearest (want : Nat) (xs : List (Nat × Nat)) (t : VmoveTarget) : Prop where
  found : t.found = true
  dist : t.bestDist = colDist t.bestCol want
  split : ∃ ys zs, xs = ys ++ (t.best, t.bestCol) :: zs ∧
    (∀ y ∈ ys, colDist t.bestCol want < colDist y.2 want) ∧
    ∀ z ∈ zs, colDist t.bestCol want ≤ colDist z.2 want

theorem considerAll_nearest (ht : t.found = false) {x : Nat × Nat} (xs : List (Nat × Nat)) :
    Nearest t.wantCol (x :: xs) (considerAll t (x :: xs)) ∧
      (considerAll t (x :: xs)).wantCol = t.wantCol := by
  induction xs using reverseRecOn with
  | nil =>
    refine ⟨⟨?_, ?_, [], [], ?_, by simp, by simp⟩, by simp⟩
    · simp [vmoveConsider, vmoveSetBest, ht]
    · simp [vmoveConsider, vmoveSetBest, ht]
    · simp [vmoveConsider, vmoveSetBest, ht]
  | append_singleton xs y ih =>
    obtain ⟨⟨hfound, hdist, ys, zs, hxs, hys, hzs⟩, hwant⟩ := ih
    have hsnoc : considerAll t (x :: (xs ++ [y])) =
        vmoveConsider (considerAll t (x :: xs)) y.1 y.2 := by
      rw [considerAll, ← cons_append, foldl_append]
      rfl
    rw [hsnoc]
    refine ⟨?_, by rw [vmoveConsider_wantCol, hwant]⟩
    generalize considerAll t (x :: xs) = r at *
    by_cases hlt : colDist y.2 r.wantCol < r.bestDist
    · have hnew : vmoveConsider r y.1 y.2 = vmoveSetBest r y.1 y.2 (colDist y.2 r.wantCol) := by
        simp [vmoveConsider, hfound, hlt]
      rw [hnew]
      rw [hwant] at hlt ⊢
      refine ⟨rfl, rfl, x :: xs, [], by simp [vmoveSetBest], fun z hz => ?_, by simp⟩
      show colDist y.2 t.wantCol < _
      rw [hdist] at hlt
      rw [hxs] at hz
      rcases mem_append.mp hz with hz | hz
      · exact Nat.lt_trans hlt (hys z hz)
      · rcases mem_cons.mp hz with rfl | hz
        · exact hlt
        · exact Nat.lt_of_lt_of_le hlt (hzs z hz)
    · have hold : vmoveConsider r y.1 y.2 = r := by
        simp [vmoveConsider, hfound, hlt]
      rw [hold]
      rw [hwant, hdist] at hlt
      refine ⟨hfound, hdist, ys, zs ++ [y], ?_, hys, fun z hz => ?_⟩
      · rw [← cons_append, hxs]
        simp
      · rcases mem_append.mp hz with hz | hz
        · exact hzs z hz
        · rw [mem_singleton.mp hz]
          omega

/-! ## A row -/

/-- The boundaries of a row in order, with the one where it ran full. -/
def RowView.all (r : RowView) : List (Nat × Nat) := r.spots ++ r.softEnd.toList

section

variable (hg : g.Fits)

theorem rowFrom_head (g : Grid) (stop : Nat) (p : Pen) (as : List (Nat × Atom)) :
    ∃ xs, (g.rowFrom stop p as).1 ++ (g.rowFrom stop p as).2.toList =
      (Grid.nextPos stop as, p.col) :: xs := by
  cases as with
  | nil => exact ⟨[], rfl⟩
  | cons x as =>
    obtain ⟨pos, a⟩ := x
    rw [Grid.rowFrom]
    split
    · exact ⟨[], rfl⟩
    · split
      · exact ⟨[], rfl⟩
      · exact ⟨_, rfl⟩

/-- Considering the first boundary of a row in advance changes nothing. -/
theorem considerAll_head (g : Grid) (stop : Nat) (p : Pen) (as : List (Nat × Atom))
    (t : VmoveTarget) :
    considerAll (vmoveConsider t (Grid.nextPos stop as) p.col)
        ((g.rowFrom stop p as).1 ++ (g.rowFrom stop p as).2.toList) =
      considerAll t ((g.rowFrom stop p as).1 ++ (g.rowFrom stop p as).2.toList) := by
  obtain ⟨xs, hxs⟩ := rowFrom_head g stop p as
  rw [hxs, considerAll_cons, considerAll_cons, vmoveConsider_twice]

include hg

/-- On its row the scan considers every boundary and the end of a row that ran full. -/
theorem scan_row (has : ∀ x ∈ as, x.2.Narrow) (hp : p.On g) (hbegun : p.fresh = false)
    (hrow : p.row = t.row) (hlt : t.row + 1 < 4294967296) :
    g.scan stop p as t =
      considerAll t ((g.rowFrom stop p as).1 ++ (g.rowFrom stop p as).2.toList) := by
  induction as generalizing p t with
  | nil =>
    rw [Grid.scan, if_pos hrow, begin_of_begun g hbegun]
    rfl
  | cons x as ih =>
    obtain ⟨pos, a⟩ := x
    have ha : a.Narrow := has _ mem_cons_self
    have hnext : u32 (p.row + 1) = t.row + 1 := by rw [hrow, u32_eq (by omega)]
    rw [Grid.scan, Grid.rowFrom]
    dsimp only
    rw [begin_of_begun g hbegun, if_pos hrow]
    cases hf : g.full p a with
    | true =>
      have hq := (after_of_full hf).1
      rw [if_pos rfl, hq, hnext, if_pos (by omega), if_neg (by omega)]
      rfl
    | false =>
      rw [if_neg Bool.false_ne_true]
      by_cases hlf : a = .lf
      · subst hlf
        have hq : (g.after p .lf).row = t.row + 1 := hnext
        rw [if_pos rfl, hq, if_pos (by omega), if_neg (by omega)]
        rfl
      · obtain ⟨hqrow, hqfresh, -⟩ := after_of_fits hg hp hbegun ha hlf hf
        rw [if_neg hlf, hqrow, if_neg (by omega), if_pos hrow]
        rw [ih (fun x hx => has x (mem_cons_of_mem _ hx)) (after_on hg hp ha) hqfresh
          (by simpa [hqrow] using hrow) (by simpa using hlt), considerAll_head]
        rfl

omit hg in
/-- The row that the pen is on is the first with its number. -/
theorem findRow_here {row : Nat} (hrow : p.row = row) :
    g.findRow stop row p as = some (g.rowView stop none (g.begin p) as) := by
  cases as with
  | nil => rw [Grid.findRow, if_pos hrow]
  | cons x as => rw [Grid.findRow, begin_row, if_pos hrow]

omit hg in
theorem scan_begin (g : Grid) (stop : Nat) (p : Pen) (as : List (Nat × Atom)) (t : VmoveTarget) :
    g.scan stop (g.begin p) as t = g.scan stop p as t := by
  cases as with
  | nil => rw [Grid.scan, Grid.scan, begin_of_begun g (begin_fresh g p), begin_row]
  | cons x as => rw [Grid.scan, Grid.scan, begin_of_begun g (begin_fresh g p)]

/-- The scan considers the boundaries of the first row of its number.  Behind a line feed it
also considers the first one at column 0, before the prompt. -/
theorem scan_find {row : Nat} (htr : t.row = row) (has : ∀ x ∈ as, x.2.Narrow) (hp : p.On g)
    (hle : p.row ≤ row) (hlt : row + 1 < 4294967296) {r : RowView}
    (hr : g.findRow stop row p as = some r) :
    ∃ early, g.scan stop p as t = considerAll t (early ++ r.all) ∧
      (p.row = row → early = []) ∧
      (early = [] ∨ ∃ c col xs, early = [(c, 0)] ∧ r.all = (c, col) :: xs) := by
  induction as generalizing p t with
  | nil =>
    rw [Grid.findRow] at hr
    split at hr
    · rename_i hrow
      cases hr
      refine ⟨[], ?_, fun _ => rfl, .inl rfl⟩
      rw [Grid.scan, if_pos (hrow.trans htr.symm)]
      rfl
    · cases hr
  | cons x as ih =>
    obtain ⟨pos, a⟩ := x
    have ha : a.Narrow := has _ mem_cons_self
    have hb := hp.begin hg
    have has' : ∀ x ∈ as, x.2.Narrow := fun x hx => has x (mem_cons_of_mem _ hx)
    have hbegun := begin_fresh g p
    have hbrow := begin_row g p
    by_cases hrow : p.row = row
    · rw [findRow_here hrow] at hr
      cases hr
      refine ⟨[], ?_, fun _ => rfl, .inl rfl⟩
      rw [← scan_begin, scan_row hg has hb hbegun (by omega) (by omega)]
      rfl
    · rw [Grid.findRow, if_neg (by omega)] at hr
      have hsucc : u32 ((g.begin p).row + 1) = (g.begin p).row + 1 := u32_eq (by omega)
      have hon := after_on hg hb ha
      have hnot : ¬ (g.begin p).row = t.row := by omega
      rw [Grid.scan, if_neg hnot]
      cases hf : g.full (g.begin p) a with
      | true =>
        obtain ⟨hq, hqfresh⟩ := after_of_full hf
        rw [hsucc] at hq
        by_cases hqrow : (g.after (g.begin p) a).row = row
        · rw [if_pos ⟨hf, hqrow⟩] at hr
          cases hr
          refine ⟨[], ?_, fun h => absurd h hrow, .inl rfl⟩
          rw [if_neg (by omega), if_pos (by omega),
            scan_row hg has' hon hqfresh (by simp; omega) (by simp; omega), considerAll_head]
          rfl
        · rw [if_neg (fun h => hqrow h.2)] at hr
          rw [if_neg (by omega), if_neg (by omega)]
          obtain ⟨early, hscan, -, hearly⟩ := ih htr has' hon (by omega) hr
          exact ⟨early, hscan, fun h => absurd h hrow, hearly⟩
      | false =>
        rw [if_neg (by simp [hf])] at hr
        by_cases hlf : a = .lf
        · subst hlf
          have hq : (g.after (g.begin p) .lf).row = (g.begin p).row + 1 := hsucc
          have hqcol : (g.after (g.begin p) .lf).col = 0 := rfl
          generalize g.after (g.begin p) .lf = q at *
          by_cases hqrow : q.row = row
          · rw [if_neg (by omega), if_pos (by omega), hqcol]
            obtain ⟨early, hscan, hnil, -⟩ := ih (t := vmoveConsider t (Grid.nextPos stop as) 0)
              (by simpa using htr) has' hon (by omega) hr
            rw [hscan, hnil hqrow]
            -- the boundary behind the line feed, before its prompt
            rw [findRow_here hqrow] at hr
            cases hr
            obtain ⟨xs, hxs⟩ := rowFrom_head g stop (g.begin q) as
            exact ⟨[(Grid.nextPos stop as, 0)], rfl, fun h => absurd h hrow,
              .inr ⟨_, _, xs, rfl, hxs⟩⟩
          · rw [if_neg (by omega), if_neg (by omega)]
            obtain ⟨early, hscan, -, hearly⟩ := ih htr has' hon (by omega) hr
            exact ⟨early, hscan, fun h => absurd h hrow, hearly⟩
        · obtain ⟨hqrow, -, -⟩ := after_of_fits hg hb hbegun ha hlf hf
          rw [if_neg (by omega), if_neg (by omega)]
          obtain ⟨early, hscan, -, hearly⟩ := ih htr has' hon (by omega) hr
          exact ⟨early, hscan, fun h => absurd h hrow, hearly⟩

end

end Repl89
