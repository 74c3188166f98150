import EightyNine.Repl89.Rows
import EightyNine.Repl89.Clusters

/-!
# librepl89: vertical movement

The three walks agree.  A vertical move reaches the nearest boundary of its row unless the
nearest of what it considers is the boundary where the row ran full, which is laid out on the
row below, or the row continues the one above and its first boundary is nearer.
-/

namespace Repl89

open List Nat

open U89 (utf8Valid)

variable {u : Unicode} {v : View} {e : Edit} {g : Grid} {pos i row : Nat}
  {as : List (Nat × Atom)} {p : Pen} {stop : Nat} {r : RowView}

/-- The boundaries that are laid out on a row, with their places. -/
def RowView.own (r : RowView) (row : Nat) : List (Nat × Nat × Nat) :=
  r.softStart.toList.map (fun b => (b, row, 0)) ++ r.spots.map (fun x => (x.1, row, x.2))

section

variable (hg : g.Fits)
include hg

theorem rowFrom_sorted (has : ∀ x ∈ as, x.2.Narrow) (hp : p.On g) (hbegun : p.fresh = false) :
    ((g.rowFrom stop p as).1 ++ (g.rowFrom stop p as).2.toList).Pairwise
        (fun x y => x.2 ≤ y.2) ∧
      ∀ x ∈ (g.rowFrom stop p as).1 ++ (g.rowFrom stop p as).2.toList, p.col ≤ x.2 := by
  induction as generalizing p with
  | nil => simp [Grid.rowFrom]
  | cons x as ih =>
    obtain ⟨pos, a⟩ := x
    have ha : a.Narrow := has _ mem_cons_self
    rw [Grid.rowFrom]
    cases hf : g.full p a with
    | true => simp
    | false =>
      rw [if_neg Bool.false_ne_true]
      by_cases hlf : a = .lf
      · rw [if_pos hlf]
        simp
      · obtain ⟨-, hqfresh, hcol⟩ := after_of_fits hg hp hbegun ha hlf hf
        obtain ⟨hsorted, hge⟩ := ih (fun x hx => has x (mem_cons_of_mem _ hx))
          (after_on hg hp ha) hqfresh
        rw [if_neg hlf]
        refine ⟨pairwise_cons.mpr ⟨fun y hy => le_trans hcol (hge y hy), hsorted⟩, ?_⟩
        intro y hy
        rcases mem_cons.mp hy with rfl | hy
        · exact le_refl _
        · exact le_trans hcol (hge y hy)

/-- The boundaries of a row are laid out on it, before those that are left. -/
theorem places_row (has : ∀ x ∈ as, x.2.Narrow) (hp : p.On g) (hbegun : p.fresh = false) :
    g.places stop p as =
      (g.rowFrom stop p as).1.map (fun x => (x.1, p.row, x.2)) ++ g.behindRow stop p as := by
  induction as generalizing p with
  | nil => rw [Grid.places, begin_of_begun g hbegun, Grid.rowFrom, Grid.behindRow]; rfl
  | cons x as ih =>
    obtain ⟨pos, a⟩ := x
    have ha : a.Narrow := has _ mem_cons_self
    rw [Grid.rowFrom, Grid.behindRow]
    cases hf : g.full p a with
    | true => simp
    | false =>
      rw [if_neg Bool.false_ne_true, if_neg Bool.false_ne_true, Grid.places,
        begin_of_begun g hbegun, place_of_fits hf]
      by_cases hlf : a = .lf
      · rw [if_pos hlf, if_pos hlf]
        rfl
      · obtain ⟨hqrow, hqfresh, -⟩ := after_of_fits hg hp hbegun ha hlf hf
        rw [if_neg hlf, if_neg hlf, ih (fun x hx => has x (mem_cons_of_mem _ hx))
          (after_on hg hp ha) hqfresh, hqrow]
        rfl

/-- The boundary where a row ran full is laid out on the next one. -/
theorem softEnd_place (stop : Nat) (has : ∀ x ∈ as, x.2.Narrow) (hp : p.On g)
    (hbegun : p.fresh = false) :
    ∀ z ∈ (g.rowFrom stop p as).2, (z.1, u32 (p.row + 1), 0) ∈ g.behindRow stop p as := by
  induction as generalizing p with
  | nil => simp [Grid.rowFrom]
  | cons x as ih =>
    obtain ⟨pos, a⟩ := x
    have ha : a.Narrow := has _ mem_cons_self
    rw [Grid.rowFrom, Grid.behindRow]
    cases hf : g.full p a with
    | true =>
      intro z hz
      cases hz
      rw [if_pos rfl, Grid.places, begin_of_begun g hbegun, place_of_full hf]
      exact mem_cons_self
    | false =>
      rw [if_neg Bool.false_ne_true, if_neg Bool.false_ne_true]
      by_cases hlf : a = .lf
      · rw [if_pos hlf]
        simp
      · obtain ⟨hqrow, hqfresh, -⟩ := after_of_fits hg hp hbegun ha hlf hf
        rw [if_neg hlf, if_neg hlf, ← hqrow]
        exact ih (fun x hx => has x (mem_cons_of_mem _ hx)) (after_on hg hp ha) hqfresh

/-- What a view of a row is of its text: the rows before it have smaller numbers, and it has
its boundaries from left to right. -/
structure RowView.Views (g : Grid) (stop row : Nat) (p : Pen) (as : List (Nat × Atom))
    (r : RowView) : Prop where
  split : ∃ before, g.places stop p as = before ++ (r.own row ++ r.rest) ∧
    ∀ x ∈ before, x.2.1 < row
  sorted : r.all.Pairwise (fun x y => x.2 ≤ y.2)
  softEnd : ∀ z ∈ r.softEnd, (z.1, u32 (row + 1), 0) ∈ r.rest

/-- A row that is found is seen as it is laid out. -/
theorem findRow_views (has : ∀ x ∈ as, x.2.Narrow) (hp : p.On g) (hle : p.row ≤ row)
    (hlt : row + 1 < 4294967296) (hr : g.findRow stop row p as = some r) :
    r.Views g stop row p as := by
  induction as generalizing p with
  | nil =>
    rw [Grid.findRow] at hr
    split at hr
    · rename_i hrow
      cases hr
      refine ⟨⟨[], ?_, by simp⟩, by simp [Grid.rowView, Grid.rowFrom, RowView.all],
        by simp [Grid.rowView, Grid.rowFrom]⟩
      rw [Grid.places, begin_row, hrow]
      rfl
    · cases hr
  | cons x as ih =>
    obtain ⟨pos, a⟩ := x
    have ha : a.Narrow := has _ mem_cons_self
    have hb := hp.begin hg
    have has' : ∀ x ∈ as, x.2.Narrow := fun x hx => has x (mem_cons_of_mem _ hx)
    have hbegun := begin_fresh g p
    have hbrow := begin_row g p
    by_cases hrow : p.row = row
    · rw [findRow_here hrow] at hr
      cases hr
      have hplaces : g.places stop p ((pos, a) :: as) =
          g.places stop (g.begin p) ((pos, a) :: as) := by
        rw [Grid.places, Grid.places, begin_of_begun g hbegun]
      refine ⟨⟨[], ?_, by simp⟩, (rowFrom_sorted hg has hb hbegun).1, ?_⟩
      · rw [hplaces, places_row hg has hb hbegun, begin_row, hrow]
        rfl
      · have hend := softEnd_place hg stop has hb hbegun
        rw [begin_row, hrow] at hend
        exact hend
    · rw [Grid.findRow, if_neg (by omega)] at hr
      have hsucc : u32 ((g.begin p).row + 1) = (g.begin p).row + 1 := u32_eq (by omega)
      have hon := after_on hg hb ha
      have hplaces : g.places stop p ((pos, a) :: as) =
          (pos, (g.place (g.begin p) a).row, (g.place (g.begin p) a).col) ::
            g.places stop (g.after (g.begin p) a) as := by
        rw [Grid.places]
      -- a row that does not begin here leaves its boundary behind
      have hlater (hq : (g.after (g.begin p) a).row ≤ row)
          (hplace : (g.place (g.begin p) a).row < row)
          (hr : g.findRow stop row (g.after (g.begin p) a) as = some r) :
          r.Views g stop row p ((pos, a) :: as) := by
        obtain ⟨⟨before, hsplit, hbefore⟩, hsorted, hend⟩ := ih has' hon hq hr
        refine ⟨⟨(pos, (g.place (g.begin p) a).row, (g.place (g.begin p) a).col) :: before,
          by rw [hplaces, hsplit]; rfl, ?_⟩, hsorted, hend⟩
        intro x hx
        rcases mem_cons.mp hx with rfl | hx
        · exact hplace
        · exact hbefore x hx
      cases hf : g.full (g.begin p) a with
      | true =>
        obtain ⟨hq, hqfresh⟩ := after_of_full hf
        have hplace : (g.place (g.begin p) a).row = (g.begin p).row + 1 := by
          rw [place_of_full hf, ← hsucc]
          rfl
        rw [hsucc] at hq
        by_cases hqrow : (g.after (g.begin p) a).row = row
        · rw [if_pos ⟨hf, hqrow⟩] at hr
          cases hr
          refine ⟨⟨[], ?_, by simp⟩, (rowFrom_sorted hg has' hon hqfresh).1, ?_⟩
          · rw [hplaces, places_row hg has' hon hqfresh, hplace, ← hq, hqrow, place_of_full hf]
            rfl
          · have hend := softEnd_place hg stop has' hon hqfresh
            rw [hqrow] at hend
            exact hend
        · rw [if_neg (fun h => hqrow h.2)] at hr
          exact hlater (by omega) (by omega) hr
      | false =>
        rw [if_neg (by simp [hf])] at hr
        have hplace : (g.place (g.begin p) a).row = (g.begin p).row := by
          rw [place_of_fits hf]
        by_cases hlf : a = .lf
        · have hq : (g.after (g.begin p) a).row = (g.begin p).row + 1 := by
            rw [hlf]
            exact hsucc
          exact hlater (by omega) (by omega) hr
        · obtain ⟨hq, -, -⟩ := after_of_fits hg hb hbegun ha hlf hf
          exact hlater (by omega) (by omega) hr

omit hg in
theorem findRow_none (h : g.findRow stop row p as = none) :
    ∀ x ∈ g.places stop p as, x.2.1 ≠ row := by
  induction as generalizing p with
  | nil =>
    rw [Grid.findRow] at h
    split at h
    · cases h
    · rename_i hrow
      intro x hx
      rw [Grid.places, mem_singleton] at hx
      rw [hx]
      simpa using hrow
  | cons x as ih =>
    obtain ⟨pos, a⟩ := x
    rw [Grid.findRow] at h
    by_cases hrow : (g.begin p).row = row
    · rw [if_pos hrow] at h
      cases h
    · rw [if_neg hrow] at h
      by_cases hfull : g.full (g.begin p) a = true ∧ (g.after (g.begin p) a).row = row
      · rw [if_pos hfull] at h
        cases h
      · rw [if_neg hfull] at h
        intro x hx
        rw [Grid.places, mem_cons] at hx
        rcases hx with rfl | hx
        · cases hf : g.full (g.begin p) a with
          | true =>
            rw [place_of_full hf]
            intro hwrap
            exact hfull ⟨hf, by rw [(after_of_full hf).1]; exact hwrap⟩
          | false =>
            rw [place_of_fits hf]
            exact hrow
        · exact ih h x hx

end

/-! ## The target of a move -/

/-- The row that a move goes to, for the row of the cursor. -/
def adjacentRow (direction : Int) (row : Nat) : Nat :=
  if direction < 0 then row - 1 else u32 (row + 1)

/-- The row that a move goes to, where there is one. -/
def neighbour (direction : Int) (lay : Reflow) : Option Nat :=
  if direction < 0 then if lay.cursorRow = 0 then none else some (lay.cursorRow - 1)
  else if u32 (lay.cursorRow + 1) ≥ lay.rows then none
  else some (u32 (lay.cursorRow + 1))

/-- The column that a move wants. -/
def wanted (want cursorCol : Nat) : Nat := if want = wantCursor then cursorCol else want

/-- A row on which the nearest of the boundaries that are considered is the nearest of those
that are laid out on it. -/
structure RowView.Clear (r : RowView) (row want : Nat) : Prop where
  spots : r.spots ≠ []
  start : r.softStart ≠ none → ∀ x ∈ r.spots.head?, colDist x.2 want ≤ colDist 0 want
  stop : ∀ z ∈ r.softEnd, ∀ x ∈ r.spots.getLast?, colDist x.2 want ≤ colDist z.2 want
  far : ∀ z ∈ r.rest, z.2.1 = row → ∃ x ∈ r.spots, colDist x.2 want ≤ colDist z.2.2 want

theorem colDist_cases (a b : Nat) :
    a ≤ b ∧ colDist a b = b - a ∨ b < a ∧ colDist a b = a - b := by
  unfold colDist
  split
  · exact .inr ⟨by omega, rfl⟩
  · exact .inl ⟨by omega, rfl⟩

/-- Between two columns no column is further from the wanted one than both. -/
theorem colDist_between {a b c w : Nat} (hab : a ≤ b) (hbc : b ≤ c) :
    colDist b w ≤ colDist a w ∨ colDist b w ≤ colDist c w := by
  have ha := colDist_cases a w
  have hb := colDist_cases b w
  have hc := colDist_cases c w
  omega

/-- Left of the columns of a row, column 0 is nearer only if the first column is nearer. -/
theorem colDist_zero {a b w : Nat} (hab : a ≤ b) (h0 : colDist 0 w ≤ colDist a w)
    (hb : colDist 0 w ≤ colDist b w) : colDist a w ≤ colDist b w := by
  have hz := colDist_cases 0 w
  have ha := colDist_cases a w
  have hb := colDist_cases b w
  omega

theorem findRow_all (hr : g.findRow stop row p as = some r) : ∃ c col xs, r.all = (c, col) :: xs := by
  have hview : ∀ (s : Option Nat) (q : Pen) (bs : List (Nat × Atom)),
      ∃ c col xs, (g.rowView stop s q bs).all = (c, col) :: xs := fun s q bs => by
    obtain ⟨xs, hxs⟩ := rowFrom_head g stop q bs
    exact ⟨_, _, xs, hxs⟩
  induction as generalizing p with
  | nil =>
    rw [Grid.findRow] at hr
    split at hr
    · cases hr
      exact hview _ _ _
    · cases hr
  | cons x as ih =>
    obtain ⟨pos, a⟩ := x
    rw [Grid.findRow] at hr
    split at hr
    · cases hr
      exact hview _ _ _
    · split at hr
      · cases hr
        exact hview _ _ _
      · exact ih hr

/-- The scan finds the first nearest of the boundaries of the row and the one where it ran
full. -/
theorem scan_target (hg : g.Fits) (has : ∀ x ∈ as, x.2.Narrow) (hp : p.On g) (hle : p.row ≤ row)
    (hlt : row + 1 < 4294967296) (hr : g.findRow stop row p as = some r) (want : Nat) :
    ∃ ys x zs, r.all = ys ++ x :: zs ∧
      (g.scan stop p as ⟨row, want, 0, 0, 0, false⟩).best = x.1 ∧
      (∀ y ∈ ys, colDist x.2 want < colDist y.2 want) ∧
      ∀ z ∈ zs, colDist x.2 want ≤ colDist z.2 want := by
  obtain ⟨early, hscan, -, hearly⟩ :=
    scan_find (t := ⟨row, want, 0, 0, 0, false⟩) hg rfl has hp hle hlt hr
  have hsorted := (findRow_views hg has hp hle hlt hr).sorted
  obtain ⟨c, col, xs, hall⟩ := findRow_all hr
  rw [hscan]
  rcases hearly with rfl | ⟨c', col', xs', rfl, hall'⟩
  · rw [nil_append, hall]
    obtain ⟨⟨-, -, ys, zs, hsplit, hys, hzs⟩, -⟩ :=
      considerAll_nearest (t := ⟨row, want, 0, 0, 0, false⟩) rfl (x := (c, col)) xs
    exact ⟨ys, _, zs, hsplit, rfl, hys, hzs⟩
  · rw [hall'] at hsorted ⊢
    obtain ⟨⟨-, -, ys, zs, hsplit, hys, hzs⟩, -⟩ :=
      considerAll_nearest (t := ⟨row, want, 0, 0, 0, false⟩) rfl (x := (c', 0)) ((c', col') :: xs')
    cases ys with
    | cons y ys =>
      rw [cons_append, cons.injEq] at hsplit
      exact ⟨ys, _, zs, hsplit.2, rfl, fun y hy => hys y (mem_cons_of_mem _ hy), hzs⟩
    | nil =>
      -- column 0 before the prompt is the nearest, so that the first boundary is
      rw [nil_append, cons.injEq] at hsplit
      obtain ⟨hhead, hrest⟩ := hsplit
      obtain ⟨hbest, hcol⟩ := Prod.mk.inj hhead
      rw [← hrest, ← hcol] at hzs
      refine ⟨[], (c', col'), xs', rfl, hbest.symm, by simp, fun z hz => ?_⟩
      exact colDist_zero ((pairwise_cons.mp hsorted).1 z hz) (hzs _ mem_cons_self)
        (hzs z (mem_cons_of_mem _ hz))

/-! ## The nearest boundary of a row -/

section

variable {w : Nat} {x : Nat × Nat} {ys zs : List (Nat × Nat)}

theorem nearest_all (hall : r.all = ys ++ x :: zs)
    (hys : ∀ y ∈ ys, colDist x.2 w < colDist y.2 w) (hzs : ∀ z ∈ zs, colDist x.2 w ≤ colDist z.2 w) :
    ∀ y ∈ r.all, colDist x.2 w ≤ colDist y.2 w := by
  intro y hy
  rw [hall, mem_append, mem_cons] at hy
  rcases hy with hy | rfl | hy
  · exact le_of_lt (hys y hy)
  · exact le_refl _
  · exact hzs y hy

/-- On a clear row the first nearest is not the boundary where the row ran full. -/
theorem RowView.Clear.mem_spots (hc : r.Clear row w) (hall : r.all = ys ++ x :: zs)
    (hys : ∀ y ∈ ys, colDist x.2 w < colDist y.2 w) : x ∈ r.spots := by
  have hmem : x ∈ r.all := by
    rw [hall]
    exact mem_append_right _ mem_cons_self
  rcases mem_append.mp hmem with h | hend
  · exact h
  · have hend' : r.softEnd = some x := by simpa using hend
    obtain ⟨init, l, hspots⟩ := eq_nil_or_concat r.spots |>.resolve_left hc.spots
    have hl := hc.stop x hend' l (by simp [hspots])
    rcases eq_nil_or_concat zs with rfl | ⟨zs', z, rfl⟩
    · have hlast : r.spots = ys := by
        rw [RowView.all, hend'] at hall
        exact (append_inj' hall rfl).1
      have hlt := hys l (by rw [← hlast, hspots]; simp)
      omega
    · have hlast : r.spots = ys ++ x :: zs' := by
        rw [RowView.all, hend', concat_eq_append, ← cons_append, ← append_assoc] at hall
        exact (append_inj' hall rfl).1
      rw [hlast]
      exact mem_append_right _ mem_cons_self

/-- A boundary of a clear row that is nearest of those that the scan considers is nearest of
those that are laid out on it. -/
theorem RowView.Clear.nearest (hc : r.Clear row w) (hnear : ∀ y ∈ r.all, colDist x.2 w ≤ colDist y.2 w) :
    ∀ z ∈ r.own row ++ r.rest, z.2.1 = row → colDist x.2 w ≤ colDist z.2.2 w := by
  have hspot : ∀ y ∈ r.spots, colDist x.2 w ≤ colDist y.2 w := fun y hy =>
    hnear y (mem_append_left _ hy)
  intro z hz hrow
  rw [RowView.own, mem_append, mem_append, mem_map, mem_map] at hz
  rcases hz with (⟨b, hb, rfl⟩ | ⟨y, hy, rfl⟩) | hz
  · -- the first boundary of a row that continues another
    have hstart : r.softStart ≠ none := by
      intro hnone
      simp [hnone] at hb
    obtain ⟨h, tl, hspots⟩ := exists_cons_of_ne_nil hc.spots
    exact le_trans (hspot h (by simp [hspots])) (hc.start hstart h (by simp [hspots]))
  · exact hspot y hy
  · obtain ⟨y, hy, hle⟩ := hc.far z hz hrow
    exact le_trans (hspot y hy) hle

theorem RowView.clear_of_nearest (hsorted : r.all.Pairwise (fun x y => x.2 ≤ y.2))
    (hx : x ∈ r.spots) (hnear : ∀ y ∈ r.all, colDist x.2 w ≤ colDist y.2 w)
    (hlaid : ∀ z ∈ r.own row ++ r.rest, z.2.1 = row → colDist x.2 w ≤ colDist z.2.2 w) :
    r.Clear row w where
  spots := ne_nil_of_mem hx
  start := by
    intro hstart h hh
    obtain ⟨b, hb⟩ := Option.ne_none_iff_exists'.mp hstart
    have h0 := hlaid (b, row, 0) (by simp [RowView.own, hb]) rfl
    obtain ⟨tl, hspots⟩ := head?_eq_some_iff.mp hh
    have hle : h.2 ≤ x.2 := by
      rw [RowView.all, hspots, cons_append, pairwise_cons] at hsorted
      rw [hspots, mem_cons] at hx
      rcases hx with rfl | hx
      · exact le_refl _
      · exact hsorted.1 x (mem_append_left _ hx)
    rcases colDist_between (w := w) (zero_le h.2) hle with h1 | h1
    · exact h1
    · exact le_trans h1 h0
  stop := by
    intro z hz l hl
    obtain ⟨init, hspots⟩ := getLast?_eq_some_iff.mp hl
    have hz' : r.softEnd = some z := hz
    have hxz := hnear z (by simp [RowView.all, hz'])
    rw [RowView.all, hz', hspots] at hsorted
    obtain ⟨hs, -, hend⟩ := pairwise_append.mp hsorted
    have hlz := hend l (by simp) z (by simp)
    have hxl : x.2 ≤ l.2 := by
      rw [hspots, mem_append, mem_singleton] at hx
      rcases hx with hx | rfl
      · exact (pairwise_append.mp hs).2.2 x hx l (by simp)
      · exact le_refl _
    rcases colDist_between (w := w) hxl hlz with h1 | h1
    · exact le_trans h1 hxz
    · exact h1
  far := fun z hz hrow => ⟨x, hx, hlaid z (mem_append_right _ hz) hrow⟩

end

/-! ## What a move promises -/

/-- The rows and the cursor of a layout. -/
def Region.place (reg : Region) : Reflow := ⟨reg.rows, reg.cursorRow, reg.cursorCol⟩

/-- The three walks give the same rows and the same cursor. -/
def WalksAgree (u : Unicode) (v : View) (e : Edit) (direction : Int) (want : Nat) : Prop :=
  ∃ reg rf vm, layout u v e = some reg ∧ layoutReflow u v e v.cols = some rf ∧
    layoutVertical u v e direction want = some vm ∧
    rf = reg.place ∧ (⟨vm.rows, vm.curRow, vm.curCol⟩ : Reflow) = reg.place

/-- A move in range puts the cursor on the adjacent row, and no other boundary that is laid out
on it is nearer to the wanted column. -/
def Lands (u : Unicode) (v : View) (e : Edit) (direction : Int) (want : Nat) : Prop :=
  ∀ reg vm t col, layout u v e = some reg → layoutVertical u v e direction want = some vm →
    vm.target = some (t, col) →
    ∃ reg', layout u v { e with cursor := t } = some reg' ∧
      reg'.cursorRow = adjacentRow direction reg.cursorRow ∧
      ∀ b reg'', u.graphemeBoundary e.data b = true →
        layout u v { e with cursor := b } = some reg'' → reg''.cursorRow = reg'.cursorRow →
        colDist reg'.cursorCol (wanted want reg.cursorCol) ≤
          colDist reg''.cursorCol (wanted want reg.cursorCol)

/-- A move is out of range, or the row that it goes to is clear. -/
def MoveClear (u : Unicode) (v : View) (e : Edit) (direction : Int) (want : Nat) : Prop :=
  let lay := (v.grid u).lay e.cursor e.data.length (atoms u e.data)
  ∀ row, neighbour direction lay = some row →
    ∃ r, (v.grid u).findRow e.data.length row Pen.init (atoms u e.data) = some r ∧
      r.Clear row (wanted want lay.cursorCol)

theorem neighbour_eq {direction : Int} {lay : Reflow} (h : neighbour direction lay = some row)
    (hrow : lay.cursorRow < 4294967296) (hrows : lay.rows < 4294967296) :
    row = adjacentRow direction lay.cursorRow ∧ row + 1 < 4294967296 := by
  unfold neighbour at h
  unfold adjacentRow
  split at h
  · rename_i hdir
    rw [if_pos hdir]
    split at h
    · cases h
    · cases h
      exact ⟨rfl, by omega⟩
  · rename_i hdir
    rw [if_neg hdir]
    split at h
    · cases h
    · cases h
      exact ⟨rfl, by omega⟩

theorem ends_run_mem (g : Grid) {data : List UInt8} (cursor : Nat) {t : Track}
    (h : Cut u data pos as) (ht : t.pos = pos) (hmark : t.mark = none) :
    ∃ b, (b, (g.ends (g.run cursor data.length t as)).cursorRow,
      (g.ends (g.run cursor data.length t as)).cursorCol) ∈ g.places data.length t.pen as := by
  by_cases hmem : ∃ row col, (cursor, row, col) ∈ g.places data.length t.pen as
  · obtain ⟨row, col, hmem⟩ := hmem
    obtain ⟨hrow, hcol⟩ := ends_run h ht hmark hmem
    exact ⟨cursor, by rw [hrow, hcol]; exact hmem⟩
  · induction h generalizing t with
    | stop =>
      refine ⟨data.length, ?_⟩
      simp [Grid.run, Grid.ends, hmark, Grid.places]
    | @step pos as hlt hgt hnext ih =>
      rw [Grid.places] at hmem ⊢
      have hne : t.pos ≠ cursor := by
        rintro rfl
        exact hmem ⟨_, _, by rw [ht]; exact mem_cons_self⟩
      obtain ⟨b, hb⟩ := ih (t := g.step cursor t (Grid.nextPos data.length as)
          (atomAt u data pos (u.graphemeNext data pos))) (by rw [Grid.step, hnext.nextPos])
        (by rw [Grid.step, if_neg hne, hmark])
        (by
          rintro ⟨row, col, h⟩
          exact hmem ⟨row, col, mem_cons_of_mem _ h⟩)
      exact ⟨b, mem_cons_of_mem _ hb⟩

section

variable {direction : Int} {want : Nat} (hu : u.Segments) (hv : v.Fits u)
  (hd : utf8Valid e.data = true)
include hu hv hd

theorem layout_at {b row col : Nat}
    (h : (b, row, col) ∈ (v.grid u).places e.data.length Pen.init (atoms u e.data)) :
    ∃ reg, layout u v { e with cursor := b } = some reg ∧ reg.cursorRow = row ∧
      reg.cursorCol = col := by
  obtain ⟨reg, hreg, hlay⟩ := layout_lay (e := { e with cursor := b }) hu hv hd
  obtain ⟨hrow, hcol⟩ := ends_run (t := ⟨0, Pen.init, none⟩) (cut_atoms hu hd) rfl rfl h
  refine ⟨reg, hreg, ?_, ?_⟩
  · rw [← hrow]
    exact congrArg Reflow.cursorRow hlay
  · rw [← hcol]
    exact congrArg Reflow.cursorCol hlay

theorem layout_mem {b : Nat} {reg : Region} (h : layout u v { e with cursor := b } = some reg) :
    ∃ c, (c, reg.cursorRow, reg.cursorCol) ∈
      (v.grid u).places e.data.length Pen.init (atoms u e.data) := by
  obtain ⟨reg', hreg', hlay⟩ := layout_lay (e := { e with cursor := b }) hu hv hd
  rw [h] at hreg'
  cases hreg'
  obtain ⟨c, hc⟩ := ends_run_mem (v.grid u) b (t := ⟨0, Pen.init, none⟩)
    (cut_atoms hu hd) rfl rfl
  refine ⟨c, ?_⟩
  have hrow := congrArg Reflow.cursorRow hlay
  have hcol := congrArg Reflow.cursorCol hlay
  dsimp only at hrow hcol
  rw [hrow, hcol]
  exact hc

omit hv in
theorem places_boundary {x : Nat × Nat × Nat} {p : Pen}
    (h : x ∈ g.places e.data.length p (atoms u e.data)) : u.graphemeBoundary e.data x.1 = true := by
  have hfst : ∀ (p : Pen) (as : List (Nat × Atom)), ∀ x ∈ g.places e.data.length p as,
      x.1 = e.data.length ∨ ∃ a, (x.1, a) ∈ as := by
    intro p as
    induction as generalizing p with
    | nil =>
      intro x hx
      rw [Grid.places, mem_singleton] at hx
      rw [hx]
      exact .inl rfl
    | cons y as ih =>
      intro x hx
      rw [Grid.places, mem_cons] at hx
      rcases hx with rfl | hx
      · exact .inr ⟨_, mem_cons_self⟩
      · rcases ih _ x hx with h | ⟨a, ha⟩
        · exact .inl h
        · exact .inr ⟨a, mem_cons_of_mem _ ha⟩
  rcases hfst p _ x h with hx | ⟨a, ha⟩
  · rw [hx]
    exact hu.stop _ hd
  · exact (cut_atoms hu hd).boundary hu hd (hu.zero _ hd) _ ha

/-- A move in range goes to what the scan finds on the neighbouring row. -/
theorem layoutVertical_scan (direction : Int) (want : Nat) :
    let lay := (v.grid u).lay e.cursor e.data.length (atoms u e.data)
    layoutVertical u v e direction want = some ⟨lay.cursorRow, lay.cursorCol, lay.rows,
      (neighbour direction lay).map fun row =>
        let t := (v.grid u).scan e.data.length Pen.init (atoms u e.data)
          ⟨row, wanted want lay.cursorCol, 0, 0, 0, false⟩
        (t.best, t.bestCol)⟩ := by
  obtain ⟨s, hs, hlay⟩ := vmoveLocate_lay hu hv hd
  dsimp only
  rw [← hlay, layoutVertical, hs]
  dsimp only [Option.bind_eq_bind, Option.bind_some]
  have hwant : wantOrCursor want s = wanted want s.curCol := rfl
  rw [hwant, neighbour]
  split
  · split
    · rfl
    · rw [vmoveScan_scan hu hv hd]
      rfl
  · split
    · rfl
    · rw [vmoveScan_scan hu hv hd]
      rfl

theorem walks_agree (direction : Int) (want : Nat) : WalksAgree u v e direction want := by
  obtain ⟨reg, hreg, hlay⟩ := layout_lay hu hv hd
  obtain ⟨rf, hrf, hreflow⟩ := layoutReflow_lay hu hv hd
  exact ⟨reg, rf, _, hreg, hrf, layoutVertical_scan hu hv hd direction want,
    hreflow.trans hlay.symm, hlay.symm⟩

omit hu hv hd in
theorem places_row_lt (hg : g.Fits) {p : Pen} (has : ∀ x ∈ as, x.2.Narrow) (hp : p.On g) :
    ∀ x ∈ g.places stop p as, x.2.1 < 4294967296 := by
  induction as generalizing p with
  | nil =>
    intro x hx
    rw [Grid.places, mem_singleton] at hx
    rw [hx]
    exact (hp.begin hg).row
  | cons y as ih =>
    intro x hx
    rw [Grid.places, mem_cons] at hx
    rcases hx with rfl | hx
    · exact (place_on (hp.begin hg)).row
    · exact ih (fun x hx => has x (mem_cons_of_mem _ hx))
        (after_on hg (hp.begin hg) (has _ mem_cons_self)) x hx

/-- The row of a move is next to the one where the cursor is laid out. -/
theorem move_row {reg : Region} (hreg : layout u v e = some reg)
    (hrow : neighbour direction ((v.grid u).lay e.cursor e.data.length (atoms u e.data)) =
      some row) :
    row = adjacentRow direction reg.cursorRow ∧ row + 1 < 4294967296 ∧
      ((v.grid u).lay e.cursor e.data.length (atoms u e.data)).cursorCol = reg.cursorCol := by
  obtain ⟨reg', hreg', hplace⟩ := layout_lay hu hv hd
  rw [hreg] at hreg'
  cases hreg'
  obtain ⟨c, hc⟩ := layout_mem hu hv hd (b := e.cursor) hreg
  have hlt := places_row_lt (hv.grid hu) (cut_atoms hu hd).narrow (Pen.init_on _) _ hc
  have hrows : ((v.grid u).lay e.cursor e.data.length (atoms u e.data)).rows < 4294967296 :=
    u32_lt _
  rw [← hplace] at hrow hrows ⊢
  obtain ⟨hadj, hsucc⟩ := neighbour_eq hrow hlt hrows
  exact ⟨hadj, hsucc, rfl⟩

theorem lands_of_clear (hclear : MoveClear u v e direction want) : Lands u v e direction want := by
  intro reg vm t col hreg hvm htarget
  rw [layoutVertical_scan hu hv hd] at hvm
  cases hvm
  obtain ⟨row, hrow, ht⟩ := Option.map_eq_some_iff.mp htarget
  obtain ⟨hadj, hlt, hcol⟩ := move_row hu hv hd hreg hrow
  obtain ⟨r, hr, hc⟩ := hclear row hrow
  have hg := hv.grid hu
  have hnarrow := (cut_atoms hu hd).narrow
  have hviews := findRow_views hg hnarrow (Pen.init_on _) (zero_le _) hlt hr
  obtain ⟨ys, x, zs, hall, hbest, hys, hzs⟩ := scan_target hg hnarrow (Pen.init_on _)
    (zero_le _) hlt hr (wanted want
      ((v.grid u).lay e.cursor e.data.length (atoms u e.data)).cursorCol)
  have htx : t = x.1 := (congrArg Prod.fst ht).symm.trans hbest
  rw [hcol] at hc hys hzs
  obtain ⟨before, hsplit, hbefore⟩ := hviews.split
  have hx := hc.mem_spots hall hys
  have hplace : (t, row, x.2) ∈ (v.grid u).places e.data.length Pen.init (atoms u e.data) := by
    rw [hsplit, htx]
    refine mem_append_right _ (mem_append_left _ (mem_append_right _ ?_))
    exact mem_map_of_mem (f := fun y : Nat × Nat => (y.1, row, y.2)) hx
  obtain ⟨reg', hreg', hrow', hcol'⟩ := layout_at hu hv hd hplace
  refine ⟨reg', hreg', by rw [hrow', hadj], fun b reg'' _ hreg'' hsame => ?_⟩
  obtain ⟨c, hmem⟩ := layout_mem hu hv hd hreg''
  rw [hcol']
  rw [hsame, hrow', hsplit, mem_append] at hmem
  have hlaid := hmem.resolve_left (fun h => absurd rfl (Nat.ne_of_lt (hbefore _ h)))
  exact hc.nearest (nearest_all hall hys hzs) _ hlaid rfl

/-- A move that lands was clear. -/
theorem clear_of_lands (hlands : Lands u v e direction want) : MoveClear u v e direction want := by
  intro row hrow
  obtain ⟨reg, hreg, -⟩ := layout_lay hu hv hd
  obtain ⟨hadj, hlt, hcol⟩ := move_row hu hv hd hreg hrow
  have hg := hv.grid hu
  have hnarrow := (cut_atoms hu hd).narrow
  obtain ⟨reg', hreg', hrow', hnear⟩ := hlands reg _ _ _ hreg
    (layoutVertical_scan hu hv hd direction want) (by dsimp only; rw [hrow]; rfl)
  rw [← hadj] at hrow'
  cases hfind : (v.grid u).findRow e.data.length row Pen.init (atoms u e.data) with
  | none =>
    obtain ⟨c, hc⟩ := layout_mem hu hv hd hreg'
    exact absurd hrow' (findRow_none hfind _ hc)
  | some r =>
    have hviews := findRow_views hg hnarrow (Pen.init_on _) (zero_le _) hlt hfind
    obtain ⟨ys, x, zs, hall, hbest, hys, hzs⟩ := scan_target hg hnarrow (Pen.init_on _)
      (zero_le _) hlt hfind (wanted want
        ((v.grid u).lay e.cursor e.data.length (atoms u e.data)).cursorCol)
    rw [hbest] at hreg'
    obtain ⟨before, hsplit, -⟩ := hviews.split
    have hmem : ∀ z ∈ r.own row ++ r.rest,
        z ∈ (v.grid u).places e.data.length Pen.init (atoms u e.data) := fun z hz => by
      rw [hsplit]
      exact mem_append_right _ hz
    -- the boundary where the row ran full is laid out on the row below
    have hx : x ∈ r.spots := by
      have hxall : x ∈ r.all := by
        rw [hall]
        exact mem_append_right _ mem_cons_self
      rcases mem_append.mp hxall with h | hend
      · exact h
      · have hplace := hmem _ (mem_append_right _ (hviews.softEnd x (by simpa using hend)))
        obtain ⟨reg'', hreg'', hrow'', -⟩ := layout_at hu hv hd hplace
        rw [hreg'] at hreg''
        cases hreg''
        rw [hrow', u32_eq hlt] at hrow''
        omega
    have hplace : (x.1, row, x.2) ∈ r.own row ++ r.rest :=
      mem_append_left _ (mem_append_right _
        (mem_map_of_mem (f := fun y : Nat × Nat => (y.1, row, y.2)) hx))
    have hcol' : reg'.cursorCol = x.2 := by
      obtain ⟨reg'', hreg'', -, hcol''⟩ := layout_at hu hv hd (hmem _ hplace)
      rw [hreg'] at hreg''
      cases hreg''
      exact hcol''
    refine ⟨r, rfl, RowView.clear_of_nearest hviews.sorted hx (nearest_all hall hys hzs)
      fun z hz hzrow => ?_⟩
    obtain ⟨reg'', hreg'', hrow'', hcol''⟩ := layout_at hu hv hd (hmem z hz)
    have hle := hnear z.1 reg'' (places_boundary hu hd (hmem z hz)) hreg''
      (by rw [hrow'', hrow', hzrow])
    rw [hcol', hcol'', ← hcol] at hle
    exact hle

end

/-- Four columns without prompts. -/
def fourColumns : View := ⟨none, none, 4, 4⟩

theorem fourColumns_fits : fourColumns.Fits marks where
  valid := fun i => by
    cases i <;> exact utf8Valid_text []
  prompt := fun i w hw => by
    have hnil : fourColumns.promptFor i = [] := by cases i <;> rfl
    rw [hnil] at hw
    cases hw with
    | stop => exact zero_le _
    | step hlt _ _ => exact absurd hlt (not_lt_zero _)
  cols := by decide
  cols_lt := by decide
  tab := by decide
  tab_lt := by decide

/-- `ab` over `cd` with the cursor before `d`. -/
def abOverCd : Edit := ⟨⟨[0x61, 0x62, 0x0A, 0x63, 0x64], 16, by decide⟩, 4⟩

/-- `abcdefgh` with the cursor at the end. -/
def abcdefgh : Edit :=
  ⟨⟨[0x61, 0x62, 0x63, 0x64, 0x65, 0x66, 0x67, 0x68], 16, by decide⟩, 8⟩

end Repl89
