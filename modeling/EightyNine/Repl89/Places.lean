import EightyNine.Repl89.EditOk
import EightyNine.Repl89.Render

/-!
# librepl89: places on rows

What the walks of the renderer compute, without a walk: the text is a list of atoms, a pen
runs over them, and every boundary has the place where the pen stands before the next atom
is drawn (`Grid.place`).  A row that an atom did not fit on is continued on the next one.
-/

namespace Repl89

open Nat List

open U89 (utf8Valid)

/-- What is drawn as one: a line feed, a tab, or a cluster and its cells. -/
inductive Atom where
  | lf
  | tab
  | cells (w : Nat)
  deriving DecidableEq

/-- Where the next atom goes: at the start of a logical line the prompt comes before it. -/
structure Pen where
  row : Nat
  col : Nat
  fresh : Bool
  line : Nat

/-- The width of the rows, the tab stops and the widths of the prompts. -/
structure Grid where
  cols : Nat
  tabWidth : Nat
  promptWidth : Nat → Nat

/-- The pen at the first row. -/
def Pen.init : Pen := ⟨0, 0, true, 0⟩

/-- The pen at the start of the next row. -/
def Pen.wrap (p : Pen) : Pen := ⟨u32 (p.row + 1), 0, false, p.line⟩

namespace Grid

variable (g : Grid)

/-- The pen behind the prompt. -/
def begin (p : Pen) : Pen :=
  if p.fresh then { p with col := g.promptWidth p.line, fresh := false } else p

/-- The cells that an atom takes, or would take. -/
def span (p : Pen) : Atom → Nat
  | .lf => 0
  | .tab => tabAdvance p.col g.tabWidth
  | .cells w => w

/-- An atom that does not fit on the row. -/
def full (p : Pen) : Atom → Bool
  | .lf => false
  | a => needWrap p.col (g.span p a) g.cols

/-- The place of the boundary before an atom. -/
def place (p : Pen) (a : Atom) : Pen := if g.full p a then p.wrap else p

/-- The pen behind an atom. -/
def after (p : Pen) (a : Atom) : Pen :=
  match a with
  | .lf => ⟨u32 (p.row + 1), 0, true, p.line + 1⟩
  | .tab =>
    let q := g.place p .tab
    let adv := if g.full p .tab then tabAfterWrap g.tabWidth g.cols else g.span p .tab
    { q with col := u32 (q.col + adv) }
  | .cells w =>
    let q := g.place p (.cells w)
    { q with col := u32 (q.col + w) }

/-- The cells that an atom takes behind its place. -/
def took (p : Pen) : Atom → Nat
  | .tab => if g.full p .tab then tabAfterWrap g.tabWidth g.cols else g.span p .tab
  | a => g.span p a

end Grid

/-- A row of a layout.  Where it continues the row above, the boundary at its first column is
kept apart from the others.  Behind it are the places of the boundaries that are left. -/
structure RowView where
  softStart : Option Nat
  spots : List (Nat × Nat)
  softEnd : Option (Nat × Nat)
  rest : List (Nat × Nat × Nat)

namespace Grid

variable (g : Grid)

/-- Rows of two cells at least, tab stops, and prompts that fit on a row. -/
structure Fits : Prop where
  cols : 2 ≤ g.cols
  cols_lt : g.cols < 2147483648
  tab : 1 ≤ g.tabWidth
  tab_lt : g.tabWidth < 4294967296
  prompt : ∀ i, g.promptWidth i ≤ g.cols

end Grid

/-- An atom is a cluster of two cells at most. -/
def Atom.Narrow : Atom → Prop
  | .cells w => w ≤ 2
  | _ => True

/-- A pen on a row. -/
structure Pen.On (g : Grid) (p : Pen) : Prop where
  row : p.row < 4294967296
  col : p.col ≤ g.cols

section

variable {g : Grid} {p : Pen} {a : Atom}

@[simp] theorem u32_lt (n : Nat) : u32 n < 4294967296 := mod_lt _ (by decide)

theorem u32_eq {n : Nat} (h : n < 4294967296) : u32 n = n := mod_eq_of_lt h

theorem Pen.init_on (g : Grid) : Pen.init.On g := ⟨by decide, zero_le _⟩

@[simp] theorem begin_fresh (g : Grid) (p : Pen) : (g.begin p).fresh = false := by
  unfold Grid.begin
  split
  · rfl
  · rename_i h
    simpa using h

@[simp] theorem begin_row (g : Grid) (p : Pen) : (g.begin p).row = p.row := by
  unfold Grid.begin
  split <;> rfl

theorem begin_of_begun (g : Grid) (h : p.fresh = false) : g.begin p = p := by
  unfold Grid.begin
  rw [if_neg (by simp [h])]

theorem Pen.On.begin (hg : g.Fits) (h : p.On g) : (g.begin p).On g := by
  unfold Grid.begin
  split
  · exact ⟨h.row, hg.prompt _⟩
  · exact h

theorem Pen.wrap_on (g : Grid) (p : Pen) : p.wrap.On g := ⟨u32_lt _, zero_le _⟩

theorem col_tabAdvance_lt (hg : g.Fits) (h : p.col ≤ g.cols) :
    p.col + tabAdvance p.col g.tabWidth < 4294967296 := by
  have hc := hg.cols_lt
  have ht := hg.tab
  have htl := hg.tab_lt
  have hmod := mod_lt p.col ht
  unfold tabAdvance
  rw [if_neg (by omega)]
  rcases lt_or_ge p.col g.tabWidth with hlt | hge
  · rw [mod_eq_of_lt hlt]
    omega
  · omega

theorem tabAdvance_pos (hg : g.Fits) (col : Nat) : 0 < tabAdvance col g.tabWidth := by
  have ht := hg.tab
  have hmod := mod_lt col ht
  unfold tabAdvance
  rw [if_neg (by omega)]
  omega

theorem tabAfterWrap_le (tab cols : Nat) : tabAfterWrap tab cols ≤ cols := by
  unfold tabAfterWrap
  split <;> omega

theorem needWrap_eq {col w cols : Nat} (h : col + w < 4294967296) :
    needWrap col w cols = decide (cols < col + w) := by
  rw [needWrap, u32_eq h]

theorem span_lt (hg : g.Fits) (h : p.On g) (ha : a.Narrow) :
    p.col + g.span p a < 4294967296 := by
  have hc := hg.cols_lt
  have hcol := h.col
  cases a with
  | lf => exact lt_of_le_of_lt hcol (by omega)
  | tab => exact col_tabAdvance_lt hg hcol
  | cells w =>
    have : w ≤ 2 := ha
    show p.col + w < _
    omega

theorem full_iff (hg : g.Fits) (h : p.On g) (ha : a.Narrow) :
    g.full p a = true ↔ g.cols < p.col + g.span p a := by
  have hlt := span_lt hg h ha
  cases a with
  | lf =>
    have := h.col
    refine iff_of_false Bool.false_ne_true ?_
    show ¬ g.cols < p.col + 0
    omega
  | tab | cells w => simp [Grid.full, needWrap_eq hlt]

theorem place_on (h : p.On g) : (g.place p a).On g := by
  unfold Grid.place
  split
  · exact p.wrap_on g
  · exact h

theorem place_of_fits (hfit : g.full p a = false) : g.place p a = p := by
  rw [Grid.place, hfit]
  rfl

theorem place_of_full (hfull : g.full p a = true) : g.place p a = p.wrap := by
  rw [Grid.place, hfull]
  rfl

theorem place_took (hg : g.Fits) (h : p.On g) (ha : a.Narrow) :
    (g.place p a).col + g.took p a ≤ g.cols := by
  have hfull := full_iff hg h ha
  have hc := hg.cols
  cases hf : g.full p a with
  | false =>
    have hnot : ¬ g.cols < p.col + g.span p a := by
      rw [← hfull, hf]
      exact Bool.false_ne_true
    have htook : g.took p a = g.span p a := by
      cases a <;> simp [Grid.took, hf]
    rw [place_of_fits hf, htook]
    omega
  | true =>
    rw [place_of_full hf]
    cases a with
    | lf => cases hf
    | tab => simpa [Pen.wrap, Grid.took, hf] using tabAfterWrap_le g.tabWidth g.cols
    | cells w =>
      have : w ≤ 2 := ha
      show 0 + w ≤ g.cols
      omega

theorem after_eq (hg : g.Fits) (h : p.On g) (ha : a.Narrow) (hlf : a ≠ .lf) :
    g.after p a = { g.place p a with col := (g.place p a).col + g.took p a } := by
  have hle := place_took hg h ha
  have hc := hg.cols_lt
  rw [← u32_eq (show (g.place p a).col + g.took p a < 4294967296 by omega)]
  cases a with
  | lf => exact absurd rfl hlf
  | tab | cells w => rfl

theorem after_on (hg : g.Fits) (h : p.On g) (ha : a.Narrow) : (g.after p a).On g := by
  by_cases hlf : a = .lf
  · subst hlf
    exact ⟨u32_lt _, zero_le _⟩
  · rw [after_eq hg h ha hlf]
    exact ⟨(place_on h).row, place_took hg h ha⟩

/-- Behind an atom that fits, the pen is on the same row and no further left. -/
theorem after_of_fits (hg : g.Fits) (h : p.On g) (hp : p.fresh = false) (ha : a.Narrow)
    (hlf : a ≠ .lf) (hfit : g.full p a = false) :
    (g.after p a).row = p.row ∧ (g.after p a).fresh = false ∧ p.col ≤ (g.after p a).col := by
  rw [after_eq hg h ha hlf, place_of_fits hfit]
  exact ⟨rfl, hp, le_add_right _ _⟩

theorem after_of_full (hfull : g.full p a = true) :
    (g.after p a).row = u32 (p.row + 1) ∧ (g.after p a).fresh = false := by
  cases a with
  | lf => cases hfull
  | tab | cells w => simp [Grid.after, Grid.place, hfull, Pen.wrap]

end

/-! ## The atoms of a text -/

section

variable (u : Unicode)

/-- The atom of the cluster from `start` to `stop`. -/
def atomAt (data : List UInt8) (start stop : Nat) : Atom :=
  if clusterIs start stop data 0x0A then .lf
  else if clusterIs start stop data 0x09 then .tab
  else .cells (clusterWidth u data start stop)

/-- The clusters from `pos` on, each with its offset; there are at most `k`. -/
def atomsFrom (data : List UInt8) : Nat → Nat → List (Nat × Atom)
  | 0, _ => []
  | k + 1, pos =>
    if pos < data.length then
      let next := u.graphemeNext data pos
      (pos, atomAt u data pos next) :: atomsFrom data k next
    else []

/-- The clusters of a text. -/
def atoms (data : List UInt8) : List (Nat × Atom) := atomsFrom u data data.length 0

/-- `as` are the clusters from `pos` on. -/
inductive Cut (data : List UInt8) : Nat → List (Nat × Atom) → Prop
  | stop : Cut data data.length []
  | step {pos : Nat} {as : List (Nat × Atom)} (hlt : pos < data.length)
      (hgt : pos < u.graphemeNext data pos) (hnext : Cut data (u.graphemeNext data pos) as) :
      Cut data pos ((pos, atomAt u data pos (u.graphemeNext data pos)) :: as)

end

section

variable {u : Unicode} {data : List UInt8} {pos k : Nat} {as : List (Nat × Atom)}

theorem widthOfFlags_le (f : Flags) : widthOfFlags f ≤ 2 := by
  unfold widthOfFlags
  split
  · exact le_refl 2
  · split
    · exact le_refl 2
    · split <;> omega

theorem clusterWidth_le (s : List UInt8) (start stop : Nat) : clusterWidth u s start stop ≤ 2 :=
  widthOfFlags_le _

theorem atomAt_narrow (data : List UInt8) (start stop : Nat) :
    (atomAt u data start stop).Narrow := by
  unfold atomAt
  split
  · trivial
  · split
    · trivial
    · exact clusterWidth_le _ _ _

theorem next_le (hu : u.Segments) (hd : utf8Valid data = true) (hlt : pos < data.length) :
    u.graphemeNext data pos ≤ data.length :=
  hu.next_least _ _ _ hd hlt (hu.stop _ hd)

theorem cut_atomsFrom (hu : u.Segments) (hd : utf8Valid data = true) (hle : pos ≤ data.length)
    (hk : data.length - pos ≤ k) : Cut u data pos (atomsFrom u data k pos) := by
  induction k generalizing pos with
  | zero =>
    rw [show pos = data.length by omega]
    exact .stop
  | succ k ih =>
    rw [atomsFrom]
    split
    · rename_i hlt
      have hgt := hu.next_gt _ _ hd hlt
      have hnle := next_le hu hd hlt
      exact .step hlt hgt (ih hnle (by omega))
    · rw [show pos = data.length by omega]
      exact .stop

theorem cut_atoms (hu : u.Segments) (hd : utf8Valid data = true) :
    Cut u data 0 (atoms u data) :=
  cut_atomsFrom hu hd (zero_le _) (le_refl _)

theorem Cut.narrow (h : Cut u data pos as) : ∀ x ∈ as, x.2.Narrow := by
  induction h with
  | stop => simp
  | step _ _ _ ih =>
    intro x hx
    rcases mem_cons.mp hx with rfl | hx
    · exact atomAt_narrow _ _ _
    · exact ih x hx

theorem Cut.boundary (hu : u.Segments) (hd : utf8Valid data = true) (h : Cut u data pos as)
    (hpos : u.graphemeBoundary data pos = true) :
    ∀ x ∈ as, u.graphemeBoundary data x.1 = true := by
  induction h with
  | stop => simp
  | step hlt _ _ ih =>
    intro x hx
    rcases mem_cons.mp hx with rfl | hx
    · exact hpos
    · exact ih (hu.next_boundary _ _ hd hlt) x hx

end

/-! ## A run of the pen -/

/-- A walk: where it is, its pen, and the place of the cursor once it was met. -/
structure Track where
  pos : Nat
  pen : Pen
  mark : Option (Nat × Nat)

namespace Grid

variable (g : Grid) (cursor : Nat)

/-- A walk past one cluster, to the offset `next`. -/
def step (t : Track) (next : Nat) (a : Atom) : Track :=
  let p := g.begin t.pen
  let q := g.place p a
  ⟨next, g.after p a, if t.pos = cursor then some (q.row, q.col) else t.mark⟩

/-- The offset behind the first cluster. -/
def nextPos (stop : Nat) (as : List (Nat × Atom)) : Nat := (as.head?.map Prod.fst).getD stop

/-- A walk past the clusters, to the end of the text. -/
def run (stop : Nat) : Track → List (Nat × Atom) → Track
  | t, [] => t
  | t, (_, a) :: as => run stop (g.step cursor t (nextPos stop as) a) as

/-- The rows and the place of the cursor at the end of a walk. -/
def ends (t : Track) : Reflow :=
  let p := g.begin t.pen
  let mark := t.mark.getD (p.row, p.col)
  ⟨u32 (p.row + 1), mark.1, mark.2⟩

/-- What a text is laid out to. -/
def lay (stop : Nat) (as : List (Nat × Atom)) : Reflow :=
  g.ends (g.run cursor stop ⟨0, Pen.init, none⟩ as)

/-- What the scan of vertical movement finds. -/
def scan (stop : Nat) : Pen → List (Nat × Atom) → VmoveTarget → VmoveTarget
  | p, [], t => if p.row = t.row then vmoveConsider t stop (g.begin p).col else t
  | p, (pos, a) :: as, t =>
    let b := g.begin p
    let t' := if b.row = t.row then vmoveConsider t pos b.col else t
    let q := g.after b a
    let t' := if q.row = t.row then vmoveConsider t' (nextPos stop as) q.col else t'
    if q.row > t.row then t' else scan stop q as t'

/-- The boundaries of the row of a pen with their columns, and the boundary and the column
where the row ran full, if the next row continues it. -/
def rowFrom (stop : Nat) : Pen → List (Nat × Atom) → List (Nat × Nat) × Option (Nat × Nat)
  | p, [] => ([(stop, p.col)], none)
  | p, (pos, a) :: as =>
    if g.full p a then ([], some (pos, p.col))
    else if a = .lf then ([(pos, p.col)], none)
    else
      let r := rowFrom stop (g.after p a) as
      ((pos, p.col) :: r.1, r.2)

/-- The boundaries of a text with their places. -/
def places (stop : Nat) : Pen → List (Nat × Atom) → List (Nat × Nat × Nat)
  | p, [] => [(stop, (g.begin p).row, (g.begin p).col)]
  | p, (pos, a) :: as =>
    let q := g.place (g.begin p) a
    (pos, q.row, q.col) :: places stop (g.after (g.begin p) a) as

/-- The places of the boundaries behind the row of a pen. -/
def behindRow (stop : Nat) : Pen → List (Nat × Atom) → List (Nat × Nat × Nat)
  | _, [] => []
  | p, (pos, a) :: as =>
    if g.full p a then g.places stop p ((pos, a) :: as)
    else if a = .lf then g.places stop (g.after p a) as
    else behindRow stop (g.after p a) as

/-- The row of a pen. -/
def rowView (stop : Nat) (softStart : Option Nat) (p : Pen) (as : List (Nat × Atom)) : RowView :=
  ⟨softStart, (g.rowFrom stop p as).1, (g.rowFrom stop p as).2, g.behindRow stop p as⟩

/-- The first row with a number. -/
def findRow (stop row : Nat) : Pen → List (Nat × Atom) → Option RowView
  | p, [] => if p.row = row then some (g.rowView stop none (g.begin p) []) else none
  | p, (pos, a) :: as =>
    let b := g.begin p
    let q := g.after b a
    if b.row = row then some (g.rowView stop none b ((pos, a) :: as))
    else if g.full b a ∧ q.row = row then some (g.rowView stop (some pos) q as)
    else findRow stop row q as

end Grid

section

variable {u : Unicode} {data : List UInt8} {pos cursor : Nat} {as : List (Nat × Atom)}
  {g : Grid} {t : Track}

theorem Cut.nextPos (h : Cut u data pos as) : Grid.nextPos data.length as = pos := by
  cases h <;> rfl

/-- What a walk keeps: it is on a row, and a cursor that it met is behind it. -/
structure Track.Ok (g : Grid) (cursor : Nat) (t : Track) : Prop where
  on : t.pen.On g
  mark : t.mark ≠ none → cursor < t.pos

theorem Track.init_ok (g : Grid) (cursor : Nat) : Track.Ok g cursor ⟨0, Pen.init, none⟩ :=
  ⟨Pen.init_on g, fun h => absurd rfl h⟩

theorem Track.Ok.step (hg : g.Fits) (h : t.Ok g cursor) {next : Nat} {a : Atom} (ha : a.Narrow)
    (hgt : t.pos < next) : (g.step cursor t next a).Ok g cursor := by
  refine ⟨after_on hg (h.on.begin hg) ha, fun hmark => ?_⟩
  show cursor < next
  by_cases hpos : t.pos = cursor
  · omega
  · have hsome : t.mark ≠ none := by
      intro hnone
      exact hmark (by simp [Grid.step, hpos, hnone])
    have := h.mark hsome
    omega

theorem run_mark_of_lt (h : Cut u data pos as) (ht : t.pos = pos) (hlt : cursor < pos) :
    (g.run cursor data.length t as).mark = t.mark := by
  induction h generalizing t with
  | stop => rfl
  | @step pos as _ hgt hnext ih =>
    rw [Grid.run, ih (by rw [Grid.step, hnext.nextPos]) (by omega)]
    show (if t.pos = cursor then _ else t.mark) = _
    rw [if_neg (by omega)]

theorem places_ge (h : Cut u data pos as) (p : Pen) :
    ∀ x ∈ g.places data.length p as, pos ≤ x.1 := by
  induction h generalizing p with
  | stop =>
    intro x hx
    simp only [Grid.places, mem_singleton] at hx
    rw [hx]
  | step _ hgt _ ih =>
    intro x hx
    rw [Grid.places, mem_cons] at hx
    rcases hx with rfl | hx
    · exact le_refl _
    · exact le_trans (le_of_lt hgt) (ih _ _ hx)

/-- A walk whose cursor is at a boundary ends with the place of that boundary. -/
theorem ends_run (h : Cut u data pos as) (ht : t.pos = pos) (hmark : t.mark = none)
    {row col : Nat} (hmem : (cursor, row, col) ∈ g.places data.length t.pen as) :
    (g.ends (g.run cursor data.length t as)).cursorRow = row ∧
      (g.ends (g.run cursor data.length t as)).cursorCol = col := by
  induction h generalizing t with
  | stop =>
    simp only [Grid.places, mem_singleton, Prod.mk.injEq] at hmem
    obtain ⟨-, rfl, rfl⟩ := hmem
    simp [Grid.run, Grid.ends, hmark]
  | @step pos as hlt hgt hnext ih =>
    have hpos : (g.step cursor t (Grid.nextPos data.length as)
        (atomAt u data pos (u.graphemeNext data pos))).pos = u.graphemeNext data pos := by
      rw [Grid.step, hnext.nextPos]
    rw [Grid.places, mem_cons] at hmem
    rw [Grid.run]
    by_cases hc : cursor = pos
    · subst hc
      rw [Grid.ends, run_mark_of_lt hnext hpos hgt]
      have hhead : (row, col) = ((g.place (g.begin t.pen)
          (atomAt u data cursor (u.graphemeNext data cursor))).row, (g.place (g.begin t.pen)
          (atomAt u data cursor (u.graphemeNext data cursor))).col) := by
        rcases hmem with h | h
        · exact (Prod.mk.inj h).2
        · have := places_ge hnext _ _ h
          exact absurd this (Nat.not_le_of_lt hgt)
      obtain ⟨rfl, rfl⟩ := Prod.mk.inj hhead
      simp [Grid.step, ht]
    · have hrest := hmem.resolve_left (fun h => hc (Prod.mk.inj h).1)
      refine ih hpos ?_ hrest
      show (if t.pos = cursor then _ else t.mark) = none
      rw [if_neg (by omega), hmark]

end

end Repl89
