import EightyNine.Library.Run
import EightyNine.Repl89.Clusters
import EightyNine.Repl89.Render

/-!
# librepl89: runs of the editor

What is typed, pasted, recalled, deleted and moved over, in any order.  The bytes stay
allowed text and the cursor stays between two scalars.  It stays at a cluster boundary as
long as no insertion or deletion joins what is before the cursor to what is behind it
(`Clean`).
-/

namespace Repl89

open List Option

open Library (Run whileLoop whileLoop_keeps)
open U89 (text utf8Valid)

/-- The changes of the editor.  A recalled entry replaces the text, and a vertical move is
that of any terminal. -/
inductive EditOp where
  | insert (granted : Bool) (p : List UInt8)
  | load (granted : Bool) (p : List UInt8)
  | deletePrev
  | deleteNext
  | left
  | right
  | home
  | toEnd
  | killBegin
  | killEnd
  | vertical (v : View) (direction : Int) (want : Nat)

/-- `edit_load`. -/
def editLoad (u : Unicode) (granted : Bool) (e : Edit) (p : List UInt8) : Error × Edit :=
  e.reset.insert u granted p

/-- `vertical_move`, where the editor is concerned. -/
def verticalMove (u : Unicode) (v : View) (e : Edit) (direction : Int) (want : Nat) :
    Option Edit := do
  let vm ← layoutVertical u v e direction want
  match vm.target with
  | some (t, _) => return { e with cursor := t }
  | none => return e

/-- The editor after a change, unless a walk does not end. -/
def applyOp (u : Unicode) (e : Edit) : EditOp → Option Edit
  | .insert granted p => some (e.insert u granted p).2
  | .load granted p => some (editLoad u granted e p).2
  | .deletePrev => some (e.deletePrev u)
  | .deleteNext => some (e.deleteNext u)
  | .left => some (e.left u)
  | .right => some (e.right u)
  | .home => some e.home
  | .toEnd => some e.toEnd
  | .killBegin => some e.killBegin
  | .killEnd => some e.killEnd
  | .vertical v direction want => verticalMove u v e direction want

/-- One change. -/
def EditStep (u : Unicode) (e : Edit) (ops : List EditOp) (e' : Edit) : Prop :=
  ∃ op, ops = [op] ∧ applyOp u e op = some e'

/-- A cluster ends where `a` meets `b`. -/
def Breaks (u : Unicode) (a b : List UInt8) : Prop := u.graphemeBoundary (a ++ b) a.length = true

/-- An insertion or a deletion that joins nothing at the cursor. -/
def Clean (u : Unicode) (e : Edit) : EditOp → Prop
  | .insert granted p => contentCheck u p = .ok → (e.buf.reserve granted p.length).isSome →
      Breaks u (e.data.take e.cursor ++ p) (e.data.drop e.cursor)
  | .deletePrev => e.cursor ≠ 0 →
      Breaks u (e.data.take (u.graphemePrev e.data e.cursor)) (e.data.drop e.cursor)
  | .deleteNext => e.cursor < e.data.length →
      Breaks u (e.data.take e.cursor) (e.data.drop (u.graphemeNext e.data e.cursor))
  | _ => True

/-- A clean change. -/
def CleanStep (u : Unicode) (e : Edit) (ops : List EditOp) (e' : Edit) : Prop :=
  ∃ op, ops = [op] ∧ applyOp u e op = some e' ∧ Clean u e op

variable {u : Unicode} {v : View} {e e' : Edit} {p : List UInt8} {granted : Bool}
  {op : EditOp} {ops : List EditOp}

/-! ## Vertical moves -/

theorem vmoveBegin_pos {s b : VmoveState}
    (h : (if s.lineStart then vmoveLineStart u v s else some s) = some b) : b.pos = s.pos := by
  split at h
  · obtain ⟨col, -, hb⟩ := bind_eq_some_iff.mp h
    cases hb
    rfl
  · cases h
    rfl

theorem vmoveConsider_best (t : VmoveTarget) (off col : Nat) :
    (vmoveConsider t off col).best = off ∨ (vmoveConsider t off col).best = t.best := by
  unfold vmoveConsider
  dsimp only
  split
  · exact .inl rfl
  · split
    · exact .inl rfl
    · exact .inr rfl

section

variable (hu : u.Segments) (hd : utf8Valid e.data = true)
include hu hd

theorem vmoveScan_boundary {t t' : VmoveTarget} (ht : u.graphemeBoundary e.data t.best = true)
    (h : vmoveScan u v e t = some t') : u.graphemeBoundary e.data t'.best = true := by
  have hbest : ∀ (c : Prop) [Decidable c] (t : VmoveTarget) (off col : Nat),
      u.graphemeBoundary e.data off = true → u.graphemeBoundary e.data t.best = true →
      u.graphemeBoundary e.data (if c then vmoveConsider t off col else t).best = true := by
    intro c _ t off col hoff ht
    split
    · rcases vmoveConsider_best t off col with h | h <;> rw [h] <;> assumption
    · exact ht
  obtain ⟨⟨go, s, t1⟩, hloop, hend⟩ := bind_eq_some_iff.mp h
  have hkept : u.graphemeBoundary e.data s.pos = true ∧
      u.graphemeBoundary e.data t1.best = true := by
    refine whileLoop_keeps (P := fun st : Bool × VmoveState × VmoveTarget =>
      u.graphemeBoundary e.data st.2.1.pos = true ∧ u.graphemeBoundary e.data st.2.2.best = true)
      ?_ ⟨hu.zero _ hd, ht⟩ hloop
    rintro ⟨go, s, t⟩ st' ⟨hpos, hbt⟩ - hbody
    unfold vmoveScanStep at hbody
    dsimp only at hbody
    split at hbody
    · cases hbody
      exact ⟨hpos, hbt⟩
    · rename_i hlt
      obtain ⟨b, hb, hrest⟩ := bind_eq_some_iff.mp hbody
      cases hrest
      have hbpos := vmoveBegin_pos hb
      have hnext : u.graphemeBoundary e.data (u.graphemeNext e.data b.pos) = true :=
        hu.next_boundary _ _ hd (by omega)
      rw [← hbpos] at hpos
      exact ⟨hnext, hbest _ _ _ _ hnext (hbest _ _ _ _ hpos hbt)⟩
  unfold vmoveScanEnd at hend
  dsimp only at hend
  split at hend
  · obtain ⟨b, hb, hrest⟩ := bind_eq_some_iff.mp hend
    cases hrest
    have hbpos := vmoveBegin_pos hb
    rcases vmoveConsider_best t1 b.pos b.col with h | h <;> rw [h]
    · rw [hbpos]
      exact hkept.1
    · exact hkept.2
  · cases hend
    exact hkept.2

/-- A vertical move goes to a boundary, whatever the terminal and the prompts are. -/
theorem layoutVertical_boundary {direction : Int} {want : Nat} {vm : Vmove} {t col : Nat}
    (h : layoutVertical u v e direction want = some vm) (ht : vm.target = some (t, col)) :
    u.graphemeBoundary e.data t = true := by
  have hmove : ∀ (row want : Nat) (f : VmoveTarget → Vmove),
      (∀ t', (f t').target = some (t'.best, t'.bestCol)) →
      (vmoveScan u v e ⟨row, want, 0, 0, 0, false⟩).map f = some vm →
      u.graphemeBoundary e.data t = true := by
    intro row want f hf hmap
    obtain ⟨t', hscan, rfl⟩ := map_eq_some_iff.mp hmap
    rw [hf] at ht
    cases ht
    exact vmoveScan_boundary (t := ⟨row, want, 0, 0, 0, false⟩) hu hd (hu.zero _ hd) hscan
  obtain ⟨s, -, hrest⟩ := bind_eq_some_iff.mp h
  dsimp only at hrest
  split at hrest
  · split at hrest
    · cases hrest
      cases ht
    · exact hmove _ _ _ (fun _ => rfl) (map_eq_bind.trans hrest)
  · split at hrest
    · cases hrest
      cases ht
    · exact hmove _ _ _ (fun _ => rfl) (map_eq_bind.trans hrest)

end

/-! ## One change -/

/-- An insertion succeeds for allowed text for which there is room. -/
theorem Edit.insert_ok_iff : (e.insert u granted p).1 = .ok ↔
    contentCheck u p = .ok ∧ (e.buf.reserve granted p.length).isSome := by
  have hbuf : (e.buf.insert granted e.cursor p).1 = .ok ↔
      (e.buf.reserve granted p.length).isSome = true := by
    unfold Buf.insert
    split
    · rename_i hp
      rw [hp, Buf.reserve, dif_pos (Nat.zero_le _)]
      exact iff_of_true rfl rfl
    · split <;> rename_i hres <;> simp [hres]
  unfold Edit.insert
  cases hc : contentCheck u p with
  | ok =>
    dsimp only
    cases hins : e.buf.insert granted e.cursor p with
    | mk err b =>
      rw [hins] at hbuf
      cases err <;> simpa using hbuf
  | _ => simp

theorem editLoad_sound (granted : Bool) (e : Edit) (p : List UInt8) :
    (editLoad u granted e p).2.Sound u :=
  (Edit.reset_sound e).insert granted p

theorem editLoad_end (granted : Bool) (e : Edit) (p : List UInt8) :
    (editLoad u granted e p).2.cursor = (editLoad u granted e p).2.data.length := by
  by_cases hok : (e.reset.insert u granted p).1 = .ok
  · obtain ⟨-, hdata, hcur⟩ := Edit.insert_ok hok
    rw [editLoad, hdata, hcur]
    simp [Edit.typed, Edit.reset, Edit.data, Buf.clear]
  · rw [editLoad, Edit.insert_err hok]
    rfl

theorem verticalMove_cases {direction : Int} {want : Nat}
    (h : verticalMove u v e direction want = some e') :
    e' = e ∨ ∃ vm t col, layoutVertical u v e direction want = some vm ∧
      vm.target = some (t, col) ∧ e' = { e with cursor := t } := by
  obtain ⟨vm, hvm, hrest⟩ := bind_eq_some_iff.mp h
  cases ht : vm.target with
  | none =>
    rw [ht] at hrest
    cases hrest
    exact .inl rfl
  | some x =>
    rw [ht] at hrest
    cases hrest
    exact .inr ⟨vm, _, _, hvm, ht, rfl⟩

section

variable (hu : u.Segments)
include hu

/-- Every change keeps the text allowed and the cursor between two scalars. -/
theorem applyOp_sound (hs : e.Sound u) (h : applyOp u e op = some e') : e'.Sound u := by
  cases op with
  | insert granted p => cases h; exact hs.insert granted p
  | load granted p => cases h; exact editLoad_sound granted e p
  | deletePrev => cases h; exact hs.deletePrev hu
  | deleteNext => cases h; exact hs.deleteNext hu
  | left => cases h; exact hs.left hu
  | right => cases h; exact hs.right hu
  | home => cases h; exact hs.home hu
  | toEnd => cases h; exact hs.toEnd hu
  | killBegin => cases h; exact hs.killBegin hu
  | killEnd => cases h; exact hs.killEnd hu
  | vertical v direction want =>
    rcases verticalMove_cases h with rfl | ⟨vm, t, col, hvm, ht, rfl⟩
    · exact hs
    · exact ⟨hs.content, hu.between _ _ hs.content.valid
        (layoutVertical_boundary hu hs.content.valid hvm ht)⟩

omit hu in
/-- A cut between two scalars leaves the cursor where the two parts meet. -/
theorem cut_boundary_iff {e : Edit} {a b : Nat} (hab : a ≤ b) (ha : a ≤ e.data.length) :
    Edit.OnBoundary u ⟨e.buf.delete a (b - a), a⟩ ↔
      Breaks u (e.data.take a) (e.data.drop b) := by
  have hdata : Edit.data ⟨e.buf.delete a (b - a), a⟩ = e.data.take a ++ e.data.drop b := by
    rw [Edit.data, Buf.delete_data, Nat.add_sub_cancel' hab]
    rfl
  rw [Edit.OnBoundary, Breaks, hdata, length_take, Nat.min_eq_left ha]

omit hu in
/-- An insertion leaves the cursor where the inserted text meets what is behind it. -/
theorem insert_boundary_iff (hs : e.Sound u) (hb : e.OnBoundary u) :
    (e.insert u granted p).2.OnBoundary u ↔ Clean u e (.insert granted p) := by
  by_cases hok : (e.insert u granted p).1 = .ok
  · obtain ⟨-, hdata, hcur⟩ := Edit.insert_ok hok
    obtain ⟨hc, hroom⟩ := Edit.insert_ok_iff.mp hok
    have hlen : e.cursor + p.length = (e.data.take e.cursor ++ p).length := by
      rw [length_append, length_take, Nat.min_eq_left hs.le]
    rw [Edit.OnBoundary, hdata, hcur, hlen]
    exact ⟨fun h _ _ => h, fun h => h hc hroom⟩
  · rw [Edit.insert_err hok]
    exact ⟨fun _ hc hroom => absurd (Edit.insert_ok_iff.mpr ⟨hc, hroom⟩) hok, fun _ => hb⟩

/-- In front of a killed line there is the start or a line feed. -/
theorem killBegin_boundary (hs : e.Sound u) : e.killBegin.OnBoundary u := by
  have hvalid := (hs.killBegin hu).content.valid
  have hle := lineBeginLoop_le e.data e.cursor
  have hcur := hs.le
  have hdata : e.killBegin.data = e.data.take (lineBegin e) ++ e.data.drop e.cursor := by
    have hsum : lineBegin e + (e.cursor - lineBegin e) = e.cursor := Nat.add_sub_cancel' hle
    rw [Edit.killBegin, Edit.data, Buf.delete_data, hsum]
    rfl
  show u.graphemeBoundary e.killBegin.data (lineBegin e) = true
  rcases lineBeginLoop_after hs.le with h0 | ⟨k, hk, hk1⟩
  · rw [lineBegin, h0]
    exact hu.zero _ hvalid
  · have hbegin : lineBegin e = k + 1 := hk1
    rw [hbegin]
    refine hu.after_lf _ _ hvalid ?_
    rw [hdata, hbegin, getElem?_append_left (by
      rw [length_take]
      have : lineBegin e ≤ e.cursor := hle
      omega), getElem?_take_of_lt (Nat.lt_succ_self k)]
    exact hk

/-- Behind a killed line there is the end or a line feed. -/
theorem killEnd_boundary (hs : e.Sound u) : e.killEnd.OnBoundary u := by
  have hsound := hs.killEnd hu
  have hge := lineEndLoop_ge e.data (e.data.length - e.cursor) e.cursor
  have hcur := hs.le
  have hdata : e.killEnd.data = e.data.take e.cursor ++ e.data.drop (lineEnd e) := by
    have hsum : e.cursor + (lineEnd e - e.cursor) = lineEnd e := Nat.add_sub_cancel' hge
    rw [Edit.killEnd, Edit.data, Buf.delete_data, hsum]
    rfl
  show u.graphemeBoundary e.killEnd.data e.cursor = true
  have hlen : (e.data.take e.cursor).length = e.cursor := by
    rw [length_take, Nat.min_eq_left hcur]
  rcases lineEndLoop_before (s := e.data) (i := e.cursor) (k := e.data.length - e.cursor)
    (by omega) with hend | hlf
  · have hall : e.killEnd.data.length = e.cursor := by
      rw [hdata, lineEnd, hend, drop_length, append_nil, hlen]
    have hstop := hu.stop _ hsound.content.valid
    rwa [hall] at hstop
  · refine hu.before_lf _ _ hsound.content.valid ?_ (hsound.content.no_cr hu)
    rw [hdata, getElem?_append_right (by omega), hlen, Nat.sub_self, getElem?_drop,
      Nat.add_zero]
    exact hlf

/-- From a boundary a change leads to a boundary if it is clean, and only then. -/
theorem applyOp_boundary (hs : e.Sound u) (hb : e.OnBoundary u) (h : applyOp u e op = some e') :
    e'.OnBoundary u ↔ Clean u e op := by
  have hvalid := hs.content.valid
  have hle := hs.le
  cases op with
  | insert granted p => cases h; exact insert_boundary_iff hs hb
  | load granted p =>
    cases h
    refine iff_of_true ?_ trivial
    rw [Edit.OnBoundary, editLoad_end]
    exact hu.stop _ (editLoad_sound granted e p).content.valid
  | deletePrev =>
    cases h
    rw [Clean, Edit.deletePrev]
    split
    · rename_i h0
      exact ⟨fun _ h => absurd h0 h, fun _ => hb⟩
    · rename_i h0
      have hlt := hu.prev_lt _ _ hvalid (Nat.pos_of_ne_zero h0) hle
      rw [cut_boundary_iff (Nat.le_of_lt hlt) (by omega)]
      exact ⟨fun h _ => h, fun h => h h0⟩
  | deleteNext =>
    cases h
    rw [Clean, Edit.deleteNext]
    split
    · rename_i hge
      exact ⟨fun _ h => absurd hge (Nat.not_le_of_lt h), fun _ => hb⟩
    · rename_i hge
      have hgt := hu.next_gt _ _ hvalid (Nat.lt_of_not_le hge)
      rw [cut_boundary_iff (Nat.le_of_lt hgt) hle]
      exact ⟨fun h _ => h, fun h => h (Nat.lt_of_not_le hge)⟩
  | left =>
    cases h
    refine iff_of_true ?_ trivial
    unfold Edit.left
    split
    · exact hb
    · exact hu.prev_boundary _ _ hvalid (Nat.pos_of_ne_zero ‹_›) hle
  | right =>
    cases h
    refine iff_of_true ?_ trivial
    unfold Edit.right
    split
    · exact hb
    · exact hu.next_boundary _ _ hvalid (Nat.lt_of_not_le ‹_›)
  | home => cases h; exact iff_of_true (hs.lineBegin_boundary hu) trivial
  | toEnd => cases h; exact iff_of_true (hs.lineEnd_boundary hu) trivial
  | killBegin => cases h; exact iff_of_true (killBegin_boundary hu hs) trivial
  | killEnd => cases h; exact iff_of_true (killEnd_boundary hu hs) trivial
  | vertical v direction want =>
    refine iff_of_true ?_ trivial
    rcases verticalMove_cases h with rfl | ⟨vm, t, col, hvm, ht, rfl⟩
    · exact hb
    · exact layoutVertical_boundary hu hvalid hvm ht

/-! ## Runs -/

theorem run_sound (h : Run (EditStep u) Edit.init ops e) : e.Sound u :=
  h.inv (I := fun e => e.Sound u) Edit.init_sound
    fun _ _ _ hs ⟨_, _, happly⟩ => applyOp_sound hu hs happly

theorem run_boundary (h : Run (CleanStep u) Edit.init ops e) : e.Sound u ∧ e.OnBoundary u :=
  h.inv (I := fun e => e.Sound u ∧ e.OnBoundary u)
    ⟨Edit.init_sound, hu.zero _ (Edit.init_sound (u := u)).content.valid⟩
    fun _ _ _ hs ⟨_, _, happly, hclean⟩ =>
      ⟨applyOp_sound hu hs.1 happly, (applyOp_boundary hu hs.1 hs.2 happly).mpr hclean⟩

end

/-- Every run keeps allowed text and the cursor within it.  The cursor is at a boundary as long
as the changes are clean, and leaves the boundaries with the first one that is not. -/
theorem editor_kept (u : Unicode) (hu : u.Segments) :
    (∀ ops e, Run (EditStep u) Edit.init ops e →
      e.Sound u ∧ utf8Valid e.data = true ∧ e.cursor ≤ e.data.length) ∧
    (∀ ops e, Run (CleanStep u) Edit.init ops e → e.OnBoundary u) ∧
    ∀ ops e op e', Run (CleanStep u) Edit.init ops e → applyOp u e op = some e' →
      (e'.OnBoundary u ↔ Clean u e op) :=
  ⟨fun _ _ h => ⟨run_sound hu h, (run_sound hu h).content.valid, (run_sound hu h).le⟩,
    fun _ _ h => (run_boundary hu h).2,
    fun _ _ _ _ h happly => applyOp_boundary hu (run_boundary hu h).1 (run_boundary hu h).2 happly⟩

theorem content_marks {c : Char} (hc : allowedControl marks c.toNat = true) :
    Content marks (text [c]) :=
  ⟨[c], rfl, by simpa only [mem_singleton, forall_eq] using hc⟩

/-- A letter and an accent on it: the cursor is behind both. -/
theorem editor_kept_marks : ∃ ops e, Run (CleanStep marks) Edit.init ops e ∧
    e.data = text ['e', '\u0301'] ∧ e.OnBoundary marks := by
  obtain ⟨-, hdata, hcur⟩ := Edit.insert_ok
    (Edit.insert_granted (e := Edit.init) (content_marks (c := 'e') rfl))
  generalize hletter : (Edit.init.insert marks true (text ['e'])).2 = letter at hdata hcur
  obtain ⟨-, hdata', -⟩ := Edit.insert_ok
    (Edit.insert_granted (e := letter) (content_marks (c := '\u0301') rfl))
  have hrun : Run (CleanStep marks) Edit.init
      (([] ++ [.insert true (text ['e'])]) ++ [.insert true (text ['\u0301'])])
      (letter.insert marks true (text ['\u0301'])).2 := by
    refine .snoc (.snoc .refl ⟨_, rfl, congrArg some hletter, fun _ _ => ?_⟩)
      ⟨_, rfl, rfl, fun _ _ => ?_⟩
    · rw [Breaks]
      decide
    · rw [Breaks, hdata, hcur]
      decide
  refine ⟨_, _, hrun, ?_, (editor_kept marks marks_segments).2.1 _ _ hrun⟩
  rw [hdata', Edit.typed, hdata, hcur]
  decide

/-- An accent, home, and a letter before the accent: the cursor is inside the cluster. -/
theorem not_editor_kept :
    ¬ ∀ (u : Unicode), u.Segments → ∀ ops e, Run (EditStep u) Edit.init ops e →
      e.Sound u ∧ e.OnBoundary u := by
  intro h
  have haccent : Content marks (text ['\u0301']) := content_marks rfl
  have hletter : Content marks (text ['e']) := content_marks rfl
  obtain ⟨-, hdata, hcur⟩ :=
    Edit.insert_ok (Edit.insert_granted (u := marks) (e := Edit.init) haccent)
  generalize haccented : (Edit.init.insert marks true (text ['\u0301'])).2 = accented at hdata hcur
  have hhome : accented.home.cursor = 0 := by
    show lineBeginLoop accented.data accented.cursor = 0
    rw [hdata, hcur]
    decide
  obtain ⟨-, hdata', hcur'⟩ :=
    Edit.insert_ok (Edit.insert_granted (u := marks) (e := accented.home) hletter)
  have hrun : Run (EditStep marks) Edit.init
      ((([] ++ [.insert true (text ['\u0301'])]) ++ [.home]) ++ [.insert true (text ['e'])])
      (accented.home.insert marks true (text ['e'])).2 :=
    .snoc (.snoc (.snoc .refl ⟨_, rfl, congrArg some haccented⟩) ⟨_, rfl, rfl⟩) ⟨_, rfl, rfl⟩
  have hb := (h marks marks_segments _ _ hrun).2
  have hold : accented.home.data = text ['\u0301'] := hdata
  rw [Edit.OnBoundary, hdata', hcur', Edit.typed, hhome, hold] at hb
  exact absurd hb (by decide)

end Repl89
