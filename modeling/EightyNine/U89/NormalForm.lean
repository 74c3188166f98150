import EightyNine.U89.Normalize
import Mathlib.Data.List.DropRight

/-!
# Normal forms

What the normalizer puts into its workspace, as lists of scalars: decompositions,
runs of marks in the order of their classes, and pairs composed.  The passes over
the workspace do the same in place (`reorder_holds`, `compose_holds`), write below
what they were given, and never make it longer.
-/

namespace U89

open List

open Library (Block)

variable (T : Tables)

/-! ## Lists of scalars -/

/-- The scalars that stand for a scalar. -/
def decomposition (compat : Bool) (cp : Nat) : List Nat := (decomposeOne T cp compat 32).getD []

/-- A mark goes behind the marks of its run whose class is not greater. -/
def insertByClass (cp : Nat) (run : List Nat) : List Nat :=
  run.rdropWhile (fun x => getCcc T cp < getCcc T x) ++
    cp :: run.rtakeWhile (fun x => getCcc T cp < getCcc T x)

/-- The canonical order, after a run of marks that are already in order. -/
def canonicalOrder (run : List Nat) : List Nat → List Nat
  | [] => run
  | cp :: cps =>
    if getCcc T cp = 0 then run ++ cp :: canonicalOrder [] cps
    else canonicalOrder (insertByClass T cp run) cps

/-- A composition under way: the scalars so far, and the last starter among them. -/
structure Composing where
  out : List Nat
  starter : Nat
  has : Bool
  adj : Bool
  last : Int

/-- What the scalar and the last starter compose into, when nothing blocks them. -/
def Composing.join (c : Composing) (cp : Nat) : Option Nat :=
  if c.has && compAllowed c.adj c.last (getCcc T cp) then
    composePair T (c.out.getD c.starter 0) cp
  else none

/-- A scalar is composed with the last starter, or comes after the scalars so far. -/
def Composing.next (c : Composing) (cp : Nat) : Composing :=
  match c.join T cp with
  | some res => { c with out := c.out.set c.starter res, adj := true, last := 0 }
  | none =>
    if getCcc T cp = 0 then ⟨c.out ++ [cp], c.out.length, true, true, 0⟩
    else { c with out := c.out ++ [cp], adj := false, last := getCcc T cp }

/-- Before the first scalar. -/
def Composing.start : Composing := ⟨[], 0, false, false, 0⟩

/-- The scalars with the pairs composed. -/
def composition (cps : List Nat) : List Nat := (cps.foldl (Composing.next T) .start).out

/-- The normal form of a sequence of scalars. -/
def normalForm (mode : Int) (cps : List Nat) : List Nat :=
  let ordered := canonicalOrder T [] (cps.flatMap (decomposition T (formCompat mode)))
  if formCompose mode then composition T ordered else ordered

/-- The bytes a sequence of scalars takes. -/
def utf8Size (cps : List Nat) : Nat := (cps.flatMap utf8Encode).length

/-! ## Decompositions -/

variable {T} {w : Block Nat} {pre post run l : List Nat} {cp n : Nat} {compat : Bool}

theorem findRow_mem {rows : List Mapping} {row : Mapping} (h : findRow rows cp = some row) :
    row ∈ rows := by
  induction rows with
  | nil => cases h
  | cons r rows ih =>
    rw [findRow] at h
    split at h
    · cases h
    · split at h
      · exact mem_cons_of_mem _ (ih h)
      · cases h
        exact mem_cons_self

theorem hangulDecomp_fits (cp : Nat) : ∃ l, hangulDecomp cp 32 = some l ∧ l.length ≤ 3 := by
  unfold hangulDecomp
  split
  · exact ⟨[], rfl, by simp⟩
  · dsimp only
    split
    · exact ⟨_, rfl, le_rfl⟩
    · exact ⟨_, rfl, by simp⟩

theorem decomposeOne_fits (cp : Nat) (compat : Bool) :
    decomposeOne T cp compat 32 = some (decomposition T compat cp) ∧
      (decomposition T compat cp).length ≤ 18 := by
  suffices h : ∃ l, decomposeOne T cp compat 32 = some l ∧ l.length ≤ 18 by
    obtain ⟨l, hl, hlen⟩ := h
    rw [decomposition, hl]
    exact ⟨rfl, hlen⟩
  obtain ⟨l, hl, hlen⟩ := hangulDecomp_fits cp
  unfold decomposeOne
  rw [hl]
  cases l with
  | cons c cs => exact ⟨_, rfl, by omega⟩
  | nil =>
    dsimp only
    split
    · exact ⟨[cp], rfl, by simp⟩
    · rename_i row hrow
      have hmem : row ∈ T.canon ++ T.compat ++ T.casefoldMap ++ T.casefoldTurkicMap := by
        have := findRow_mem hrow
        cases compat <;> simp_all
      have hsmall := T.small row hmem
      refine ⟨T.scalars row, ?_, ?_⟩
      · rw [decompEmit, if_neg (by omega)]
      · rw [Tables.scalars, length_map, length_range]
        exact hsmall

theorem decompositions_length (cps : List Nat) :
    (cps.flatMap (decomposition T compat)).length ≤ 18 * cps.length := by
  induction cps with
  | nil => simp
  | cons cp cps ih =>
    have := (decomposeOne_fits (T := T) cp compat).2
    rw [flatMap_cons, length_append, length_cons]
    omega

/-! ## Reordering in place -/

theorem sortInsert_holds (h : w.Holds (pre ++ (run ++ cp :: post))) (hw : w.Within n)
    (hn : pre.length + run.length < n) :
    (sortInsert T w (pre.length + run.length) pre.length).Holds
        (pre ++ (insertByClass T cp run ++ post)) ∧
      (sortInsert T w (pre.length + run.length) pre.length).Within n := by
  induction run using reverseRecOn generalizing w post with
  | nil =>
    rw [sortInsert, if_neg (by simp)]
    exact ⟨h, hw⟩
  | append_singleton run y ih =>
    have hb : pre.length + (run ++ [y]).length = (pre ++ run ++ [y]).length := by simp
    have hb' : (pre ++ run ++ [y]).length - 1 = (pre ++ run).length := by simp
    have hcp : w.get (pre ++ run ++ [y]).length = cp := by
      have h' : w.Holds (pre ++ run ++ [y] ++ cp :: post) := by simpa using h
      exact h'.get
    have hy : w.get (pre ++ run).length = y := by
      have h' : w.Holds (pre ++ run ++ y :: cp :: post) := by simpa using h
      exact h'.get
    rw [sortInsert, if_pos (by simp), hb]
    unfold sortStep
    rw [if_neg (by simp), hb', hcp, hy]
    rw [hb] at hn
    split
    · rename_i hge
      rw [sortInsert, if_neg (lt_irrefl _), insertByClass, rdropWhile_concat_neg _ _ _ (by simpa using hge),
        rtakeWhile_concat_neg _ _ _ (by simpa using hge)]
      exact ⟨by simpa using h, hw⟩
    · rename_i hlt
      have h1 : (w.put (pre ++ run ++ [y]).length y).Holds (pre ++ run ++ [y] ++ y :: post) :=
        Block.Holds.put (x := cp) (by simpa using h)
      have h2 : ((w.put (pre ++ run ++ [y]).length y).put (pre ++ run).length cp).Holds
          (pre ++ run ++ cp :: y :: post) :=
        Block.Holds.put (x := y) (by simpa using h1)
      have h3 : ((w.put (pre ++ run ++ [y]).length y).put (pre ++ run).length cp).Holds
          (pre ++ (run ++ cp :: y :: post)) := by simpa using h2
      have hnext := ih h3 ((hw.put hn).put (by simp at hn ⊢; omega)) (by simp at hn ⊢; omega)
      rw [length_append]
      rw [insertByClass, rdropWhile_concat_pos _ _ _ (by simpa using hlt),
        rtakeWhile_concat_pos _ _ _ (by simpa using hlt)]
      rw [insertByClass] at hnext
      simpa [Nat.add_assoc] using hnext

/-- A run put in order, one mark after the other. -/
def orderRun (T : Tables) (run : List Nat) : List Nat :=
  run.foldl (fun done cp => insertByClass T cp done) []

theorem insertByClass_length (cp : Nat) (run : List Nat) :
    (insertByClass T cp run).length = run.length + 1 := by
  have h := congrArg length (rdropWhile_append_rtakeWhile
    (p := fun x => decide (getCcc T cp < getCcc T x)) (l := run))
  rw [length_append] at h
  rw [insertByClass, length_append, length_cons]
  omega

theorem foldl_insertByClass_length (done run : List Nat) :
    (run.foldl (fun done cp => insertByClass T cp done) done).length = done.length + run.length := by
  induction run generalizing done with
  | nil => rfl
  | cons cp run ih =>
    rw [foldl_cons, ih, insertByClass_length, length_cons]
    omega

theorem orderRun_length (run : List Nat) : (orderRun T run).length = run.length := by
  rw [orderRun, foldl_insertByClass_length]
  exact Nat.zero_add _

theorem sortRun_holds (h : w.Holds (pre ++ (run ++ post))) (hw : w.Within n)
    (hn : pre.length + run.length ≤ n) (hrun : run ≠ []) :
    (sortRun T w pre.length (pre.length + run.length)).Holds (pre ++ (orderRun T run ++ post)) ∧
      (sortRun T w pre.length (pre.length + run.length)).Within n := by
  obtain ⟨x, rest, rfl⟩ := exists_cons_of_ne_nil hrun
  -- up to the mark that the loop is at, the run is in order
  have hloop : ∃ done todo, x :: rest = done ++ todo ∧
      pre.length + (x :: rest).length = pre.length + done.length ∧
      (sortRun T w pre.length (pre.length + (x :: rest).length)).Holds
        (pre ++ (orderRun T done ++ (todo ++ post))) ∧
      (sortRun T w pre.length (pre.length + (x :: rest).length)).Within n := by
    unfold sortRun
    refine Library.forUp_inv (P := fun a (w : Block Nat) => ∃ done todo, x :: rest = done ++ todo ∧
      a = pre.length + done.length ∧ w.Holds (pre ++ (orderRun T done ++ (todo ++ post))) ∧
      w.Within n) (by simp) ⟨[x], rest, rfl, rfl, by simpa [orderRun, insertByClass] using h, hw⟩ ?_
    rintro a w - ha ⟨done, todo, hrest, rfl, h, hw⟩
    have hlen := congrArg length hrest
    rw [length_append] at hlen
    cases todo with
    | nil =>
      rw [length_nil] at hlen
      omega
    | cons cp todo =>
      have htodo : (cp :: todo).length = todo.length + 1 := rfl
      rw [htodo] at hlen
      have hlt : pre.length + (orderRun T done).length < n := by
        rw [orderRun_length]
        omega
      have hins := sortInsert_holds (T := T) h hw hlt
      rw [orderRun_length] at hins
      refine ⟨done ++ [cp], todo, by simp [hrest], by simp [Nat.add_assoc], ?_, hins.2⟩
      rw [orderRun, foldl_append]
      exact hins.1
  obtain ⟨done, todo, hrest, hlen, h, hw⟩ := hloop
  have hlen' := congrArg length hrest
  rw [length_append] at hlen'
  obtain rfl : todo = [] := length_eq_zero_iff.mp (by omega)
  rw [append_nil] at hrest
  rw [← hrest] at h
  exact ⟨h, hw⟩

/-- The rest of a text after a run of marks: it is over, or goes on with a starter. -/
def RunEnds (T : Tables) (post : List Nat) : Prop := ∀ cp ∈ post.head?, getCcc T cp = 0

theorem canonicalOrder_run (hrun : ∀ cp ∈ run, getCcc T cp ≠ 0) (hpost : RunEnds T post)
    (done : List Nat) : canonicalOrder T done (run ++ post) =
      run.foldl (fun done cp => insertByClass T cp done) done ++ canonicalOrder T [] post := by
  induction run generalizing done with
  | nil =>
    cases post with
    | nil => simp [canonicalOrder]
    | cons cp post =>
      have hcp : getCcc T cp = 0 := hpost cp rfl
      simp [canonicalOrder, hcp]
  | cons cp run ih =>
    have hcp := hrun cp mem_cons_self
    rw [cons_append, canonicalOrder, if_neg hcp,
      ih fun x hx => hrun x (mem_cons_of_mem _ hx), foldl_cons]

theorem runEnd_eq (h : w.Holds (pre ++ (run ++ post))) (hrun : ∀ cp ∈ run, getCcc T cp ≠ 0)
    (hpost : RunEnds T post) :
    runEnd T w (pre ++ (run ++ post)).length pre.length = pre.length + run.length := by
  induction run generalizing pre with
  | nil =>
    rw [runEnd]
    cases post with
    | nil => simp
    | cons cp post =>
      have hcp : getCcc T cp = 0 := hpost cp rfl
      rw [if_neg (by simp), h.get, if_pos hcp]
      rfl
  | cons cp run ih =>
    have hcp := hrun cp mem_cons_self
    have h' : w.Holds (pre ++ [cp] ++ (run ++ post)) := by simpa using h
    have hnext := ih h' fun x hx => hrun x (mem_cons_of_mem _ hx)
    rw [runEnd, if_neg (by simp), Block.Holds.get h, if_neg hcp]
    simp at hnext ⊢
    omega

/-- The marks after each starter are put in order. -/
theorem reorderFrom_holds (h : w.Holds (pre ++ l)) (hw : w.Within n)
    (hn : (pre ++ l).length ≤ n) :
    (reorderFrom T w (pre ++ l).length pre.length).Holds (pre ++ canonicalOrder T [] l) ∧
      (reorderFrom T w (pre ++ l).length pre.length).Within n := by
  induction hk : l.length using Nat.strong_induction_on generalizing l pre w with
  | _ k ih =>
  subst hk
  cases l with
  | nil =>
    rw [reorderFrom, if_neg (by simp)]
    exact ⟨h, hw⟩
  | cons cp l =>
    rw [reorderFrom, if_pos (by simp)]
    rcases eq_or_ne (getCcc T cp) 0 with hcp | hcp
    · have hadv : reorderAdvance T w (pre ++ cp :: l).length pre.length =
          (w, (pre ++ [cp]).length) := by
        rw [reorderAdvance, h.get, if_pos hcp]
        simp
      have h' : w.Holds (pre ++ [cp] ++ l) := by simpa using h
      have hnext := ih l.length (by simp) h' hw (by simpa using hn) rfl
      rw [hadv, canonicalOrder, if_pos hcp]
      simpa using hnext
    · -- the marks from here on are one run, and what follows them is no mark
      obtain ⟨run, post, hl, hrun, hpost⟩ : ∃ run post, cp :: l = run ++ post ∧
          (∀ x ∈ run, getCcc T x ≠ 0) ∧ RunEnds T post := by
        refine ⟨(cp :: l).takeWhile (fun x => getCcc T x ≠ 0),
          (cp :: l).dropWhile (fun x => getCcc T x ≠ 0), by simp, ?_, ?_⟩
        · intro x hx
          simpa using mem_takeWhile_imp hx
        · intro x hx
          have := head?_dropWhile_not (fun x => decide (getCcc T x ≠ 0)) (cp :: l)
          rw [hx] at this
          simpa using this
      have hne : run ≠ [] := by
        rintro rfl
        have := hpost cp (by rw [← nil_append post, ← hl]; rfl)
        exact hcp this
      have hpos := length_pos_iff.mpr hne
      rw [hl] at h hn ⊢
      have hget : w.get pre.length = cp := by
        rw [← hl] at h
        exact h.get
      have hadv : reorderAdvance T w (pre ++ (run ++ post)).length pre.length =
          (sortRun T w pre.length (pre.length + run.length), (pre ++ orderRun T run).length) := by
        rw [reorderAdvance, hget, if_neg hcp, runEnd_eq h hrun hpost, length_append,
          orderRun_length]
      have hsort := sortRun_holds (T := T) h hw (by simp at hn; omega) hne
      have hlen : (pre ++ (run ++ post)).length = (pre ++ orderRun T run ++ post).length := by
        simp [orderRun_length]
      have hk : (cp :: l).length = run.length + post.length := by rw [hl, length_append]
      have h' : (sortRun T w pre.length (pre.length + run.length)).Holds
          (pre ++ orderRun T run ++ post) := by simpa using hsort.1
      have hnext := ih post.length (by omega) h' hsort.2 (hlen ▸ hn) rfl
      rw [hadv, hlen, canonicalOrder_run hrun hpost, ← orderRun]
      simpa using hnext

theorem reorder_holds (h : w.Holds l) (hw : w.Within n) (hn : l.length ≤ n) :
    (reorder T w l.length).Holds (canonicalOrder T [] l) ∧ (reorder T w l.length).Within n := by
  rw [← nil_append l] at h hn
  exact reorderFrom_holds h hw hn

/-! ## Composing in place -/

variable {c : Composing} {i : Nat}

/-- The state of the pass that has got this far. -/
def Composing.cst (c : Composing) : Cst := ⟨c.out.length, c.starter, c.has, c.adj, c.last⟩

/-- The starter is among the scalars so far. -/
def Composing.Ok (c : Composing) : Prop := c.has = true → c.starter < c.out.length

theorem composeTry_eq (h : w.Holds c.out) (hok : c.Ok) (ch : Nat) :
    composeTry T w ch c.cst = c.join T ch := by
  have hget : c.has = true → w.get c.starter = c.out.getD c.starter 0 := by
    intro hhas
    have hlt := hok hhas
    rw [h c.starter _ (getElem?_eq_getElem hlt), getD_eq_getElem?_getD,
      getElem?_eq_getElem hlt, Option.getD_some]
  have htry : composeTry T w ch c.cst =
      if (if c.has then compAllowed c.adj c.last (getCcc T ch) else false) then
        composePair T (w.get c.starter) ch
      else none := rfl
  rw [htry, Composing.join]
  cases hhas : c.has with
  | false => simp only [Bool.false_eq_true, if_false, Bool.false_and]
  | true => simp only [hget hhas, if_true, Bool.true_and]

theorem has_of_join {res ch : Nat} (h : c.join T ch = some res) : c.has = true := by
  by_contra hno
  rw [Bool.not_eq_true] at hno
  rw [Composing.join, hno] at h
  cases h

theorem next_length (c : Composing) (cp : Nat) : (c.next T cp).out.length ≤ c.out.length + 1 := by
  unfold Composing.next
  split
  · simp
  · split <;> simp

theorem foldl_next_length (c : Composing) (l : List Nat) :
    (l.foldl (Composing.next T) c).out.length ≤ c.out.length + l.length := by
  induction l generalizing c with
  | nil => exact le_rfl
  | cons cp l ih =>
    have h := next_length (T := T) c cp
    have hnext := ih (c.next T cp)
    rw [foldl_cons, length_cons]
    omega

theorem composition_length (l : List Nat) : (composition T l).length ≤ l.length := by
  have h := foldl_next_length (T := T) .start l
  rwa [Composing.start, length_nil, Nat.zero_add] at h

/-- A step of the pass, when the workspace holds the scalars so far. -/
theorem composeStep_holds (h : w.Holds c.out) (hw : w.Within n) (hok : c.Ok)
    (hi : c.out.length ≤ i) (hn : i < n) :
    (composeStep T w i c.cst).2 = (c.next T (w.get i)).cst ∧
      (composeStep T w i c.cst).1.Holds (c.next T (w.get i)).out ∧
      (composeStep T w i c.cst).1.Within n ∧ (c.next T (w.get i)).Ok ∧
      ∀ k, i < k → (composeStep T w i c.cst).1.get k = w.get k := by
  rw [composeStep, composeTry_eq h hok, Composing.next]
  cases hjoin : c.join T (w.get i) with
  | some res =>
    have hlt := hok (has_of_join hjoin)
    refine ⟨by simp [compCommit, Composing.cst], h.set hlt, hw.put (lt_trans hlt (by omega)),
      fun _ => by simpa using hlt, fun k hk => ?_⟩
    exact Block.get_put_of_ne (by show k ≠ c.starter; omega)
  | none =>
    dsimp only
    unfold compEmit
    dsimp only
    split
    · refine ⟨by simp [cstStarter, Composing.cst], h.snoc, hw.put (lt_of_le_of_lt hi hn),
        fun _ => by simp, fun k hk => ?_⟩
      exact Block.get_put_of_ne (by show k ≠ c.out.length; omega)
    · refine ⟨by simp [cstMark, Composing.cst], h.snoc, hw.put (lt_of_le_of_lt hi hn),
        fun hhas => ?_, fun k hk => ?_⟩
      · have := hok hhas
        simp
        omega
      · exact Block.get_put_of_ne (by show k ≠ c.out.length; omega)

theorem compose_holds (h : w.Holds l) (hw : w.Within n) (hn : l.length ≤ n) :
    (compose T w l.length).1.Holds (composition T l) ∧
      (compose T w l.length).2 = (composition T l).length ∧
      (compose T w l.length).1.Within n := by
  -- the scalars before the one the loop is at are composed, the others are as before
  have hloop := Library.forUp_inv
    (P := fun i (r : Block Nat × Cst) => ∃ done todo, l = done ++ todo ∧ i = done.length ∧
      r.2 = (done.foldl (Composing.next T) .start).cst ∧
      r.1.Holds (done.foldl (Composing.next T) .start).out ∧ r.1.Within n ∧
      (done.foldl (Composing.next T) .start).Ok ∧
      ∀ k x, todo[k]? = some x → r.1.get (done.length + k) = x)
    (f := fun i r => composeStep T r.1 i r.2) (s := (w, cstInit)) (Nat.zero_le l.length)
    ⟨[], l, rfl, rfl, rfl, Block.holds_nil, hw, (fun hhas => by cases hhas),
      fun k x hx => by rw [length_nil, Nat.zero_add]; exact h k x hx⟩
    (by
      rintro i r - hi ⟨done, todo, rfl, rfl, hst, hholds, hwithin, hok, hrest⟩
      cases todo with
      | nil => simp at hi
      | cons cp todo =>
        have hcp : r.1.get done.length = cp := hrest 0 cp rfl
        have hlen := composition_length (T := T) done
        have hstep := composeStep_holds (T := T) hholds hwithin hok hlen
          (by simp at hn; omega : done.length < n)
        rw [hcp, ← hst] at hstep
        obtain ⟨h1, h2, h3, h4, h5⟩ := hstep
        refine ⟨done ++ [cp], todo, by simp, by simp, ?_, ?_, h3, ?_, ?_⟩
        · rw [foldl_append]
          exact h1
        · rw [foldl_append]
          exact h2
        · rw [foldl_append]
          exact h4
        · intro k x hx
          rw [length_append, length_singleton, h5 _ (by omega), Nat.add_assoc, Nat.add_comm 1 k]
          exact hrest (k + 1) x hx)
  obtain ⟨done, todo, hl, hdone, hst, hholds, hwithin, _, _⟩ := hloop
  have hlen' := congrArg length hl
  rw [length_append] at hlen'
  obtain rfl : todo = [] := length_eq_zero_iff.mp (by omega)
  rw [append_nil] at hl
  subst hl
  exact ⟨hholds, congrArg Cst.j hst, hwithin⟩

theorem canonicalOrder_length (run l : List Nat) :
    (canonicalOrder T run l).length = run.length + l.length := by
  induction l generalizing run with
  | nil => rfl
  | cons cp l ih =>
    rw [canonicalOrder]
    split
    · rw [length_append, length_cons, ih, length_cons, length_nil]
      omega
    · rw [ih, insertByClass_length, length_cons]
      omega

theorem normalForm_length (mode : Int) (cps : List Nat) :
    (normalForm T mode cps).length ≤ 18 * cps.length := by
  have hdecomp : (cps.flatMap (decomposition T (formCompat mode))).length ≤ 18 * cps.length :=
    decompositions_length cps
  have horder := canonicalOrder_length (T := T) []
    (cps.flatMap (decomposition T (formCompat mode)))
  rw [length_nil, Nat.zero_add] at horder
  unfold normalForm
  split
  · exact (composition_length _).trans (horder ▸ hdecomp)
  · rw [horder]
    exact hdecomp

end U89
