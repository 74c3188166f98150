import EightyNine.Wasm89.Budget

/-!
# Exceptions go where a branch goes

The clause that takes an exception is the first that matches, of the innermost
`try_table` that has one.  Control goes on as after a branch to the label of the
clause from outside the `try_table`, unless the label is a loop's or that of the body
of a called function (`delivers_iff`).
-/

namespace Wasm89

open List

variable {σ : Type} {P : Program σ} {c c' : Config σ} {tl tg : Lvl σ}
  {rest lvls above below inner s : List (Lvl σ)} {i : Instr σ} {k tag : Nat} {payload : List Value}
  {ct : Catch}

/-! ## The clause that takes an exception -/

/-- The level has no clause for the exception. -/
def Passes (P : Program σ) (c : Config σ) (tag : Nat) (tl : Lvl σ) (rest : List (Lvl σ)) : Prop :=
  tl.kind = .block → ∀ ct ∈ tl.catches, ct.takes (ownerInst P c (tl :: rest)) tag = false

/-- The innermost `try_table` with a clause for the exception, and the first such clause. -/
structure Handles (P : Program σ) (c : Config σ) (tag : Nat) (lvls : List (Lvl σ)) (tl : Lvl σ)
    (rest : List (Lvl σ)) (ct : Catch) : Prop where
  innermost : ∃ above, lvls = above ++ tl :: rest ∧
    ∀ a l b, above = a ++ l :: b → Passes P c tag l (b ++ tl :: rest)
  isTry : tl.kind = .block
  first : ∃ before after, tl.catches = before ++ ct :: after ∧
    ∀ ct' ∈ before, ct'.takes (ownerInst P c (tl :: rest)) tag = false
  takes : ct.takes (ownerInst P c (tl :: rest)) tag = true

/-- The values a clause hands on. -/
def caughtValues (c : Config σ) (payload : List Value) : CatchKind → List Value
  | .tag => payload
  | .tagRef => payload ++ [.exn c.exns.length]
  | .all => []
  | .allRef => [.exn c.exns.length]

/-- The exceptions there are once a clause has made its reference. -/
def caughtExns (c : Config σ) (tag : Nat) (payload : List Value) : CatchKind → List Exn
  | .tag | .all => c.exns
  | .tagRef | .allRef => c.exns ++ [⟨tag, payload⟩]

/-- The clause makes a reference to the exception. -/
def CatchKind.isRef : CatchKind → Bool
  | .tag | .all => false
  | .tagRef | .allRef => true

/-- Just outside the `try_table`, with the operands of the branch on the stack: the calls made
inside it have ended. -/
def outside (c : Config σ) (tl : Lvl σ) (rest : List (Lvl σ)) (ct : Catch) (tag : Nat)
    (payload : List Value) : Config σ :=
  { c with
    frame := syncedFrame c.frame rest
    lvls := rest
    vs := c.vs.take tl.base ++ caughtValues c payload ct.kind
    budget := c.budget + ((nestedCalls c.lvls - nestedCalls (tl :: rest) : Nat) : Int)
    exns := caughtExns c tag payload ct.kind }

/-- A branch, and the return that follows where the label is the body of a function. -/
def branch (P : Program σ) (c : Config σ) (label : Nat) : Next σ :=
  match iterBr c label with
  | .stop out => .stop out
  | .cont d =>
    match c.lvls.drop label with
    | [] => .cont d
    | tg :: _ => if tg.kind = .func then step P d else .cont d

/-- A thrown exception goes where it should. -/
structure Delivers (P : Program σ) (c c' : Config σ) (tag : Nat) (payload : List Value) : Prop where
  caught : ∀ tl rest ct, Handles P c' tag c'.lvls tl rest ct →
    step P c = branch P (outside c' tl rest ct tag payload) ct.label
  uncaught : (∀ tl rest ct, ¬Handles P c' tag c'.lvls tl rest ct) → step P c = .stop (.exception tag payload)

/-- What the validation of a clause promises where it takes an exception: its label is in scope,
the label takes as many values as the clause hands on, and the stack reaches down to it. -/
structure Fits (P : Program σ) (c : Config σ) (tl : Lvl σ) (rest : List (Lvl σ)) (ct : Catch)
    (payload : List Value) (inner : List (Lvl σ)) (tg : Lvl σ) (below : List (Lvl σ)) : Prop where
  levels : rest = inner ++ tg :: below
  label : inner.length = ct.label
  blocks : ∀ l ∈ inner, l.kind = .block
  arity : tg.kind = .func ∨ tg.isLoop = false → tg.exitArity = (caughtValues c payload ct.kind).length
  ascends : tg.base ≤ tl.base
  reaches : tl.base ≤ c.vs.length
  owner : (ownerInst P c (tl :: rest)).isSome

/-- The label is that of a block, not of a loop, or of the body at level 0. -/
def Lands (tg : Lvl σ) (below : List (Lvl σ)) : Prop :=
  (tg.kind = .func → below = []) ∧ (tg.kind = .block → tg.isLoop = false)

/-! ## The search -/

theorem throwScan_cons (tl : Lvl σ) (rest : List (Lvl σ)) :
    throwScan P c tag (tl :: rest) =
      if tl.kind = .block then
        match tl.catches.find? fun ct => ct.takes (ownerInst P c (tl :: rest)) tag with
        | some ct => some (tl :: rest, ct)
        | none => throwScan P c tag rest
      else throwScan P c tag rest := rfl

theorem Handles.scan (h : Handles P c tag lvls tl rest ct) :
    throwScan P c tag lvls = some (tl :: rest, ct) := by
  obtain ⟨⟨above, rfl, hpass⟩, hkind, ⟨before, after, hcatches, hbefore⟩, htakes⟩ := h
  induction above with
  | nil =>
    have hfind : (tl.catches.find? fun ct => ct.takes (ownerInst P c (tl :: rest)) tag) = some ct := by
      refine find?_eq_some_iff_append.mpr ⟨htakes, before, after, hcatches, fun ct' hct' => ?_⟩
      rw [hbefore ct' hct']
      rfl
    rw [nil_append, throwScan_cons, if_pos hkind, hfind]
  | cons a above ih =>
    have hrest := ih fun x l b hab => hpass (a :: x) l b (by rw [hab, cons_append])
    have ha := hpass [] a above rfl
    rw [cons_append, throwScan_cons, hrest]
    split
    · rename_i hblock
      have hnone : ((a.catches.find? fun ct =>
          ct.takes (ownerInst P c (a :: (above ++ tl :: rest))) tag)) = none :=
        find?_eq_none.mpr fun ct' hct' => by rw [ha hblock ct' hct']; decide
      rw [hnone]
    · rfl

theorem handles_of_scan (h : throwScan P c tag lvls = some (s, ct)) :
    ∃ tl rest, s = tl :: rest ∧ Handles P c tag lvls tl rest ct := by
  induction lvls with
  | nil => cases h
  | cons l ls ih =>
    rw [throwScan_cons] at h
    have hinner : throwScan P c tag ls = some (s, ct) → Passes P c tag l ls →
        ∃ tl rest, s = tl :: rest ∧ Handles P c tag (l :: ls) tl rest ct := by
      intro hls hpass
      obtain ⟨tl, rest, rfl, ⟨above, rfl, habove⟩, hkind, hfirst, htakes⟩ := ih hls
      refine ⟨tl, rest, rfl, ⟨l :: above, rfl, fun a x b hab => ?_⟩, hkind, hfirst, htakes⟩
      cases a with
      | nil =>
        cases hab
        exact hpass
      | cons y a =>
        cases hab
        exact habove a x b rfl
    split at h
    · rename_i hblock
      split at h
      · rename_i ct' hfind
        cases h
        obtain ⟨htakes, before, after, hcatches, hbefore⟩ := find?_eq_some_iff_append.mp hfind
        refine ⟨l, ls, rfl, ⟨[], rfl, fun a x b hab => ?_⟩, hblock,
          ⟨before, after, hcatches, fun x hx => ?_⟩, htakes⟩
        · simp at hab
        · simpa using hbefore x hx
      · rename_i hfind
        refine hinner h fun _ x hx => ?_
        simpa using find?_eq_none.mp hfind x hx
    · rename_i hfunc
      exact hinner h fun hblock => absurd hblock hfunc

/-- Between two turns of a run of scoped code (`Reaches.keeps`) the label of the clause is in scope
and only blocks lie inside it, as `Fits` has it. -/
theorem Handles.scope (h : Handles P c tag lvls tl rest ct) (hsound : Sound lvls) :
    ∃ inner tg below, rest = inner ++ tg :: below ∧ inner.length = ct.label ∧
      ∀ l ∈ inner, l.kind = .block := by
  obtain ⟨_, _, _, rfl, hnest, _⟩ := hsound
  obtain ⟨above, hlvls, _⟩ := h.innermost
  obtain ⟨_, _, hcatches, _⟩ := h.first
  rw [hlvls] at hnest
  obtain ⟨inner, tg, below, _, hrest, hlen, hblocks, _⟩ :=
    hnest.target h.isTry (hcatches ▸ by simp : ct ∈ _)
  exact ⟨inner, tg, below, hrest, hlen, hblocks⟩

/-- A turn that raises an exception throws it. -/
theorem step_raised (h : raised P c = some (c', tag, payload)) :
    step P c = throwExn P c' tag payload := by
  cases hcur : current c with
  | none =>
    rw [raised, hcur] at h
    cases h
  | some i =>
    obtain ⟨tp, rest, hlvls, hstep⟩ : ∃ tp rest, c.lvls = tp :: rest ∧
        step P c = exec P c tp rest i := by
      unfold current at hcur
      split at hcur
      · cases hcur
      · rename_i tp rest hlvls
        split at hcur
        · cases hcur
        · rename_i hfunc
          split at hcur
          · cases hcur
          · rename_i hblock
            refine ⟨tp, rest, hlvls, ?_⟩
            unfold step
            rw [hlvls]
            dsimp only
            rw [if_neg hfunc, if_neg hblock, hcur]
    rw [hstep]
    unfold raised at h
    rw [hcur] at h
    cases i with
    | throw idx =>
      show doThrow P c idx = _
      revert h
      unfold doThrow
      dsimp only
      cases instOf P c c.frame with
      | none => exact fun h => by cases h
      | some mi =>
        dsimp only
        cases mi.tags[idx]? with
        | none => exact fun h => by cases h
        | some t =>
          dsimp only
          rcases lt_or_ge c.vs.length (P.tags.getD t 0) with hlen | hlen
          · rw [if_pos hlen]
            exact fun h => by cases h
          · rw [if_neg (Nat.not_lt.mpr hlen), if_neg (Nat.not_lt.mpr hlen)]
            intro h
            cases h
            rfl
    | throwRef =>
      show doThrowRef P c = _
      revert h
      unfold doThrowRef
      dsimp only
      cases c.vs.getLast? with
      | none => exact fun h => by cases h
      | some v =>
        cases v with
        | num n | null | func f | other n => exact fun h => by cases h
        | exn e =>
          dsimp only
          cases c.exns[e]? with
          | none => exact fun h => by cases h
          | some te =>
            intro h
            cases h
            rfl
    | plain run | unreachable | block bt | loop bt | ifThen bt | elseMark | endMark
    | tryTable bt catches | br label | brIf label | brTable labels dflt | brOnNull label
    | brOnNonNull label | ret | call tail idx | callIndirect tail typeidx tableidx
    | callRef tail => cases h

/-! ## The transfer -/

section

variable (hfits : Fits P c tl rest ct payload inner tg below)

theorem nestedCalls_blocks (h : ∀ l ∈ inner, l.kind = .block) (hs : s ≠ []) :
    nestedCalls (inner ++ s) = nestedCalls s := by
  induction inner with
  | nil => rfl
  | cons l inner ih =>
    have hne : inner ++ s ≠ [] := by simp [hs]
    rw [cons_append, nestedCalls_cons _ hne, ih fun x hx => h x (mem_cons_of_mem _ hx),
      h l mem_cons_self, if_neg (by decide), Nat.add_zero]

theorem nestedCalls_le (above s : List (Lvl σ)) : nestedCalls s ≤ nestedCalls (above ++ s) := by
  induction above with
  | nil => exact le_rfl
  | cons l above ih =>
    cases hcat : above ++ s with
    | nil =>
      rw [(append_eq_nil_iff.mp hcat).2]
      exact Nat.zero_le _
    | cons l' ls =>
      rw [hcat] at ih
      rw [cons_append, hcat, nestedCalls]
      exact ih.trans (Nat.le_add_right _ _)

theorem syncedFrame_blocks (h : ∀ l ∈ inner, l.kind = .block) (frame : Option Nat) :
    syncedFrame frame (inner ++ s) = syncedFrame frame s := by
  induction inner with
  | nil => rfl
  | cons l inner ih =>
    rw [cons_append, syncedFrame, h l mem_cons_self, if_neg (by decide),
      ih fun x hx => h x (mem_cons_of_mem _ hx)]

theorem iterFuncOf_blocks (h : ∀ l ∈ inner, l.kind = .block) (hs : s ≠ []) :
    iterFuncOf (inner ++ s) = iterFuncOf s := by
  induction inner with
  | nil => rfl
  | cons l inner ih =>
    have hrest := ih fun x hx => h x (mem_cons_of_mem _ hx)
    cases hcat : inner ++ s with
    | nil => exact absurd (append_eq_nil_iff.mp hcat).2 hs
    | cons l' ls =>
      rw [cons_append, hcat, iterFuncOf_cons, h l mem_cons_self, if_neg (by decide), ← hcat,
        hrest]

theorem releaseFrames_blocks (h : ∀ l ∈ inner, l.kind = .block) (hk : k ≤ s.length) :
    releaseFrames k (inner ++ s) = inner ++ releaseFrames k s := by
  induction inner with
  | nil => rfl
  | cons l inner ih =>
    have hge : ¬(inner ++ s).length < k := by
      rw [length_append]
      omega
    rw [cons_append, releaseFrames, if_neg hge, h l mem_cons_self,
      if_neg (by simp), ih fun x hx => h x (mem_cons_of_mem _ hx), cons_append]

/-- `throw_hit`, once the frames above the target are released. -/
theorem throwHit_eq (tag : Nat) (hlvls : c.lvls = above ++ tl :: rest) (hkind : tl.kind = .block)
    (hfits : Fits P c tl rest ct payload inner tg below) :
    ∃ lvls, throwHit P c tag payload rest.length ct =
      if ct.kind.isRef = true ∧ tg.kind = .func ∧ below ≠ [] then
        .stop (.crash "no store for exception")
      else
        resumeAt
          { c with
            lvls := lvls
            vs := c.vs.take tg.base ++ caughtValues c payload ct.kind
            budget := c.budget + releasedFrames below.length c.lvls
            exns := caughtExns c tag payload ct.kind }
          ({ tg with frame := if tg.kind = .func ∧ below ≠ [] then none else tg.frame } :: below) := by
  obtain ⟨hrest, hlabel, hblocks, _, _, _, howner⟩ := hfits
  have htarget : catchTarget rest.length ct.label = below.length := by
    refine catchTarget_eq ?_
    rw [hrest, length_append, length_cons, hlabel]
  have htry : ∀ l ∈ tl :: inner, l.kind = .block := by
    intro l hl
    rcases mem_cons.mp hl with rfl | hl
    · exact hkind
    · exact hblocks l hl
  have hle : below.length ≤ ((tl :: inner) ++ tg :: below).length := by
    simp only [length_append, length_cons]
    omega
  obtain ⟨above', hrel, hlen⟩ := releaseFrames_split above ((tl :: inner) ++ tg :: below) hle
  have hsplit : c.lvls = above ++ ((tl :: inner) ++ tg :: below) := by
    rw [hlvls, hrest, cons_append]
  rw [← hsplit, releaseFrames_blocks htry (Nat.le_succ _), releaseFrames_target] at hrel
  generalize htg : ({ tg with frame := if tg.kind = .func ∧ below ≠ [] then none else tg.frame } :
    Lvl σ) = tg' at hrel ⊢
  have hbase : tg'.base = tg.base := by rw [← htg]
  have hownerdrop : (above' ++ ((tl :: inner) ++ tg' :: below)).drop
      ((above' ++ ((tl :: inner) ++ tg' :: below)).length - 1 - rest.length) =
      (tl :: inner) ++ tg' :: below := by
    rw [hrest]
    simp only [length_append, length_cons]
    rw [show above'.length + (inner.length + 1 + (below.length + 1)) - 1 -
      (inner.length + (below.length + 1)) = above'.length by omega, drop_left]
  have htargetdrop : (above' ++ ((tl :: inner) ++ tg' :: below)).drop
      ((above' ++ ((tl :: inner) ++ tg' :: below)).length - 1 - below.length) = tg' :: below := by
    rw [← append_assoc]
    simp only [length_append, length_cons]
    rw [show above'.length + (inner.length + 1) + (below.length + 1) - 1 - below.length =
      (above' ++ tl :: inner).length by simp only [length_append, length_cons]; omega,
      drop_left]
  have howner' : ∀ c' : Config σ, c'.frames = c.frames →
      (ownerInst P c' ((tl :: inner) ++ tg' :: below)).isNone = decide (tg.kind = .func ∧ below ≠ []) := by
    intro c' hframes
    rcases Decidable.em (tg.kind = .func ∧ below ≠ []) with hcallee | hcallee
    · have hfunc : iterFuncOf (tg' :: below) = tg' :: below := by
        cases below with
        | nil => exact absurd rfl hcallee.2
        | cons l ls => rw [iterFuncOf_cons, if_pos (by rw [← htg]; exact hcallee.1)]
      have hframe : tg'.frame = none := by rw [← htg]; exact if_pos hcallee
      rw [decide_eq_true hcallee, ownerInst, iterFuncOf_blocks htry (cons_ne_nil _ _), hfunc]
      dsimp only
      rw [hframe]
      rfl
    · have hsame : tg' = tg := by rw [← htg, if_neg hcallee]
      rw [decide_eq_false hcallee, hsame, cons_append, ← hrest]
      have heq : ownerInst P c' (tl :: rest) = ownerInst P c (tl :: rest) := by
        unfold ownerInst instOf
        rw [hframes]
      rw [heq, Option.isNone_eq_false_iff]
      exact howner
  refine ⟨above' ++ ((tl :: inner) ++ tg' :: below), ?_⟩
  unfold throwHit
  rw [htarget]
  dsimp only
  rw [hrel, hownerdrop, htargetdrop, head?_cons, Option.elim_some, hbase,
    howner' { c with
      lvls := above' ++ ((tl :: inner) ++ tg' :: below)
      budget := c.budget + releasedFrames below.length c.lvls } rfl]
  cases ct.kind with
  | tag => exact (if_neg fun h => Bool.noConfusion h.1).symm
  | tagRef =>
    simp only [decide_eq_true_eq, CatchKind.isRef, true_and, caughtValues, caughtExns,
      append_assoc]
  | all =>
    simp only [caughtValues, caughtExns, append_nil]
    exact (if_neg fun h => Bool.noConfusion h.1).symm
  | allRef => simp only [decide_eq_true_eq, CatchKind.isRef, true_and, caughtValues, caughtExns]

/-! ### The branch -/

theorem take_outside (hfits : Fits P c tl rest ct payload inner tg below) (tag : Nat) :
    (outside c tl rest ct tag payload).vs.take tg.base = c.vs.take tg.base := by
  have hlen : (c.vs.take tl.base).length = tl.base := by
    rw [length_take, Nat.min_eq_left hfits.reaches]
  dsimp only [outside]
  rw [take_append_of_le_length (by rw [hlen]; exact hfits.ascends), take_take,
    Nat.min_eq_left hfits.ascends]

theorem top_outside {n : Nat} (hn : n = (caughtValues c payload ct.kind).length) (tag : Nat) :
    topValues (outside c tl rest ct tag payload).vs
      (min n (outside c tl rest ct tag payload).vs.length) = caughtValues c payload ct.kind := by
  dsimp only [outside]
  rw [length_append, hn, Nat.min_eq_left (Nat.le_add_left _ _), topValues, length_append,
    Nat.add_sub_cancel, drop_left]

theorem drop_outside (hfits : Fits P c tl rest ct payload inner tg below) (tag : Nat) :
    (outside c tl rest ct tag payload).lvls.drop ct.label = tg :: below := by
  dsimp only [outside]
  rw [hfits.levels, ← hfits.label, drop_left]

theorem ne_nil_outside (hfits : Fits P c tl rest ct payload inner tg below) (tag : Nat) :
    ¬(outside c tl rest ct tag payload).lvls.length < 1 := by
  dsimp only [outside]
  rw [hfits.levels, length_append, length_cons]
  omega

theorem branch_block (hfits : Fits P c tl rest ct payload inner tg below) (hkind : tg.kind = .block)
    (hloop : tg.isLoop = false) (tag : Nat) :
    branch P (outside c tl rest ct tag payload) ct.label =
      .cont (leave { outside c tl rest ct tag payload with
        vs := c.vs.take tg.base ++ caughtValues c payload ct.kind } tg.stop below) := by
  have hfunc : ¬tg.kind = .func := by rw [hkind]; decide
  unfold branch iterBr
  rw [if_neg (ne_nil_outside hfits tag), drop_outside hfits tag]
  dsimp only
  rw [if_neg hfunc, hloop, if_neg (by decide), take_outside hfits tag,
    top_outside (hfits.arity (.inr hloop)) tag]
  dsimp only
  rw [if_neg hfunc]

theorem branch_loop (hfits : Fits P c tl rest ct payload inner tg below) (hkind : tg.kind = .block)
    (hloop : tg.isLoop = true) (tag : Nat) :
    ∃ d, branch P (outside c tl rest ct tag payload) ct.label = .cont d ∧
      d.lvls.length = below.length + 1 := by
  have hfunc : ¬tg.kind = .func := by rw [hkind]; decide
  unfold branch iterBr
  rw [if_neg (ne_nil_outside hfits tag), drop_outside hfits tag]
  dsimp only
  rw [if_neg hfunc, hloop, if_pos rfl]
  dsimp only
  rw [if_neg hfunc]
  exact ⟨_, rfl, rfl⟩

theorem branch_func (hfits : Fits P c tl rest ct payload inner tg below) (hkind : tg.kind = .func)
    (tag : Nat) :
    branch P (outside c tl rest ct tag payload) ct.label =
      fnSplice { outside c tl rest ct tag payload with
        vs := c.vs.take tg.base ++ caughtValues c payload ct.kind
        lvls := { tg with pc := tg.src.length } :: below } ({ tg with pc := tg.src.length } :: below) := by
  unfold branch iterBr
  rw [if_neg (ne_nil_outside hfits tag), drop_outside hfits tag]
  dsimp only
  rw [if_pos hkind, take_outside hfits tag, top_outside (hfits.arity (.inl hkind)) tag]
  dsimp only
  rw [if_pos hkind]
  unfold step
  dsimp only
  rw [if_pos ⟨hkind, le_rfl⟩]

/-! ### The comparison -/

theorem released_eq (hlvls : c.lvls = above ++ tl :: rest) (hkind : tl.kind = .block)
    (hfits : Fits P c tl rest ct payload inner tg below) :
    releasedFrames below.length c.lvls + nestedCalls (tl :: rest) =
      nestedCalls c.lvls + if tg.kind = .func ∧ below ≠ [] then 1 else 0 := by
  have hrest := hfits.levels
  have htry : ∀ l ∈ tl :: inner, l.kind = .block := by
    intro l hl
    rcases mem_cons.mp hl with rfl | hl
    · exact hkind
    · exact hfits.blocks l hl
  have hcalls : nestedCalls (tl :: rest) = nestedCalls (tg :: below) := by
    rw [hrest, ← cons_append, nestedCalls_blocks htry (cons_ne_nil _ _)]
  have hsplit : c.lvls = (above ++ tl :: inner) ++ tg :: below := by
    rw [hlvls, hrest, append_assoc, cons_append]
  rw [hcalls, hsplit]
  exact releasedFrames_append _ _ _

theorem lands_block (hk : tg.kind = .block) : Lands tg below ↔ tg.isLoop = false := by
  unfold Lands
  rw [hk]
  exact ⟨fun h => h.2 rfl, fun h => ⟨fun hf => LvlKind.noConfusion hf, fun _ => h⟩⟩

theorem lands_func (hk : tg.kind = .func) : Lands tg below ↔ below = [] := by
  unfold Lands
  rw [hk]
  exact ⟨fun h => h.1 rfl, fun h => ⟨fun _ => h, fun hb => LvlKind.noConfusion hb⟩⟩

/-- The level around a block goes on in the same function. -/
theorem syncedFrame_outside (hfits : Fits P c tl rest ct payload inner tg below)
    (hk : tg.kind = .block) (pc : Nat) :
    syncedFrame c.frame (setPc pc below) = syncedFrame c.frame rest := by
  have hinner : ∀ l ∈ inner ++ [tg], l.kind = .block := by
    intro l hl
    rcases mem_append.mp hl with hl | hl
    · exact hfits.blocks l hl
    · rwa [mem_singleton.mp hl]
  rw [hfits.levels, ← singleton_append, ← append_assoc, syncedFrame_blocks hinner]
  cases below with
  | nil | cons l ls => rfl

/-- For a block, a loop aside, a caught exception is a branch. -/
theorem throwHit_block (hlvls : c.lvls = above ++ tl :: rest) (hkind : tl.kind = .block)
    (hfits : Fits P c tl rest ct payload inner tg below) (hk : tg.kind = .block) :
    throwHit P c tag payload rest.length ct =
      .cont (leave { outside c tl rest ct tag payload with
        vs := c.vs.take tg.base ++ caughtValues c payload ct.kind } tg.stop below) := by
  obtain ⟨lvls, hhit⟩ := throwHit_eq tag hlvls hkind hfits
  have hfunc : ¬tg.kind = .func := by rw [hk]; decide
  have hreleased := released_eq hlvls hkind hfits
  rw [if_neg fun h => hfunc h.1] at hreleased
  have hbudget : releasedFrames below.length c.lvls = nestedCalls c.lvls - nestedCalls (tl :: rest) := by
    omega
  rw [hhit, if_neg fun h => hfunc h.2.1]
  unfold resumeAt
  dsimp only
  rw [if_neg hfunc]
  unfold iterSyncFrame leave outside
  dsimp only
  rw [syncedFrame_outside hfits hk, hbudget]

theorem throwHit_block_iff (hlvls : c.lvls = above ++ tl :: rest) (hkind : tl.kind = .block)
    (hfits : Fits P c tl rest ct payload inner tg below) (hk : tg.kind = .block) :
    throwHit P c tag payload rest.length ct = branch P (outside c tl rest ct tag payload) ct.label ↔
      tg.isLoop = false := by
  rw [throwHit_block hlvls hkind hfits hk]
  cases hloop : tg.isLoop with
  | false => exact iff_of_true (branch_block hfits hk hloop tag).symm rfl
  | true =>
    refine iff_of_false (fun heq => ?_) Bool.noConfusion
    obtain ⟨d, hbranch, hlen⟩ := branch_loop hfits hk hloop tag
    rw [hbranch] at heq
    cases heq
    dsimp only [leave] at hlen
    cases below with
    | nil => cases hlen
    | cons l ls =>
      rw [setPc, length_cons, length_cons] at hlen
      omega

/-- For the body of a function, control returns from it, unless a reference to the exception
is to be made where the frame of the function has been freed. -/
theorem throwHit_func_iff (hlvls : c.lvls = above ++ tl :: rest) (hkind : tl.kind = .block)
    (hfits : Fits P c tl rest ct payload inner tg below) (hk : tg.kind = .func) :
    throwHit P c tag payload rest.length ct = branch P (outside c tl rest ct tag payload) ct.label ↔
      below = [] := by
  obtain ⟨lvls, hhit⟩ := throwHit_eq tag hlvls hkind hfits
  have hreleased := released_eq hlvls hkind hfits
  rw [hhit, branch_func hfits hk tag]
  cases below with
  | nil =>
    refine iff_of_true ?_ rfl
    rw [if_neg fun h => h.2.2 rfl]
    unfold resumeAt
    dsimp only
    rw [if_pos hk]
    rfl
  | cons l ls =>
    refine iff_of_false ?_ (cons_ne_nil _ _)
    split
    · intro heq
      cases heq
    · rw [if_pos ⟨hk, cons_ne_nil _ _⟩] at hreleased
      unfold resumeAt
      dsimp only
      rw [if_pos hk]
      unfold fnSplice
      dsimp only
      intro heq
      have hbudget := congrArg Config.budget (Next.cont.inj heq)
      have hle := nestedCalls_le above (tl :: rest)
      rw [← hlvls] at hle
      simp only [iterSyncFrame, outside] at hbudget
      omega

end

/-- An exception goes where it should exactly when the label of the clause that takes it is that
of a block, not of a loop, or of the body at level 0. -/
theorem delivers_iff (P : Program σ) (c c' : Config σ) (tag : Nat) (payload : List Value)
    (hraised : raised P c = some (c', tag, payload))
    (hfits : ∀ tl rest ct, Handles P c' tag c'.lvls tl rest ct →
      ∃ inner tg below, Fits P c' tl rest ct payload inner tg below) :
    Delivers P c c' tag payload ↔
      ∀ tl rest ct, Handles P c' tag c'.lvls tl rest ct →
        ∀ tg below, rest.drop ct.label = tg :: below → Lands tg below := by
  have hstep := step_raised hraised
  have hcaught : ∀ tl rest ct, Handles P c' tag c'.lvls tl rest ct →
      (step P c = branch P (outside c' tl rest ct tag payload) ct.label ↔
        ∀ tg below, rest.drop ct.label = tg :: below → Lands tg below) := by
    intro tl rest ct hhandles
    obtain ⟨inner, tg, below, hfit⟩ := hfits tl rest ct hhandles
    obtain ⟨above, hlvls, _⟩ := hhandles.innermost
    have hdrop : rest.drop ct.label = tg :: below := by
      rw [hfit.levels, ← hfit.label, drop_left]
    have hthrow : step P c = throwHit P c' tag payload rest.length ct := by
      rw [hstep, throwExn, hhandles.scan]
      rfl
    rw [hthrow, hdrop]
    have hiff : throwHit P c' tag payload rest.length ct =
        branch P (outside c' tl rest ct tag payload) ct.label ↔ Lands tg below := by
      cases hk : tg.kind with
      | block =>
        rw [lands_block hk]
        exact throwHit_block_iff hlvls hhandles.isTry hfit hk
      | func =>
        rw [lands_func hk]
        exact throwHit_func_iff hlvls hhandles.isTry hfit hk
    rw [hiff]
    constructor
    · intro h tg' below' heq
      cases heq
      exact h
    · exact fun h => h tg below rfl
  constructor
  · exact fun h tl rest ct hhandles => (hcaught tl rest ct hhandles).mp (h.caught tl rest ct hhandles)
  · intro h
    refine ⟨fun tl rest ct hhandles => (hcaught tl rest ct hhandles).mpr (h tl rest ct hhandles),
      fun hnone => ?_⟩
    rw [hstep, throwExn]
    cases hscan : throwScan P c' tag c'.lvls with
    | none => rfl
    | some found =>
      obtain ⟨s, ct⟩ := found
      obtain ⟨tl, rest, rfl, hhandles⟩ := handles_of_scan hscan
      exact absurd hhandles (hnone tl rest ct)

/-! ## A block and a loop -/

/-- `(block (result i32 exnref) (try_table (catch_ref 1 0) (call 2)))`. -/
def leavingCode : List (Instr Unit) :=
  [.block (.typeidx 0), .tryTable .empty [⟨.tagRef, 1, 0⟩], .call false 2, .endMark, .endMark]

/-- `(loop (try_table (catch_all 0) (throw 0)))`. -/
def retryingCode : List (Instr Unit) :=
  [.loop .empty, .tryTable .empty [⟨.all, 0, 0⟩], .throw 0, .endMark, .endMark]

/-- `7` and `(throw 1)`. -/
def raisingCode : List (Instr Unit) :=
  [.plain fun _ fr vs => .ok () fr.locals (vs ++ [.num 7]), .throw 1]

/-- A module with the three functions, and two tags. -/
def trying : Program Unit where
  funcs := [⟨0, 2, .body 0 [] leavingCode⟩, ⟨0, 0, .body 0 [] retryingCode⟩,
    ⟨0, 0, .body 0 [] raisingCode⟩]
  insts := [⟨[0, 1, 2], [0, 1], [(0, 2)]⟩]
  tags := [0, 1]
  table := fun _ _ _ => none
  matchFt := fun _ _ _ => false

theorem trying_scoped : trying.Scoped := by
  intro f hf inst locals code hcode
  simp only [trying, mem_cons, not_mem_nil, or_false] at hf
  rcases hf with rfl | rfl | rfl <;> cases hcode
  case inr.inr => exact .instr rfl rfl rfl (by simp [Instr.labels]) (.instr rfl rfl rfl (by simp [Instr.labels]) .nil)
  all_goals
    exact .block rfl rfl (by simp [Instr.clauses]) (.block rfl rfl (by simp [Instr.clauses])
      (.instr rfl rfl rfl (by simp [Instr.labels]) .nil) rfl .nil) rfl .nil

/-- The levels in which function 2, called in the `try_table`, throws. -/
def leavingLvls : List (Lvl Unit) :=
  [⟨.func, some 1, raisingCode, 1, 2, 0, false, 0, 0, 0, []⟩,
    ⟨.block, none, leavingCode, 2, 3, 0, false, 0, 0, 0, [⟨.tagRef, 1, 0⟩]⟩,
    ⟨.block, none, leavingCode, 1, 4, 0, false, 2, 0, 0, []⟩,
    ⟨.func, some 0, leavingCode, 0, 5, 0, false, 2, 0, 0, []⟩]

def leavingConfig : Config Unit :=
  { frame := some 1, lvls := leavingLvls, vs := [.num 7], budget := 0,
    frames := [⟨0, []⟩, ⟨0, []⟩], exns := [], world := () }

/-- The payload and the exception go to the block, and the call is left. -/
theorem delivers_leaving :
    Reaches trying (fun _ => True)
      (start ⟨0, 2, .body 0 [] leavingCode⟩ 0 [] leavingCode [] (1 : Nat) ()) leavingConfig ∧
    Delivers trying leavingConfig { leavingConfig with vs := [] } 1 [.num 7] := by
  constructor
  · exact .turn (.turn (.turn (.turn .refl trivial rfl) trivial rfl) trivial rfl) trivial rfl
  · refine (delivers_iff trying _ _ 1 [.num 7] rfl fun tl rest ct hhandles => ?_).mpr ?_
    · have hscan := hhandles.scan
      cases hscan
      exact ⟨[], _, _, rfl, rfl, fun l hl => (by cases hl), fun _ => rfl, le_rfl, le_rfl, rfl⟩
    · intro tl rest ct hhandles tg below hdrop
      have hscan := hhandles.scan
      cases hscan
      cases hdrop
      exact ⟨fun h => (by cases h), fun _ => rfl⟩

/-- The levels of the loop inside the `try_table`. -/
def retryingLvls : List (Lvl Unit) :=
  [⟨.block, none, retryingCode, 2, 3, 0, false, 0, 0, 0, [⟨.all, 0, 0⟩]⟩,
    ⟨.block, none, retryingCode, 1, 4, 1, true, 0, 0, 0, []⟩,
    ⟨.func, some 0, retryingCode, 0, 5, 0, false, 0, 0, 0, []⟩]

def retryingConfig : Config Unit :=
  { frame := some 0, lvls := retryingLvls, vs := [], budget := 1, frames := [⟨0, []⟩],
    exns := [], world := () }

/-- An exception that is caught for a loop ends the loop, where a branch starts it again. -/
theorem not_delivers : ¬∀ (P : Program Unit), P.Scoped → ∀ f ∈ P.funcs,
    ∀ inst locals code, f.code = .body inst locals code → ∀ (args : List Value) (B : Nat) (c : Config Unit),
    Reaches P (fun _ => True) (start f inst locals code args B ()) c →
    ∀ c' tag payload, raised P c = some (c', tag, payload) → Delivers P c c' tag payload := by
  intro h
  have hrun : Reaches trying (fun _ => True)
      (start ⟨0, 0, .body 0 [] retryingCode⟩ 0 [] retryingCode [] (1 : Nat) ())
      retryingConfig :=
    .turn (.turn .refl trivial rfl) trivial rfl
  have hdelivers := h trying trying_scoped ⟨0, 0, .body 0 [] retryingCode⟩
    (mem_cons_of_mem _ mem_cons_self) 0 [] retryingCode rfl [] 1 _ hrun _ 0 [] rfl
  obtain ⟨tl, rest, hs, hhandles⟩ := handles_of_scan
    (show throwScan trying retryingConfig 0 retryingLvls =
      some (retryingLvls, ⟨.all, 0, 0⟩) from rfl)
  cases hs
  have hbranch := hdelivers.caught _ _ _ hhandles
  have hlvls := congrArg (fun next : Next Unit =>
    match next with | .cont c => c.lvls.length | .stop _ => 0) hbranch
  exact absurd hlvls (by decide)

end Wasm89
