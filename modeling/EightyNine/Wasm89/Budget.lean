import EightyNine.Wasm89.Levels

/-!
# The call-depth budget

What is left of the budget and the calls that are open make up the budget a run
started with, as long as no exception is caught for the body of a called function.
There the unwinding and the return both give the level back.
-/

namespace Wasm89

open List

variable {σ : Type} {P : Program σ} {c e : Config σ} {l l' tl tp tg : Lvl σ}
  {ls rest lvls above below : List (Lvl σ)} {i : Instr σ} {d n label tag : Nat} {b : Int}
  {payload : List Value} {ct : Catch}

/-! ## Exceptions that are taken -/

/-- The instruction with which the loop goes on. -/
def current (c : Config σ) : Option (Instr σ) :=
  match c.lvls with
  | [] => none
  | tp :: _ =>
    if tp.kind = .func ∧ tp.pc ≥ tp.src.length then none
    else if tp.kind = .block ∧ tp.pc ≥ tp.stop then none
    else tp.src[tp.pc]?

/-- The exception that the next instruction throws, and the configuration without its
operands. -/
def raised (P : Program σ) (c : Config σ) : Option (Config σ × Nat × List Value) :=
  match current c with
  | some (.throw idx) =>
    match instOf P c c.frame with
    | none => none
    | some mi =>
      match mi.tags[idx]? with
      | none => none
      | some tag =>
        let pn := P.tags.getD tag 0
        if c.vs.length < pn then none
        else some ({ c with vs := popValues c.vs pn }, tag, topValues c.vs pn)
  | some .throwRef =>
    match c.vs.getLast? with
    | some (.exn e) =>
      match c.exns[e]? with
      | none => none
      | some te => some ({ c with vs := popValues c.vs 1 }, te.tag, te.args)
    | _ => none
  | _ => none

/-- The level that a clause names, with those below it, from the levels below its
`try_table`. -/
def catchLevels (rest : List (Lvl σ)) (ct : Catch) : List (Lvl σ) := rest.drop ct.label

/-- The next instruction throws an exception, which is taken by a clause that names the body of
a function above level 0. -/
def CaughtForCallee (P : Program σ) (c : Config σ) : Prop :=
  ∃ c' tag payload tl rest ct tg below, raised P c = some (c', tag, payload) ∧
    throwScan P c' tag c'.lvls = some (tl :: rest, ct) ∧ catchLevels rest ct = tg :: below ∧
    tg.kind = .func ∧ below ≠ []

/-- The next instruction is a call, or a tail call. -/
def CallsNext (tail : Bool) (c : Config σ) : Prop :=
  (∃ idx, current c = some (.call tail idx)) ∨
  (∃ typeidx tableidx, current c = some (.callIndirect tail typeidx tableidx)) ∨
  current c = some (.callRef tail)

/-! ## Runs -/

/-- A configuration of a run, all turns of which start where `Q` holds. -/
inductive Reaches (P : Program σ) (Q : Config σ → Prop) (c : Config σ) : Config σ → Prop where
  | refl : Reaches P Q c c
  | turn {d e : Config σ} (h : Reaches P Q c d) (hQ : Q d) (hstep : step P d = .cont e) :
      Reaches P Q c e

/-- The budget is kept: what is left and the open calls make up `B`, no more than `B` calls are
open, and the run only ends as exhausted at a call with all of them open.  Without any budget
a tail call from level 0 that needs a larger frame ends it too. -/
structure BudgetKept (P : Program σ) (B : Nat) (c : Config σ) : Prop where
  sum : c.budget + nestedCalls c.lvls = B
  bounded : nestedCalls c.lvls ≤ B
  exhausts : step P c = .stop .exhausted →
    nestedCalls c.lvls = B ∧ (CallsNext false c ∨ B = 0 ∧ CallsNext true c)

/-! ## What a turn keeps -/

/-- What is left of the budget and the open calls make up `b`. -/
def Spends (b budget : Int) (lvls : List (Lvl σ)) : Prop := budget + nestedCalls lvls = b ∧ 0 ≤ budget

theorem Spends.calls {budget : Int} {lvls' : List (Lvl σ)} (h : Spends b budget lvls)
    (hcalls : nestedCalls lvls' = nestedCalls lvls) : Spends b budget lvls' :=
  ⟨by rw [hcalls]; exact h.1, h.2⟩

theorem Spends.call {budget : Int} (h : Spends b budget (l' :: ls)) (hkind : l.kind = .func)
    (hleft : ¬budget = 0) : Spends b (budget - 1) (l :: l' :: ls) := by
  obtain ⟨hsum, hpos⟩ := h
  refine ⟨?_, by omega⟩
  rw [nestedCalls, if_pos hkind]
  omega

theorem Spends.back {budget : Int} (h : Spends b budget (l :: l' :: ls)) (hkind : l.kind = .func) :
    Spends b (budget + 1) (l' :: ls) := by
  obtain ⟨hsum, hpos⟩ := h
  rw [nestedCalls, if_pos hkind] at hsum
  exact ⟨by omega, by omega⟩

/-- The levels are sound after the turn, and the budget with the open calls is `b`. -/
def Keeps (b : Int) (next : Next σ) : Prop :=
  ∀ e, next = .cont e → Sound e.lvls ∧ Spends b e.budget e.lvls

theorem Keeps.stop (b : Int) (out : Outcome) : Keeps b (.stop out : Next σ) := fun _ h => by cases h

theorem Keeps.cont (hs : Sound e.lvls) (hb : Spends b e.budget e.lvls) :
    Keeps b (.cont e) := by
  rintro e' h
  cases h
  exact ⟨hs, hb⟩

theorem Keeps.ite {p : Prop} [Decidable p] {x y : Next σ} (hx : p → Keeps b x) (hy : ¬p → Keeps b y) :
    Keeps b (if p then x else y) := by
  split
  · exact hx ‹_›
  · exact hy ‹_›

/-- The innermost level goes on with its next instruction. -/
theorem keeps_advance (hnest : Nested (l :: ls) d) (hruns : l.Runs d (l.pc + 1))
    (hlvls : c.lvls = advance (l :: ls)) (hb : Spends b c.budget (l :: ls)) :
    Keeps b (.cont c) := by
  refine .cont ?_ ?_
  · rw [hlvls]
    exact ⟨_, _, d, rfl, hnest.setPc _, hruns⟩
  · rw [hlvls]
    exact hb.calls (nestedCalls_advance _)

/-- A branch keeps the budget: the blocks it leaves hold no call. -/
theorem iterBr_keeps (hnest : Nested c.lvls d) (hlabel : label ≤ d)
    (hb : Spends b c.budget c.lvls) : Keeps b (iterBr c label) := by
  obtain ⟨inner, tg, rest, hlvls, hlen, _, htg, hcalls⟩ := hnest.split hlabel
  have hdrop : c.lvls.drop label = tg :: rest := by rw [hlvls, ← hlen, drop_left]
  have hpc : ∀ pc, nestedCalls ({ tg with pc := pc } :: rest) = nestedCalls c.lvls :=
    fun pc => (nestedCalls_setPc pc (tg :: rest)).trans hcalls
  unfold iterBr
  rw [if_neg (Nat.not_lt.mpr (Nat.one_le_of_lt hnest.lt_length)), hdrop]
  dsimp only
  split
  · rename_i hfunc
    refine .cont ⟨_, _, _, rfl, htg.setPc _, .inl (htg.func_stop hfunc).1.le⟩ ?_
    dsimp only
    exact hb.calls (hpc _)
  · rename_i hfunc
    have hblock : tg.kind = .block := by
      cases hk : tg.kind with
      | func => exact absurd hk hfunc
      | block => rfl
    split
    · rename_i hloop
      refine .cont ⟨_, _, _, rfl, htg.setPc _, htg.loop hblock hloop⟩ ?_
      dsimp only
      exact hb.calls (hpc _)
    · obtain ⟨hsound, hcount⟩ := htg.leave hblock
      refine .cont hsound ?_
      dsimp only [leave]
      exact hb.calls ((nestedCalls_setPc _ _).trans (hcount.trans hcalls))

theorem syncFrame_lvls (c : Config σ) : (iterSyncFrame c).lvls = c.lvls := rfl

theorem syncFrame_budget (c : Config σ) : (iterSyncFrame c).budget = c.budget := rfl

/-- A function returns: its caller goes on, with one more in the budget. -/
theorem fnSplice_keeps (hnest : Nested (tp :: rest) 0) (hfunc : tp.kind = .func)
    (hb : Spends b c.budget (tp :: rest)) : Keeps b (fnSplice c (tp :: rest)) := by
  unfold fnSplice
  dsimp only
  cases hnest with
  | bottom _ _ => exact .stop _ _
  | call _ _ hback h =>
    refine .cont ⟨_, _, _, rfl, h.setPc _, hback⟩ ?_
    exact (hb.back hfunc).calls (nestedCalls_advance (_ :: _))

/-- A call takes a unit, or ends the run. -/
theorem doCall_keeps (hP : P.Scoped) (hnest : Nested (l :: ls) d) (hruns : l.Runs d (l.pc + 1))
    (hlvls : c.lvls = l :: ls) (hb : Spends b c.budget (l :: ls)) (f : Nat) :
    Keeps b (doCall P c f) := by
  unfold doCall
  cases hf : P.funcs[f]? with
  | none => exact .stop _ _
  | some cf =>
    dsimp only
    split
    · exact .stop _ _
    · cases hcode : cf.code with
      | host run =>
        dsimp only
        cases run c.world (topValues c.vs cf.nparams) with
        | trap msg => exact .stop _ _
        | ok world res => exact keeps_advance hnest hruns (by rw [hlvls]) hb
      | undefined =>
        dsimp only
        split <;> exact .stop _ _
      | body inst locals code =>
        dsimp only
        split
        · exact .stop _ _
        · rename_i hleft
          have hscoped := hP cf (mem_of_getElem? hf) inst locals code hcode
          rw [hlvls]
          refine .cont ⟨_, _, 0, rfl, .call rfl rfl hruns hnest, .inr ⟨_, hscoped, .inl rfl⟩⟩ ?_
          exact hb.call rfl hleft

/-- A tail call puts the function called in the place of the one that calls it. -/
theorem doTail_keeps (hP : P.Scoped) (hnest : Nested c.lvls d)
    (hb : Spends b c.budget c.lvls) (f : Nat) : Keeps b (doTail P c f) := by
  obtain ⟨tl, rest, hfunc, htl, hkind, hcalls⟩ := hnest.funcOf
  replace hb := hb.calls hcalls
  have hstop := (htl.func_stop hkind).1
  have hret : Nested ({ tl with pc := tl.src.length } :: rest) 0 := htl.setPc _
  have hretcalls : nestedCalls ({ tl with pc := tl.src.length } :: rest) = nestedCalls (tl :: rest) :=
    nestedCalls_head rfl
  have hreturned : ∀ c' : Config σ, c'.budget = c.budget →
      c'.lvls = { tl with pc := tl.src.length } :: rest → Keeps b (doCall P c' f) := by
    intro c' hbud hlvls
    exact doCall_keeps hP hret (.inl (hstop.le.trans (Nat.le_succ _))) hlvls
      (by rw [hbud]; exact hb.calls hretcalls) f
  unfold doTail
  cases hf : P.funcs[f]? with
  | none => exact .stop _ _
  | some cf =>
    dsimp only
    split
    · exact .stop _ _
    · rw [hfunc]
      dsimp only
      cases hcode : cf.code with
      | host run =>
        dsimp only
        cases run c.world (topValues c.vs cf.nparams) with
        | trap msg => exact .stop _ _
        | ok world res =>
          refine .cont ⟨_, _, 0, rfl, hret, .inl hstop.le⟩ ?_
          dsimp only
          exact hb.calls hretcalls
      | undefined => exact .stop _ _
      | body inst locals code =>
        have hscoped := hP cf (mem_of_getElem? hf) inst locals code hcode
        have htail : ∀ a base, Nested (tailLvl tl a code cf.nresults base :: rest) 0 := by
          intro a base
          cases htl with
          | bottom _ _ => exact .bottom rfl rfl
          | call _ _ hback h => exact .call rfl rfl hback h
        have htailcalls : ∀ a base, nestedCalls (tailLvl tl a code cf.nresults base :: rest) =
            nestedCalls (tl :: rest) := fun a base => nestedCalls_head hkind.symm
        dsimp only
        cases rest with
        | nil =>
          dsimp only
          split
          · exact hreturned _ rfl rfl
          · split
            · exact hreturned _ rfl rfl
            · split
              · exact hreturned _ rfl rfl
              · refine .cont ⟨_, _, 0, rfl, htail _ _, .inr ⟨_, hscoped, .inl rfl⟩⟩ ?_
                dsimp only
                exact hb.calls (htailcalls _ _)
        | cons l' ls =>
          refine .cont ⟨_, _, 0, rfl, htail _ _, .inr ⟨_, hscoped, .inl rfl⟩⟩ ?_
          dsimp only
          exact hb.calls (htailcalls _ _)

theorem invoke_keeps (hP : P.Scoped) (hnest : Nested (l :: ls) d) (hruns : l.Runs d (l.pc + 1))
    (hlvls : c.lvls = l :: ls) (hb : Spends b c.budget (l :: ls)) (tail : Bool) (f : Nat) :
    Keeps b (invoke P c tail f) := by
  cases tail with
  | true => exact doTail_keeps hP (hlvls ▸ hnest) (hlvls ▸ hb) f
  | false => exact doCall_keeps hP hnest hruns hlvls hb f

/-- A block is entered without a call. -/
theorem enterBlock_keeps {op : Opening} (hnest : Nested (tp :: rest) d) {stop : Nat}
    (hscoped : Scoped tp.src d tp.pc stop)
    (hstop : stop = tp.stop ∨ (tp.kind = .block ∧ tp.src[stop]? = some .elseMark))
    (hlt : tp.pc ≠ stop) (hget : tp.src[tp.pc]? = some i) (hopens : i.opens = true)
    (hclauses : op.catches = i.clauses) (hlvls : c.lvls = tp :: rest)
    (hb : Spends b c.budget (tp :: rest)) : Keeps b (enterBlock P c tp op) := by
  obtain ⟨be, ep, hextent, hopened, hlabels, hafter⟩ := hscoped.opened hget hopens hlt
  unfold enterBlock
  rw [hextent]
  refine .ite (fun _ => .stop _ _) fun _ => .ite (fun _ => .stop _ _) fun _ => ?_
  obtain ⟨stop', hbody, hbodystop⟩ := hopened.body
  rw [hlvls]
  refine .cont ⟨_, _, d + 1, rfl, ?_, ?_⟩ ?_
  · refine .block rfl (.inr ⟨stop, hafter, hstop⟩) (fun hloop => ?_) ?_ hnest
    · dsimp only at hloop ⊢
      rw [if_pos hloop]
      exact .inr ⟨stop', hbody, hbodystop.imp id fun h => ⟨rfl, h⟩⟩
    · dsimp only
      rw [hclauses]
      exact hlabels
  · -- the body starts at its first instruction, after the `else`, or at its end
    dsimp only
    generalize (if op.isIf = true then (c.vs.getLast?.getD .null).toU32 else 1) = cond
    split
    · cases ep with
      | none => exact .inl le_rfl
      | some e => exact .inr ⟨be, hopened.elseArm e rfl, .inl rfl⟩
    · exact .inr ⟨stop', hbody, hbodystop.imp id fun h => ⟨rfl, h⟩⟩
  · dsimp only
    exact hb.calls (nestedCalls_block rfl)

/-! ## Catching an exception -/

theorem releaseFrames_of_le {ti : Nat} (h : lvls.length ≤ ti) : releaseFrames ti lvls = lvls := by
  cases lvls with
  | nil => rfl
  | cons l ls => rw [releaseFrames, if_pos (Nat.lt_of_succ_le h)]

theorem releasedFrames_of_le {ti : Nat} (h : lvls.length ≤ ti) : releasedFrames ti lvls = 0 := by
  cases lvls with
  | nil => rfl
  | cons l ls => rw [releasedFrames, if_pos (Nat.lt_of_succ_le h)]

theorem releaseFrames_split {k : Nat} (above s : List (Lvl σ)) (h : k ≤ s.length) :
    ∃ above', releaseFrames k (above ++ s) = above' ++ releaseFrames k s ∧
      above'.length = above.length := by
  induction above with
  | nil => exact ⟨[], rfl, rfl⟩
  | cons a above ih =>
    obtain ⟨above', hrel, hlen⟩ := ih
    have hge : ¬(above ++ s).length < k := by
      rw [length_append]
      omega
    rw [cons_append, releaseFrames, if_neg hge, hrel]
    split
    · exact ⟨_ :: above', rfl, by rw [length_cons, hlen, length_cons]⟩
    · exact ⟨a :: above', rfl, by rw [length_cons, hlen, length_cons]⟩

/-- The level that control goes on at loses its frame when it is a called function. -/
theorem releaseFrames_target (tg : Lvl σ) (below : List (Lvl σ)) :
    releaseFrames below.length (tg :: below) =
      { tg with frame := if tg.kind = .func ∧ below ≠ [] then none else tg.frame } :: below := by
  rw [releaseFrames, if_neg (lt_irrefl _), releaseFrames_of_le le_rfl]
  simp only [ne_eq, length_eq_zero_iff]
  split <;> rfl

/-- The frames freed are those of the calls that end, and one more where control goes on at
the body of a called function. -/
theorem releasedFrames_append (above : List (Lvl σ)) (tg : Lvl σ) (below : List (Lvl σ)) :
    releasedFrames below.length (above ++ tg :: below) + nestedCalls (tg :: below) =
      nestedCalls (above ++ tg :: below) + if tg.kind = .func ∧ below ≠ [] then 1 else 0 := by
  induction above with
  | nil =>
    rw [nil_append, releasedFrames, if_neg (lt_irrefl _), releasedFrames_of_le le_rfl]
    simp only [ne_eq, length_eq_zero_iff]
    split <;> omega
  | cons a above ih =>
    have hge : ¬(above ++ tg :: below).length < below.length := by
      rw [length_append, length_cons]
      omega
    have hne : above ++ tg :: below ≠ [] := by simp
    have hlen : (above ++ tg :: below).length ≠ 0 := by simp
    rw [cons_append, releasedFrames, if_neg hge, nestedCalls_cons _ hne]
    simp only [hlen, ne_eq, not_false_eq_true, and_true] at ih ⊢
    split <;> omega

/-- The scan finds a clause of a `try_table` among the levels. -/
theorem throwScan_some {s : List (Lvl σ)} (h : throwScan P c tag lvls = some (s, ct)) :
    ∃ above tl rest, lvls = above ++ s ∧ s = tl :: rest ∧ tl.kind = .block ∧ ct ∈ tl.catches := by
  induction lvls with
  | nil => cases h
  | cons l ls ih =>
    unfold throwScan at h
    split at h
    · rename_i hkind
      split at h
      · rename_i ct' hfind
        cases h
        exact ⟨[], l, ls, rfl, rfl, hkind, mem_of_find?_eq_some hfind⟩
      · obtain ⟨above, tl, rest, hls, hs, hk, hct⟩ := ih h
        exact ⟨l :: above, tl, rest, by rw [hls, cons_append], hs, hk, hct⟩
    · obtain ⟨above, tl, rest, hls, hs, hk, hct⟩ := ih h
      exact ⟨l :: above, tl, rest, by rw [hls, cons_append], hs, hk, hct⟩

theorem resumeAt_keeps (hnest : Nested (tg :: below) d)
    (hb : Spends b c.budget (tg :: below)) : Keeps b (resumeAt c (tg :: below)) := by
  unfold resumeAt
  refine .ite (fun hfunc => ?_) fun hfunc => ?_
  · obtain ⟨_, rfl⟩ := hnest.func_stop hfunc
    exact fnSplice_keeps hnest hfunc hb
  · have hblock : tg.kind = .block := by
      cases hk : tg.kind with
      | func => exact absurd hk hfunc
      | block => rfl
    obtain ⟨hsound, hcount⟩ := hnest.leave hblock
    refine .cont hsound ?_
    rw [syncFrame_lvls, syncFrame_budget]
    dsimp only [leave]
    exact hb.calls ((nestedCalls_setPc _ _).trans hcount)

theorem catchTarget_eq {k : Nat} (h : rest.length = label + (k + 1)) :
    catchTarget rest.length label = k := by
  unfold catchTarget
  rw [if_pos (by omega)]
  omega

/-- Where control goes on is a level of the function with the `try_table`. -/
theorem Nested.target (hnest : Nested (above ++ tl :: rest) d) (hkind : tl.kind = .block)
    (hct : ct ∈ tl.catches) : ∃ inner tg below k, rest = inner ++ tg :: below ∧
      inner.length = ct.label ∧ (∀ l ∈ inner, l.kind = .block) ∧ Nested (tg :: below) k := by
  obtain ⟨d', hsuffix⟩ := hnest.suffix
  cases hsuffix with
  | bottom hk _ | call hk _ _ _ =>
    rw [hkind] at hk
    cases hk
  | block _ _ _ hclauses h =>
    obtain ⟨inner, tg, below, hrest, hlen, hblocks, htg, _⟩ := h.split (hclauses ct hct)
    exact ⟨inner, tg, below, _, hrest, hlen, hblocks, htg⟩

/-- A caught exception gives back the calls that end, and one more where the clause names the
body of a called function. -/
theorem throwHit_keeps (hlvls : c.lvls = above ++ tl :: rest) (hnest : Nested c.lvls d)
    (hkind : tl.kind = .block) (hct : ct ∈ tl.catches)
    (hb : Spends b c.budget c.lvls) :
    ∃ tg below, catchLevels rest ct = tg :: below ∧ ((tg.kind = .func → below = []) →
      Keeps b (throwHit P c tag payload rest.length ct)) := by
  rw [hlvls] at hnest
  obtain ⟨inner, tg, below, k, hrest, hlen, _, htg⟩ := hnest.target hkind hct
  refine ⟨tg, below, by rw [catchLevels, hrest, ← hlen, drop_left], fun hcallee => ?_⟩
  have htarget : catchTarget rest.length ct.label = below.length :=
    catchTarget_eq (by rw [hrest, length_append, hlen, length_cons])
  have hsplit : c.lvls = (above ++ tl :: inner) ++ tg :: below := by
    rw [hlvls, append_assoc, cons_append, ← hrest]
  obtain ⟨above', hrel, _⟩ := releaseFrames_split (k := below.length)
    (above ++ tl :: inner) (tg :: below) (Nat.le_succ _)
  rw [releaseFrames_target] at hrel
  generalize htg' : ({ tg with frame := if tg.kind = .func ∧ below ≠ [] then none else tg.frame } :
    Lvl σ) = tg' at hrel
  have hcount := releasedFrames_append (above ++ tl :: inner) tg below
  rw [← hsplit] at hrel hcount
  have hdrop : (above' ++ tg' :: below).drop
      ((above' ++ tg' :: below).length - 1 - below.length) = tg' :: below := by
    rw [length_append, length_cons,
      show above'.length + (below.length + 1) - 1 - below.length = above'.length by omega,
      drop_left]
  have hnest' : Nested (tg' :: below) k := by
    subst htg'
    exact htg.head rfl rfl rfl rfl rfl rfl
  have hkind' : tg'.kind = tg.kind := by rw [← htg']
  have hresume : ∀ c' : Config σ, c'.budget = c.budget + releasedFrames below.length c.lvls →
      Keeps b (resumeAt c' (tg' :: below)) := by
    intro c' hbud
    refine resumeAt_keeps hnest' ?_
    obtain ⟨hsum, hpos⟩ := hb
    rw [if_neg (fun h => h.2 (hcallee h.1))] at hcount
    rw [Spends, hbud, nestedCalls_head hkind']
    exact ⟨by omega, by omega⟩
  unfold throwHit
  rw [htarget]
  dsimp only
  rw [hrel, hdrop]
  cases ct.kind with
  | tag | all => exact hresume _ rfl
  | tagRef | allRef => exact .ite (fun _ => .stop _ _) fun _ => hresume _ rfl

theorem throwExn_keeps (hnest : Nested c.lvls d) (hb : Spends b c.budget c.lvls)
    (hcallee : ∀ tl rest ct tg below, throwScan P c tag c.lvls = some (tl :: rest, ct) →
      catchLevels rest ct = tg :: below → tg.kind = .func → below = []) :
    Keeps b (throwExn P c tag payload) := by
  unfold throwExn
  cases hscan : throwScan P c tag c.lvls with
  | none => exact .stop _ _
  | some found =>
    obtain ⟨s, ct⟩ := found
    obtain ⟨above, tl, rest, hlvls, rfl, hkind, hct⟩ := throwScan_some hscan
    obtain ⟨tg, below, hcatch, hkeeps⟩ := throwHit_keeps hlvls hnest hkind hct hb
    exact hkeeps (hcallee tl rest ct tg below hscan hcatch)

/-! ## A turn of the loop -/

/-- A thrown exception that is not caught for the body of a called function. -/
theorem doThrow_keeps {idx : Nat} (hcur : current c = some (.throw idx)) (hnest : Nested c.lvls d)
    (hb : Spends b c.budget c.lvls) (hcallee : ¬CaughtForCallee P c) :
    Keeps b (doThrow P c idx) := by
  unfold doThrow
  cases hinst : instOf P c c.frame with
  | none => exact .stop _ _
  | some mi =>
    dsimp only
    cases htag : mi.tags[idx]? with
    | none => exact .stop _ _
    | some tag =>
      dsimp only
      refine .ite (fun _ => .stop _ _) fun hlen => ?_
      have hraised : raised P c = some ({ c with vs := popValues c.vs (P.tags.getD tag 0) }, tag,
          topValues c.vs (P.tags.getD tag 0)) := by
        rw [raised, hcur]
        dsimp only
        rw [hinst]
        dsimp only
        rw [htag]
        dsimp only
        rw [if_neg hlen]
      refine throwExn_keeps hnest hb fun tl rest ct tg below hscan hcatch hfunc => ?_
      by_contra hne
      exact hcallee ⟨_, _, _, tl, rest, ct, tg, below, hraised, hscan, hcatch, hfunc, hne⟩

theorem doThrowRef_keeps (hcur : current c = some .throwRef) (hnest : Nested c.lvls d)
    (hb : Spends b c.budget c.lvls) (hcallee : ¬CaughtForCallee P c) :
    Keeps b (doThrowRef P c) := by
  unfold doThrowRef
  split
  · exact .stop _ _
  · exact .stop _ _
  · exact .stop _ _
  · rename_i e htop
    cases hexn : c.exns[e]? with
    | none => exact .stop _ _
    | some te =>
      have hraised : raised P c = some ({ c with vs := popValues c.vs 1 }, te.tag, te.args) := by
        rw [raised, hcur]
        dsimp only
        rw [htop]
        dsimp only
        rw [hexn]
      refine throwExn_keeps hnest hb fun tl rest ct tg below hscan hcatch hfunc => ?_
      by_contra hne
      exact hcallee ⟨_, _, _, tl, rest, ct, tg, below, hraised, hscan, hcatch, hfunc, hne⟩
  · exact .stop _ _

theorem current_eq (hlvls : c.lvls = tp :: rest) (hfunc : ¬(tp.kind = .func ∧ tp.pc ≥ tp.src.length))
    (hblock : ¬(tp.kind = .block ∧ tp.pc ≥ tp.stop)) : current c = tp.src[tp.pc]? := by
  rw [current, hlvls]
  dsimp only
  rw [if_neg hfunc, if_neg hblock]

/-- An instruction that neither opens a block nor closes one keeps the budget. -/
theorem exec_keeps (hP : P.Scoped) (hnest : Nested (tp :: rest) d) (hlvls : c.lvls = tp :: rest)
    (hcur : current c = some i) (hopens : i.opens = false) (hmark : i.isMark = false)
    (hlabels : ∀ label ∈ i.labels, label ≤ d) (hruns : tp.Runs d (tp.pc + 1))
    (hb : Spends b c.budget (tp :: rest)) (hcallee : ¬CaughtForCallee P c) :
    Keeps b (exec P c tp rest i) := by
  have hbr : ∀ (c' : Config σ) label, c'.lvls = c.lvls → c'.budget = c.budget → label ≤ d →
      Keeps b (iterBr c' label) := by
    intro c' label hl hbud hle
    refine iterBr_keeps ?_ hle ?_
    · rw [hl, hlvls]
      exact hnest
    · rw [hl, hlvls, hbud]
      exact hb
  have hnext : ∀ c' : Config σ, c'.lvls = advance c.lvls → c'.budget = c.budget →
      Keeps b (.cont c') := by
    intro c' hl hbud
    exact keeps_advance hnest hruns (by rw [hl, hlvls]) (by rwa [hbud])
  have hinvoke : ∀ (c' : Config σ) tail f, c'.lvls = c.lvls → c'.budget = c.budget →
      Keeps b (invoke P c' tail f) := by
    intro c' tail f hl hbud
    exact invoke_keeps hP hnest hruns (hl.trans hlvls) (by rwa [hbud]) tail f
  cases i with
  | plain run =>
    show Keeps b (runPlain c run)
    unfold runPlain
    split
    · exact .stop _ _
    · split
      · exact .stop _ _
      · split
        · exact hnext _ rfl rfl
        · exact .stop _ _
        · exact .stop _ _
  | unreachable => exact .stop _ _
  | block bt | loop bt | ifThen bt | tryTable bt catches => simp [Instr.opens] at hopens
  | elseMark | endMark => simp [Instr.isMark] at hmark
  | throw idx => exact doThrow_keeps hcur (hlvls ▸ hnest) (hlvls ▸ hb) hcallee
  | throwRef => exact doThrowRef_keeps hcur (hlvls ▸ hnest) (hlvls ▸ hb) hcallee
  | br label => exact hbr c label rfl rfl (hlabels label mem_cons_self)
  | brIf label =>
    have hle := hlabels label mem_cons_self
    show Keeps b (doBrIf c label)
    unfold doBrIf
    split
    · exact .stop _ _
    · exact .ite (fun _ => hnext _ rfl rfl) fun _ => hbr _ label rfl rfl hle
  | brTable labels dflt =>
    refine hbr _ _ rfl rfl (hlabels _ ?_)
    rw [getD_eq_getElem?_getD]
    cases hsel : labels[(c.vs.getLast?.getD .null).toU32]? with
    | none => exact mem_cons_self
    | some label => exact mem_cons_of_mem _ (mem_of_getElem? hsel)
  | brOnNull label =>
    have hle := hlabels label mem_cons_self
    show Keeps b (doBrOnNull c label)
    unfold doBrOnNull
    split
    · exact .stop _ _
    · exact hbr _ label rfl rfl hle
    · exact hnext _ rfl rfl
  | brOnNonNull label =>
    have hle := hlabels label mem_cons_self
    show Keeps b (doBrOnNonNull c label)
    unfold doBrOnNonNull
    split
    · exact .stop _ _
    · exact hnext _ rfl rfl
    · exact hnext _ rfl rfl
    · exact hbr _ label rfl rfl hle
  | ret =>
    obtain ⟨tl, below, hfunc, htl, hkind, hcalls⟩ := hnest.funcOf
    show Keeps b (fnSplice c (iterFuncOf c.lvls))
    rw [hlvls, hfunc]
    exact fnSplice_keeps htl hkind (hb.calls hcalls)
  | call tail idx =>
    show Keeps b (resolveDirect P c tail idx)
    unfold resolveDirect
    split
    · exact .stop _ _
    · split
      · exact .stop _ _
      · exact hinvoke c tail _ rfl rfl
  | callIndirect tail typeidx tableidx =>
    show Keeps b (resolveInd P c tail typeidx tableidx)
    unfold resolveInd
    split
    · exact .stop _ _
    · split
      · exact .stop _ _
      · refine .ite (fun _ => .stop _ _) fun _ => ?_
        dsimp only
        split
        · exact .stop _ _
        · exact .stop _ _
        · exact .ite (fun _ => hinvoke _ tail _ rfl rfl) fun _ => .stop _ _
        · exact .stop _ _
  | callRef tail =>
    show Keeps b (resolveRef P c tail)
    unfold resolveRef
    split
    · exact .stop _ _
    · exact .stop _ _
    · exact .stop _ _
    · exact hinvoke _ tail _ rfl rfl
    · exact .stop _ _

/-- A turn keeps the levels sound, and the budget with the open calls. -/
theorem step_keeps (hP : P.Scoped) (hsound : Sound c.lvls) (hb : Spends b c.budget c.lvls)
    (hcallee : ¬CaughtForCallee P c) : Keeps b (step P c) := by
  obtain ⟨tp, rest, d, hlvls, hnest, hruns⟩ := hsound
  rw [hlvls] at hb
  unfold step
  rw [hlvls]
  dsimp only
  refine .ite (fun hfunc => ?_) fun hfunc => .ite (fun hblock => ?_) fun hblock => ?_
  · obtain ⟨_, rfl⟩ := hnest.func_stop hfunc.1
    exact fnSplice_keeps hnest hfunc.1 hb
  · obtain ⟨hleave, hcount⟩ := hnest.leave hblock.1
    refine .cont hleave ?_
    dsimp only [leave]
    exact hb.calls ((nestedCalls_setPc _ _).trans hcount)
  · cases hget : tp.src[tp.pc]? with
    | none => exact .stop _ _
    | some i =>
      dsimp only
      have hlt : tp.pc < tp.stop := by
        cases hk : tp.kind with
        | func =>
          rw [(hnest.func_stop hk).1]
          exact Nat.lt_of_not_le fun hle => hfunc ⟨hk, hle⟩
        | block => exact Nat.lt_of_not_le fun hle => hblock ⟨hk, hle⟩
      have hcur := current_eq hlvls hfunc hblock
      rw [hget] at hcur
      obtain ⟨stop, hscoped, hstop⟩ := hruns.resolve_left (Nat.not_le.mpr hlt)
      cases hmark : i.isMark with
      | true =>
        -- only the `else` that ends an arm is executed
        have hpc := hscoped.not_mark hget hmark
        rcases hstop with rfl | ⟨hkind, helse⟩
        · exact absurd hpc hlt.ne
        · rw [← hpc, hget] at helse
          cases helse
          obtain ⟨hleave, hcount⟩ := hnest.leave hkind
          refine .cont hleave ?_
          dsimp only [leave]
          exact hb.calls ((nestedCalls_setPc _ _).trans hcount)
      | false =>
        have hne : tp.pc ≠ stop := by
          rintro rfl
          rcases hstop with h | ⟨_, helse⟩
          · exact hlt.ne h
          · rw [hget] at helse
            cases helse
            simp [Instr.isMark] at hmark
        cases hopens : i.opens with
        | true =>
          cases i <;> simp [Instr.opens] at hopens
          case block bt => exact enterBlock_keeps hnest hscoped hstop hne hget rfl rfl hlvls hb
          case loop bt => exact enterBlock_keeps hnest hscoped hstop hne hget rfl rfl hlvls hb
          case ifThen bt => exact enterBlock_keeps hnest hscoped hstop hne hget rfl rfl hlvls hb
          case tryTable bt catches =>
            exact enterBlock_keeps hnest hscoped hstop hne hget rfl rfl hlvls hb
        | false =>
          obtain ⟨hlabels, hafter⟩ := hscoped.next hget hopens hmark hne
          exact exec_keeps hP hnest hlvls hcur hopens hmark hlabels (.inr ⟨stop, hafter, hstop⟩) hb
            hcallee

end Wasm89
