import EightyNine.Wasm89.Budget

/-!
# Runs keep the budget

In every run in which no exception is caught for the body of a called function the
budget is kept (`budget_kept`).  A run ends as exhausted nowhere but in a call.
-/

namespace Wasm89

variable {σ : Type} {P : Program σ} {Q : Config σ → Prop} {c e s : Config σ} {tp : Lvl σ}
  {rest lvls : List (Lvl σ)} {i : Instr σ} {d label tag f : Nat} {payload : List Value} {ct : Catch}

/-! ## Where the budget ends -/

/-- The turn does not end the run as exhausted. -/
def Spares (next : Next σ) : Prop := next ≠ .stop .exhausted

theorem Spares.cont (c : Config σ) : Spares (.cont c) := fun h => by cases h

theorem Spares.ok (vs : List Value) : Spares (.stop (.ok vs) : Next σ) := fun h => by cases h

theorem Spares.trap (msg : String) : Spares (.stop (.trap msg) : Next σ) := fun h => by cases h

theorem Spares.crash (msg : String) : Spares (.stop (.crash msg) : Next σ) := fun h => by cases h

theorem Spares.exception (tag : Nat) (payload : List Value) :
    Spares (.stop (.exception tag payload) : Next σ) := fun h => by cases h

theorem Spares.ite {p : Prop} [Decidable p] {x y : Next σ} (hx : Spares x) (hy : Spares y) :
    Spares (if p then x else y) := by
  split
  · exact hx
  · exact hy

theorem fnSplice_spares (c : Config σ) (lvls : List (Lvl σ)) : Spares (fnSplice c lvls) := by
  cases lvls with
  | nil => exact .ok _
  | cons tp rest =>
    cases rest with
    | nil => exact .ok _
    | cons l ls => exact .cont _

theorem iterBr_spares (c : Config σ) (depth : Nat) : Spares (iterBr c depth) := by
  unfold iterBr
  refine .ite (.crash _) ?_
  cases c.lvls.drop depth with
  | nil => exact .crash _
  | cons tg rest => exact .ite (.cont _) (.ite (.cont _) (.cont _))

theorem enterBlock_spares (P : Program σ) (c : Config σ) (tp : Lvl σ) (op : Opening) :
    Spares (enterBlock P c tp op) := by
  unfold enterBlock
  cases blockExtent tp.src tp.pc with
  | none => exact .crash _
  | some ext => exact .ite (.crash _) (.ite (.crash _) (.cont _))

theorem resumeAt_spares (c : Config σ) (lvls : List (Lvl σ)) : Spares (resumeAt c lvls) := by
  cases lvls with
  | nil => exact .ok _
  | cons tgl rest => exact .ite (fnSplice_spares _ _) (.cont _)

theorem throwExn_spares (P : Program σ) (c : Config σ) (tag : Nat) (payload : List Value) :
    Spares (throwExn P c tag payload) := by
  unfold throwExn
  cases throwScan P c tag c.lvls with
  | none => exact .exception _ _
  | some found =>
    obtain ⟨lvls, ct⟩ := found
    dsimp only
    unfold throwHit
    dsimp only
    cases ct.kind with
    | tag | all => exact resumeAt_spares _ _
    | tagRef | allRef => exact .ite (.crash _) (resumeAt_spares _ _)

theorem runPlain_spares (c : Config σ) (run : σ → Frame → List Value → PlainResult σ) :
    Spares (runPlain c run) := by
  unfold runPlain
  split
  · exact .crash _
  · split
    · exact .crash _
    · split
      · exact .cont _
      · exact .trap _
      · exact .crash _

theorem doThrow_spares (P : Program σ) (c : Config σ) (idx : Nat) : Spares (doThrow P c idx) := by
  unfold doThrow
  split
  · exact .crash _
  · split
    · exact .crash _
    · exact .ite (.crash _) (throwExn_spares _ _ _ _)

theorem doThrowRef_spares (P : Program σ) (c : Config σ) : Spares (doThrowRef P c) := by
  unfold doThrowRef
  split
  · exact .crash _
  · exact .trap _
  · exact .trap _
  · split
    · exact .crash _
    · exact throwExn_spares _ _ _ _
  · exact .crash _

theorem doBrIf_spares (c : Config σ) (label : Nat) : Spares (doBrIf c label) := by
  unfold doBrIf
  split
  · exact .crash _
  · exact .ite (.cont _) (iterBr_spares _ _)

theorem doBrOnNull_spares (c : Config σ) (label : Nat) : Spares (doBrOnNull c label) := by
  unfold doBrOnNull
  split
  · exact .crash _
  · exact iterBr_spares _ _
  · exact .cont _

theorem doBrOnNonNull_spares (c : Config σ) (label : Nat) : Spares (doBrOnNonNull c label) := by
  unfold doBrOnNonNull
  split
  · exact .crash _
  · exact .cont _
  · exact .cont _
  · exact iterBr_spares _ _

/-- A call ends the run as exhausted when nothing is left of the budget. -/
theorem doCall_exhausted (h : doCall P c f = .stop .exhausted) : c.budget = 0 := by
  by_contra hne
  revert h
  show Spares _
  unfold doCall
  cases P.funcs[f]? with
  | none => exact .crash _
  | some cf =>
    refine .ite (.crash _) ?_
    cases cf.code with
    | host run =>
      dsimp only
      cases run c.world (topValues c.vs cf.nparams) with
      | trap msg => exact .trap _
      | ok world res => exact .cont _
    | undefined =>
      dsimp only
      rw [if_neg hne]
      exact .crash _
    | body inst locals code =>
      dsimp only
      rw [if_neg hne]
      exact .cont _

theorem doTail_exhausted (h : doTail P c f = .stop .exhausted) :
    c.budget = 0 ∧ ∃ tl, iterFuncOf c.lvls = [tl] := by
  unfold doTail at h
  cases hf : P.funcs[f]? with
  | none =>
    rw [hf] at h
    cases h
  | some cf =>
    rw [hf] at h
    dsimp only at h
    split at h
    · cases h
    · cases hfunc : iterFuncOf c.lvls with
      | nil =>
        rw [hfunc] at h
        cases h
      | cons tl rest =>
        rw [hfunc] at h
        dsimp only at h
        cases hcode : cf.code with
        | host run =>
          rw [hcode] at h
          dsimp only at h
          split at h <;> cases h
        | undefined =>
          rw [hcode] at h
          cases h
        | body inst locals code =>
          rw [hcode] at h
          dsimp only at h
          cases rest with
          | cons l ls => cases h
          | nil =>
            refine ⟨?_, tl, rfl⟩
            dsimp only at h
            split at h
            · have hb := doCall_exhausted h
              exact hb
            · split at h
              · have hb := doCall_exhausted h
                exact hb
              · split at h
                · have hb := doCall_exhausted h
                  exact hb
                · cases h

theorem invoke_exhausted {tail : Bool} (hnest : Nested c.lvls d)
    (h : invoke P c tail f = .stop .exhausted) :
    c.budget = 0 ∧ (tail = false ∨ nestedCalls c.lvls = 0) := by
  cases tail with
  | false => exact ⟨doCall_exhausted h, .inl rfl⟩
  | true =>
    obtain ⟨hb, tl, htl⟩ := doTail_exhausted h
    obtain ⟨tl', rest, hfunc, _, _, hcalls⟩ := hnest.funcOf
    rw [htl] at hfunc
    cases hfunc
    exact ⟨hb, .inr hcalls.symm⟩

/-- The run ends as exhausted in a call, or in a tail call at level 0, with nothing left. -/
theorem exec_exhausted (hnest : Nested c.lvls d) (hcur : current c = some i)
    (h : exec P c tp rest i = .stop .exhausted) :
    c.budget = 0 ∧ (CallsNext false c ∨ nestedCalls c.lvls = 0 ∧ CallsNext true c) := by
  have hcall : ∀ (c' : Config σ) tail f, invoke P c' tail f = .stop .exhausted →
      c'.lvls = c.lvls → c'.budget = c.budget → CallsNext tail c →
      c.budget = 0 ∧ (CallsNext false c ∨ nestedCalls c.lvls = 0 ∧ CallsNext true c) := by
    intro c' tail f h hl hbud hnext
    obtain ⟨hb, hor⟩ := invoke_exhausted (hl ▸ hnest) h
    rw [hbud] at hb
    rw [hl] at hor
    cases tail with
    | false => exact ⟨hb, .inl hnext⟩
    | true => exact ⟨hb, .inr ⟨hor.resolve_left (by decide), hnext⟩⟩
  cases i with
  | plain run => exact absurd h (runPlain_spares _ _)
  | unreachable | elseMark | endMark => cases h
  | block bt | loop bt | ifThen bt | tryTable bt catches =>
    exact absurd h (enterBlock_spares _ _ _ _)
  | throw idx => exact absurd h (doThrow_spares _ _ _)
  | throwRef => exact absurd h (doThrowRef_spares _ _)
  | br label | brTable labels dflt => exact absurd h (iterBr_spares _ _)
  | brIf label => exact absurd h (doBrIf_spares _ _)
  | brOnNull label => exact absurd h (doBrOnNull_spares _ _)
  | brOnNonNull label => exact absurd h (doBrOnNonNull_spares _ _)
  | ret => exact absurd h (fnSplice_spares _ _)
  | call tail idx =>
    replace h : resolveDirect P c tail idx = .stop .exhausted := h
    unfold resolveDirect at h
    split at h
    · cases h
    · split at h
      · cases h
      · exact hcall c tail _ h rfl rfl (.inl ⟨idx, hcur⟩)
  | callIndirect tail typeidx tableidx =>
    replace h : resolveInd P c tail typeidx tableidx = .stop .exhausted := h
    unfold resolveInd at h
    split at h
    · cases h
    · split at h
      · cases h
      · split at h
        · cases h
        · dsimp only at h
          split at h
          · cases h
          · cases h
          · split at h
            · exact hcall _ tail _ h rfl rfl (.inr (.inl ⟨typeidx, tableidx, hcur⟩))
            · cases h
          · cases h
  | callRef tail =>
    replace h : resolveRef P c tail = .stop .exhausted := h
    unfold resolveRef at h
    split at h
    · cases h
    · cases h
    · cases h
    · exact hcall _ tail _ h rfl rfl (.inr (.inr hcur))
    · cases h

theorem step_exhausted (hsound : Sound c.lvls) (h : step P c = .stop .exhausted) :
    c.budget = 0 ∧ (CallsNext false c ∨ nestedCalls c.lvls = 0 ∧ CallsNext true c) := by
  obtain ⟨tp, rest, d, hlvls, hnest, _⟩ := hsound
  unfold step at h
  rw [hlvls] at h
  dsimp only at h
  split at h
  · exact absurd h (fnSplice_spares _ _)
  · rename_i hfunc
    split at h
    · cases h
    · rename_i hblock
      have hcur := current_eq hlvls hfunc hblock
      split at h
      · cases h
      · rename_i i hget
        rw [hget] at hcur
        exact exec_exhausted (hlvls ▸ hnest) hcur h

/-! ## Runs -/

theorem start_sound (f : FuncInst σ) {inst : Nat} {locals : List (ValType Nat)}
    {code : List (Instr σ)} (args : List Value) (budget : Int) (world : σ)
    (hcode : Scoped code 0 0 code.length) :
    Sound (start f inst locals code args budget world).lvls :=
  ⟨_, _, 0, rfl, .bottom rfl rfl, .inr ⟨_, hcode, .inl rfl⟩⟩

theorem Reaches.keeps {b : Int} (hP : P.Scoped) (hs : Sound s.lvls) (hb : Spends b s.budget s.lvls)
    (h : Reaches P (fun c => ¬CaughtForCallee P c) s c) :
    Sound c.lvls ∧ Spends b c.budget c.lvls := by
  induction h with
  | refl => exact ⟨hs, hb⟩
  | turn _ hQ hstep ih => exact step_keeps hP ih.1 ih.2 hQ _ hstep

/-- The budget is kept in every run in which no exception is caught for the body of a called
function. -/
theorem budget_kept (P : Program σ) (hP : P.Scoped) (f : FuncInst σ) (hf : f ∈ P.funcs)
    (inst : Nat) (locals : List (ValType Nat)) (code : List (Instr σ))
    (hcode : f.code = .body inst locals code) (args : List Value) (B : Nat) (world : σ) (c : Config σ)
    (h : Reaches P (fun c => ¬CaughtForCallee P c) (start f inst locals code args B world) c) :
    BudgetKept P B c := by
  have hstart : Sound (start f inst locals code args B world).lvls :=
    start_sound f args B world (hP f hf inst locals code hcode)
  have hspends : Spends (B : Int) (B : Int) (start f inst locals code args B world).lvls :=
    ⟨Int.add_zero _, Int.natCast_nonneg B⟩
  obtain ⟨hsound, hsum, hpos⟩ := h.keeps hP hstart hspends
  refine ⟨hsum, by omega, fun hex => ?_⟩
  obtain ⟨hzero, hnext⟩ := step_exhausted hsound hex
  have hfull : nestedCalls c.lvls = B := by omega
  exact ⟨hfull, hnext.imp_right fun h => ⟨hfull.symm.trans h.1, h.2⟩⟩

/-! ## A throw that ends in the body of a called function -/

/-- `call 1`. -/
def callerCode : List (Instr Unit) := [.call false 1]

/-- `(try_table (catch_all 0) (throw 0))`. -/
def calleeCode : List (Instr Unit) := [.tryTable .empty [⟨.all, 0, 0⟩], .throw 0, .endMark]

/-- A module with the two functions, and a tag. -/
def catching : Program Unit where
  funcs := [⟨0, 0, .body 0 [] callerCode⟩, ⟨0, 0, .body 0 [] calleeCode⟩]
  insts := [⟨[0, 1], [0], []⟩]
  tags := [0]
  table := fun _ _ _ => none
  matchFt := fun _ _ _ => false

theorem catching_scoped : catching.Scoped := by
  intro f hf inst locals code hcode
  rcases List.mem_cons.mp hf with rfl | hf
  · cases hcode
    exact .instr rfl rfl rfl (by simp [Instr.labels]) .nil
  · obtain rfl := List.mem_singleton.mp hf
    cases hcode
    exact .block rfl rfl (by simp [Instr.clauses])
      (.instr rfl rfl rfl (by simp [Instr.labels]) .nil) rfl .nil

/-- The run with a budget of one call. -/
def catchingStart : Config Unit :=
  start ⟨0, 0, .body 0 [] callerCode⟩ 0 [] callerCode [] 1 ()

theorem budget_kept_call : ∃ c, Reaches catching (fun c => ¬CaughtForCallee catching c)
    catchingStart c ∧ nestedCalls c.lvls = 1 ∧ BudgetKept catching 1 c := by
  have hcalm : ¬CaughtForCallee catching catchingStart := by
    rintro ⟨c', tag, payload, tl, rest, ct, tg, below, hraised, _⟩
    cases hraised
  have hrun : Reaches catching (fun c => ¬CaughtForCallee catching c) catchingStart _ :=
    .turn .refl hcalm rfl
  exact ⟨_, hrun, rfl, budget_kept catching catching_scoped ⟨0, 0, .body 0 [] callerCode⟩
    List.mem_cons_self 0 [] callerCode rfl [] 1 () _ hrun⟩

/-- The exception is caught for the body of the called function, and the budget comes back
twice. -/
theorem not_budget_kept : ¬∀ (P : Program Unit), P.Scoped → ∀ f ∈ P.funcs,
    ∀ inst locals code, f.code = .body inst locals code → ∀ (args : List Value) (B : Nat), 0 < B →
    ∀ c, Reaches P (fun _ => True) (start f inst locals code args B ()) c → BudgetKept P B c := by
  intro h
  have hrun : Reaches catching (fun _ => True) catchingStart _ :=
    .turn (.turn (.turn .refl trivial rfl) trivial rfl) trivial rfl
  have hkept := h catching catching_scoped ⟨0, 0, .body 0 [] callerCode⟩ List.mem_cons_self 0 []
    callerCode rfl [] 1 Nat.one_pos _ hrun
  exact absurd hkept.sum (by decide)

end Wasm89
