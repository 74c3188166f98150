import EightyNine.Wasm89.Driver

/-!
# The levels of a run

In code whose blocks are closed and whose labels are in scope, the levels of a run
nest as the blocks of the code do: below each block is the level that goes on after
it, and below each function its caller.  A branch stays inside its function.
-/

namespace Wasm89

variable {σ : Type} {P : Program σ} {code : List (Instr σ)} {c : Config σ} {l l' tl tp : Lvl σ}
  {ls rest lvls above below : List (Lvl σ)} {i : Instr σ} {d lo hi k n label pc : Nat}

/-! ## Code -/

/-- The labels an instruction branches to. -/
def Instr.labels : Instr σ → List Nat
  | .br label | .brIf label | .brOnNull label | .brOnNonNull label => [label]
  | .brTable labels dflt => dflt :: labels
  | _ => []

/-- The clauses of a `try_table`. -/
def Instr.clauses : Instr σ → List Catch
  | .tryTable _ catches => catches
  | _ => []

/-- `else` and `end`. -/
def Instr.isMark : Instr σ → Bool
  | .elseMark | .endMark => true
  | _ => false

/-- The instructions from `lo` to `hi` are whole, and `d` blocks inside a function their labels
are in scope. -/
inductive Scoped (code : List (Instr σ)) : Nat → Nat → Nat → Prop where
  | nil {d lo : Nat} : Scoped code d lo lo
  | instr {d lo hi : Nat} {i : Instr σ} (hget : code[lo]? = some i) (hopens : i.opens = false)
      (hmark : i.isMark = false) (hlabels : ∀ label ∈ i.labels, label ≤ d)
      (rest : Scoped code d (lo + 1) hi) : Scoped code d lo hi
  | block {d lo be hi : Nat} {i : Instr σ} (hget : code[lo]? = some i) (hopens : i.opens = true)
      (hclauses : ∀ ct ∈ i.clauses, ct.label ≤ d) (body : Scoped code (d + 1) (lo + 1) be)
      (hend : code[be]? = some .endMark) (rest : Scoped code d (be + 1) hi) : Scoped code d lo hi
  | ifElse {d lo ep be hi : Nat} {bt : BlockType} (hget : code[lo]? = some (.ifThen bt))
      (thenArm : Scoped code (d + 1) (lo + 1) ep) (helse : code[ep]? = some .elseMark)
      (elseArm : Scoped code (d + 1) (ep + 1) be) (hend : code[be]? = some .endMark)
      (rest : Scoped code d (be + 1) hi) : Scoped code d lo hi

/-- The body of every function is closed code. -/
def Program.Scoped (P : Program σ) : Prop :=
  ∀ f ∈ P.funcs, ∀ inst locals code, f.code = .body inst locals code →
    Wasm89.Scoped code 0 0 code.length

theorem drop_of_getElem? {α : Type} {xs : List α} {x : α} (h : xs[n]? = some x) :
    xs.drop n = x :: xs.drop (n + 1) := by
  obtain ⟨hn, rfl⟩ := List.getElem?_eq_some_iff.mp h
  exact List.drop_eq_getElem_cons hn

section

variable (j depth : Nat) (elsePos : Option Nat) (is : List (Instr σ))

theorem extentFrom_opens (h : i.opens = true) :
    extentFrom j depth elsePos (i :: is) = extentFrom (j + 1) (depth + 1) elsePos is := by
  cases i <;> first | rfl | simp [Instr.opens] at h

theorem extentFrom_plain (hopens : i.opens = false) (hmark : i.isMark = false) :
    extentFrom j depth elsePos (i :: is) = extentFrom (j + 1) depth elsePos is := by
  cases i <;> first | rfl | simp [Instr.opens, Instr.isMark] at hopens hmark

theorem extentFrom_else :
    extentFrom j depth elsePos (.elseMark :: is) =
      extentFrom (j + 1) depth (if depth = 0 then some j else elsePos) is := rfl

theorem extentFrom_end :
    extentFrom j depth elsePos (.endMark :: is) =
      if depth = 0 then some (j, elsePos) else extentFrom (j + 1) (depth - 1) elsePos is := rfl

end

/-- Whole code is passed over in the search for the end of a block. -/
theorem Scoped.extentFrom_eq (h : Scoped code d lo hi) (elsePos : Option Nat) (k : Nat) :
    extentFrom lo k elsePos (code.drop lo) = extentFrom hi k elsePos (code.drop hi) := by
  induction h generalizing k with
  | nil => rfl
  | instr hget hopens hmark _ _ ih =>
    rw [drop_of_getElem? hget, extentFrom_plain _ _ _ _ hopens hmark, ih]
  | block hget hopens _ _ hend _ ihbody ihrest =>
    rw [drop_of_getElem? hget, extentFrom_opens _ _ _ _ hopens, ihbody, drop_of_getElem? hend,
      extentFrom_end, if_neg (Nat.succ_ne_zero k), Nat.add_sub_cancel, ihrest]
  | ifElse hget _ helse _ hend _ ihthen ihelse ihrest =>
    rw [drop_of_getElem? hget, extentFrom_opens _ _ _ _ rfl, ihthen, drop_of_getElem? helse,
      extentFrom_else, if_neg (Nat.succ_ne_zero k), ihelse, drop_of_getElem? hend, extentFrom_end,
      if_neg (Nat.succ_ne_zero k), Nat.add_sub_cancel, ihrest]

/-- What is known of a block that is opened. -/
structure Opened (code : List (Instr σ)) (d lo be : Nat) (ep : Option Nat) : Prop where
  body : ∃ stop, Scoped code (d + 1) (lo + 1) stop ∧
    (stop = be ∨ code[stop]? = some .elseMark)
  elseArm : ∀ e, ep = some e → Scoped code (d + 1) (e + 1) be

theorem Scoped.opened (h : Scoped code d lo hi) (hget : code[lo]? = some i)
    (hopens : i.opens = true) (hlt : lo ≠ hi) :
    ∃ be ep, blockExtent code lo = some (be, ep) ∧ Opened code d lo be ep ∧
      (∀ ct ∈ i.clauses, ct.label ≤ d) ∧ Scoped code d (be + 1) hi := by
  cases h with
  | nil => exact absurd rfl hlt
  | instr hget' hopens' _ _ _ =>
    rw [hget] at hget'
    cases hget'
    rw [hopens] at hopens'
    cases hopens'
  | @block _ _ be _ _ hget' _ hclauses body hend rest =>
    rw [hget] at hget'
    cases hget'
    refine ⟨be, none, ?_, ⟨⟨be, body, .inl rfl⟩, fun e he => by cases he⟩, hclauses, rest⟩
    rw [blockExtent, body.extentFrom_eq, drop_of_getElem? hend, extentFrom_end, if_pos rfl]
  | @ifElse _ _ ep be _ _ hget' thenArm helse elseArm hend rest =>
    rw [hget] at hget'
    cases hget'
    refine ⟨be, some ep, ?_, ⟨⟨ep, thenArm, .inr helse⟩, fun e he => ?_⟩, ?_, rest⟩
    · rw [blockExtent, thenArm.extentFrom_eq, drop_of_getElem? helse, extentFrom_else, if_pos rfl,
        elseArm.extentFrom_eq, drop_of_getElem? hend, extentFrom_end, if_pos rfl]
    · cases he
      exact elseArm
    · intro ct hct
      cases hct

theorem Scoped.next (h : Scoped code d lo hi) (hget : code[lo]? = some i)
    (hopens : i.opens = false) (hmark : i.isMark = false) (hlt : lo ≠ hi) :
    (∀ label ∈ i.labels, label ≤ d) ∧ Scoped code d (lo + 1) hi := by
  cases h with
  | nil => exact absurd rfl hlt
  | instr hget' _ _ hlabels rest =>
    rw [hget] at hget'
    cases hget'
    exact ⟨hlabels, rest⟩
  | block hget' hopens' _ _ _ _ =>
    rw [hget] at hget'
    cases hget'
    rw [hopens] at hopens'
    cases hopens'
  | ifElse hget' _ _ _ _ _ =>
    rw [hget] at hget'
    cases hget'
    cases hopens

theorem Scoped.not_mark (h : Scoped code d lo hi) (hget : code[lo]? = some i)
    (hmark : i.isMark = true) : lo = hi := by
  cases h with
  | nil => rfl
  | instr hget' _ hmark' _ _ =>
    rw [hget] at hget'
    cases hget'
    rw [hmark] at hmark'
    cases hmark'
  | block hget' hopens _ _ _ _ =>
    rw [hget] at hget'
    cases hget'
    cases i <;> simp [Instr.opens, Instr.isMark] at hopens hmark
  | ifElse hget' _ _ _ _ _ =>
    rw [hget] at hget'
    cases hget'
    cases hmark

/-! ## Levels -/

/-- From a position of the code on, the level comes to its end. -/
def Lvl.Runs (l : Lvl σ) (d pc : Nat) : Prop :=
  l.stop ≤ pc ∨ ∃ stop, Scoped l.src d pc stop ∧
    (stop = l.stop ∨ (l.kind = .block ∧ l.src[stop]? = some .elseMark))

/-- The levels nest, and the innermost is `d` blocks inside its function. -/
inductive Nested : List (Lvl σ) → Nat → Prop where
  | bottom {l : Lvl σ} (hkind : l.kind = .func) (hstop : l.stop = l.src.length) : Nested [l] 0
  | call {l l' : Lvl σ} {ls : List (Lvl σ)} {d : Nat} (hkind : l.kind = .func)
      (hstop : l.stop = l.src.length) (hback : l'.Runs d (l'.pc + 1)) (h : Nested (l' :: ls) d) :
      Nested (l :: l' :: ls) 0
  | block {l l' : Lvl σ} {ls : List (Lvl σ)} {d : Nat} (hkind : l.kind = .block)
      (hback : l'.Runs d (l.stop + 1)) (hloop : l.isLoop = true → l.Runs (d + 1) l.contpos)
      (hclauses : ∀ ct ∈ l.catches, ct.label ≤ d) (h : Nested (l' :: ls) d) :
      Nested (l :: l' :: ls) (d + 1)

/-- The levels of a run, between two turns of the loop. -/
def Sound (lvls : List (Lvl σ)) : Prop :=
  ∃ l ls d, lvls = l :: ls ∧ Nested (l :: ls) d ∧ l.Runs d l.pc

/-- The number of function levels above level 0. -/
def nestedCalls : List (Lvl σ) → Nat
  | [] => 0
  | [_] => 0
  | l :: l' :: ls => nestedCalls (l' :: ls) + if l.kind = .func then 1 else 0

theorem nestedCalls_cons (l : Lvl σ) (h : ls ≠ []) :
    nestedCalls (l :: ls) = nestedCalls ls + if l.kind = .func then 1 else 0 := by
  cases ls with
  | nil => exact absurd rfl h
  | cons l' ls => rfl

theorem nestedCalls_block (h : l.kind = .block) : nestedCalls (l :: l' :: ls) = nestedCalls (l' :: ls) := by
  rw [nestedCalls, if_neg (by rw [h]; decide), Nat.add_zero]

theorem nestedCalls_head (h : l.kind = l'.kind) : nestedCalls (l :: ls) = nestedCalls (l' :: ls) := by
  cases ls with
  | nil => rfl
  | cons l'' ls => rw [nestedCalls, nestedCalls, h]

@[simp] theorem nestedCalls_setPc (pc : Nat) (ls : List (Lvl σ)) :
    nestedCalls (setPc pc ls) = nestedCalls ls := by
  cases ls with
  | nil => rfl
  | cons l ls => exact nestedCalls_head rfl

@[simp] theorem nestedCalls_advance (ls : List (Lvl σ)) :
    nestedCalls (advance ls) = nestedCalls ls := by
  cases ls with
  | nil => rfl
  | cons l ls => exact nestedCalls_head rfl

/-- Nesting says nothing of the position of the innermost level, nor of frames. -/
theorem Nested.head (h : Nested (l :: ls) d) (hkind : l'.kind = l.kind) (hsrc : l'.src = l.src)
    (hstop : l'.stop = l.stop) (hloop : l'.isLoop = l.isLoop) (hcont : l'.contpos = l.contpos)
    (hcatches : l'.catches = l.catches) : Nested (l' :: ls) d := by
  cases h with
  | bottom hk hs => exact .bottom (hkind.trans hk) (by rw [hstop, hs, hsrc])
  | call hk hs hback h => exact .call (hkind.trans hk) (by rw [hstop, hs, hsrc]) hback h
  | block hk hback hl hcl h =>
    refine .block (hkind.trans hk) (by rwa [hstop]) (fun hlp => ?_) (by rwa [hcatches]) h
    have := hl (hloop ▸ hlp)
    unfold Lvl.Runs at this ⊢
    rwa [hkind, hsrc, hstop, hcont]

theorem Nested.setPc (h : Nested (l :: ls) d) (pc : Nat) : Nested ({ l with pc := pc } :: ls) d :=
  h.head rfl rfl rfl rfl rfl rfl

theorem Nested.lt_length (h : Nested lvls d) : d < lvls.length := by
  induction h with
  | bottom => exact Nat.one_pos
  | call => exact Nat.succ_pos _
  | block _ _ _ _ _ ih => exact Nat.succ_lt_succ ih

theorem Nested.func_stop (h : Nested (l :: ls) d) (hkind : l.kind = .func) :
    l.stop = l.src.length ∧ d = 0 := by
  cases h with
  | bottom _ hs | call _ hs _ _ => exact ⟨hs, rfl⟩
  | block hk _ _ _ _ =>
    rw [hkind] at hk
    cases hk

theorem Nested.leave (h : Nested (l :: ls) d) (hkind : l.kind = .block) :
    Sound (Wasm89.setPc (l.stop + 1) ls) ∧ nestedCalls ls = nestedCalls (l :: ls) := by
  cases h with
  | bottom hk _ | call hk _ _ _ =>
    rw [hkind] at hk
    cases hk
  | block _ hback _ _ h =>
    refine ⟨⟨_, _, _, rfl, h.setPc _, hback⟩, ?_⟩
    rw [nestedCalls_block hkind]

theorem Nested.loop (h : Nested (l :: ls) d) (hkind : l.kind = .block) (hloop : l.isLoop = true) :
    l.Runs d l.contpos := by
  cases h with
  | bottom hk _ | call hk _ _ _ =>
    rw [hkind] at hk
    cases hk
  | block _ _ hl _ _ => exact hl hloop

theorem Nested.split (h : Nested lvls d) (hlabel : label ≤ d) :
    ∃ inner tg rest, lvls = inner ++ tg :: rest ∧ inner.length = label ∧
      (∀ l ∈ inner, l.kind = .block) ∧ Nested (tg :: rest) (d - label) ∧
      nestedCalls (tg :: rest) = nestedCalls lvls := by
  induction h generalizing label with
  | bottom hk hs =>
    obtain rfl := Nat.le_zero.mp hlabel
    exact ⟨[], _, _, rfl, rfl, nofun, .bottom hk hs, rfl⟩
  | call hk hs hback h ih =>
    obtain rfl := Nat.le_zero.mp hlabel
    exact ⟨[], _, _, rfl, rfl, nofun, .call hk hs hback h, rfl⟩
  | block hk hback hl hcl h ih =>
    cases label with
    | zero => exact ⟨[], _, _, rfl, rfl, nofun, .block hk hback hl hcl h, rfl⟩
    | succ label =>
      obtain ⟨inner, tg, rest, hls, hlen, hblocks, hnest, hcalls⟩ :=
        ih (Nat.succ_le_succ_iff.mp hlabel)
      refine ⟨_ :: inner, tg, rest, congrArg _ hls, congrArg _ hlen,
        List.forall_mem_cons.mpr ⟨hk, hblocks⟩, ?_, hcalls.trans ?_⟩
      · rwa [Nat.succ_sub_succ]
      · rw [nestedCalls_block hk]

theorem Nested.suffix (h : Nested (above ++ l :: ls) d) : ∃ d', Nested (l :: ls) d' := by
  induction above generalizing d with
  | nil => exact ⟨d, h⟩
  | cons a above ih =>
    cases above with
    | nil =>
      cases h with
      | call _ _ _ h | block _ _ _ _ h => exact ⟨_, h⟩
    | cons b above =>
      cases h with
      | call _ _ _ h | block _ _ _ _ h => exact ih h

theorem iterFuncOf_cons (l l' : Lvl σ) (ls : List (Lvl σ)) :
    iterFuncOf (l :: l' :: ls) =
      if l.kind = .func then l :: l' :: ls else iterFuncOf (l' :: ls) := rfl

theorem Nested.funcOf (h : Nested lvls d) :
    ∃ tl rest, iterFuncOf lvls = tl :: rest ∧ Nested (tl :: rest) 0 ∧ tl.kind = .func ∧
      nestedCalls (tl :: rest) = nestedCalls lvls := by
  induction h with
  | bottom hk hs => exact ⟨_, _, rfl, .bottom hk hs, hk, rfl⟩
  | call hk hs hback h ih =>
    refine ⟨_, _, ?_, .call hk hs hback h, hk, rfl⟩
    rw [iterFuncOf_cons, if_pos hk]
  | block hk _ _ _ h ih =>
    obtain ⟨tl, rest, hfunc, hnest, hkind, hcalls⟩ := ih
    refine ⟨tl, rest, ?_, hnest, hkind, hcalls.trans ?_⟩
    · rw [iterFuncOf_cons, if_neg (by rw [hk]; decide), hfunc]
    · rw [nestedCalls_block hk]

end Wasm89
