import EightyNine.Fx89.Store
import Mathlib.Logic.Relation

/-!
# What a processed constraint can do

Processing a constraint pushes facts, sets bindings, changes the state of
constraints and records conflicts.  Each of these is a `Step`, and everything the
solver does to a context is a sequence of them (`process_steps`), after a fresh
variable where an equality needs one.  An invariant of the solver is then a
property each step keeps.

Steps carry what is known where they are made: which atoms they may mention, that
a variable that is bound was unbound, that the row it is bound to has a newer
tail.  The solver gives facts to unbound variables only; the constructor of open
rows gives them to any.
-/

namespace Fx89

open List Function

variable {α : Type}

/-! ## Stores of changed contexts -/

namespace Ctx

variable (c : Ctx α)

theorem fireWatchers_eq (ks : List Nat) :
    ∃ queue, ks.foldl fireWatcher c = { c with queue := queue } := by
  induction ks generalizing c with
  | nil => exact ⟨c.queue, rfl⟩
  | cons k ks ih =>
    have h1 : ∃ queue, c.fireWatcher k = { c with queue := queue } := by
      unfold fireWatcher enqueue
      split_ifs
      · exact ⟨c.queue, rfl⟩
      · exact ⟨c.queue ++ [k], rfl⟩
      · exact ⟨c.queue, rfl⟩
      · exact ⟨c.queue, rfl⟩
    obtain ⟨queue, hq⟩ := h1
    obtain ⟨queue', hq'⟩ := ih (c.fireWatcher k)
    exact ⟨queue', by rw [foldl_cons, hq', hq]⟩

theorem solveNotify_eq (v : Nat) : ∃ queue, c.solveNotify v = { c with queue := queue } := by
  unfold solveNotify
  split_ifs
  · exact c.fireWatchers_eq _
  · exact ⟨c.queue, rfl⟩

variable {j : Nat}

theorem mem_queue_enqueue {k : Nat} : j ∈ (c.enqueue k).queue ↔ j ∈ c.queue ∨ j = k := by
  unfold enqueue
  split_ifs with h
  · constructor
    · exact .inl
    · rintro (hj | rfl)
      · exact hj
      · exact h
  · simp

/-- Notifying queues the live pending watchers, while the solver runs. -/
theorem mem_queue_solveNotify {v : Nat} : j ∈ (c.solveNotify v).queue ↔ j ∈ c.queue ∨
    (c.solving = true ∧ j ∈ (c.vars v).watchers ∧ (c.constraints j).live = true ∧
      (c.constraints j).state = .pending) := by
  have hfire : ∀ (ks : List Nat) (c : Ctx α), j ∈ (ks.foldl fireWatcher c).queue ↔ j ∈ c.queue ∨
      (j ∈ ks ∧ (c.constraints j).live = true ∧ (c.constraints j).state = .pending) := by
    intro ks
    induction ks with
    | nil => simp
    | cons k ks ih =>
      intro c
      have hcons : (c.fireWatcher k).constraints = c.constraints := by
        obtain ⟨queue, hq⟩ := c.fireWatchers_eq [k]
        rw [foldl_cons, foldl_nil] at hq
        rw [hq]
      have hone : j ∈ (c.fireWatcher k).queue ↔ j ∈ c.queue ∨
          (j = k ∧ (c.constraints j).live = true ∧ (c.constraints j).state = .pending) := by
        unfold fireWatcher
        split_ifs with hl hs
        · rw [mem_queue_enqueue]
          refine or_congr_right ⟨?_, And.left⟩
          rintro rfl
          exact ⟨rfl, hl, hs⟩
        · constructor
          · exact .inl
          · rintro (h | ⟨rfl, _, h⟩)
            · exact h
            · exact absurd h hs
        · constructor
          · exact .inl
          · rintro (h | ⟨rfl, h, _⟩)
            · exact h
            · exact absurd h hl
      rw [foldl_cons, ih, hone, hcons, mem_cons, or_assoc, or_and_right]
  unfold solveNotify
  split_ifs with h
  · simp [hfire, h]
  · simp [h]

/-- The loop starts with every listed pending constraint on the worklist. -/
theorem solveStart_eq [LinearOrder α] : ∃ queue,
    c.solveStart = { c with solving := true, queue := queue } ∧
      ∀ j, j ∈ queue ↔ j ∈ c.queue ∨ (j ∈ c.listed ∧ (c.constraints j).state = .pending) := by
  have hfold : ∀ (ks : List Nat) (d : Ctx α), ∃ queue,
      ks.foldl (fun c k => if (c.constraints k).state = .pending then c.enqueue k else c) d =
        { d with queue := queue } ∧
      ∀ j, j ∈ queue ↔ j ∈ d.queue ∨ (j ∈ ks ∧ (d.constraints j).state = .pending) := by
    intro ks
    induction ks with
    | nil => exact fun d => ⟨d.queue, rfl, by simp⟩
    | cons k ks ih =>
      intro d
      by_cases hp : (d.constraints k).state = .pending
      · obtain ⟨queue, hq, hmem⟩ := ih (d.enqueue k)
        have hd : ∃ q, d.enqueue k = { d with queue := q } := by
          unfold enqueue
          split_ifs
          · exact ⟨d.queue, rfl⟩
          · exact ⟨_, rfl⟩
        obtain ⟨q, hdq⟩ := hd
        refine ⟨queue, ?_, fun j => ?_⟩
        · rw [foldl_cons, if_pos hp, hq, hdq]
        · have hcons : (d.enqueue k).constraints = d.constraints := by rw [hdq]
          rw [hmem, mem_queue_enqueue, hcons, mem_cons, or_assoc]
          refine or_congr_right ⟨?_, ?_⟩
          · rintro (rfl | ⟨h, h'⟩)
            · exact ⟨.inl rfl, hp⟩
            · exact ⟨.inr h, h'⟩
          · rintro ⟨rfl | h, h'⟩
            · exact .inl rfl
            · exact .inr ⟨h, h'⟩
      · obtain ⟨queue, hq, hmem⟩ := ih d
        refine ⟨queue, ?_, fun j => ?_⟩
        · rw [foldl_cons, if_neg hp, hq]
        · rw [hmem, mem_cons]
          refine or_congr_right ⟨?_, ?_⟩
          · rintro ⟨h, h'⟩
            exact ⟨.inr h, h'⟩
          · rintro ⟨rfl | h, h'⟩
            · exact absurd h' hp
            · exact ⟨h, h'⟩
  exact hfold c.listed { c with solving := true }

theorem trailAppend_eq (rec : TrailRec α) :
    ∃ trail, c.trailAppend rec = { c with trail := trail } := by
  unfold trailAppend
  split_ifs
  · exact ⟨c.trail, rfl⟩
  · exact ⟨rec :: c.trail, rfl⟩

@[simp] theorem store_solveNotify (v : Nat) : (c.solveNotify v).store = c.store := by
  obtain ⟨queue, h⟩ := c.solveNotify_eq v
  rw [h]
  rfl

@[simp] theorem store_trailAppend (rec : TrailRec α) : (c.trailAppend rec).store = c.store := by
  obtain ⟨trail, h⟩ := c.trailAppend_eq rec
  rw [h]
  rfl

@[simp] theorem store_recordConflict (kind : ConflictKind) (p q : Option Nat) :
    (c.recordConflict kind p q).store = c.store :=
  c.store_trailAppend _

@[simp] theorem store_watchAdd (v k : Nat) : (c.watchAdd v k).store = c.store := by
  unfold watchAdd
  split_ifs
  · rfl
  · have hb : (fun w => (update c.vars v
        { c.vars v with watchers := k :: (c.vars v).watchers } w).binding) =
        fun w => (c.vars w).binding := by
      funext w
      by_cases h : w = v <;> simp [h]
    have hf : (fun w => (update c.vars v
        { c.vars v with watchers := k :: (c.vars v).watchers } w).facts) =
        fun w => (c.vars w).facts := by
      funext w s
      by_cases h : w = v <;> cases s <;> simp [Var.facts, h]
    simp only [store, setVar, hb, hf]

@[simp] theorem store_registerRow [LinearOrder α] (k : Nat) (row : Row α) :
    (registerRow k c row).store = c.store := by
  unfold registerRow
  split
  · rfl
  · exact c.store_watchAdd _ _

theorem watchRegister_eq [LinearOrder α] (k : Nat) :
    ∃ vars, watchRegister k c = { c with vars := vars } := by
  have h : ∀ (rows : List (Row α)) (c : Ctx α),
      ∃ vars, rows.foldl (registerRow k) c = { c with vars := vars } := by
    intro rows
    induction rows with
    | nil => exact fun c => ⟨c.vars, rfl⟩
    | cons row rows ih =>
      intro c
      have h1 : ∃ vars, registerRow k c row = { c with vars := vars } := by
        unfold registerRow watchAdd
        split
        · exact ⟨c.vars, rfl⟩
        · split_ifs
          · exact ⟨c.vars, rfl⟩
          · exact ⟨_, rfl⟩
      obtain ⟨vars, hv⟩ := h1
      obtain ⟨vars', hv'⟩ := ih (registerRow k c row)
      exact ⟨vars', by rw [foldl_cons, hv', hv]⟩
  exact h _ c

@[simp] theorem store_watchRegister [LinearOrder α] (k : Nat) : (watchRegister k c).store = c.store := by
  have h : ∀ (rows : List (Row α)) (c : Ctx α), (rows.foldl (registerRow k) c).store = c.store := by
    intro rows
    induction rows with
    | nil => exact fun _ => rfl
    | cons row rows ih => exact fun c => (ih _).trans (c.store_registerRow k row)
  exact h _ _

theorem store_push (s : Side) (v : Nat) (a : α) :
    (c.setVar v ((c.vars v).push a s)).store = c.store.push s v a := by
  have hb : (fun w => (update c.vars v ((c.vars v).push a s) w).binding) =
      fun w => (c.vars w).binding := by
    funext w
    by_cases h : w = v <;> cases s <;> simp [Var.push, h]
  have hf : (fun w => (update c.vars v ((c.vars v).push a s) w).facts) =
      fun w t => if w = v ∧ t = s then (c.vars w).facts t ++ [a] else (c.vars w).facts t := by
    funext w t
    by_cases h : w = v
    · subst h
      cases s <;> cases t <;> simp [Var.push, Var.facts]
    · simp [h]
  simp only [store, setVar, Store.push, hb, hf]

@[simp] theorem store_setBinding (v : Nat) (b : Row α) :
    (c.setBinding v b).store = c.store.bind v b := by
  have hb : (fun w => (update c.vars v { c.vars v with binding := some b } w).binding) =
      fun w => if w = v then some b else (c.vars w).binding := by
    funext w
    by_cases h : w = v <;> simp [h]
  have hf : (fun w => (update c.vars v { c.vars v with binding := some b } w).facts) =
      fun w => (c.vars w).facts := by
    funext w t
    by_cases h : w = v <;> cases t <;> simp [Var.facts, h]
  obtain ⟨trail, ht⟩ := c.trailAppend_eq (.bind v (c.vars v).binding)
  rw [setBinding, store_solveNotify, ht]
  simp only [store, setVar, Store.bind, hb, hf]

theorem nvars_setBinding (v : Nat) (b : Row α) : (c.setBinding v b).nvars = c.nvars :=
  congrArg Store.nvars (c.store_setBinding v b)

@[simp] theorem store_varNew : c.varNew.2.store = c.store.grow := by
  have hb : (fun w => (update c.vars c.nvars ({} : Var α) w).binding) =
      fun w => if w = c.nvars then none else (c.vars w).binding := by
    funext w
    by_cases h : w = c.nvars <;> simp [h]
  have hf : (fun w => (update c.vars c.nvars ({} : Var α) w).facts) =
      fun w t => if w = c.nvars then [] else (c.vars w).facts t := by
    funext w t
    by_cases h : w = c.nvars <;> cases t <;> simp [Var.facts, h]
  simp only [varNew, store, setVar, Store.grow, hb, hf]
  rfl

/-! ## Normal forms -/

theorem foldTail_eq (fuel v : Nat) : c.foldTail fuel v = c.store.foldTail fuel v := by
  induction fuel generalizing v with
  | zero => rfl
  | succ fuel ih =>
    unfold foldTail Store.foldTail
    have hb : c.store.binding v = (c.vars v).binding := rfl
    rw [hb]
    cases (c.vars v).binding with
    | none => rfl
    | some b => cases h : b.tail <;> simp [h, ih]

section Normal

variable [LinearOrder α] {c}

theorem normalize_closed {row : Row α} (h : row.tail = none) :
    c.normalize row = rowMake row.head none := by
  simp [normalize, h]

/-- The normal form of an open row: its head and those of the chain from its tail. -/
theorem normalize_chain (hS : c.store.Ordered) {row : Row α} {v : Nat} {hs : List α}
    {e : Option Nat} (h : row.tail = some v) (hc : c.store.Chain v hs e) :
    c.normalize row = rowMake (row.head ++ hs) e := by
  obtain ⟨hs', e', hf⟩ := hS.foldTail (v := v) (Nat.succ_pos c.nvars)
    (by simp only [store]; omega)
  obtain ⟨rfl, rfl⟩ := hc.unique (Store.chain_of_foldTail hf)
  simp [normalize, h, foldTail_eq, hf]

theorem normalize_cases (hS : c.store.Ordered) (row : Row α) :
    (row.tail = none ∧ c.normalize row = rowMake row.head none) ∨
      ∃ v hs e, row.tail = some v ∧ c.store.Chain v hs e ∧
        c.normalize row = rowMake (row.head ++ hs) e := by
  cases h : row.tail with
  | none => exact .inl ⟨rfl, normalize_closed h⟩
  | some v =>
    obtain ⟨hs, e, hf⟩ := hS.foldTail (v := v) (Nat.succ_pos c.nvars)
      (by simp only [store]; omega)
    have hc := Store.chain_of_foldTail hf
    exact .inr ⟨v, hs, e, rfl, hc, normalize_chain hS h hc⟩

theorem normalize_tail_unbound (hS : c.store.Ordered) {row : Row α} {u : Nat}
    (h : (c.normalize row).tail = some u) : c.store.binding u = none := by
  rcases normalize_cases hS row with ⟨_, hn⟩ | ⟨v, hs, e, _, hc, hn⟩
  · simp [hn] at h
  · rw [hn, rowMake_tail] at h
    subst h
    exact hc.unbound

end Normal

/-- A fact put on a variable that has it on neither side. -/
def pushFact (s : Side) (v : Nat) (a : α) : Ctx α :=
  ((c.setVar v ((c.vars v).push a s)).trailAppend (.fact s v)).solveNotify v

@[simp] theorem store_pushFact (s : Side) (v : Nat) (a : α) :
    (c.pushFact s v a).store = c.store.push s v a := by
  rw [pushFact, store_solveNotify, store_trailAppend, store_push]

variable {c}

/-! ## Steps -/

/-- One change to a context, by atoms in `U`, while a constraint is processed; when
`free` holds, facts are put on unbound variables only. -/
inductive Step (U : α → Prop) (free : Prop) (k : Nat) (c : Ctx α) : Ctx α → Prop
  | push {s : Side} {v : Nat} {a : α} (hU : U a) (hv : v < c.nvars)
      (hfree : free → c.store.binding v = none) (hs : a ∉ c.store.facts v s)
      (ho : a ∉ c.store.facts v s.other) :
      Step U free k c (c.pushFact s v a)
  | bind {v : Nat} {b : Row α} (hU : ∀ a ∈ b.head, U a) (hv : v < c.nvars)
      (hb : c.store.binding v = none)
      (ht : ∀ t, b.tail = some t → v < t ∧ t < c.nvars ∧ c.store.binding t = none) :
      Step U free k c (c.setBinding v b)
  | conflict (kind : ConflictKind) (p q : Option Nat) :
      Step U free k c (c.recordConflict kind p q)
  | state (s : State) : Step U free k c (c.setState k s)
  | record (s : State) : Step U free k c (c.trailAppend (.state k s))

/-- A sequence of steps. -/
abbrev Steps (U : α → Prop) (free : Prop) (k : Nat) : Ctx α → Ctx α → Prop :=
  Relation.ReflTransGen (Step U free k)

/-- Steps that leave the bindings as they are. -/
def Tells (U : α → Prop) (free : Prop) (k : Nat) (c c' : Ctx α) : Prop :=
  Steps U free k c c' ∧ c'.store.binding = c.store.binding ∧ c'.nvars = c.nvars

variable {U : α → Prop} {free : Prop} {k : Nat} {c c' c'' : Ctx α}

theorem Tells.refl : Tells U free k c c := ⟨.refl, rfl, rfl⟩

theorem Tells.trans (h : Tells U free k c c') (h' : Tells U free k c' c'') : Tells U free k c c'' :=
  ⟨h.1.trans h'.1, h'.2.1.trans h.2.1, h'.2.2.trans h.2.2⟩

theorem tells_conflict (kind : ConflictKind) (p q : Option Nat) :
    Tells U free k c (c.recordConflict kind p q) := by
  refine ⟨.single (.conflict kind p q), ?_, ?_⟩
  · rw [store_recordConflict]
  · exact congrArg Store.nvars (c.store_recordConflict kind p q)

theorem tells_state (s : State) : Tells U free k c (c.setState k s) :=
  ⟨.single (.state s), rfl, rfl⟩

/-! ## What steps keep -/

/-- What no step changes: the constraints but for their states, the lists, and that the
solver runs. -/
structure SameFrame (c c' : Ctx α) : Prop where
  nconstraints : c'.nconstraints = c.nconstraints
  goal : ∀ k, (c'.constraints k).goal = (c.constraints k).goal
  live : ∀ k, (c'.constraints k).live = (c.constraints k).live
  varList : c'.varList = c.varList
  checkpoints : c'.checkpoints = c.checkpoints
  nextCp : c'.nextCp = c.nextCp
  solving : c'.solving = c.solving

theorem SameFrame.refl (c : Ctx α) : SameFrame c c :=
  ⟨rfl, fun _ => rfl, fun _ => rfl, rfl, rfl, rfl, rfl⟩

theorem SameFrame.trans (h : SameFrame c c') (h' : SameFrame c' c'') : SameFrame c c'' where
  nconstraints := h'.nconstraints.trans h.nconstraints
  goal k := (h'.goal k).trans (h.goal k)
  live k := (h'.live k).trans (h.live k)
  varList := h'.varList.trans h.varList
  checkpoints := h'.checkpoints.trans h.checkpoints
  nextCp := h'.nextCp.trans h.nextCp
  solving := h'.solving.trans h.solving

theorem sameFrame_trailAppend (rec : TrailRec α) : SameFrame c (c.trailAppend rec) := by
  obtain ⟨trail, h⟩ := c.trailAppend_eq rec
  rw [h]
  exact ⟨rfl, fun _ => rfl, fun _ => rfl, rfl, rfl, rfl, rfl⟩

theorem sameFrame_setState (k : Nat) (s : State) : SameFrame c (c.setState k s) := by
  refine ⟨rfl, fun j => ?_, fun j => ?_, rfl, rfl, rfl, rfl⟩
  · by_cases h : j = k <;> simp [setState, setConstraint, h]
  · by_cases h : j = k <;> simp [setState, setConstraint, h]

/-- A step keeps the frame, and the states of the other constraints. -/
theorem Step.frame (h : Step U free k c c') :
    SameFrame c c' ∧ ∀ j, j ≠ k → (c'.constraints j).state = (c.constraints j).state := by
  cases h with
  | @push s v a =>
    obtain ⟨trail, ht⟩ := (c.setVar v ((c.vars v).push a s)).trailAppend_eq (.fact s v)
    obtain ⟨queue, hq⟩ := Ctx.solveNotify_eq
      ((c.setVar v ((c.vars v).push a s)).trailAppend (.fact s v)) v
    rw [pushFact, hq, ht]
    exact ⟨⟨rfl, fun _ => rfl, fun _ => rfl, rfl, rfl, rfl, rfl⟩, fun _ _ => rfl⟩
  | @bind v b =>
    obtain ⟨trail, ht⟩ := c.trailAppend_eq (.bind v (c.vars v).binding)
    rw [setBinding, ht]
    obtain ⟨queue, hq⟩ := Ctx.solveNotify_eq
      (Ctx.setVar { c with trail := trail } v { c.vars v with binding := some b }) v
    rw [hq]
    exact ⟨⟨rfl, fun _ => rfl, fun _ => rfl, rfl, rfl, rfl, rfl⟩, fun _ _ => rfl⟩
  | conflict kind p q =>
    obtain ⟨trail, ht⟩ := c.trailAppend_eq (.conflict c.conflict)
    rw [recordConflict, ht]
    exact ⟨⟨rfl, fun _ => rfl, fun _ => rfl, rfl, rfl, rfl, rfl⟩, fun _ _ => rfl⟩
  | state s =>
    exact ⟨sameFrame_setState k s, fun j hj => by simp [setState, setConstraint, hj]⟩
  | record s =>
    obtain ⟨trail, ht⟩ := c.trailAppend_eq (.state k s)
    exact ⟨sameFrame_trailAppend _, fun j _ => by rw [ht]⟩

theorem Step.sameFrame (h : Step U free k c c') : SameFrame c c' := h.frame.1

theorem Steps.sameFrame (h : Steps U free k c c') : SameFrame c c' := by
  induction h with
  | refl => exact .refl _
  | tail _ last ih => exact ih.trans last.sameFrame

theorem Step.queue (h : Step U free k c c') (hk : j ∈ c'.queue) :
    j ∈ c.queue ∨ (c.constraints j).live = true := by
  cases h with
  | @push s v a =>
    rw [pushFact, mem_queue_solveNotify] at hk
    obtain ⟨trail, ht⟩ := (c.setVar v ((c.vars v).push a s)).trailAppend_eq (.fact s v)
    rw [ht] at hk
    exact hk.imp id fun h => h.2.2.1
  | @bind v b =>
    rw [setBinding, mem_queue_solveNotify] at hk
    obtain ⟨trail, ht⟩ := c.trailAppend_eq (.bind v (c.vars v).binding)
    rw [ht] at hk
    exact hk.imp id fun h => h.2.2.1
  | conflict kind p q =>
    obtain ⟨trail, ht⟩ := c.trailAppend_eq (.conflict c.conflict)
    rw [recordConflict, ht] at hk
    exact .inl hk
  | state s => exact .inl hk
  | record s =>
    obtain ⟨trail, ht⟩ := c.trailAppend_eq (.state k s)
    rw [ht] at hk
    exact .inl hk

theorem Steps.queue (h : Steps U free k c c') (hk : j ∈ c'.queue) :
    j ∈ c.queue ∨ (c.constraints j).live = true := by
  induction h with
  | refl => exact .inl hk
  | @tail b d run last ih =>
    rcases last.queue hk with h | h
    · exact ih h
    · exact .inr ((Steps.sameFrame run).live j ▸ h)

theorem Steps.state_eq (h : Steps U free k c c') (hj : j ≠ k) :
    (c'.constraints j).state = (c.constraints j).state := by
  induction h with
  | refl => rfl
  | tail _ last ih => exact (last.frame.2 j hj).trans ih

theorem Step.store_cases (h : Step U free k c c') : c'.store = c.store ∨
    (∃ s v a, c'.store = c.store.push s v a ∧ U a ∧ v < c.nvars ∧
      (free → c.store.binding v = none) ∧ a ∉ c.store.facts v s ∧ a ∉ c.store.facts v s.other) ∨
    ∃ v b, c'.store = c.store.bind v b ∧ (∀ a ∈ b.head, U a) ∧ v < c.nvars ∧
      c.store.binding v = none ∧
      ∀ t, b.tail = some t → v < t ∧ t < c.nvars ∧ c.store.binding t = none := by
  cases h with
  | push hU hv hfree hs ho =>
    exact .inr (.inl ⟨_, _, _, c.store_pushFact _ _ _, hU, hv, hfree, hs, ho⟩)
  | bind hU hv hb ht => exact .inr (.inr ⟨_, _, c.store_setBinding _ _, hU, hv, hb, ht⟩)
  | conflict kind p q => exact .inl (c.store_recordConflict kind p q)
  | state s => exact .inl rfl
  | record s => exact .inl (c.store_trailAppend _)

theorem Step.le (h : Step U free k c c') : c.store.Le c'.store := by
  rcases h.store_cases with h | ⟨s, v, a, h, -⟩ | ⟨v, b, h, -, -, hv, -⟩
  · rw [h]
    exact .refl _
  · rw [h]
    refine ⟨le_rfl, id, ?_⟩
    intro w t x hx
    simp only [Store.push]
    split_ifs
    · exact mem_append_left _ hx
    · exact hx
  · rw [h]
    refine ⟨le_rfl, ?_, id⟩
    intro w d hd
    simp only [Store.bind]
    split_ifs with hw
    · rw [hw, hv] at hd
      exact absurd hd (by simp)
    · exact hd

theorem Step.ordered (h : Step U free k c c') (hS : c.store.Ordered) : c'.store.Ordered := by
  rcases h.store_cases with h | ⟨s, v, a, h, -, hlt, -⟩ | ⟨v, b, h, -, hlt, hv, ht⟩
  · rw [h]
    exact hS
  · rw [h]
    refine ⟨hS.lt, hS.blank, ?_⟩
    intro w t hw
    have hne : w ≠ v := fun heq => absurd hlt (not_lt.2 (heq ▸ hw))
    simpa [Store.push, hne] using hS.blankFacts hw
  · rw [h]
    refine ⟨?_, ?_, hS.blankFacts⟩
    · intro w d t hd htd
      simp only [Store.bind] at hd
      split_ifs at hd with hw
      · obtain rfl := Option.some.inj hd
        exact ⟨hw.trans_lt (ht t htd).1, (ht t htd).2.1⟩
      · exact hS.lt hd htd
    · intro w hw
      have hne : w ≠ v := fun heq => absurd hlt (not_lt.2 (heq ▸ hw))
      simpa [Store.bind, hne] using hS.blank hw

theorem Step.consistent (h : Step U free k c c') (hS : c.store.Consistent) :
    c'.store.Consistent := by
  rcases h.store_cases with h | ⟨s, v, a, h, -, -, -, hs, ho⟩ | ⟨v, b, h, -⟩
  · rw [h]
    exact hS
  · rw [h]
    intro w t x hx hx'
    simp only [Store.push] at hx hx'
    have hside : ∀ t : Side, t.other ≠ t := fun t => by cases t <;> decide
    split_ifs at hx hx' with h1 h2 h3
    · exact hside s (h1.2 ▸ h2.2)
    · obtain ⟨rfl, rfl⟩ := h1
      rcases mem_append.1 hx with hx | hx
      · exact hS _ _ _ hx hx'
      · exact ho (mem_singleton.1 hx ▸ hx')
    · obtain ⟨rfl, ht⟩ := h3
      rcases mem_append.1 hx' with hx' | hx'
      · exact hS _ _ _ hx hx'
      · obtain rfl := mem_singleton.1 hx'
        have hts : t = s.other := by
          subst ht
          cases t <;> rfl
        exact ho (hts ▸ hx)
    · exact hS _ _ _ hx hx'
  · rw [h]
    exact hS

theorem Step.within (h : Step U free k c c') (hS : c.store.Within U) : c'.store.Within U := by
  rcases h.store_cases with h | ⟨s, v, a, h, hU, -⟩ | ⟨v, b, h, hU, -⟩
  · rw [h]
    exact hS
  · rw [h]
    refine ⟨hS.binding, ?_⟩
    intro w t x hx
    simp only [Store.push] at hx
    split_ifs at hx with hw
    · rcases mem_append.1 hx with hx | hx
      · exact hS.facts hx
      · exact mem_singleton.1 hx ▸ hU
    · exact hS.facts hx
  · rw [h]
    refine ⟨?_, hS.facts⟩
    intro w d hd x hx
    simp only [Store.bind] at hd
    split_ifs at hd with hw
    · exact hU x (Option.some.inj hd ▸ hx)
    · exact hS.binding hd x hx

theorem Step.nvars (h : Step U free k c c') : c'.nvars = c.nvars := by
  have hn : c'.store.nvars = c.store.nvars := by
    rcases h.store_cases with h | ⟨s, v, a, h, -⟩ | ⟨v, b, h, -⟩
    · rw [h]
    · rw [h]
      rfl
    · rw [h]
      rfl
  exact hn

theorem Steps.nvars (h : Steps U free k c c') : c'.nvars = c.nvars := by
  induction h with
  | refl => rfl
  | tail _ last ih => exact last.nvars.trans ih

theorem Steps.le (h : Steps U free k c c') : c.store.Le c'.store := by
  induction h with
  | refl => exact .refl _
  | tail _ last ih => exact ih.trans last.le

theorem Steps.ordered (h : Steps U free k c c') (hS : c.store.Ordered) : c'.store.Ordered := by
  induction h with
  | refl => exact hS
  | tail _ last ih => exact last.ordered ih

theorem Steps.consistent (h : Steps U free k c c') (hS : c.store.Consistent) :
    c'.store.Consistent := by
  induction h with
  | refl => exact hS
  | tail _ last ih => exact last.consistent ih

theorem Steps.within (h : Steps U free k c c') (hS : c.store.Within U) : c'.store.Within U := by
  induction h with
  | refl => exact hS
  | tail _ last ih => exact last.within ih

end Ctx

/-! ## Loops -/

section Loops

variable {β : Type} {P : Ctx α → Prop} {xs : List β} {f : β → Ctx α → Outcome α} {c : Ctx α}

variable {o : Outcome α}

theorem andThen_ok {k : Ctx α → Outcome α} (h : o.1 = .ok) :
    o.andThen k = k o.2 := if_pos h

theorem andThen_of_ne {k : Ctx α → Outcome α} (h : o.1 ≠ .ok) :
    o.andThen k = o := if_neg h

theorem andThen_status {k : Ctx α → Outcome α} (h : (o.andThen k).1 = .ok) :
    o.1 = .ok ∧ o.andThen k = k o.2 := by
  by_cases ho : o.1 = .ok
  · exact ⟨ho, andThen_ok ho⟩
  · rw [andThen_of_ne ho] at h
    exact absurd h ho

theorem andThen_inv {k : Ctx α → Outcome α} (ho : P o.2)
    (hk : ∀ c, P c → P (k c).2) : P (o.andThen k).2 := by
  unfold Outcome.andThen
  split_ifs
  · exact hk _ ho
  · exact ho

/-- What the body keeps, the loop keeps, however it ends. -/
theorem forAll_inv (h : ∀ x ∈ xs, ∀ c, P c → P (f x c).2) (h0 : P c) : P (forAll xs f c).2 := by
  induction xs generalizing c with
  | nil => exact h0
  | cons x xs ih =>
    exact andThen_inv (h x mem_cons_self c h0)
      fun c hc => ih (fun y hy => h y (mem_cons_of_mem _ hy)) hc

theorem forAll_ok (h : ∀ x ∈ xs, ∀ c, P c → (f x c).1 = .ok ∧ P (f x c).2) (h0 : P c) :
    (forAll xs f c).1 = .ok ∧ P (forAll xs f c).2 := by
  induction xs generalizing c with
  | nil => exact ⟨rfl, h0⟩
  | cons x xs ih =>
    obtain ⟨hx, hP⟩ := h x mem_cons_self c h0
    unfold forAll
    rw [andThen_ok hx]
    exact ih (fun y hy => h y (mem_cons_of_mem _ hy)) hP

/-- What each pass of a successful loop brings about, and later passes keep, holds at
the end. -/
theorem forAll_done {Q : β → Ctx α → Prop} (hP : ∀ x ∈ xs, ∀ c, P c → P (f x c).2)
    (hQ : ∀ x ∈ xs, ∀ c, P c → (f x c).1 = .ok → Q x (f x c).2)
    (hkeep : ∀ x, ∀ y ∈ xs, ∀ c, P c → Q x c → Q x (f y c).2) (h0 : P c)
    (hok : (forAll xs f c).1 = .ok) : ∀ x ∈ xs, Q x (forAll xs f c).2 := by
  induction xs generalizing c with
  | nil => exact fun x hx => absurd hx not_mem_nil
  | cons y xs ih =>
    unfold forAll at hok ⊢
    obtain ⟨hy, heq⟩ := andThen_status hok
    rw [heq] at hok ⊢
    have hc := hP y mem_cons_self c h0
    have hrest : ∀ x ∈ xs, Q x (forAll xs f (f y c).2).2 :=
      ih (fun x hx => hP x (mem_cons_of_mem _ hx))
        (fun x hx => hQ x (mem_cons_of_mem _ hx))
        (fun x z hz => hkeep x z (mem_cons_of_mem _ hz)) hc hok
    intro x hx
    rcases mem_cons.1 hx with rfl | hx
    · have hx0 := hQ x mem_cons_self c h0 hy
      exact (forAll_inv (P := fun c => P c ∧ Q x c)
        (fun z hz c hc => ⟨hP z (mem_cons_of_mem _ hz) c hc.1,
          hkeep x z (mem_cons_of_mem _ hz) c hc.1 hc.2⟩) ⟨hc, hx0⟩).2
    · exact hrest x hx

end Loops

/-! ## Facts -/

namespace Ctx

variable [LinearOrder α] {U : α → Prop} {free : Prop} {c c' : Ctx α} {s : Side} {v k : Nat} {a : α}
  {row : Row α}

theorem varFact_cases (s : Side) (v : Nat) (a : α) (c : Ctx α) :
    (a ∈ c.store.facts v s ∧ varFact s v a c = (.ok, c)) ∨
      (a ∉ c.store.facts v s ∧ a ∈ c.store.facts v s.other ∧
        varFact s v a c = (.errUnsat, c.recordConflict .memberLacks none none)) ∨
      (a ∉ c.store.facts v s ∧ a ∉ c.store.facts v s.other ∧
        varFact s v a c = (.ok, c.pushFact s v a)) := by
  unfold varFact
  split_ifs with h h'
  · exact .inl ⟨h, rfl⟩
  · exact .inr (.inl ⟨h, h', rfl⟩)
  · exact .inr (.inr ⟨h, h', rfl⟩)

theorem varFact_tells (hU : U a) (hv : v < c.nvars) (hfree : free → c.store.binding v = none) :
    Tells U free k c (varFact s v a c).2 := by
  rcases varFact_cases s v a c with ⟨_, h⟩ | ⟨_, _, h⟩ | ⟨hs, ho, h⟩
  · rw [h]
    exact .refl
  · rw [h]
    exact tells_conflict _ _ _
  · rw [h]
    refine ⟨.single (.push hU hv hfree hs ho), ?_, ?_⟩
    · rw [store_pushFact]
      rfl
    · exact congrArg Store.nvars (c.store_pushFact s v a)

/-- A row facts may be put on: its tail is there and, when `free` holds, unbound. -/
def Open (free : Prop) (c : Ctx α) (row : Row α) : Prop :=
  ∀ v, row.tail = some v → v < c.nvars ∧ (free → c.store.binding v = none)

omit [LinearOrder α] in
theorem Open.tells (h : c.Open free row) (ht : Tells U free k c c') : c'.Open free row := by
  intro v hv
  obtain ⟨hlt, hfree⟩ := h v hv
  rw [ht.2.2, ht.2.1]
  exact ⟨hlt, hfree⟩

theorem open_normalize (hS : c.store.Ordered) {r : Row α} (hr : ∀ v, r.tail = some v → v < c.nvars) :
    c.Open True (c.normalize r) := by
  intro u hu
  refine ⟨?_, fun _ => normalize_tail_unbound hS hu⟩
  rcases normalize_cases hS r with ⟨_, hn⟩ | ⟨v, hs, e, hv, hc, hn⟩
  · simp [hn] at hu
  · rw [hn, rowMake_tail] at hu
    subst hu
    exact hc.lt_nvars hS (hr v hv)

theorem factOnRow_head (h : a ∈ row.head) :
    factOnRow s row a c = (if s = .required then .ok else .errUnsat, c) := if_pos h

theorem factOnRow_closed (h : a ∉ row.head) (ht : row.tail = none) :
    factOnRow s row a c = (if s = .required then .errUnsat else .ok, c) := by
  rw [factOnRow, if_neg h, ht]

theorem factOnRow_open (h : a ∉ row.head) (ht : row.tail = some v) :
    factOnRow s row a c = varFact s v a c := by
  rw [factOnRow, if_neg h, ht]

theorem factOnRow_tells (hU : U a) (h : c.Open free row) :
    Tells U free k c (factOnRow s row a c).2 := by
  by_cases ha : a ∈ row.head
  · rw [factOnRow_head ha]
    exact .refl
  · cases hv : row.tail with
    | none =>
      rw [factOnRow_closed ha hv]
      exact .refl
    | some v =>
      rw [factOnRow_open ha hv]
      exact varFact_tells hU (h v hv).1 (h v hv).2

theorem applyFact_tells (hU : U a) (h : c.Open free row) :
    Tells U free k c (applyFact s row k a c).2 := by
  have hf : Tells U free k c (factOnRow s row a c).2 := factOnRow_tells hU h
  unfold applyFact
  dsimp only
  split_ifs
  · exact hf.trans (tells_conflict _ _ _)
  · exact hf

omit [LinearOrder α] in
theorem orFail_tells (h : Tells U free k c o.2) : Tells U free k c (orFail k o).2 := by
  unfold orFail
  split_ifs
  · exact h
  · exact h.trans (tells_state _)

end Ctx

end Fx89
