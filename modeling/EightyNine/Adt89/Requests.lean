import EightyNine.Adt89.UsefulOk

/-!
# The requests of a query

The allocations that `useful` asks for when all of them are granted, with the purpose of
each.  A query whose first refused request is one it checks answers `NOMEM`; a refused
request for the row of another constructor changes nothing; a refused request for a row that
matches loses the row (`useful_follows`).  When nothing is refused and the rows can be
counted by an `int`, `useful` is the search of the tree of matrices (`requests_search`).
-/

namespace Adt89

open Library List Option

def Useful.ofBool : Bool → Useful
  | true => .yes
  | false => .no

/-- What a request is for.  `checked`: a failure ends the analysis.  `row`: a row under its
own constructor.  `other`: a row that turns out to have another one. -/
inductive Purpose where
  | checked | row | other

/-! ## The requests of an analysis -/

def rowRequests (ctx : Ctx) (c : CtorRef) (src : Row) : List Purpose :=
  if (underRow ctx c src).isSome then [.row, .row] else [.other]

/-- What `adt_i_useful_ctor` goes on with: none, when the number of rows is negative as an
`int`. -/
def Node.counted (s : Node) : Option Node :=
  if asInt s.rows.length < 0 then none
  else some { s with rows := s.rows.take (asInt s.rows.length).toNat }

/-- The requests of `adt_i_useful_ctor` before it recurs. -/
def ctorRequests (ctx : Ctx) (rows : List Row) (c : CtorRef) : List Purpose :=
  .checked :: (rows.flatMap (rowRequests ctx c) ++
    if asInt (rows.filterMap (underRow ctx c)).length < 0 then [] else [.checked, .checked])

/-- The calls that a call makes, in order, with the requests before each. -/
def Node.requestedCalls (ctx : Ctx) (s : Node) : List (List Purpose × Option Node) :=
  match s.q, s.fams with
  | .ctor c ps :: tail, _ :: fams =>
    [(ctorRequests ctx s.rows c, (under ctx s.rows (.ctor c ps) tail fams c).counted)]
  | _ :: tail, none :: fams => [([], some ⟨rowsDropCol s.rows, tail, fams⟩)]
  | head :: tail, some t :: fams =>
    (ctx.ctorsOf t).map fun c =>
      (ctorRequests ctx s.rows c, (under ctx s.rows head tail fams c).counted)
  | _, _ => []

/-- The answer of a call and its requests. -/
abbrev Answer := Useful × List Purpose

/-- A call with the requests before it. -/
def callAnswer (f : Node → Option Answer) : List Purpose × Option Node → Option Answer
  | (reqs, none) => some (.nomem, reqs)
  | (reqs, some s) => (f s).map fun r => (r.1, reqs ++ r.2)

/-- Some calls, up to the first that is useful or fails. -/
def callRequests (f : Node → Option Answer) : List (List Purpose × Option Node) → Option Answer
  | [] => some (.no, [])
  | call :: calls => do
    let r ← callAnswer f call
    if r.1 ≠ .no then return r
    let r' ← callRequests f calls
    return (r'.1, r.2 ++ r'.2)

/-- The answer of `adt_i_useful` and its requests, when all of them are granted. -/
def Node.requests (ctx : Ctx) : Nat → Node → Option Answer
  | 0, _ => none
  | fuel + 1, s =>
    match (tree ctx).leaf s with
    | some b => some (Useful.ofBool b, [])
    | none => callRequests (Node.requests ctx fuel) (s.requestedCalls ctx)

/-! ## Refusals -/

/-- What becomes of an analysis. -/
inductive Fate where
  | granted | nomem | lost
deriving DecidableEq

/-- The fate of an analysis whose requests begin with number `n`: the first refused request
that matters decides. -/
def fate (mem : Nat → Bool) : Nat → List Purpose → Fate
  | _, [] => .granted
  | n, .other :: reqs => fate mem (n + 1) reqs
  | n, .checked :: reqs => if mem n then fate mem (n + 1) reqs else .nomem
  | n, .row :: reqs => if mem n then fate mem (n + 1) reqs else .lost

variable {ctx : Ctx} {mem : Nat → Bool} {c : CtorRef} {rows : List Row} {head : Pattern}
  {tail : Row} {fam : Option TypeRef} {fams : List (Option TypeRef)} {s : Node}

theorem fate_append (mem : Nat → Bool) (reqs reqs' : List Purpose) : ∀ n,
    fate mem n (reqs ++ reqs') =
      match fate mem n reqs with
      | .granted => fate mem (n + reqs.length) reqs'
      | f => f := by
  induction reqs with
  | nil => exact fun n => rfl
  | cons r reqs ih =>
    intro n
    have hlen : n + (r :: reqs).length = n + 1 + reqs.length := by
      rw [length_cons]
      omega
    rw [cons_append, hlen]
    cases r with
    | other => exact ih (n + 1)
    | checked | row =>
      rw [fate, fate]
      split
      · exact ih (n + 1)
      · rfl

theorem fate_true (reqs : List Purpose) (n : Nat) : fate (fun _ => true) n reqs = .granted := by
  induction reqs generalizing n with
  | nil => rfl
  | cons r reqs ih => cases r <;> exact ih (n + 1)

/-! ## Queries -/

theorem tempAlloc_eq (hmem : ∀ n, mem n = true) (n : Nat) :
    tempAlloc mem n = some (true, n + 1) := by
  rw [tempAlloc, hmem]

@[simp] theorem Query.pure_apply {α : Type} (a : α) (n : Nat) :
    (pure a : Query α) n = some (a, n) :=
  rfl

@[simp] theorem Query.bind_apply {α β : Type} (m : Query α) (f : α → Query β) (n : Nat) :
    (m >>= f) n = (m n).bind fun r => f r.1 r.2 :=
  rfl

@[simp] theorem Query.map_apply {α β : Type} (f : α → β) (m : Query α) (n : Nat) :
    (f <$> m) n = (m n).bind fun r => some (f r.1, r.2) :=
  rfl

/-! ## Queries that keep their fate -/

variable {α β : Type} {n : Nat} {fail a₀ : α}

/-- A query that keeps its fate: with every request that matters granted it answers as
without refusals, and after a refusal it checks it answers `fail`. -/
def Follows (mem : Nat → Bool) (fail : α) (m : Query α) (o : Option (α × List Purpose)) : Prop :=
  ∀ n, match o with
    | none => (∀ i, mem i = true) → m n = none
    | some r =>
      match fate mem n r.2 with
      | .granted => m n = some (r.1, n + r.2.length)
      | .nomem => ∃ n', m n = some (fail, n')
      | .lost => True

/-- An answer after some more requests. -/
def after (reqs : List Purpose) (o : Option (α × List Purpose)) : Option (α × List Purpose) :=
  o.map fun r => (r.1, reqs ++ r.2)

namespace Follows

variable {m k : Query α} {o : Option (α × List Purpose)} {reqs : List Purpose}

theorem pure (a : α) : Follows mem fail (Pure.pure a) (some (a, [])) := fun _ => rfl

/-- A query that makes some requests before it goes on. -/
theorem after (h : Follows mem fail k o)
    (hgranted : ∀ n, fate mem n reqs = .granted → m n = k (n + reqs.length))
    (hnomem : ∀ n, fate mem n reqs = .nomem → ∃ n', m n = some (fail, n')) :
    Follows mem fail m (after reqs o) := by
  intro n
  cases o with
  | none =>
    intro hmem
    obtain rfl : mem = fun _ => true := funext hmem
    rw [hgranted n (fate_true reqs n)]
    exact h _ hmem
  | some r =>
    show match fate mem n (reqs ++ r.2) with
      | .granted => m n = some (r.1, n + (reqs ++ r.2).length)
      | .nomem => ∃ n', m n = some (fail, n')
      | .lost => True
    rw [fate_append]
    cases hf : fate mem n reqs with
    | nomem => exact hnomem n hf
    | lost => trivial
    | granted =>
      have hr := h (n + reqs.length)
      rw [hgranted n hf, length_append, ← Nat.add_assoc]
      exact hr

/-- A request whose failure ends the query. -/
theorem check (h : Follows mem fail k o) :
    Follows mem fail
      (do
        if ! (← tempAlloc mem) then return fail
        k) (Adt89.after [.checked] o) := by
  refine h.after (fun n hf => ?_) fun n hf => ⟨n + 1, ?_⟩
  · cases h₀ : mem n <;> simp [fate, h₀] at hf
    simp [tempAlloc, h₀]
  · cases h₀ : mem n <;> simp [fate, h₀] at hf
    simp [tempAlloc, h₀]

/-- A query goes on with the answer of another one, and fails when this fails. -/
theorem bind {fail : β} {f : α → Query β} {g : α → Option (β × List Purpose)}
    (h : Follows mem a₀ m o) (hk : ∀ r, o = some r → Follows mem fail (f r.1) (g r.1))
    (hfail : f a₀ = Pure.pure fail) :
    Follows mem fail (m >>= f) (o.bind fun r => Adt89.after r.2 (g r.1)) := by
  cases o with
  | none =>
    intro n hmem
    rw [Query.bind_apply, h n hmem, bind_none]
  | some r =>
    refine (hk r rfl).after (fun n hf => ?_) fun n hf => ?_
    · have hr := h n
      simp only [hf] at hr
      rw [Query.bind_apply, hr, bind_some]
    · have hr := h n
      simp only [hf] at hr
      obtain ⟨n', hr⟩ := hr
      exact ⟨n', by rw [Query.bind_apply, hr, bind_some, hfail, Query.pure_apply]⟩

/-- Where the query without refusals returns, its answer is that of the requests. -/
theorem answers (h : Follows (fun _ => true) fail m o) {r : α × Nat} (hm : m n = some r) :
    ∃ r', o = some r' ∧ r.1 = r'.1 := by
  have hr := h n
  cases o with
  | none => cases (hr fun _ => rfl).symm.trans hm
  | some r' =>
    simp only [fate_true, hm] at hr
    exact ⟨r', rfl, congrArg Prod.fst (some.inj hr)⟩

/-- If no row is lost the query fails, or answers as without refusals. -/
theorem spared {r : α × List Purpose} (h : Follows mem fail m (some r))
    (hf : fate mem n r.2 ≠ .lost) : ∃ n', m n = some (fail, n') ∨ m n = some (r.1, n') := by
  have hr := h n
  cases hfate : fate mem n r.2 with
  | granted =>
    simp only [hfate] at hr
    exact ⟨_, .inr hr⟩
  | nomem =>
    simp only [hfate] at hr
    obtain ⟨n', hr⟩ := hr
    exact ⟨n', .inl hr⟩
  | lost => exact absurd hfate hf

end Follows

/-! ## Rows -/

theorem specRow_granted {r : Row} (hr : r ≠ [])
    (hf : fate mem n (rowRequests ctx c r) = .granted) :
    specRow mem ctx c r n = some (underRow ctx c r, n + (rowRequests ctx c r).length) := by
  have htwo : ∀ {n}, fate mem n [.row, .row] = .granted → mem n = true ∧ mem (n + 1) = true := by
    intro n h
    rw [fate, fate, fate] at h
    cases h₀ : mem n <;> cases h₁ : mem (n + 1) <;> simp [h₀, h₁] at h ⊢
  cases r with
  | nil => exact absurd rfl hr
  | cons p ps =>
    cases p with
    | ctor d args =>
      by_cases hd : c = d
      · have hu : underRow ctx c (.ctor d args :: ps) =
            some (fillRow ctx c (.ctor d args) ps) := by rw [underRow, if_pos hd]
        rw [rowRequests, hu, isSome_some, if_pos rfl] at hf ⊢
        obtain ⟨h₀, h₁⟩ := htwo hf
        simp [specRow, tempAlloc, h₀, h₁, hd]
      · have hu : underRow ctx c (.ctor d args :: ps) = none := by rw [underRow, if_neg hd]
        rw [rowRequests, hu]
        cases h₀ : mem n <;> simp [specRow, tempAlloc, h₀, hd]
    | null | wildcard =>
      obtain ⟨h₀, h₁⟩ := htwo hf
      simp [specRow, underRow, rowRequests, tempAlloc, h₀, h₁]

theorem fate_rows (mem : Nat → Bool) (rows : List Row) : ∀ n,
    fate mem n (rows.flatMap (rowRequests ctx c)) ≠ .nomem := by
  induction rows with
  | nil =>
    intro n h
    cases h
  | cons r rows ih =>
    intro n
    rw [flatMap_cons, fate_append]
    have hrow : fate mem n (rowRequests ctx c r) ≠ .nomem := by
      rw [rowRequests]
      split
      · rw [fate, fate, fate]
        cases mem n <;> cases mem (n + 1) <;> simp
      · simp [fate]
    cases hf : fate mem n (rowRequests ctx c r) with
    | granted => exact ih _
    | nomem => exact absurd hf hrow
    | lost => simp

theorem specCollect_granted (hrows : ∀ r ∈ rows, r ≠ []) : ∀ n,
    fate mem n (rows.flatMap (rowRequests ctx c)) = .granted →
    specCollect mem ctx c rows n = some (rows.filterMap (underRow ctx c),
      n + (rows.flatMap (rowRequests ctx c)).length) := by
  induction rows with
  | nil => exact fun n _ => rfl
  | cons r rows ih =>
    intro n hf
    rw [flatMap_cons, fate_append] at hf
    cases hfirst : fate mem n (rowRequests ctx c r) with
    | granted =>
      rw [hfirst] at hf
      have h₁ : specRow mem ctx c r n = _ :=
        specRow_granted (hrows r mem_cons_self) hfirst
      have h₂ := ih (fun r' hr' => hrows r' (mem_cons_of_mem r hr')) _ hf
      cases hu : underRow ctx c r <;> simp [specCollect, h₁, h₂, hu, Nat.add_assoc]
    | nomem | lost =>
      rw [hfirst] at hf
      cases hf

/-! ## Usefulness -/

theorem counted_under : (under ctx rows head tail fams c).counted =
    if asInt (rows.filterMap (underRow ctx c)).length < 0 then none
    else some { under ctx rows head tail fams c with
      rows := (rows.filterMap (underRow ctx c)).take
        (asInt (rows.filterMap (underRow ctx c)).length).toNat } := rfl

theorem counted_ok {s' : Node} (hs : s.Ok ctx) (h : s.counted = some s') : s'.Ok ctx := by
  rw [Node.counted] at h
  split at h
  · cases h
  · cases h
    exact ⟨hs.fams, fun r hr => hs.rows r (mem_of_mem_take hr), hs.built,
      fun r hr => hs.builtRows r (mem_of_mem_take hr)⟩

variable {rec : List Row → Row → List (Option TypeRef) → Query Useful}
  {g : Node → Option Answer}

theorem specialize_follows (hrows : ∀ r ∈ rows, r ≠ []) :
    Follows mem (-1, []) (specialize mem ctx rows c)
      (after [.checked] (some ((asInt (rows.filterMap (underRow ctx c)).length,
        rows.filterMap (underRow ctx c)), rows.flatMap (rowRequests ctx c)))) := by
  refine Follows.check fun n => ?_
  cases hf : fate mem n (rows.flatMap (rowRequests ctx c)) with
  | nomem => exact absurd hf (fate_rows mem rows n)
  | lost => simp only [hf]
  | granted =>
    simp only [hf]
    rw [Query.bind_apply, specCollect_granted hrows n hf]
    rfl

theorem usefulCtor_follows (hrows : ∀ r ∈ rows, r ≠ [])
    (hrec : ∀ s, (under ctx rows head tail fams c).counted = some s →
      Follows mem .nomem (rec s.rows s.q s.fams) (g s)) :
    Follows mem .nomem (usefulCtor mem ctx rec rows head tail fams c)
      (callAnswer g (ctorRequests ctx rows c, (under ctx rows head tail fams c).counted)) := by
  rw [usefulCtor]
  refine (congrArg (Follows mem Useful.nomem _) ?_).mp ((specialize_follows hrows).bind
    (g := fun r => if r.1 < 0 then some (.nomem, []) else
      after [.checked] (after [.checked]
        (g { under ctx rows head tail fams c with rows := r.2.take r.1.toNat })))
    (fun r hr => ?_) rfl)
  · rw [counted_under, ctorRequests]
    by_cases hneg : asInt (rows.filterMap (underRow ctx c)).length < 0
    · simp [hneg, after, callAnswer]
    · simp [hneg, after, callAnswer, Function.comp_def]
  · obtain rfl := some.inj hr
    by_cases hneg : asInt (rows.filterMap (underRow ctx c)).length < 0
    · simp only [if_pos hneg]
      exact .pure Useful.nomem
    · simp only [if_neg hneg]
      exact (hrec _ (by rw [counted_under, if_neg hneg])).check.check

/-- A family of calls: each is made by its member of the enumeration. -/
theorem usefulEnumerate_follows {rec : CtorRef → Query Useful}
    {f : CtorRef → List Purpose × Option Node} {ctors : List CtorRef}
    (h : ∀ c ∈ ctors, Follows mem .nomem (rec c) (callAnswer g (f c))) :
    Follows mem .nomem (usefulEnumerate rec ctors) (callRequests g (ctors.map f)) := by
  induction ctors with
  | nil => exact .pure Useful.no
  | cons c ctors ih =>
    have hrest := ih fun d hd => h d (mem_cons_of_mem c hd)
    rw [usefulEnumerate]
    refine (congrArg (Follows mem Useful.nomem _) ?_).mp ((h c mem_cons_self).bind
      (g := fun r => if r = .no then callRequests g (ctors.map f) else some (r, []))
      (fun r _ => ?_) rfl)
    · rw [map_cons, callRequests, bind_eq_bind]
      congr 1
      funext r
      by_cases hr : r.1 = .no
      · cases callRequests g (ctors.map f) <;> simp [hr, after]
      · simp [hr, after]
    · cases hr : r.1 with
      | no => exact hrest
      | _ => exact .pure _

theorem useful_of_wc (hw : wc head = true) (hc : ctorCovered rows = false) (fuel : Nat) :
    useful mem ctx (fuel + 1) rows (head :: tail) (fam :: fams) =
      match fam with
      | none => useful mem ctx fuel (rowsDropCol rows) tail fams
      | some t => usefulEnumerate (usefulCtor mem ctx (useful mem ctx fuel) rows head tail fams)
          (ctx.ctorsOf t) := by
  cases head with
  | ctor d ps => cases hw
  | _ => cases fam <;> simp [useful, hc]

theorem useful_ctor (hc : ctorCovered rows = false) (fuel : Nat) :
    useful mem ctx (fuel + 1) rows (.ctor c ps :: tail) (fam :: fams) =
      usefulCtor mem ctx (useful mem ctx fuel) rows (.ctor c ps) tail fams c := by
  rw [useful, hc]
  rfl

theorem requestedCalls_of_wc (h : wc head = true) :
    Node.requestedCalls ctx ⟨rows, head :: tail, fam :: fams⟩ =
      match fam with
      | none => [([], some ⟨rowsDropCol rows, tail, fams⟩)]
      | some t => (ctx.ctorsOf t).map fun c =>
        (ctorRequests ctx rows c, (under ctx rows head tail fams c).counted) := by
  cases head with
  | ctor d ps => cases h
  | _ => cases fam <;> rfl

theorem callRequests_one (g : Node → Option Answer) (call : List Purpose × Option Node) :
    callRequests g [call] = callAnswer g call := by
  rw [callRequests, bind_eq_bind]
  cases callAnswer g call with
  | none => rfl
  | some r =>
    obtain ⟨u, reqs⟩ := r
    by_cases hu : u = .no
    · simp [hu, callRequests]
    · simp [hu]

/-- `useful` keeps the fate of its requests. -/
theorem useful_follows (mem : Nat → Bool) (fuel : Nat) : ∀ {s : Node}, s.Ok ctx →
    Follows mem .nomem (useful mem ctx fuel s.rows s.q s.fams) (s.requests ctx fuel) := by
  induction fuel with
  | zero => exact fun _ _ _ => rfl
  | succ fuel ih =>
    intro s hs
    obtain ⟨rows, q, fams⟩ := s
    rw [Node.requests]
    cases hc : ctorCovered rows with
    | true =>
      simp only [tree, hc, if_true, useful]
      exact .pure Useful.no
    | false =>
      cases q with
      | nil =>
        simp only [tree, hc, Bool.false_eq_true, if_false, useful]
        exact .pure Useful.yes
      | cons head tail =>
        cases fams with
        | nil => cases hs.fams
        | cons fam fams =>
          simp only [tree, hc, Bool.false_eq_true, if_false]
          have hrows : ∀ r ∈ rows, r ≠ [] := by
            rintro r hr rfl
            cases hs.rows _ hr
          have hctor : ∀ {c}, under ctx rows head tail fams c ∈
              Node.calls ctx ⟨rows, head :: tail, fam :: fams⟩ →
              Follows mem .nomem
                (usefulCtor mem ctx (useful mem ctx fuel) rows head tail fams c)
                (callAnswer (Node.requests ctx fuel)
                  (ctorRequests ctx rows c, (under ctx rows head tail fams c).counted)) :=
            fun hc => usefulCtor_follows hrows fun s hs' => ih (counted_ok (calls_ok hs hc) hs')
          rcases wc_or_ctor head with hw | ⟨d, ps, rfl⟩
          · have hcalls : Node.calls ctx ⟨rows, head :: tail, fam :: fams⟩ = _ := calls_of_wc hw
            rw [requestedCalls_of_wc hw, useful_of_wc hw hc]
            cases fam with
            | none =>
              have hone : callAnswer (Node.requests ctx fuel)
                  ([], some ⟨rowsDropCol rows, tail, fams⟩) =
                  Node.requests ctx fuel ⟨rowsDropCol rows, tail, fams⟩ := by
                simp [callAnswer]
              simp only [callRequests_one, hone]
              exact ih (drop_ok hs)
            | some t =>
              refine usefulEnumerate_follows fun c hmem => hctor ?_
              rw [hcalls]
              exact mem_map_of_mem hmem
          · rw [useful_ctor hc]
            show Follows mem .nomem _ (callRequests _ [(ctorRequests ctx rows d, _)])
            rw [callRequests_one]
            exact hctor (mem_singleton_self _)

/-! ## The search -/

theorem asInt_of_lt {n : Nat} (h : n < 2 ^ 31) : asInt n = n := by
  have hlow : n % 2 ^ 32 = n := Nat.mod_eq_of_lt (by omega)
  rw [asInt, hlow]
  exact if_pos h

theorem counted_of_lt (h : s.rows.length < 2 ^ 31) : s.counted = some s := by
  rw [Node.counted, asInt_of_lt h, if_neg (Int.not_lt.mpr (Int.natCast_nonneg _)),
    Int.toNat_natCast, take_length]

/-- As long as its rows can be counted, a node makes the calls of the tree. -/
theorem requestedCalls_calls (hlen : s.rows.length < 2 ^ 31) :
    (s.requestedCalls ctx).map Prod.snd = (s.calls ctx).map some := by
  obtain ⟨rows, q, fams⟩ := s
  have hcount : ∀ {head tail fams c}, (under ctx rows head tail fams c).counted =
      some (under ctx rows head tail fams c) := fun {_ _ _ _} =>
    counted_of_lt (Nat.lt_of_le_of_lt (length_filterMap_le _ _) hlen)
  cases q with
  | nil => rfl
  | cons head tail =>
    cases fams with
    | nil => cases head <;> rfl
    | cons fam fams =>
      rcases wc_or_ctor head with hw | ⟨d, ps, rfl⟩
      · rw [requestedCalls_of_wc hw, calls_of_wc hw]
        cases fam with
        | none => rfl
        | some t => simp [hcount, Function.comp_def]
      · exact congrArg (fun o => [o]) hcount

theorem callRequests_search {f : Node → Option Bool} {calls : List (List Purpose × Option Node)}
    {us : List Node} (hcalls : calls.map Prod.snd = us.map some)
    (h : ∀ u ∈ us, (g u).map Prod.fst = (f u).map Useful.ofBool) :
    (callRequests g calls).map Prod.fst = (SearchTree.firstTrue f us).map Useful.ofBool := by
  induction us generalizing calls with
  | nil =>
    obtain rfl := map_eq_nil_iff.mp hcalls
    rfl
  | cons u us ih =>
    obtain ⟨⟨reqs, o⟩, calls, rfl, rfl, htail⟩ := map_eq_cons_iff.mp hcalls
    have hu := h u mem_cons_self
    have hrest := ih htail fun v hv => h v (mem_cons_of_mem u hv)
    rw [callRequests, SearchTree.firstTrue, callAnswer, bind_eq_bind]
    cases hg : g u with
    | none =>
      rw [hg] at hu
      rw [map_eq_none_iff.mp hu.symm]
      rfl
    | some r =>
      rw [hg] at hu
      obtain ⟨b, hb, hr⟩ := map_eq_some_iff.mp hu.symm
      rw [hb]
      cases b with
      | true => simp [← hr, Useful.ofBool]
      | false =>
        refine Eq.trans ?_ hrest
        cases callRequests g calls <;> simp [← hr, Useful.ofBool]

/-- With every request granted, the answer of a query is that of the search. -/
theorem requests_search (fuel : Nat) : ∀ {s : Node}, s.Ok ctx → s.rows.length < 2 ^ 31 →
    (s.requests ctx fuel).map Prod.fst = ((tree ctx).search fuel s).map Useful.ofBool := by
  induction fuel with
  | zero => exact fun _ _ => rfl
  | succ fuel ih =>
    intro s hs hlen
    rw [Node.requests, SearchTree.search]
    cases (tree ctx).leaf s with
    | some b => rfl
    | none =>
      exact callRequests_search (requestedCalls_calls hlen) fun u hu =>
        ih (calls_ok hs hu) (calls_length hu hlen)

variable {fuel : Nat}

/-- As long as allocation succeeds and the rows can be counted, `useful` is the search. -/
theorem useful_search (hmem : ∀ n, mem n = true) (fuel : Nat) (hs : s.Ok ctx)
    (hlen : s.rows.length < 2 ^ 31) (n : Nat) :
    (useful mem ctx fuel s.rows s.q s.fams n).map Prod.fst =
      ((tree ctx).search fuel s).map Useful.ofBool := by
  obtain rfl : mem = fun _ => true := funext hmem
  rw [← requests_search fuel hs hlen]
  have hfollows := useful_follows (fun _ => true) fuel hs n
  cases hr : s.requests ctx fuel with
  | none =>
    rw [hr] at hfollows
    rw [hfollows fun _ => rfl]
    rfl
  | some r =>
    simp only [hr, fate_true] at hfollows
    rw [hfollows]
    rfl

/-- The answer of `useful` is the answer of the search. -/
theorem search_of_useful (hmem : ∀ n, mem n = true) (hs : s.Ok ctx) (hlen : s.rows.length < 2 ^ 31)
    {n' : Nat} {r : Useful}
    (h : useful mem ctx fuel s.rows s.q s.fams n = some (r, n')) :
    ∃ b, (tree ctx).search fuel s = some b ∧ r = Useful.ofBool b := by
  have hsearch := useful_search hmem fuel hs hlen n
  rw [h] at hsearch
  obtain ⟨b, hb, hr⟩ := map_eq_some_iff.mp hsearch.symm
  exact ⟨b, hb, hr.symm⟩

theorem halts_of_useful (hmem : ∀ n, mem n = true) (hs : s.Ok ctx)
    (hlen : s.rows.length < 2 ^ 31) {r : Useful × Nat}
    (h : useful mem ctx fuel s.rows s.q s.fams n = some r) : (tree ctx).Halts s := by
  obtain ⟨u, n'⟩ := r
  obtain ⟨b, hb, -⟩ := search_of_useful hmem hs hlen h
  exact SearchTree.halts_of_search hb

theorem useful_of_halts (hmem : ∀ n, mem n = true) (hs : s.Ok ctx)
    (hlen : s.rows.length < 2 ^ 31) (h : (tree ctx).Halts s) :
    ∃ k, ∀ fuel, k ≤ fuel → ∀ n, ∃ r, useful mem ctx fuel s.rows s.q s.fams n = some r := by
  obtain ⟨b, k, hk⟩ := h.returns
  refine ⟨k, fun fuel hle n => ?_⟩
  have hb : (tree ctx).search fuel s = some b := hk fuel hle
  have hsearch := useful_search hmem fuel hs hlen n
  rw [hb] at hsearch
  obtain ⟨r, hr, -⟩ := map_eq_some_iff.mp hsearch
  exact ⟨r, hr⟩

end Adt89
