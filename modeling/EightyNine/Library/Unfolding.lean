import EightyNine.Library.Dfs

/-!
# Walks over an unfolding

The tree below a vertex has one branch for each path, in the order of the successors.
A walk looks at the successors of a vertex one by one: each time if it follows the
occurrences of a vertex, and if it takes each vertex once, only where the vertex is new.
It lists a vertex when it comes to it or when it leaves it.  `explore` follows a walk
through the trees below the successors of one frame: it comes out again having listed
them, or it meets a vertex that is still on its stack.
-/

namespace Library

open Relation List Function

variable {V : Type} {succ : V → List V}

/-! ## Trees -/

/-- An ordered tree. -/
inductive Tree (V : Type) where
  | node (v : V) (below : List (Tree V))

mutual

/-- The vertices of a tree, each before (`pre`) or after those below it. -/
def Tree.order (pre : Bool) : Tree V → List V
  | .node v below => if pre then v :: orderAll pre below else orderAll pre below ++ [v]

/-- The vertices of some trees, one tree after the other. -/
def orderAll (pre : Bool) : List (Tree V) → List V
  | [] => []
  | t :: ts => t.order pre ++ orderAll pre ts

end

mutual

/-- The tree has a branch for each path from the vertex. -/
inductive Unfolds (succ : V → List V) : V → Tree V → Prop
  | node {v : V} {below : List (Tree V)} (h : UnfoldsAll succ (succ v) below) :
      Unfolds succ v (.node v below)

/-- The trees below some vertices. -/
inductive UnfoldsAll (succ : V → List V) : List V → List (Tree V) → Prop
  | nil : UnfoldsAll succ [] []
  | cons {v : V} {vs : List V} {t : Tree V} {ts : List (Tree V)} (h : Unfolds succ v t)
      (hs : UnfoldsAll succ vs ts) : UnfoldsAll succ (v :: vs) (t :: ts)

end

variable {pre once : Bool} {v w root : V} {vs todo : List V} {t : Tree V} {ts : List (Tree V)}

variable {x : V}

theorem mem_order_node {below : List (Tree V)} :
    x ∈ (Tree.node v below).order pre ↔ x = v ∨ x ∈ orderAll pre below := by
  cases pre <;> simp [Tree.order, or_comm]

theorem mem_orderAll : x ∈ orderAll pre ts ↔ ∃ t ∈ ts, x ∈ t.order pre := by
  induction ts with
  | nil => simp [orderAll]
  | cons t ts ih => simp [orderAll, ih]

theorem UnfoldsAll.exists_of_mem (h : UnfoldsAll succ vs ts) (hw : w ∈ vs) :
    ∃ t ∈ ts, Unfolds succ w t := by
  induction vs generalizing ts with
  | nil => cases hw
  | cons v vs ih =>
    cases h with
    | cons h hs =>
      rcases mem_cons.mp hw with rfl | hw
      · exact ⟨_, mem_cons_self, h⟩
      · obtain ⟨t, ht, hu⟩ := ih hs hw
        exact ⟨t, mem_cons_of_mem _ ht, hu⟩

mutual

/-- A vertex of a tree has its own tree inside it, and is reached. -/
theorem Unfolds.inner : ∀ {v : V} {t : Tree V}, Unfolds succ v t → x ∈ t.order pre →
    ReflTransGen (Edge succ) v x ∧ ∃ t', Unfolds succ x t' ∧ ∀ y ∈ t'.order pre, y ∈ t.order pre
  | _, _, .node h, hx => by
    rcases mem_order_node.mp hx with rfl | hx
    · exact ⟨.refl, _, .node h, fun y hy => hy⟩
    · obtain ⟨w, hw, hreach, t', ht', hall⟩ := UnfoldsAll.inner h hx
      exact ⟨hreach.head hw, t', ht', fun y hy => mem_order_node.mpr (.inr (hall y hy))⟩

theorem UnfoldsAll.inner : ∀ {vs : List V} {ts : List (Tree V)}, UnfoldsAll succ vs ts →
    x ∈ orderAll pre ts → ∃ w ∈ vs, ReflTransGen (Edge succ) w x ∧
      ∃ t', Unfolds succ x t' ∧ ∀ y ∈ t'.order pre, y ∈ orderAll pre ts
  | _, _, .nil, hx => by cases hx
  | _, _, .cons h hs, hx => by
    rcases mem_append.mp hx with hx | hx
    · obtain ⟨hreach, t', ht', hall⟩ := Unfolds.inner h hx
      exact ⟨_, mem_cons_self, hreach, t', ht', fun y hy => mem_append_left _ (hall y hy)⟩
    · obtain ⟨w, hw, hreach, t', ht', hall⟩ := UnfoldsAll.inner hs hx
      exact ⟨w, mem_cons_of_mem _ hw, hreach, t', ht',
        fun y hy => mem_append_right _ (hall y hy)⟩

end

theorem Unfolds.root_mem (h : Unfolds succ v t) : v ∈ t.order pre := by
  cases h with
  | node h => exact mem_order_node.mpr (.inl rfl)

theorem Unfolds.mem_iff (h : Unfolds succ v t) :
    x ∈ t.order pre ↔ ReflTransGen (Edge succ) v x := by
  refine ⟨fun hx => (h.inner hx).1, fun hx => ?_⟩
  induction hx with
  | refl => exact h.root_mem
  | tail _ hedge ih =>
    obtain ⟨-, t', ht', hall⟩ := h.inner ih
    cases ht' with
    | node hb =>
      obtain ⟨u, hu, hun⟩ := hb.exists_of_mem hedge
      exact hall _ (mem_order_node.mpr (.inr (mem_orderAll.mpr ⟨u, hu, hun.root_mem⟩)))

mutual

/-- There is no path without end from a vertex with an unfolding. -/
theorem Unfolds.acc : ∀ {v : V} {t : Tree V}, Unfolds succ v t →
    Acc (fun w v => Edge succ v w) v
  | _, _, .node h => ⟨_, fun w hw => UnfoldsAll.acc h w hw⟩

theorem UnfoldsAll.acc : ∀ {vs : List V} {ts : List (Tree V)}, UnfoldsAll succ vs ts →
    ∀ w ∈ vs, Acc (fun w v => Edge succ v w) w
  | _, _, .nil, w, hw => by cases hw
  | _, _, .cons h hs, w, hw => by
    rcases mem_cons.mp hw with rfl | hw
    · exact Unfolds.acc h
    · exact UnfoldsAll.acc hs w hw

end

/-- There is no cycle that a vertex with an unfolding reaches. -/
theorem Unfolds.acyclic (h : Unfolds succ v t) (hw : ReflTransGen (Edge succ) v w) :
    ¬TransGen (Edge succ) w w := by
  have hmem : w ∈ t.order true := h.mem_iff.mpr hw
  obtain ⟨-, t', ht', -⟩ := h.inner hmem
  intro hcycle
  have hswap : TransGen (fun w v => Edge succ v w) w w := by
    simpa [Function.swap] using transGen_swap.2 hcycle
  exact not_rel_self ht'.acc.transGen hswap

/-! ### Descendants come first -/

/-- The successors of each vertex come before it. -/
def SuccsFirst (succ : V → List V) (l : List V) : Prop :=
  ∀ a v b, l = a ++ v :: b → ∀ w, Edge succ v w → w ∈ a

variable {l : List V}

theorem SuccsFirst.append {l' : List V} (h : SuccsFirst succ l) (h' : SuccsFirst succ l') :
    SuccsFirst succ (l ++ l') := by
  intro a v b heq w hw
  obtain ⟨c, rfl, hc⟩ | ⟨c, rfl, hc⟩ := append_eq_append_iff.mp heq
  · exact mem_append_right _ (h' c v b hc w hw)
  · cases c with
    | nil =>
      have hl' := h' [] v b hc.symm w hw
      cases hl'
    | cons x c =>
      obtain ⟨rfl, -⟩ := cons.inj hc
      exact h a v c rfl w hw

mutual

theorem Unfolds.succsFirst : ∀ {v : V} {t : Tree V}, Unfolds succ v t →
    SuccsFirst succ (t.order false)
  | v, .node _ below, .node h => by
    intro a u b heq w hw
    rw [Tree.order, if_neg Bool.false_ne_true] at heq
    have hfirst := UnfoldsAll.succsFirst h
    rcases eq_nil_or_concat b with rfl | ⟨b', x, rfl⟩
    · obtain ⟨rfl, hv⟩ := append_inj' heq rfl
      obtain ⟨rfl, -⟩ := cons.inj hv
      obtain ⟨t, ht, hu⟩ := h.exists_of_mem hw
      exact mem_orderAll.mpr ⟨t, ht, hu.root_mem⟩
    · have hsplit : orderAll false below ++ [v] = (a ++ u :: b') ++ [x] := by
        rw [heq, concat_eq_append, append_assoc, cons_append]
      exact hfirst a u b' (append_inj' hsplit rfl).1 w hw

theorem UnfoldsAll.succsFirst : ∀ {vs : List V} {ts : List (Tree V)}, UnfoldsAll succ vs ts →
    SuccsFirst succ (orderAll false ts)
  | _, _, .nil => by
    intro a v b heq
    cases a <;> cases heq
  | _, _, .cons h hs => (Unfolds.succsFirst h).append (UnfoldsAll.succsFirst hs)

end

/-- Behind its descendants a vertex comes the first time. -/
theorem SuccsFirst.eraseDups [DecidableEq V] (h : SuccsFirst succ l) (hv : v ∈ l) :
    ∃ a b, l.eraseDups = a ++ v :: b ∧ ∀ w, TransGen (Edge succ) v w → w ∈ a := by
  obtain ⟨a, b, rfl, hnew⟩ := eq_append_cons_of_mem hv
  refine ⟨a.eraseDups, ((b.removeAll a).filter fun x => !x == v).eraseDups, ?_, fun w hw => ?_⟩
  · rw [eraseDups_append, removeAll, filter_cons_of_pos (by simpa using hnew), eraseDups_cons]
    rfl
  · rw [mem_eraseDups]
    induction hw with
    | single hedge => exact h a v b rfl _ hedge
    | tail _ hedge ih =>
      obtain ⟨a1, a2, rfl⟩ := append_of_mem ih
      exact mem_append_left _ (h a1 _ (a2 ++ v :: b) (by simp) _ hedge)

/-! ## First occurrences -/

section Firsts

variable [DecidableEq V] {color color' : V → Color} {s : List V}

/-- What a walk lists of a sequence: all of it, or what is new the first time. -/
def listed (once : Bool) (color : V → Color) (s : List V) : List V :=
  if once then (s.filter fun v => color v ≠ .black).eraseDups else s

theorem listed_append (h : ∀ x, color' x = .black ↔ color x = .black ∨ x ∈ s) (s' : List V) :
    listed once color (s ++ s') = listed once color s ++ listed once color' s' := by
  cases once with
  | false => rfl
  | true =>
    simp only [listed, if_true, filter_append, eraseDups_append]
    congr 2
    rw [removeAll, filter_filter]
    refine filter_congr fun x _ => ?_
    have hx := h x
    by_cases hc : color x = .black
    · simp [hc, hx.mpr (.inl hc)]
    · by_cases hs : x ∈ s
      · simp [hc, hs, hx.mpr (.inr hs)]
      · have hnot : color' x ≠ .black := fun h' => (hx.mp h').elim hc hs
        simp [hc, hs, hnot]

theorem listed_congr (h : ∀ x ∈ s, color' x = .black ↔ color x = .black) :
    listed once color' s = listed once color s := by
  cases once with
  | false => rfl
  | true =>
    have hfilter : (s.filter fun v => color' v ≠ .black) = s.filter fun v => color v ≠ .black :=
      filter_congr fun x hx => by simp [h x hx]
    rw [listed, listed, hfilter]

theorem listed_black (hs : ∀ x ∈ s, color x = .black) : listed true color s = [] := by
  rw [listed, if_pos rfl, filter_eq_nil_iff.mpr fun x hx => by simp [hs x hx]]
  rfl

theorem listed_new (hv : once = true → color v ≠ .black) : listed once color [v] = [v] := by
  cases once with
  | false => rfl
  | true => simp [listed, hv rfl, eraseDups_cons]

theorem listed_cons (hv : once = true → color v ≠ .black) (hs : v ∉ s) :
    listed once color (v :: s) = v :: listed once color s := by
  have hblack : ∀ x, update color v .black x = .black ↔ color x = .black ∨ x ∈ [v] := by
    intro x
    by_cases hx : x = v <;> simp [hx]
  have hother : ∀ x ∈ s, update color v .black x = .black ↔ color x = .black :=
    fun x hx => by rw [update_of_ne (ne_of_mem_of_not_mem hx hs)]
  rw [← singleton_append, listed_append hblack, listed_new hv, listed_congr hother]
  rfl

theorem listed_snoc (hv : once = true → color v ≠ .black) (hs : v ∉ s) :
    listed once color (s ++ [v]) = listed once color s ++ [v] := by
  have hblack : ∀ x, (if x ∈ s then Color.black else color x) = .black ↔
      color x = .black ∨ x ∈ s := by
    intro x
    by_cases hx : x ∈ s <;> simp [hx]
  rw [listed_append hblack, listed_new fun honce => by rw [if_neg hs]; exact hv honce]

end Firsts

/-! ## Walks -/

/-- The colours, the frames with the successors they have not looked at, and what was listed. -/
structure Walk (V : Type) where
  color : V → Color
  stack : List (V × List V)
  visited : List V

section Walks

variable [DecidableEq V]

/-- One step of a walk. -/
inductive WalkStep (succ : V → List V) (once pre : Bool) : Walk V → Walk V → Prop
  | skip {color : V → Color} {v w : V} {todo : List V} {below : List (V × List V)}
      {visited : List V} (honce : once = true) (hw : color w = .black) :
      WalkStep succ once pre ⟨color, (v, w :: todo) :: below, visited⟩
        ⟨color, (v, todo) :: below, visited⟩
  | push {color : V → Color} {v w : V} {todo : List V} {below : List (V × List V)}
      {visited : List V} (hgray : color w ≠ .gray) (hnew : once = true → color w ≠ .black) :
      WalkStep succ once pre ⟨color, (v, w :: todo) :: below, visited⟩
        ⟨update color w .gray, (w, succ w) :: (v, todo) :: below,
          if pre then visited ++ [w] else visited⟩
  | pop {color : V → Color} {v : V} {below : List (V × List V)} {visited : List V} :
      WalkStep succ once pre ⟨color, (v, []) :: below, visited⟩
        ⟨update color v .black, below, if pre then visited else visited ++ [v]⟩

/-- Several steps of a walk. -/
abbrev WalkSteps (succ : V → List V) (once pre : Bool) : Walk V → Walk V → Prop :=
  ReflTransGen (WalkStep succ once pre)

/-- The walk before its first step. -/
def walkStart (succ : V → List V) (pre : Bool) (root : V) : Walk V :=
  ⟨update (fun _ => .white) root .gray, [(root, succ root)], if pre then [root] else []⟩

/-- The frames are those of a path, and each has some of the last successors left. -/
def Path (succ : V → List V) : Option V → List (V × List V) → Prop
  | _, [] => True
  | above, (v, todo) :: below =>
    todo <:+ succ v ∧ (∀ w, above = some w → Edge succ v w) ∧ Path succ (some v) below

/-- What holds between two steps of a walk. -/
structure Walking (succ : V → List V) (root : V) (once pre : Bool) (S : Walk V) : Prop where
  gray : ∀ v, S.color v = .gray ↔ v ∈ S.stack.map Prod.fst
  nodup : (S.stack.map Prod.fst).Nodup
  path : Path succ none S.stack
  reach : ∀ v ∈ S.stack.map Prod.fst, ReflTransGen (Edge succ) root v
  visited : ∀ v ∈ S.visited, ReflTransGen (Edge succ) root v
  once : once = true → S.visited.Nodup ∧
    ∀ v ∈ S.visited, S.color v = .black ∨ pre = true ∧ S.color v = .gray

variable {above : Option V} {stack : List (V × List V)}

omit [DecidableEq V] in
theorem Path.anti (h : Path succ above stack) :
    Path succ none stack := by
  cases stack with
  | nil => trivial
  | cons frame below => exact ⟨h.1, (fun _ h' => nomatch h'), h.2.2⟩

omit [DecidableEq V] in
theorem Path.reach (h : Path succ above stack) :
    ∀ u ∈ stack.map Prod.fst, ∀ w, above = some w → TransGen (Edge succ) u w := by
  induction stack generalizing above with
  | nil => simp
  | cons frame below ih =>
    obtain ⟨v, todo⟩ := frame
    obtain ⟨-, habove, hbelow⟩ := h
    intro u hu w hw
    rw [map_cons, mem_cons] at hu
    rcases hu with rfl | hu
    · exact .single (habove w hw)
    · exact (ih hbelow u hu v rfl).tail (habove w hw)

theorem Walking.start (succ : V → List V) (once pre : Bool) (root : V) :
    Walking succ root once pre (walkStart succ pre root) where
  gray v := by
    by_cases h : v = root <;> simp [walkStart, h]
  nodup := nodup_singleton root
  path := ⟨suffix_refl _, fun _ h => (nomatch h), trivial⟩
  reach v hv := by
    rw [mem_singleton.mp hv]
  visited v hv := by
    cases pre with
    | false => cases hv
    | true => rw [mem_singleton.mp hv]
  once _ := by
    cases pre with
    | false => exact ⟨nodup_nil, fun v hv => by cases hv⟩
    | true =>
      refine ⟨nodup_singleton root, fun v hv => .inr ⟨rfl, ?_⟩⟩
      rw [mem_singleton.mp hv]
      show update (fun _ => Color.white) root .gray root = .gray
      exact update_self ..

omit [DecidableEq V] in
theorem nodup_snoc (hl : l.Nodup) (hv : v ∉ l) : (l ++ [v]).Nodup := by
  rw [← concat_eq_append]
  exact hl.concat hv

variable {S S' : Walk V}

/-- One turn of the loop keeps the walk. -/
theorem Walking.step (h : Walking succ root once pre S)
    (hs : WalkStep succ once pre S S') : Walking succ root once pre S' := by
  cases hs with
  | @skip color v w todo below visited honce hw =>
    obtain ⟨hsuffix, -, hbelow⟩ := h.path
    exact ⟨h.gray, h.nodup, ⟨(suffix_cons w todo).trans hsuffix, fun _ h' => (nomatch h'), hbelow⟩,
      h.reach, h.visited, h.once⟩
  | @push color v w todo below visited hgray hnew =>
    obtain ⟨hsuffix, -, hbelow⟩ := h.path
    have hedge : Edge succ v w := hsuffix.subset mem_cons_self
    have hout : w ∉ ((v, todo) :: below).map Prod.fst := fun hmem => hgray ((h.gray w).mpr hmem)
    have hw : ReflTransGen (Edge succ) root w := (h.reach v mem_cons_self).tail hedge
    exact {
      gray := fun x => by
        show update color w .gray x = .gray ↔ x ∈ w :: ((v, todo) :: below).map Prod.fst
        by_cases hx : x = w
        · simp [hx]
        · rw [update_of_ne hx, h.gray x, mem_cons]
          simp [hx]
      nodup := nodup_cons.mpr ⟨hout, h.nodup⟩
      path := ⟨suffix_refl _, fun _ h' => (nomatch h'),
        (suffix_cons w todo).trans hsuffix, fun x hx => Option.some.inj hx ▸ hedge, hbelow⟩
      reach := fun x hx => by
        rcases mem_cons.mp hx with rfl | hx
        · exact hw
        · exact h.reach x hx
      visited := fun x hx => by
        cases pre with
        | false => exact h.visited x hx
        | true =>
          rcases mem_append.mp hx with hx | hx
          · exact h.visited x hx
          · rwa [mem_singleton.mp hx]
      once := fun honce => by
        obtain ⟨hnodup, hcolors⟩ := h.once honce
        have hfresh : w ∉ visited := fun hmem =>
          (hcolors w hmem).elim (hnew honce) fun hg => hgray hg.2
        have hother : ∀ x ∈ visited, update color w .gray x = .black ∨
            pre = true ∧ update color w .gray x = .gray := fun x hx => by
          have hne : x ≠ w := fun he => hfresh (by rwa [he] at hx)
          rw [update_of_ne hne]
          exact hcolors x hx
        cases pre with
        | false => exact ⟨hnodup, hother⟩
        | true =>
          refine ⟨nodup_snoc hnodup hfresh, fun x hx => ?_⟩
          rcases mem_append.mp hx with hx | hx
          · exact hother x hx
          · rw [mem_singleton.mp hx]
            exact .inr ⟨rfl, update_self ..⟩ }
  | @pop color v below visited =>
    obtain ⟨-, -, hbelow⟩ := h.path
    have hnodup := nodup_cons.mp h.nodup
    have hv : color v = .gray := (h.gray v).mpr mem_cons_self
    exact {
      gray := fun x => by
        show update color v .black x = .gray ↔ x ∈ below.map Prod.fst
        by_cases hx : x = v
        · simp [hx, hnodup.1]
        · rw [update_of_ne hx, h.gray x]
          simp [hx]
      nodup := hnodup.2
      path := hbelow.anti
      reach := fun x hx => h.reach x (mem_cons_of_mem _ hx)
      visited := fun x hx => by
        cases pre with
        | false =>
          rcases mem_append.mp hx with hx | hx
          · exact h.visited x hx
          · rw [mem_singleton.mp hx]
            exact h.reach v mem_cons_self
        | true => exact h.visited x hx
      once := fun honce => by
        obtain ⟨hvisited, hcolors⟩ := h.once honce
        have hother : ∀ x ∈ visited, update color v .black x = .black ∨
            pre = true ∧ update color v .black x = .gray := fun x hx => by
          by_cases hxv : x = v
          · rw [hxv]
            exact .inl (update_self ..)
          · rw [update_of_ne hxv]
            exact hcolors x hx
        cases pre with
        | false =>
          have hfresh : v ∉ visited := fun hmem =>
            (hcolors v hmem).elim (fun hb => Color.noConfusion (hv.symm.trans hb)) fun hg =>
              Bool.false_ne_true hg.1
          refine ⟨nodup_snoc hvisited hfresh, fun x hx => ?_⟩
          rcases mem_append.mp hx with hx | hx
          · exact hother x hx
          · rw [mem_singleton.mp hx]
            exact .inl (update_self ..)
        | true => exact ⟨hvisited, hother⟩ }

theorem Walking.steps (h : Walking succ root once pre S)
    (hs : WalkSteps succ once pre S S') : Walking succ root once pre S' := by
  induction hs with
  | refl => exact h
  | tail _ hstep ih => exact ih.step hstep

/-! ### Through the trees of a frame -/

/-- The walk has met a vertex that is on its stack. -/
def Meets (succ : V → List V) (once pre : Bool) (S : Walk V) : Prop :=
  ∃ S' u w todo below, WalkSteps succ once pre S S' ∧ S'.stack = (u, w :: todo) :: below ∧
    S'.color w = .gray

/-- The walk has come back to its top frame through the trees below the successors left. -/
structure Explored (succ : V → List V) (once pre : Bool) (S : Walk V) (v : V) (todo : List V)
    (below : List (V × List V)) (ts : List (Tree V)) (S' : Walk V) : Prop where
  steps : WalkSteps succ once pre S S'
  unfolds : UnfoldsAll succ todo ts
  stack : S'.stack = (v, []) :: below
  gray : ∀ x, S'.color x = .gray ↔ S.color x = .gray
  black : ∀ x, S'.color x = .black ↔ S.color x = .black ∨ x ∈ orderAll pre ts
  new : ∀ x ∈ orderAll pre ts, S.color x ≠ .gray
  visited : S'.visited = S.visited ++ listed once S.color (orderAll pre ts)

/-- The vertices that a walk passes over have black trees. -/
def Finished (succ : V → List V) (once pre : Bool) (color : V → Color) : Prop :=
  once = true → ∀ x, color x = .black →
    ∃ t, Unfolds succ x t ∧ ∀ y ∈ t.order pre, color y = .black

theorem Meets.of_steps (hs : WalkSteps succ once pre S S')
    (h : Meets succ once pre S') : Meets succ once pre S := by
  obtain ⟨S2, u, w, todo, below, hsteps, hstack, hgray⟩ := h
  exact ⟨S2, u, w, todo, below, hs.trans hsteps, hstack, hgray⟩

variable {verts : List V}

omit [DecidableEq V] in
theorem Walking.length_le (h : Walking succ root once pre S)
    (hverts : ∀ v, ReflTransGen (Edge succ) root v → v ∈ verts) : S.stack.length ≤ verts.length := by
  have hsub : S.stack.map Prod.fst ⊆ verts := fun v hv => hverts v (h.reach v hv)
  simpa using (h.nodup.subperm hsub).length_le

variable {visited : List V} {below : List (V × List V)}

theorem Explored.skip {color : V → Color}
    (hw : color w = .black) (ht : Unfolds succ w t)
    (hblack : ∀ y ∈ t.order pre, color y = .black)
    (h : Explored succ true pre ⟨color, (v, todo) :: below, visited⟩ v todo below ts S') :
    Explored succ true pre ⟨color, (v, w :: todo) :: below, visited⟩ v (w :: todo) below (t :: ts) S' where
  steps := h.steps.head (.skip rfl hw)
  unfolds := .cons ht h.unfolds
  stack := h.stack
  gray := h.gray
  black x := by
    rw [h.black x, orderAll, mem_append]
    constructor
    · exact Or.imp_right .inr
    · rintro (hx | hx | hx)
      · exact .inl hx
      · exact .inl (hblack x hx)
      · exact .inr hx
  new x hx hg := by
    rcases mem_append.mp hx with hx | hx
    · exact Color.noConfusion ((hblack x hx).symm.trans hg)
    · exact h.new x hx hg
  visited := by
    have hall : ∀ x, color x = .black ↔ color x = .black ∨ x ∈ t.order pre :=
      fun x => ⟨.inl, fun hx => hx.elim id (hblack x)⟩
    rw [h.visited, orderAll, listed_append hall, listed_black hblack, nil_append]

variable {S2 : Walk V}

/-- The color of the vertices of a tree that the walk comes back from. -/
theorem Explored.pop_black {color : V → Color}
    (h : Explored succ once pre S w (succ w) below ts S2) (hS : S.color = update color w .gray)
    (x : V) : update S2.color w .black x = .black ↔
      color x = .black ∨ x ∈ (Tree.node w ts).order pre := by
  rw [mem_order_node]
  by_cases hx : x = w
  · simp [hx]
  · rw [update_of_ne hx, h.black x, hS, update_of_ne hx]
    simp [hx]

/-- A child is explored, then its siblings that are left. -/
theorem Explored.push {color : V → Color}
    {ts' : List (Tree V)} (hgray : color w ≠ .gray)
    (hnew : once = true → color w ≠ .black)
    (h : Explored succ once pre
      ⟨update color w .gray, (w, succ w) :: (v, todo) :: below,
        if pre then visited ++ [w] else visited⟩ w (succ w) ((v, todo) :: below) ts S2)
    (hrest : Explored succ once pre
      ⟨update S2.color w .black, (v, todo) :: below,
        if pre then S2.visited else S2.visited ++ [w]⟩ v todo below ts' S') :
    Explored succ once pre ⟨color, (v, w :: todo) :: below, visited⟩ v (w :: todo) below
      (.node w ts :: ts') S' where
  steps := by
    refine .head (.push hgray hnew) (h.steps.trans (.head ?_ hrest.steps))
    rcases S2 with ⟨color2, stack2, visited2⟩
    obtain rfl : stack2 = (w, []) :: (v, todo) :: below := h.stack
    exact .pop
  unfolds := .cons (.node h.unfolds) hrest.unfolds
  stack := hrest.stack
  gray x := by
    rw [hrest.gray x]
    show update S2.color w .black x = .gray ↔ color x = .gray
    by_cases hx : x = w
    · rw [hx, update_self]
      exact iff_of_false nofun hgray
    · rw [update_of_ne hx, h.gray x]
      show update color w .gray x = .gray ↔ color x = .gray
      rw [update_of_ne hx]
  black x := by
    rw [hrest.black x, orderAll, mem_append, ← or_assoc]
    exact or_congr_left (h.pop_black rfl x)
  new x hx hg := by
    rcases mem_append.mp hx with hx | hx
    · rcases mem_order_node.mp hx with rfl | hx
      · exact hgray hg
      · refine h.new x hx ?_
        show update color w .gray x = .gray
        by_cases hxw : x = w
        · rw [hxw, update_self]
        · rwa [update_of_ne hxw]
    · refine hrest.new x hx ?_
      show update S2.color w .black x = .gray
      have hxw : x ≠ w := fun he => hgray (he ▸ hg)
      rw [update_of_ne hxw, h.gray x]
      show update color w .gray x = .gray
      rwa [update_of_ne hxw]
  visited := by
    have hout : w ∉ orderAll pre ts := fun hmem => h.new w hmem (update_self ..)
    have hother : ∀ x ∈ orderAll pre ts,
        update color w .gray x = .black ↔ color x = .black := fun x hx => by
      rw [update_of_ne (ne_of_mem_of_not_mem hx hout)]
    have hvisited := h.visited
    dsimp only at hvisited
    rw [listed_congr hother] at hvisited
    rw [hrest.visited, orderAll, listed_append (h.pop_black rfl), ← append_assoc]
    congr 1
    dsimp only
    rw [hvisited, Tree.order]
    cases pre with
    | false =>
      simp only [Bool.false_eq_true, if_false]
      rw [listed_snoc hnew hout, append_assoc]
    | true =>
      simp only [if_true]
      rw [listed_cons hnew hout, append_assoc]
      rfl

/-- A walk comes back to its top frame, or meets a vertex on its stack. -/
theorem explore (hverts : ∀ v, ReflTransGen (Edge succ) root v → v ∈ verts)
    {color : V → Color} {v : V} {todo : List V}
    (h : Walking succ root once pre ⟨color, (v, todo) :: below, visited⟩)
    (hfinished : Finished succ once pre color) :
    (∃ ts S', Explored succ once pre ⟨color, (v, todo) :: below, visited⟩ v todo below ts S') ∨
      Meets succ once pre ⟨color, (v, todo) :: below, visited⟩ := by
  induction hn : verts.length - below.length using Nat.strong_induction_on
    generalizing color v todo below visited with
  | _ n ih =>
    subst hn
    induction todo generalizing color visited with
    | nil =>
      exact .inl ⟨[], _, .refl, .nil, rfl, fun _ => Iff.rfl, fun _ => by simp [orderAll],
        fun _ hx => by simp [orderAll] at hx, by cases once <;> simp [listed, orderAll]⟩
    | cons w todo ihtodo =>
      by_cases hgray : color w = .gray
      · exact .inr ⟨_, v, w, todo, below, .refl, rfl, hgray⟩
      by_cases hskip : once = true ∧ color w = .black
      · -- the tree below `w` was walked through before
        obtain ⟨rfl, hw⟩ := hskip
        obtain ⟨t, ht, hblack⟩ := hfinished rfl w hw
        have hstep : WalkStep succ true pre ⟨color, (v, w :: todo) :: below, visited⟩
          ⟨color, (v, todo) :: below, visited⟩ := .skip rfl hw
        obtain ⟨ts, S', hex⟩ | hmeets := ihtodo (h.step hstep) hfinished
        · exact .inl ⟨_, S', hex.skip hw ht hblack⟩
        · exact .inr (hmeets.of_steps (.single hstep))
      · have hnew : once = true → color w ≠ .black := fun honce hw => hskip ⟨honce, hw⟩
        have hstep : WalkStep succ once pre ⟨color, (v, w :: todo) :: below, visited⟩
          ⟨update color w .gray, (w, succ w) :: (v, todo) :: below,
            if pre then visited ++ [w] else visited⟩ := .push hgray hnew
        have hpushed := h.step hstep
        have hroom := h.length_le hverts
        have hfinished1 : Finished succ once pre (update color w .gray) := by
          intro honce
          have hsame : ∀ x, color x = .black → update color w .gray x = .black := fun x hx => by
            have hxw : x ≠ w := fun he => hnew honce (he ▸ hx)
            rwa [update_of_ne hxw]
          intro x hx
          have hxw : x ≠ w := by
            rintro rfl
            rw [update_self] at hx
            cases hx
          rw [update_of_ne hxw] at hx
          obtain ⟨t, ht, hblack⟩ := hfinished honce x hx
          exact ⟨t, ht, fun y hy => hsame y (hblack y hy)⟩
        obtain ⟨ts, S2, hex⟩ | hmeets := ih (verts.length - ((v, todo) :: below).length)
          (by simp only [length_cons] at hroom ⊢; omega) hpushed hfinished1 rfl
        · rcases S2 with ⟨color2, stack2, visited2⟩
          obtain rfl : stack2 = (w, []) :: (v, todo) :: below := hex.stack
          have hpop : WalkStep succ once pre ⟨color2, (w, []) :: (v, todo) :: below, visited2⟩
            ⟨update color2 w .black, (v, todo) :: below,
              if pre then visited2 else visited2 ++ [w]⟩ := .pop
          have hblack := hex.pop_black rfl
          have hfinished3 : Finished succ once pre (update color2 w .black) := by
            intro honce x hx
            rcases (hblack x).mp hx with hx | hx
            · obtain ⟨t, ht, hall⟩ := hfinished honce x hx
              exact ⟨t, ht, fun y hy => (hblack y).mpr (.inl (hall y hy))⟩
            · obtain ⟨-, t, ht, hall⟩ := (Unfolds.node hex.unfolds).inner hx
              exact ⟨t, ht, fun y hy => (hblack y).mpr (.inr (hall y hy))⟩
          obtain ⟨ts', S', hrest⟩ | hmeets := ihtodo ((hpushed.steps hex.steps).step hpop) hfinished3
          · exact .inl ⟨_, S', hex.push hgray hnew hrest⟩
          · exact .inr (hmeets.of_steps ((hex.steps.head hstep).tail hpop))
        · exact .inr (hmeets.of_steps (.single hstep))

/-- What a walk of a vertex comes to: it has listed the unfolding below it, or it meets a
vertex on its stack. -/
theorem walk_outcome (once pre : Bool) (hverts : ∀ v, ReflTransGen (Edge succ) root v → v ∈ verts) :
    (∃ t S', WalkSteps succ once pre (walkStart succ pre root) S' ∧ S'.stack = [] ∧
      Unfolds succ root t ∧
      S'.visited = if once then (t.order pre).eraseDups else t.order pre) ∨
    Meets succ once pre (walkStart succ pre root) := by
  have hwhite : Finished succ once pre (update (fun _ => .white) root .gray) := by
    intro _ x hx
    by_cases h : x = root <;> simp [h] at hx
  obtain ⟨ts, S', hex⟩ | hmeets := explore hverts (Walking.start succ once pre root) hwhite
  · left
    rcases S' with ⟨color, stack, visited⟩
    obtain rfl : stack = [(root, [])] := hex.stack
    have hpop : WalkStep succ once pre ⟨color, [(root, [])], visited⟩
      ⟨update color root .black, [], if pre then visited else visited ++ [root]⟩ := .pop
    refine ⟨.node root ts, _, hex.steps.tail hpop, rfl, .node hex.unfolds, ?_⟩
    have hout : root ∉ orderAll pre ts := fun hmem =>
      hex.new root hmem (update_self root Color.gray fun _ => Color.white)
    have hall : ∀ s : List V, listed once (fun _ => .white) s = if once then s.eraseDups else s := by
      intro s
      cases once with
      | false => rfl
      | true => simp [listed]
    have hsame : listed once (update (fun _ => Color.white) root .gray) (orderAll pre ts) =
        listed once (fun _ => .white) (orderAll pre ts) :=
      listed_congr fun x hx => by rw [update_of_ne (ne_of_mem_of_not_mem hx hout)]
    have hvisited := hex.visited
    dsimp only at hvisited ⊢
    rw [hsame] at hvisited
    rw [← hall, hvisited, Tree.order]
    cases pre with
    | false =>
      simp only [Bool.false_eq_true, if_false]
      rw [listed_snoc (fun _ => by decide) hout]
      rfl
    | true =>
      simp only [if_true]
      rw [listed_cons (fun _ => by decide) hout]
      rfl
  · exact .inr hmeets

theorem Meets.cycle (h : Meets succ once pre (walkStart succ pre root)) :
    ∃ v, ReflTransGen (Edge succ) root v ∧ TransGen (Edge succ) v v := by
  obtain ⟨S', u, w, todo, below, hsteps, hstack, hgray⟩ := h
  have hwalk := (Walking.start succ once pre root).steps hsteps
  have hpath := hwalk.path
  have hw := (hwalk.gray w).mp hgray
  rw [hstack] at hpath hw
  have hedge : Edge succ u w := hpath.1.subset mem_cons_self
  refine ⟨w, hwalk.reach w ((hwalk.gray w).mp hgray), ?_⟩
  rw [map_cons, mem_cons] at hw
  rcases hw with rfl | hw
  · exact .single hedge
  · exact (hpath.2.2.reach w hw u rfl).tail hedge

end Walks

end Library
