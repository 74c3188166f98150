import EightyNine.Library.Fuel
import Mathlib.Data.List.Forall2
import Mathlib.Logic.Relation

/-!
# Depth-first search

A search for a good leaf of a finitely branching tree, from left to right and with
fuel.  What it returns is right (`SearchTree.search_iff`), and it is the answer to another
question as long as that is answered node by node where the search comes by
(`SearchTree.search_spec`).  The tree may be infinite, and the search returns exactly when
no branch of the calls that it makes goes on for ever (`SearchTree.halts_of_search`,
`SearchTree.Halts.returns`).  A tree may be followed by another one in which each node has
its place (`SearchTree.Follows`).
-/

namespace Library

open List

/-- A tree whose leaves are good or bad. -/
structure SearchTree (α : Type) where
  leaf : α → Option Bool
  children : α → List α

namespace SearchTree

variable {α : Type}

/-- The first success, or failure when all have failed. -/
def firstTrue (f : α → Option Bool) : List α → Option Bool
  | [] => some false
  | a :: l =>
    match f a with
    | none => none
    | some true => some true
    | some false => firstTrue f l

/-- Whether there is a good leaf below `a`. -/
def search (T : SearchTree α) : Nat → α → Option Bool
  | 0, _ => none
  | n + 1, a =>
    match T.leaf a with
    | some b => some b
    | none => firstTrue (T.search n) (T.children a)

/-- There is a good leaf below. -/
inductive Finds (T : SearchTree α) : α → Prop
  | leaf {a : α} (h : T.leaf a = some true) : Finds T a
  | child {a c : α} (h : T.leaf a = none) (mem : c ∈ T.children a) (below : Finds T c) : Finds T a

variable {T : SearchTree α} {a : α}

/-! ## What the search returns -/

variable {f : α → Option Bool} {l : List α}

theorem firstTrue_true (h : firstTrue f l = some true) :
    ∃ c ∈ l, f c = some true := by
  induction l with
  | nil => cases h
  | cons a l ih =>
    rw [firstTrue] at h
    split at h
    next => cases h
    next ha => exact ⟨a, mem_cons_self, ha⟩
    next =>
      obtain ⟨c, hc, hf⟩ := ih h
      exact ⟨c, mem_cons_of_mem a hc, hf⟩

theorem firstTrue_false (h : firstTrue f l = some false) :
    ∀ c ∈ l, f c = some false := by
  induction l with
  | nil => exact fun c hc => absurd hc not_mem_nil
  | cons a l ih =>
    rw [firstTrue] at h
    intro c hc
    split at h
    next => cases h
    next => cases h
    next ha =>
      rcases mem_cons.mp hc with rfl | hc
      · exact ha
      · exact ih h c hc

theorem finds_of_leaf (h : T.leaf a = some false) : ¬ T.Finds a := by
  intro hf
  cases hf with
  | leaf h' | child h' => cases h.symm.trans h'

theorem finds_iff (h : T.leaf a = none) : T.Finds a ↔ ∃ c ∈ T.children a, T.Finds c := by
  constructor
  · intro hf
    cases hf with
    | leaf h' => cases h.symm.trans h'
    | child _ mem below => exact ⟨_, mem, below⟩
  · rintro ⟨c, mem, below⟩
    exact .child h mem below

variable {n : Nat}

theorem search_iff : ∀ {a : α} {b : Bool}, T.search n a = some b → (b = true ↔ T.Finds a) := by
  induction n with
  | zero =>
    intro a b h
    cases h
  | succ n ih =>
    intro a b h
    rw [search] at h
    split at h
    next b' hleaf =>
      cases h
      cases b with
      | true => exact iff_of_true rfl (.leaf hleaf)
      | false => exact iff_of_false Bool.false_ne_true (finds_of_leaf hleaf)
    next hleaf =>
      rw [finds_iff hleaf]
      cases b with
      | true =>
        obtain ⟨c, mem, hc⟩ := firstTrue_true h
        exact iff_of_true rfl ⟨c, mem, (ih hc).mp rfl⟩
      | false =>
        refine iff_of_false Bool.false_ne_true ?_
        rintro ⟨c, mem, below⟩
        exact Bool.false_ne_true ((ih (firstTrue_false h c mem)).mpr below)

/-! ## The nodes that the search comes by -/

/-- The search from `a` calls `c`: it is a child, and the earlier ones have found nothing. -/
def Calls (T : SearchTree α) (a c : α) : Prop :=
  T.leaf a = none ∧ ∃ k : Nat, (T.children a)[k]? = some c ∧
    ∀ (j : Nat) (d : α), j < k → (T.children a)[j]? = some d → ¬ T.Finds d

/-- The search from `a` comes by `b`. -/
def Visits (T : SearchTree α) : α → α → Prop := Relation.ReflTransGen T.Calls

theorem Calls.mem {c : α} (h : T.Calls a c) : c ∈ T.children a := by
  obtain ⟨-, k, hk, -⟩ := h
  exact mem_of_getElem? hk

/-- What holds at a node and is handed down holds wherever the search comes by. -/
theorem Visits.keeps {P : α → Prop} (hstep : ∀ a c, P a → c ∈ T.children a → P c) {a b : α}
    (h : T.Visits a b) (ha : P a) : P b := by
  induction h with
  | refl => exact ha
  | tail _ hcall ih => exact hstep _ _ ih hcall.mem

theorem firstTrue_getElem (h : firstTrue f l = some true) :
    ∃ (k : Nat) (c : α), l[k]? = some c ∧ f c = some true ∧
      ∀ (j : Nat) (d : α), j < k → l[j]? = some d → f d = some false := by
  induction l with
  | nil => cases h
  | cons a l ih =>
    rw [firstTrue] at h
    split at h
    next => cases h
    next ha => exact ⟨0, a, rfl, ha, fun j d hj => absurd hj (Nat.not_lt_zero j)⟩
    next ha =>
      obtain ⟨k, c, hc, hf, hbefore⟩ := ih h
      refine ⟨k + 1, c, hc, hf, fun j d hj hd => ?_⟩
      cases j with
      | zero =>
        cases hd
        exact ha
      | succ j => exact hbefore j d (Nat.lt_of_succ_lt_succ hj) hd

/-- A question that the leaves answer, and each node that the search comes by with its
children, is answered by the search. -/
theorem search_spec {P I C : α → Prop}
    (hleaf : ∀ a b, I a → T.leaf a = some b → (b = true ↔ P a))
    (hstep : ∀ a, I a → C a → T.leaf a = none → (P a ↔ ∃ c ∈ T.children a, P c))
    (hinv : ∀ a c, I a → c ∈ T.children a → I c) (n : Nat) : ∀ {a : α} {b : Bool}, I a →
      (∀ u, T.Visits a u → C u) → T.search n a = some b → (b = true ↔ P a) := by
  induction n with
  | zero =>
    intro a b _ _ h
    cases h
  | succ n ih =>
    intro a b ha hclear h
    rw [search] at h
    split at h
    next b' hb =>
      cases h
      exact hleaf a b ha hb
    next hnone =>
      have hchild : ∀ {k : Nat} {c : α} {b' : Bool}, (T.children a)[k]? = some c →
          (∀ (j : Nat) (d : α), j < k → (T.children a)[j]? = some d →
            T.search n d = some false) → T.search n c = some b' → (b' = true ↔ P c) := by
        intro k c b' hc hbefore hb'
        refine ih (hinv a c ha (mem_of_getElem? hc)) (fun u hu => hclear u ?_) hb'
        refine .head ⟨hnone, k, hc, fun j d hj hd hf => ?_⟩ hu
        exact Bool.false_ne_true ((search_iff (hbefore j d hj hd)).mpr hf)
      rw [hstep a ha (hclear a .refl) hnone]
      cases b with
      | true =>
        obtain ⟨k, c, hc, hf, hbefore⟩ := firstTrue_getElem h
        exact iff_of_true rfl ⟨c, mem_of_getElem? hc, (hchild hc hbefore hf).mp rfl⟩
      | false =>
        refine iff_of_false Bool.false_ne_true ?_
        rintro ⟨c, mem, hc⟩
        obtain ⟨k, hk⟩ := mem_iff_getElem?.mp mem
        have hall := firstTrue_false h
        exact Bool.false_ne_true ((hchild hk (fun j d _ hd => hall d (mem_of_getElem? hd))
          (hall c mem)).mpr hc)

/-- A tree that is labelled is searched as it is without the labels. -/
theorem search_map {β : Type} {T' : SearchTree β} {f : β → α}
    (hleaf : ∀ b, T'.leaf b = T.leaf (f b))
    (hchildren : ∀ b, (T'.children b).map f = T.children (f b)) (n : Nat) :
    ∀ b, T'.search n b = T.search n (f b) := by
  induction n with
  | zero => exact fun b => rfl
  | succ n ih =>
    intro b
    have hfirst : ∀ l : List β, firstTrue (T'.search n) l = firstTrue (T.search n) (l.map f) := by
      intro l
      induction l with
      | nil => rfl
      | cons c l ihl => rw [map_cons, firstTrue, firstTrue, ih, ihl]
    rw [search, search, hleaf, hfirst, hchildren]

/-! ## When the search returns -/

/-- Each call of the search from `a` halts. -/
inductive Halts (T : SearchTree α) : α → Prop
  | leaf {a : α} {b : Bool} (h : T.leaf a = some b) : Halts T a
  | calls {a : α} (h : T.leaf a = none) (below : ∀ c, T.Calls a c → Halts T c) : Halts T a

/-- No branch below `a` goes on for ever. -/
def Finite (T : SearchTree α) : α → Prop := Acc fun c a => T.leaf a = none ∧ c ∈ T.children a

theorem Visits.halts {u : α} (h : T.Visits a u) (ha : T.Halts a) : T.Halts u := by
  induction h with
  | refl => exact ha
  | tail _ hcall ih =>
    cases ih with
    | leaf h' => cases hcall.1.symm.trans h'
    | calls _ below => exact below _ hcall

theorem firstTrue_some {f : α → Option Bool} {l : List α} {b : Bool}
    (h : firstTrue f l = some b) {k : Nat} {c : α} (hk : l[k]? = some c) :
    (∃ b', f c = some b') ∨ ∃ j d, j < k ∧ l[j]? = some d ∧ f d = some true := by
  induction l generalizing k with
  | nil => cases hk
  | cons a l ih =>
    rw [firstTrue] at h
    cases k with
    | zero =>
      cases hk
      split at h
      next => cases h
      next hc => exact .inl ⟨_, hc⟩
      next hc => exact .inl ⟨_, hc⟩
    | succ k =>
      split at h
      next => cases h
      next ha => exact .inr ⟨0, a, Nat.succ_pos k, rfl, ha⟩
      next =>
        rcases ih h hk with hc | ⟨j, d, hj, hd, hf⟩
        · exact .inl hc
        · exact .inr ⟨j + 1, d, Nat.succ_lt_succ hj, hd, hf⟩

theorem halts_of_search {n : Nat} : ∀ {a : α} {b : Bool}, T.search n a = some b → T.Halts a := by
  induction n with
  | zero =>
    intro a b h
    cases h
  | succ n ih =>
    intro a b h
    rw [search] at h
    split at h
    next hleaf => exact .leaf hleaf
    next hleaf =>
      refine .calls hleaf fun c ⟨_, k, hk, hbefore⟩ => ?_
      rcases firstTrue_some h hk with ⟨b', hb'⟩ | ⟨j, d, hj, hd, hf⟩
      · exact ih hb'
      · exact absurd ((search_iff hf).mp rfl) (hbefore j d hj hd)

/-- A list of searches returns when each one returns that is called. -/
theorem firstTrue_returns (l : List α) (h : ∀ (k : Nat) (c : α), l[k]? = some c →
      (∀ (j : Nat) (d : α), j < k → l[j]? = some d → ¬ T.Finds d) →
      ∃ b, Returns (fun n => T.search n c) b) :
    ∃ b, Returns (fun n => firstTrue (T.search n) l) b := by
  induction l with
  | nil => exact ⟨false, .pure false⟩
  | cons a l ih =>
    obtain ⟨b, n, hn⟩ := h 0 a rfl fun j d hj => absurd hj (Nat.not_lt_zero j)
    cases b with
    | true =>
      refine ⟨true, n, fun m hm => ?_⟩
      simp only [firstTrue, hn m hm]
    | false =>
      have hbad : ¬ T.Finds a := fun hf =>
        Bool.false_ne_true ((search_iff (hn n (Nat.le_refl n))).mpr hf)
      have htail := ih fun k c hk hbefore => h (k + 1) c hk fun j d hj hd => by
        cases j with
        | zero =>
          cases hd
          exact hbad
        | succ j => exact hbefore j d (Nat.lt_of_succ_lt_succ hj) hd
      obtain ⟨b, n', hn'⟩ := htail
      refine ⟨b, max n n', fun m hm => ?_⟩
      have h := hn m (Nat.le_trans (Nat.le_max_left n n') hm)
      simp only [firstTrue, h]
      exact hn' m (Nat.le_trans (Nat.le_max_right n n') hm)

theorem Halts.returns (h : T.Halts a) : ∃ b, Returns (fun n => T.search n a) b := by
  induction h with
  | @leaf a b hleaf =>
    refine ⟨b, Returns.succ ?_⟩
    simpa only [search, hleaf] using Returns.pure b
  | @calls a hleaf _ ih =>
    obtain ⟨b, hb⟩ := firstTrue_returns (T.children a) fun k c hk hbefore =>
      ih c ⟨hleaf, k, hk, hbefore⟩
    refine ⟨b, Returns.succ ?_⟩
    simpa only [search, hleaf] using hb

/-! ## One tree after another -/

variable {β : Type} {E : SearchTree β} {R : β → α → Prop} {r : α}

/-- The nodes of `T` that are related to nodes of `E` are searched as these are, and where
`E` has come to its end, which is good, `T` goes on from `r`. -/
structure Follows (E : SearchTree β) (R : β → α → Prop) (r : α) (T : SearchTree α) : Prop where
  inner : ∀ {b a}, R b a → E.leaf b = none → T.leaf a = none
  children : ∀ {b a}, R b a → E.leaf b = none → List.Forall₂ R (E.children b) (T.children a)
  last : ∀ {b a}, R b a → E.leaf b ≠ none → E.leaf b = some true ∧ a = r

theorem getElem?_of_forall₂ {l : List β} {l' : List α} (h : List.Forall₂ R l l') (k : Nat) :
    (∀ b, l[k]? = some b → ∃ a, l'[k]? = some a ∧ R b a) ∧
      ∀ a, l'[k]? = some a → ∃ b, l[k]? = some b ∧ R b a := by
  induction h generalizing k with
  | nil => simp
  | cons hba _ ih =>
    cases k with
    | zero => simpa using hba
    | succ k => exact ih k

variable {b : β}

theorem Follows.finds (h : Follows E R r T) {a : α} (hba : R b a) :
    T.Finds a ↔ E.Finds b ∧ T.Finds r := by
  constructor
  · intro hf
    induction hf generalizing b with
    | @leaf a hleaf =>
      by_cases hb : E.leaf b = none
      · cases hleaf.symm.trans (h.inner hba hb)
      · obtain ⟨hgood, rfl⟩ := h.last hba hb
        exact ⟨.leaf hgood, .leaf hleaf⟩
    | @child a c hleaf mem below ih =>
      by_cases hb : E.leaf b = none
      · obtain ⟨k, hk⟩ := mem_iff_getElem?.mp mem
        obtain ⟨b', hb', hrel⟩ := (getElem?_of_forall₂ (h.children hba hb) k).2 c hk
        obtain ⟨hfb, hfr⟩ := ih hrel
        exact ⟨.child hb (mem_of_getElem? hb') hfb, hfr⟩
      · obtain ⟨hgood, rfl⟩ := h.last hba hb
        exact ⟨.leaf hgood, .child hleaf mem below⟩
  · rintro ⟨hf, hr⟩
    induction hf generalizing a with
    | leaf hgood =>
      obtain ⟨-, rfl⟩ := h.last hba (by rw [hgood]; exact Option.some_ne_none _)
      exact hr
    | @child b b' hleaf mem _ ih =>
      obtain ⟨k, hk⟩ := mem_iff_getElem?.mp mem
      obtain ⟨c, hc, hrel⟩ := (getElem?_of_forall₂ (h.children hba hleaf) k).1 b' hk
      exact .child (h.inner hba hleaf) (mem_of_getElem? hc) (ih hrel)

/-- A call in `E` has its place in `T`. -/
theorem Follows.calls (h : Follows E R r T) {b b' : β} {a : α} (hba : R b a)
    (hcall : E.Calls b b') : ∃ c, T.Calls a c ∧ R b' c := by
  obtain ⟨hleaf, k, hk, hbefore⟩ := hcall
  have hplace := getElem?_of_forall₂ (h.children hba hleaf)
  obtain ⟨c, hc, hrel⟩ := (hplace k).1 b' hk
  refine ⟨c, ⟨h.inner hba hleaf, k, hc, fun j d hj hd hf => ?_⟩, hrel⟩
  obtain ⟨d', hd', hrel'⟩ := (hplace j).2 d hd
  exact hbefore j d' hj hd' ((h.finds hrel').mp hf).1

/-- Where `T` halts, `E` does. -/
theorem Follows.halts (h : Follows E R r T) {a : α} (ha : T.Halts a) :
    ∀ {b : β}, R b a → E.Halts b := by
  induction ha with
  | leaf hleaf =>
    intro b hba
    by_cases hb : E.leaf b = none
    · cases (h.inner hba hb).symm.trans hleaf
    · exact .leaf (h.last hba hb).1
  | calls _ _ ih =>
    intro b hba
    by_cases hb : E.leaf b = none
    · refine .calls hb fun b' hcall => ?_
      obtain ⟨c, hc, hrel⟩ := h.calls hba hcall
      exact ih c hc hrel
    · exact .leaf (h.last hba hb).1

/-- Where `T` halts and finds nothing from `r`, all of `E` is searched. -/
theorem Follows.finite (h : Follows E R r T) (hr : ¬ T.Finds r) {a : α} (ha : T.Halts a) :
    ∀ {b : β}, R b a → E.Finite b := by
  induction ha with
  | leaf hleaf =>
    exact fun {b} hba => ⟨b, fun b' hb' => by cases (h.inner hba hb'.1).symm.trans hleaf⟩
  | @calls a hleaf _ ih =>
    refine fun {b} hba => ⟨b, fun b' hb' => ?_⟩
    have hplace := getElem?_of_forall₂ (h.children hba hb'.1)
    obtain ⟨k, hk⟩ := mem_iff_getElem?.mp hb'.2
    obtain ⟨c, hc, hrel⟩ := (hplace k).1 b' hk
    refine ih c ⟨hleaf, k, hc, fun j d _ hd hf => ?_⟩ hrel
    obtain ⟨d', -, hrel'⟩ := (hplace j).2 d hd
    exact hr ((h.finds hrel').mp hf).2

/-- The other way round: `T` halts where `E` is finite, if it halts from `r`. -/
theorem Follows.halts_of_finite (h : Follows E R r T) {b : β} (hb : E.Finite b) :
    ∀ {a : α}, R b a → (T.Visits a r → T.Halts r) → T.Halts a := by
  induction hb with
  | intro b _ ih =>
    intro a hba hr
    by_cases hleaf : E.leaf b = none
    · refine .calls (h.inner hba hleaf) fun c hcall => ?_
      obtain ⟨-, k, hk, -⟩ := id hcall
      obtain ⟨b', hb', hrel⟩ := (getElem?_of_forall₂ (h.children hba hleaf) k).2 c hk
      exact ih b' ⟨hleaf, mem_of_getElem? hb'⟩ hrel fun hv => hr (.head hcall hv)
    · obtain ⟨-, rfl⟩ := h.last hba hleaf
      exact hr .refl

/-- It also halts where `E` does, if it finds something from `r`, too. -/
theorem Follows.halts_of (h : Follows E R r T) (hfr : T.Finds r) {b : β} (hb : E.Halts b) :
    ∀ {a : α}, R b a → (T.Visits a r → T.Halts r) → T.Halts a := by
  induction hb with
  | leaf hleaf =>
    intro a hba hr
    obtain ⟨-, rfl⟩ := h.last hba (by rw [hleaf]; exact Option.some_ne_none _)
    exact hr .refl
  | calls hleaf _ ih =>
    intro a hba hr
    refine .calls (h.inner hba hleaf) fun c hcall => ?_
    obtain ⟨-, k, hk, hbefore⟩ := id hcall
    have hplace := getElem?_of_forall₂ (h.children hba hleaf)
    obtain ⟨b', hb', hrel⟩ := (hplace k).2 c hk
    refine ih b' ⟨hleaf, k, hb', fun j d' hj hd' hf => ?_⟩ hrel fun hv => hr (.head hcall hv)
    obtain ⟨d, hd, hrel'⟩ := (hplace j).1 d' hd'
    exact hbefore j d hj hd ((h.finds hrel').mpr ⟨hf, hfr⟩)

end SearchTree

end Library
