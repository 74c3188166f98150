import Mathlib.Algebra.Group.Nat.Defs
import Mathlib.Order.Nat

/-!
# libcat89: the kernel

`src/core.c`, `src/eq.c` and `src/cat89_util.c`.  A category is a table of operations
over the state of its backend.  Objects and morphisms are handles, which the kernel
checks against the backend before it passes them on.
-/

namespace Cat89

/-- `cat89_status`. -/
inductive Status where
  | ok
  | invalid
  | domain
  | notSupported
  | notFound
  | nomem
  | callback
deriving DecidableEq

/-- `ULONG_MAX`, which is also `(size_t)-1`. -/
def ulongMax : Nat := 2 ^ 64 - 1

/-- What a call comes to: what it hands out or the status it fails with, and `none`
when it reads memory that is not its own. -/
abbrev Reply (α : Type) := Option (Except Status α)

/-- `cat89_category_ops` over the state of the backend.  A call that fails leaves the
state as it was. -/
structure CategoryOps (σ Obj Mor : Type) where
  dom : σ → Mor → Reply Obj
  cod : σ → Mor → Reply Obj
  identity : σ → Obj → Reply (Mor × σ)
  compose : σ → Mor → Mor → Reply (Mor × σ)
  objSame : σ → Obj → Obj → Option Bool
  ownsObj : σ → Obj → Bool
  ownsMor : σ → Mor → Bool

/-- `cat89_eq_ops`; an operation that is missing is `NULL`. -/
structure EqOps (σ Obj Mor : Type) where
  objEqual : Option (σ → Obj → Obj → Reply Bool)
  morEqual : Option (σ → Mor → Mor → Reply Bool)

/-- `cat89_ref_inc`. -/
def refInc (refs : Nat) : Except Status Nat :=
  if refs = ulongMax then .error .invalid else .ok (refs + 1)

/-- `cat89_ref_dec`, with `drop_one`: the count after it, and whether it is zero. -/
def refDec (refs : Nat) : Nat × Bool :=
  let after := if refs = 0 then 0 else refs - 1
  (after, after == 0)

/-- `max_factor`. -/
def maxFactor (a : Nat) : Nat :=
  if a = 0 then ulongMax else ulongMax / a

/-- `cat89_size_mul`. -/
def sizeMul (a b : Nat) : Except Status Nat :=
  if maxFactor a < b then .error .nomem else .ok (a * b)

/-- `cat89_size_add`. -/
def sizeAdd (a b : Nat) : Except Status Nat :=
  if ulongMax - b < a then .error .nomem else .ok (a + b)

section

variable {σ Obj Mor : Type} (ops : CategoryOps σ Obj Mor) (s : σ)

/-- `cat89_dom`. -/
def dom (m : Mor) : Reply Obj :=
  if ops.ownsMor s m = false then some (.error .invalid) else ops.dom s m

/-- `cat89_cod`. -/
def cod (m : Mor) : Reply Obj :=
  if ops.ownsMor s m = false then some (.error .invalid) else ops.cod s m

/-- `cat89_identity`. -/
def identity (a : Obj) : Reply (Mor × σ) :=
  if ops.ownsObj s a = false then some (.error .invalid) else ops.identity s a

/-- `cat89_compose`, past the checks on its handles. -/
def composeOwned (g f : Mor) : Reply (Mor × σ) :=
  match ops.cod s f with
  | none => none
  | some (.error st) => some (.error st)
  | some (.ok codF) =>
    match ops.dom s g with
    | none => none
    | some (.error st) => some (.error st)
    | some (.ok domG) =>
      match ops.objSame s codF domG with
      | none => none
      | some false => some (.error .domain)
      | some true => ops.compose s g f

/-- `cat89_compose`. -/
def compose (g f : Mor) : Reply (Mor × σ) :=
  if ops.ownsMor s g = false then some (.error .invalid)
  else if ops.ownsMor s f = false then some (.error .invalid)
  else composeOwned ops s g f

/-- `cat89_obj_equal`. -/
def objEqual (eq : EqOps σ Obj Mor) (a b : Obj) : Reply Bool :=
  if ops.ownsObj s a = false then some (.error .invalid)
  else if ops.ownsObj s b = false then some (.error .invalid)
  else
    match eq.objEqual with
    | none => some (.error .notSupported)
    | some objEqual => objEqual s a b

/-- `cat89_mor_equal`. -/
def morEqual (eq : EqOps σ Obj Mor) (f g : Mor) : Reply Bool :=
  if ops.ownsMor s f = false then some (.error .invalid)
  else if ops.ownsMor s g = false then some (.error .invalid)
  else
    match eq.morEqual with
    | none => some (.error .notSupported)
    | some morEqual => morEqual s f g

variable {ops s}

theorem composeOwned_ok {g f : Mor} {r : Mor × σ} (h : composeOwned ops s g f = some (.ok r)) :
    ∃ codF domG, ops.cod s f = some (.ok codF) ∧ ops.dom s g = some (.ok domG) ∧
      ops.objSame s codF domG = some true ∧ ops.compose s g f = some (.ok r) := by
  rw [composeOwned] at h
  split at h
  next => cases h
  next => cases h
  next codF hcod =>
    split at h
    next => cases h
    next => cases h
    next domG hdom =>
      split at h
      next => cases h
      next => cases h
      next hsame => exact ⟨codF, domG, hcod, hdom, hsame, h⟩

end

variable {a b c refs : Nat}

theorem sizeMul_ok (h : sizeMul a b = .ok c) : c = a * b ∧ a * b ≤ ulongMax := by
  rw [sizeMul] at h
  split at h
  next => cases h
  next hle =>
    obtain rfl := Except.ok.inj h
    refine ⟨rfl, ?_⟩
    rw [maxFactor] at hle
    split at hle
    next ha => simp [ha]
    next ha =>
      exact (Nat.mul_le_mul_left a (not_lt.1 hle)).trans (Nat.mul_div_le _ _)

theorem sizeMul_of_le (h : a * b ≤ ulongMax) (hb : b ≤ ulongMax) : sizeMul a b = .ok (a * b) := by
  have hle : b ≤ maxFactor a := by
    rw [maxFactor]
    split
    next => exact hb
    next ha => rwa [Nat.le_div_iff_mul_le (Nat.pos_of_ne_zero ha), Nat.mul_comm]
  rw [sizeMul, if_neg (not_lt.2 hle)]

theorem sizeAdd_ok (h : sizeAdd a b = .ok c) : c = a + b := by
  rw [sizeAdd] at h
  split at h
  · cases h
  · exact (Except.ok.inj h).symm

theorem refInc_of_lt (h : refs < ulongMax) : refInc refs = .ok (refs + 1) :=
  if_neg h.ne

@[simp] theorem refDec_succ : refDec (refs + 1) = (refs, refs == 0) := by
  simp [refDec]

end Cat89

/-!
# libcat89: categories and what implements them

`Category` is a category as the kernel sees it: one type of objects and one of
morphisms, which know their ends.  `Refines` says that the operations of a backend
implement a category: each handle denotes a morphism, and identities and compositions
are those of the category.  The laws then hold of the handles, whatever the backend.
-/

namespace Cat89

/-- A category.  `comp g f` goes from the source of `f` to the target of `g`. -/
structure Category (Obj Mor : Type) where
  dom : Mor → Obj
  cod : Mor → Obj
  ident : Obj → Mor
  comp : (g f : Mor) → dom g = cod f → Mor
  dom_ident : ∀ a, dom (ident a) = a
  cod_ident : ∀ a, cod (ident a) = a
  dom_comp : ∀ g f h, dom (comp g f h) = dom f
  cod_comp : ∀ g f h, cod (comp g f h) = cod g
  ident_comp : ∀ f, comp (ident (cod f)) f (dom_ident _) = f
  comp_ident : ∀ f, comp f (ident (dom f)) (cod_ident _).symm = f
  assoc : ∀ h g f (hg : dom g = cod f) (hh : dom h = cod g),
    comp h (comp g f hg) (hh.trans (cod_comp g f hg).symm) =
      comp (comp h g hh) f ((dom_comp h g hh).trans hg)

/-- A functor: it keeps ends, identities and compositions. -/
structure CatFunctor {ObjC MorC ObjE MorE : Type} (C : Category ObjC MorC)
    (E : Category ObjE MorE) where
  obj : ObjC → ObjE
  mor : MorC → MorE
  dom_mor : ∀ u, E.dom (mor u) = obj (C.dom u)
  cod_mor : ∀ u, E.cod (mor u) = obj (C.cod u)
  mor_ident : ∀ a, mor (C.ident a) = E.ident (obj a)
  mor_comp : ∀ v u (h : C.dom v = C.cod u),
    mor (C.comp v u h) = E.comp (mor v) (mor u) (by rw [dom_mor, cod_mor, h])

section

variable {σ Mem Obj Mor O A : Type}

/-- The operations `ops`, under what the allocator may answer (`Allows`), implement the
category `K` in the states of `Good`. -/
structure Refines (ops : Mem → CategoryOps σ Obj Mor) (Allows : σ → Mem → Prop)
    (Good : σ → Prop) (K : Category O A) (denObj : σ → Obj → O → Prop)
    (den : σ → Mor → A → Prop) : Prop where
  owned : ∀ {s mem m}, Good s → ((ops mem).ownsMor s m = true ↔ ∃ a, den s m a)
  dom : ∀ {s mem m a}, Good s → den s m a →
    ∃ o, Cat89.dom (ops mem) s m = some (.ok o) ∧ denObj s o (K.dom a)
  cod : ∀ {s mem m a}, Good s → den s m a →
    ∃ o, Cat89.cod (ops mem) s m = some (.ok o) ∧ denObj s o (K.cod a)
  identity : ∀ {s mem o x m s'}, Good s → Allows s mem → denObj s o x →
    Cat89.identity (ops mem) s o = some (.ok (m, s')) →
    Good s' ∧ den s' m (K.ident x) ∧ ∀ p a, den s p a → den s' p a
  compose : ∀ {s mem g f b a m s'}, Good s → Allows s mem → den s g b → den s f a →
    Cat89.compose (ops mem) s g f = some (.ok (m, s')) →
    Good s' ∧ (∃ h : K.dom b = K.cod a, den s' m (K.comp b a h)) ∧
      ∀ p a, den s p a → den s' p a
  answers : ∀ {s mem g f b a}, Good s → den s g b → den s f a →
    Cat89.compose (ops mem) s g f ≠ none ∧
      (K.dom b ≠ K.cod a → Cat89.compose (ops mem) s g f = some (.error .domain))

/-- The laws of a category, of its handles: `Same s m n` says that `m` and `n` are the same
morphism.  They hold wherever the calls succeed. -/
structure Laws (ops : Mem → CategoryOps σ Obj Mor) (Allows : σ → Mem → Prop) (Good : σ → Prop)
    (Same : σ → Mor → Mor → Prop) : Prop where
  left_unit : ∀ {s s₁ s₂ mem mem₁ mem₂ f o i m}, Good s → Allows s mem₁ → Allows s₁ mem₂ →
    Cat89.cod (ops mem) s f = some (.ok o) →
    Cat89.identity (ops mem₁) s o = some (.ok (i, s₁)) →
    Cat89.compose (ops mem₂) s₁ i f = some (.ok (m, s₂)) → Same s₂ m f
  right_unit : ∀ {s s₁ s₂ mem mem₁ mem₂ f o i m}, Good s → Allows s mem₁ → Allows s₁ mem₂ →
    Cat89.dom (ops mem) s f = some (.ok o) →
    Cat89.identity (ops mem₁) s o = some (.ok (i, s₁)) →
    Cat89.compose (ops mem₂) s₁ f i = some (.ok (m, s₂)) → Same s₂ m f
  assoc : ∀ {s s₁ s₂ s₃ s₄ mem₁ mem₂ mem₃ mem₄ h g f gf hg l r}, Good s → Allows s mem₁ →
    Allows s₁ mem₂ → Allows s₂ mem₃ → Allows s₃ mem₄ →
    Cat89.compose (ops mem₁) s g f = some (.ok (gf, s₁)) →
    Cat89.compose (ops mem₂) s₁ h gf = some (.ok (l, s₂)) →
    Cat89.compose (ops mem₃) s₂ h g = some (.ok (hg, s₃)) →
    Cat89.compose (ops mem₄) s₃ hg f = some (.ok (r, s₄)) → Same s₄ l r

theorem owned_of_dom {ops : CategoryOps σ Obj Mor} {s : σ} {m : Mor} {o : Obj}
    (h : Cat89.dom ops s m = some (.ok o)) : ops.ownsMor s m = true := by
  rw [Cat89.dom] at h
  split at h
  next => cases h
  next hown => simpa using hown

theorem owned_of_cod {ops : CategoryOps σ Obj Mor} {s : σ} {m : Mor} {o : Obj}
    (h : Cat89.cod ops s m = some (.ok o)) : ops.ownsMor s m = true := by
  rw [Cat89.cod] at h
  split at h
  next => cases h
  next hown => simpa using hown

theorem owned_of_compose {ops : CategoryOps σ Obj Mor} {s : σ} {g f : Mor} {r : Mor × σ}
    (h : Cat89.compose ops s g f = some (.ok r)) :
    ops.ownsMor s g = true ∧ ops.ownsMor s f = true := by
  rw [Cat89.compose] at h
  split at h
  next => cases h
  next hg =>
    split at h
    next => cases h
    next hf => exact ⟨by simpa using hg, by simpa using hf⟩

namespace Refines

variable {ops : Mem → CategoryOps σ Obj Mor} {Allows : σ → Mem → Prop} {Good : σ → Prop}
  {K : Category O A} {denObj : σ → Obj → O → Prop} {den : σ → Mor → A → Prop}
  {Same : σ → Mor → Mor → Prop}

/-- A backend that implements a category is lawful, where handles of one morphism are the
same. -/
theorem laws (hr : Refines ops Allows Good K denObj den)
    (hsame : ∀ {s l r a}, Good s → den s l a → den s r a → Same s l r) :
    Laws ops Allows Good Same where
  left_unit {s s₁ s₂ mem mem₁ mem₂ f o i m} hs hmem₁ hmem₂ ho hi hc := by
    obtain ⟨a, hf⟩ := (hr.owned hs).1 (owned_of_cod ho)
    obtain ⟨o', ho', hden⟩ : ∃ o', Cat89.cod (ops mem) s f = some (.ok o') ∧
        denObj s o' (K.cod a) := hr.cod hs hf
    cases ho.symm.trans ho'
    obtain ⟨hs₁, hdi, keep₁⟩ := hr.identity hs hmem₁ hden hi
    obtain ⟨hs₂, ⟨hends, hm⟩, keep₂⟩ := hr.compose hs₁ hmem₂ hdi (keep₁ _ _ hf) hc
    rw [K.ident_comp] at hm
    exact hsame hs₂ hm (keep₂ _ _ (keep₁ _ _ hf))
  right_unit {s s₁ s₂ mem mem₁ mem₂ f o i m} hs hmem₁ hmem₂ ho hi hc := by
    obtain ⟨a, hf⟩ := (hr.owned hs).1 (owned_of_dom ho)
    obtain ⟨o', ho', hden⟩ : ∃ o', Cat89.dom (ops mem) s f = some (.ok o') ∧
        denObj s o' (K.dom a) := hr.dom hs hf
    cases ho.symm.trans ho'
    obtain ⟨hs₁, hdi, keep₁⟩ := hr.identity hs hmem₁ hden hi
    obtain ⟨hs₂, ⟨hends, hm⟩, keep₂⟩ := hr.compose hs₁ hmem₂ (keep₁ _ _ hf) hdi hc
    rw [K.comp_ident] at hm
    exact hsame hs₂ hm (keep₂ _ _ (keep₁ _ _ hf))
  assoc {s s₁ s₂ s₃ s₄ mem₁ mem₂ mem₃ mem₄ h g f gf hg l r} hs hmem₁ hmem₂ hmem₃ hmem₄
      hgf hl hhg hr' := by
    obtain ⟨hg₀, hf₀⟩ := owned_of_compose hgf
    obtain ⟨b, hb⟩ := (hr.owned hs).1 hg₀
    obtain ⟨a, ha⟩ := (hr.owned hs).1 hf₀
    obtain ⟨hs₁, ⟨hba, hm₁⟩, keep₁⟩ := hr.compose hs hmem₁ hb ha hgf
    obtain ⟨c, hc⟩ := (hr.owned hs₁).1 (owned_of_compose hl).1
    obtain ⟨hs₂, ⟨hcba, hm₂⟩, keep₂⟩ := hr.compose hs₁ hmem₂ hc hm₁ hl
    obtain ⟨hs₃, ⟨hcb, hm₃⟩, keep₃⟩ :=
      hr.compose hs₂ hmem₃ (keep₂ _ _ hc) (keep₂ _ _ (keep₁ _ _ hb)) hhg
    obtain ⟨hs₄, ⟨hcba', hm₄⟩, keep₄⟩ :=
      hr.compose hs₃ hmem₄ hm₃ (keep₃ _ _ (keep₂ _ _ (keep₁ _ _ ha))) hr'
    have hassoc : K.comp c (K.comp b a hba) hcba = K.comp (K.comp c b hcb) a hcba' :=
      K.assoc c b a hba hcb
    rw [← hassoc] at hm₄
    exact hsame hs₄ (keep₄ _ _ (keep₃ _ _ hm₂)) hm₄

end Refines

end

end Cat89
