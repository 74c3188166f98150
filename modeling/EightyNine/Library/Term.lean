import Mathlib.Algebra.BigOperators.Group.List.Basic
import Mathlib.Algebra.Order.BigOperators.Group.List
import Mathlib.Algebra.Order.Group.Nat
import Mathlib.Algebra.Ring.Nat

/-!
# First-order terms and substitutions

Terms over constructors `κ` of any arity and variables `ν`, with simultaneous
substitution.  Two substitutions agree on a term exactly when they agree on its
variables (`Term.subst_eq_iff`), and a variable inside a constructor is smaller
than the constructor under every substitution (`Term.size_lt_of_has`), which is
the occurs check.
-/

namespace Library

open List

variable {κ ν : Type}

inductive Term (κ ν : Type) where
  | var (x : ν)
  | con (c : κ) (args : List (Term κ ν))

namespace Term

@[induction_eliminator]
theorem induct {P : Term κ ν → Prop} (var : ∀ x, P (.var x))
    (con : ∀ c args, (∀ a ∈ args, P a) → P (.con c args)) : ∀ t, P t
  | .var x => var x
  | .con c args => con c args fun a ha =>
    have : sizeOf a < 1 + sizeOf c + sizeOf args := by
      have := sizeOf_lt_of_mem ha
      omega
    induct var con a

/-! ## Substitution -/

/-- Every variable replaced by its value. -/
def subst (σ : ν → Term κ ν) : Term κ ν → Term κ ν
  | .var x => σ x
  | .con c args => .con c (args.map fun a => a.subst σ)

@[simp] theorem subst_var (σ : ν → Term κ ν) (x : ν) : (var x).subst σ = σ x := by
  rw [subst]

@[simp] theorem subst_con (σ : ν → Term κ ν) (c : κ) (args : List (Term κ ν)) :
    (con c args).subst σ = con c (args.map fun a => a.subst σ) := by
  rw [subst]

theorem subst_id (t : Term κ ν) : t.subst var = t := by
  induction t with
  | var x => simp
  | con c args ih =>
    rw [subst_con, map_congr_left (g := fun a => a) (fun a ha => ih a ha), map_id']

theorem subst_subst (σ τ : ν → Term κ ν) (t : Term κ ν) :
    (t.subst σ).subst τ = t.subst fun x => (σ x).subst τ := by
  induction t with
  | var x => simp
  | con c args ih =>
    rw [subst_con, subst_con, subst_con, map_map]
    exact congrArg (con c) (map_congr_left fun a ha => ih a ha)

/-! ## Variables -/

/-- The variable occurs in the term. -/
inductive Has (x : ν) : Term κ ν → Prop
  | var : Has x (.var x)
  | con {c : κ} {args : List (Term κ ν)} {a : Term κ ν} (mem : a ∈ args) (has : Has x a) :
      Has x (.con c args)

variable {x : ν}

theorem has_var {y : ν} : Has (κ := κ) x (.var y) ↔ x = y := by
  constructor
  · intro h
    cases h
    rfl
  · rintro rfl
    exact .var

variable {c : κ} {args : List (Term κ ν)}

theorem has_con :
    Has x (.con c args) ↔ ∃ a ∈ args, Has x a := by
  constructor
  · intro h
    cases h with
    | con mem has => exact ⟨_, mem, has⟩
  · rintro ⟨a, mem, has⟩
    exact .con mem has

variable {σ : ν → Term κ ν} {t : Term κ ν}

/-- Substitutions agree on a term when they agree on its variables. -/
theorem subst_eq_iff {τ : ν → Term κ ν} :
    t.subst σ = t.subst τ ↔ ∀ x, t.Has x → σ x = τ x := by
  induction t with
  | var x =>
    rw [subst_var, subst_var]
    constructor
    · intro h y hy
      rw [has_var.1 hy]
      exact h
    · intro h
      exact h x .var
  | con c args ih =>
    rw [subst_con, subst_con, con.injEq, map_inj_left]
    constructor
    · rintro ⟨-, h⟩ x hx
      obtain ⟨a, ha, hax⟩ := has_con.1 hx
      exact (ih a ha).1 (h a ha) x hax
    · intro h
      exact ⟨rfl, fun a ha => (ih a ha).2 fun x hx => h x (.con ha hx)⟩

theorem has_subst :
    (t.subst σ).Has x ↔ ∃ y, t.Has y ∧ (σ y).Has x := by
  induction t with
  | var y =>
    rw [subst_var]
    constructor
    · intro h
      exact ⟨y, .var, h⟩
    · rintro ⟨z, hz, h⟩
      rw [← has_var.1 hz]
      exact h
  | con c args ih =>
    rw [subst_con, has_con]
    constructor
    · rintro ⟨b, hb, hx⟩
      obtain ⟨a, ha, rfl⟩ := mem_map.1 hb
      obtain ⟨y, hy, hyx⟩ := (ih a ha).1 hx
      exact ⟨y, .con ha hy, hyx⟩
    · rintro ⟨y, hy, hyx⟩
      obtain ⟨a, ha, hay⟩ := has_con.1 hy
      exact ⟨_, mem_map.2 ⟨a, ha, rfl⟩, (ih a ha).2 ⟨y, hay, hyx⟩⟩

/-! ## Leaves -/

/-- The variables from left to right, each as often as it occurs. -/
def leaves : Term κ ν → List ν
  | .var x => [x]
  | .con _ args => args.flatMap fun a => a.leaves

theorem leaves_con (c : κ) (args : List (Term κ ν)) :
    (con c args).leaves = args.flatMap leaves := by
  rw [leaves]

theorem mem_leaves : x ∈ t.leaves ↔ t.Has x := by
  induction t with
  | var y => rw [leaves, mem_singleton, has_var]
  | con c args ih =>
    rw [leaves_con, mem_flatMap, has_con]
    exact exists_congr fun a => and_congr_right fun ha => ih a ha

/-! ## Size -/

/-- The number of nodes. -/
def size : Term κ ν → Nat
  | .var _ => 1
  | .con _ args => 1 + (args.map fun a => a.size).sum

theorem size_con (c : κ) (args : List (Term κ ν)) :
    (con c args).size = 1 + (args.map size).sum := by
  rw [size]

theorem size_lt_con {a : Term κ ν} (ha : a ∈ args) :
    a.size < (con c args).size := by
  have hle : a.size ≤ (args.map size).sum :=
    single_le_sum (fun n _ => Nat.zero_le n) _ (mem_map_of_mem ha)
  rw [size_con]
  omega

theorem size_le_of_has (h : t.Has x) :
    (σ x).size ≤ (t.subst σ).size := by
  induction h with
  | var => rw [subst_var]
  | @con c args a mem _ ih =>
    have hlt : (a.subst σ).size < ((con c args).subst σ).size := by
      rw [subst_con]
      exact size_lt_con (mem_map.2 ⟨a, mem, rfl⟩)
    omega

/-- A term that contains a variable properly is larger than the variable. -/
theorem size_lt_of_has (h : (con c args).Has x) : (σ x).size < ((con c args).subst σ).size := by
  obtain ⟨a, ha, hx⟩ := has_con.1 h
  have hlt : (a.subst σ).size < ((con c args).subst σ).size := by
    rw [subst_con]
    exact size_lt_con (mem_map.2 ⟨a, ha, rfl⟩)
  have hle := size_le_of_has (σ := σ) hx
  omega

end Term

end Library
