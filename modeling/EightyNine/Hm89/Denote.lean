import EightyNine.Hm89.Types
import Mathlib.Data.Fintype.EquivFin
import Mathlib.Logic.Relation

/-!
# The terms of a store

In an acyclic store every pointer stands for a finite term over the unbound
variables of the store (`Store.denote`).  A solution of the store gives every
pointer a term so that links and constructors are respected (`Solves`).  The
solutions of an acyclic store are the instances of its terms
(`solves_subst`), and they say everything that unification promises: binding a
variable cuts the solutions down to those that agree on the variable and the
type it is bound to.
-/

namespace Hm89

open Library

/-- Types as terms, with unbound variables named by their nodes. -/
abbrev Ty := Term (List UInt8) Ref

variable {s : Store} {r : Ref}

/-! ## Acyclic stores -/

/-- The pointers a node holds. -/
def Store.Edge (s : Store) (r q : Ref) : Prop :=
  match s.node? r with
  | some (.var _ (some link)) => q = link
  | some (.con _ args) => q ∈ args
  | _ => False

/-- Every pointer leads into the arena, and no node is reached from itself. -/
structure Store.Acyclic (s : Store) : Prop where
  closed : ∀ r q, s.Edge r q → q < s.nodes.length
  no_cycle : ∀ r, ¬ Relation.TransGen s.Edge r r

/-- An unbound variable. -/
def Store.Unbound (s : Store) (r : Ref) : Prop := ∃ id, s.node? r = some (.var id none)

theorem Store.lt_of_node {n : TypeNode} (h : s.node? r = some n) : r < s.nodes.length :=
  (List.getElem?_eq_some_iff.1 h).1

theorem Store.node_of_lt (h : r < s.nodes.length) : ∃ n, s.node? r = some n :=
  ⟨_, List.getElem?_eq_getElem h⟩

theorem Store.edge_lt {q : Ref} (h : s.Edge r q) : r < s.nodes.length := by
  obtain hn | ⟨n, hn⟩ := Option.eq_none_or_eq_some (s.node? r)
  · rw [Store.Edge, hn] at h
    exact h.elim
  · exact Store.lt_of_node hn

/-- What a pointer stands for. -/
inductive Denotes (s : Store) : Ref → Ty → Prop
  | unbound {r : Ref} {id : Nat} (node : s.node? r = some (.var id none)) : Denotes s r (.var r)
  | link {r l : Ref} {id : Nat} {t : Ty} (node : s.node? r = some (.var id (some l)))
      (target : Denotes s l t) : Denotes s r t
  | con {r : Ref} {name : List UInt8} {args : List Ref} {f : Ref → Ty}
      (node : s.node? r = some (.con name args)) (targets : ∀ a ∈ args, Denotes s a (f a)) :
      Denotes s r (.con name (args.map f))

theorem Denotes.unique {t t' : Ty} (h : Denotes s r t) (h' : Denotes s r t') : t = t' := by
  induction h generalizing t' with
  | unbound node =>
    cases h' with
    | unbound node' => rfl
    | link node' _ | con node' _ => rw [node] at node'; cases node'
  | link node _ ih =>
    cases h' with
    | unbound node' | con node' _ => rw [node] at node'; cases node'
    | link node' target =>
      rw [node] at node'
      cases node'
      exact ih target
  | con node _ ih =>
    cases h' with
    | unbound node' | link node' _ => rw [node] at node'; cases node'
    | con node' targets =>
      rw [node] at node'
      cases node'
      exact congrArg (Term.con _) (List.map_congr_left fun a ha => ih a ha (targets a ha))

theorem Denotes.lt {t : Ty} (h : Denotes s r t) : r < s.nodes.length := by
  cases h with
  | unbound node | link node _ | con node _ => exact Store.lt_of_node node

/-- The nodes below a node that stands for a term stand for terms. -/
theorem Denotes.edge {t : Ty} {q : Ref} (h : Denotes s r t) (e : s.Edge r q) :
    ∃ t', Denotes s q t' := by
  cases h with
  | unbound node =>
    rw [Store.Edge, node] at e
    exact e.elim
  | link node target =>
    rw [Store.Edge, node] at e
    rw [show q = _ from e]
    exact ⟨_, target⟩
  | con node targets =>
    rw [Store.Edge, node] at e
    exact ⟨_, targets q e⟩

/-- The nodes below a node that stands for a term are well-founded. -/
theorem Denotes.acc {t : Ty} (h : Denotes s r t) : Acc (fun q r => s.Edge r q) r := by
  induction h with
  | unbound node =>
    refine ⟨_, fun q e => ?_⟩
    rw [Store.Edge, node] at e
    exact e.elim
  | link node _ ih =>
    refine ⟨_, fun q e => ?_⟩
    rw [Store.Edge, node] at e
    rw [show q = _ from e]
    exact ih
  | con node _ ih =>
    refine ⟨_, fun q e => ?_⟩
    rw [Store.Edge, node] at e
    exact ih q e

theorem acyclic_of_denotes (h : ∀ r, r < s.nodes.length → ∃ t, Denotes s r t) : s.Acyclic := by
  constructor
  · intro r q e
    obtain ⟨t, ht⟩ := h r (Store.edge_lt e)
    obtain ⟨t', ht'⟩ := ht.edge e
    exact ht'.lt
  · intro r hr
    have hlt : r < s.nodes.length := by
      obtain ⟨q, e, -⟩ := Relation.TransGen.head'_iff.1 hr
      exact Store.edge_lt e
    obtain ⟨t, ht⟩ := h r hlt
    have hacc := ht.acc.transGen
    induction hacc with
    | intro x _ ih => exact ih x (Relation.transGen_swap.1 hr) hr hlt ht

open Classical in
/-- The term a pointer stands for. -/
noncomputable def Store.denote (s : Store) (r : Ref) : Ty :=
  if h : ∃ t, Denotes s r t then h.choose else .var r

theorem Denotes.denote_eq {t : Ty} (h : Denotes s r t) : s.denote r = t := by
  have hex : ∃ t, Denotes s r t := ⟨t, h⟩
  rw [Store.denote, dif_pos hex]
  exact hex.choose_spec.unique h

theorem denotes_denote (h : ∃ t, Denotes s r t) : Denotes s r (s.denote r) := by
  obtain ⟨t, ht⟩ := h
  rw [ht.denote_eq]
  exact ht

theorem Store.Acyclic.denotes (h : s.Acyclic) (hr : r < s.nodes.length) :
    Denotes s r (s.denote r) := by
  let below (q r : Fin s.nodes.length) : Prop := Relation.TransGen s.Edge r q
  have : IsTrans _ below := ⟨fun _ _ _ h₁ h₂ => h₂.trans h₁⟩
  have : Std.Irrefl below := ⟨fun r => h.no_cycle r⟩
  have hwf : WellFounded below := Finite.wellFounded_of_trans_of_irrefl below
  suffices hall : ∀ r : Fin s.nodes.length, ∃ t, Denotes s r t from
    denotes_denote (hall ⟨r, hr⟩)
  intro r
  induction r using hwf.induction with
  | _ r ih =>
    have hchild : ∀ q, s.Edge r q → Denotes s q (s.denote q) := fun q e =>
      denotes_denote (ih ⟨q, h.closed _ q e⟩ (Relation.TransGen.single e))
    obtain ⟨n, hn⟩ := Store.node_of_lt r.isLt
    rcases n with ⟨id, _ | l⟩ | ⟨name, args⟩
    · exact ⟨_, .unbound hn⟩
    · exact ⟨_, .link hn (hchild l (by rw [Store.Edge, hn]))⟩
    · exact ⟨_, .con hn fun a ha => hchild a (by rw [Store.Edge, hn]; exact ha)⟩

theorem denote_unbound (h : s.Unbound r) : s.denote r = .var r := by
  obtain ⟨id, hn⟩ := h
  exact (Denotes.unbound hn).denote_eq

theorem Store.Acyclic.denote_con (h : s.Acyclic) {name : List UInt8} {args : List Ref}
    (hn : s.node? r = some (.con name args)) :
    s.denote r = .con name (args.map s.denote) := by
  have hargs : ∀ a ∈ args, a < s.nodes.length := fun a ha =>
    h.closed r a (by rw [Store.Edge, hn]; exact ha)
  exact (Denotes.con hn fun a ha => h.denotes (hargs a ha)).denote_eq

theorem Store.Acyclic.args_lt (h : s.Acyclic) {name : List UInt8} {args : List Ref}
    (hn : s.node? r = some (.con name args)) : ∀ a ∈ args, a < s.nodes.length := fun a ha =>
  h.closed r a (by rw [Store.Edge, hn]; exact ha)

theorem Denotes.unbound_of_has {t : Ty} {x : Ref} (h : Denotes s r t) (hx : t.Has x) :
    s.Unbound x := by
  induction h with
  | unbound node =>
    rw [Term.has_var.1 hx]
    exact ⟨_, node⟩
  | link _ _ ih => exact ih hx
  | con _ _ ih =>
    obtain ⟨t, ht, hx⟩ := Term.has_con.1 hx
    obtain ⟨a, ha, rfl⟩ := List.mem_map.1 ht
    exact ih a ha hx

/-! ## Solutions -/

/-- The terms `v` respect the links and the constructors of the store. -/
def Solves (s : Store) (v : Ref → Ty) : Prop :=
  ∀ r, r < s.nodes.length → v r = (s.denote r).subst v

theorem Store.Acyclic.solves_subst (h : s.Acyclic) (σ : Ref → Ty) :
    Solves s fun r => (s.denote r).subst σ := by
  intro r hr
  refine Term.subst_eq_iff.2 fun x hx => ?_
  rw [denote_unbound ((h.denotes hr).unbound_of_has hx), Term.subst_var]

theorem Store.Acyclic.solves_denote (h : s.Acyclic) : Solves s s.denote := by
  have hsolves := h.solves_subst Term.var
  intro r hr
  have hr' := hsolves r hr
  simp only [Term.subst_id] at hr'
  exact hr'

end Hm89
