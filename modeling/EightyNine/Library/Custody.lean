import EightyNine.Library.Blocks
import Mathlib.Algebra.Order.Group.Multiset
import Mathlib.Data.Multiset.Filter
import Mathlib.Tactic.Abel

/-!
# What a program keeps

Programs that allocate, count references and call a caller's functions.  An error of the
program (a block freed twice, a count of a freed object touched, a reference given up that
is not there) has no result.  Of a part of a program one says what it needs to own and what
it owns when it returns; what else the program owns, and what was there before it, is
left alone (`Triple`).
-/

namespace Library

open Function

/-- The blocks of memory, the count in the header of each, the counts of references to what the
caller owns, and how many of its functions were called. -/
structure Estate (ρ : Type) where
  blocks : Blocks
  header : Nat → Nat
  held : ρ → Nat
  calls : Nat

/-- What can be owned: a block, a block that is an object with its count of references, and
a reference to what the caller owns. -/
inductive Token (ρ : Type) where
  | block (b : Nat)
  | object (b refs : Nat)
  | ref (r : ρ)
deriving DecidableEq

/-- A program: without a result when it makes an error. -/
abbrev Prog (ρ α : Type) : Type := StateT (Estate ρ) Option α

namespace Prog

variable {ρ : Type}

/-- An error. -/
def fault {α : Type} : Prog ρ α := fun _ => none

def alloc (grants : Nat → Bool) : Prog ρ (Option Nat) := fun s =>
  some ((s.blocks.alloc grants).1, { s with blocks := (s.blocks.alloc grants).2 })

def free (p : Option Nat) : Prog ρ Unit := fun s =>
  (s.blocks.free p).map fun h => ((), { s with blocks := h })

def freeAll : List (Option Nat) → Prog ρ Unit
  | [] => pure ()
  | p :: ps => do
    free p
    freeAll ps

/-- The count of an object. -/
def refs (b : Nat) : Prog ρ Nat := fun s =>
  if b ∈ s.blocks.live then some (s.header b, s) else none

def setRefs (b n : Nat) : Prog ρ Unit := fun s =>
  if b ∈ s.blocks.live then some ((), { s with header := update s.header b n }) else none

/-- The number of the next call of the caller's functions. -/
def tick : Prog ρ Nat := fun s => some (s.calls, { s with calls := s.calls + 1 })

variable [DecidableEq ρ]

/-- How many references there are. -/
def held (r : ρ) : Prog ρ Nat := fun s => some (s.held r, s)

def acquire (r : ρ) : Prog ρ Unit := fun s =>
  some ((), { s with held := update s.held r (s.held r + 1) })

def drop (r : ρ) : Prog ρ Unit := fun s =>
  if s.held r = 0 then none
  else some ((), { s with held := update s.held r (s.held r - 1) })

end Prog

namespace Prog

variable {ρ ε α β σ : Type}

/-- `m`, and where it fails what has to be undone. -/
def attempt (m : Prog ρ (Except ε α)) (undo : Prog ρ Unit) (k : α → Prog ρ (Except ε β)) :
    Prog ρ (Except ε β) := do
  let r ← m
  match r with
  | .error e => do
    undo
    pure (.error e)
  | .ok a => k a

/-- What `f` finds first. -/
def firstOf (f : α → Prog ρ (Except ε (Option β))) : List α → Prog ρ (Except ε (Option β))
  | [] => pure (.ok none)
  | a :: as =>
    attempt (f a) (pure ()) fun found =>
      match found with
      | some b => pure (.ok (some b))
      | none => firstOf f as

/-- `f` on each in turn. -/
def accumulate (f : σ → α → Prog ρ (Except ε σ)) : List α → σ → Prog ρ (Except ε σ)
  | [], acc => pure (.ok acc)
  | a :: as, acc => attempt (f acc a) (pure ()) fun acc => accumulate f as acc

end Prog

namespace Token

variable {ρ : Type}

def block? : Token ρ → Option Nat
  | .block b => some b
  | .object b _ => some b
  | .ref _ => none

end Token

variable {ρ : Type} [DecidableEq ρ] {α β : Type}

/-- Since `s₀` the program has come by `own` and by nothing else: it has freed each other block it
was handed exactly once and given up all other references.  The caller had references to
what is vital all the while. -/
structure Holds (grants : Nat → Bool) (vital : ρ → Prop) (s₀ s : Estate ρ)
    (own : Multiset (Token ρ)) : Prop where
  owes : ∃ bs : List Nat, (bs : Multiset Nat) = own.filterMap Token.block? ∧
    Owes grants s₀.blocks s.blocks bs
  held : ∀ r, s.held r = s₀.held r + own.count (.ref r)
  header : ∀ b n, .object b n ∈ own → s.header b = n
  vital : ∀ r, vital r → 0 < s₀.held r

/-- With `pre` in its hands the program has a result, and `post` tells what it is and what is in its
hands then. -/
def Triple (grants : Nat → Bool) (vital : ρ → Prop) (pre : Multiset (Token ρ)) (m : Prog ρ α)
    (post : α → Multiset (Token ρ) → Prop) : Prop :=
  ∀ s₀ s frame, Holds grants vital s₀ s (pre + frame) →
    ∃ a s' own, m s = some (a, s') ∧ post a own ∧ Holds grants vital s₀ s' (own + frame)

variable {grants : Nat → Bool} {vital : ρ → Prop} {s₀ s s' : Estate ρ}
  {pre pre' own own' frame rest : Multiset (Token ρ)} {post post' : α → Multiset (Token ρ) → Prop}
  {b n : Nat} {t : Token ρ}

namespace Holds

open Multiset

theorem start (hv : ∀ r, vital r → 0 < s.held r) : Holds grants vital s s 0 where
  owes := ⟨[], rfl, .refl⟩
  held r := by rw [count_zero, Nat.add_zero]
  header b n h := absurd h (notMem_zero _)
  vital := hv

theorem pull (hs : Holds grants vital s₀ s ({t} + frame)) (ht : t.block? = some b) :
    ∃ bs : List Nat, (bs : Multiset Nat) = frame.filterMap Token.block? ∧
      Owes grants s₀.blocks s.blocks (b :: bs) := by
  obtain ⟨bs, hbs, ho⟩ := hs.owes
  obtain ⟨bs', hbs'⟩ := Quot.exists_rep (frame.filterMap Token.block?)
  have hcoe : (bs' : Multiset Nat) = frame.filterMap Token.block? := hbs'
  refine ⟨bs', hcoe, ho.perm ?_⟩
  rw [← coe_eq_coe, hbs, singleton_add, filterMap_cons_some _ _ _ ht,
    ← cons_coe, hcoe]

theorem live (hs : Holds grants vital s₀ s ({t} + frame)) (ht : t.block? = some b) :
    b ∈ s.blocks.live := by
  obtain ⟨bs, -, ho⟩ := hs.pull ht
  exact ho.live.mem_iff.2 List.mem_cons_self

theorem other (hs : Holds grants vital s₀ s ({t} + frame)) (ht : t.block? = some b) {t' : Token ρ}
    (ht' : t' ∈ frame) : t'.block? ≠ some b := by
  obtain ⟨bs, hbs, ho⟩ := hs.pull ht
  obtain ⟨freed, -, hall⟩ := ho.freed
  have hnodup : (b :: bs).Nodup :=
    ((hall.nodup_iff.2 granted_nodup).sublist (List.sublist_append_right freed (b :: bs)))
  intro hb
  refine (List.nodup_cons.1 hnodup).1 ?_
  have hmem : b ∈ frame.filterMap Token.block? := (mem_filterMap _ _).2 ⟨t', ht', hb⟩
  rwa [← hbs, mem_coe] at hmem

/-- What a part of the program has come by that only deals with blocks. -/
theorem more (hs : Holds grants vital s₀ s own) {h : Blocks} {bs : List Nat}
    (ho : Owes grants s.blocks h bs) :
    Holds grants vital s₀ { s with blocks := h } (((bs.map Token.block : List (Token ρ)) : Multiset (Token ρ)) + own) where
  owes := by
    obtain ⟨bs₀, hbs₀, ho₀⟩ := hs.owes
    refine ⟨bs ++ bs₀, ?_, ho₀.trans ho⟩
    rw [← coe_add, hbs₀]
    clear ho
    induction bs with
    | nil => rw [List.map_nil, coe_nil, coe_nil, zero_add, zero_add]
    | cons b bs ih =>
      have hblock : (Token.block b : Token ρ).block? = some b := rfl
      rw [List.map_cons, ← cons_coe, ← cons_coe, cons_add,
        cons_add, filterMap_cons_some _ _ _ hblock, ih]
  held r := by
    rw [count_add, count_eq_zero.2 (by simp), Nat.zero_add]
    exact hs.held r
  header b n hmem := by
    rcases mem_add.1 hmem with hmem | hmem
    · simp at hmem
    · exact hs.header b n hmem
  vital := hs.vital

theorem forget (hs : Holds grants vital s₀ s ({.object b n} + frame)) :
    Holds grants vital s₀ s ({.block b} + frame) where
  owes := by
    obtain ⟨bs, hbs, ho⟩ := hs.owes
    have hobject : (Token.object b n : Token ρ).block? = some b := rfl
    have hblock : (Token.block b : Token ρ).block? = some b := rfl
    refine ⟨bs, ?_, ho⟩
    rw [singleton_add, filterMap_cons_some _ _ _ hobject] at hbs
    rw [singleton_add, filterMap_cons_some _ _ _ hblock, hbs]
  held r := by
    have := hs.held r
    rw [singleton_add, count_cons_of_ne (by simp)] at this
    rw [singleton_add, count_cons_of_ne (by simp), this]
  header b' n' hmem := by
    rw [singleton_add, mem_cons] at hmem
    rcases hmem with h | hmem
    · cases h
    · exact hs.header b' n' (mem_add.2 (.inr hmem))
  vital := hs.vital

end Holds

namespace Triple

open Multiset

/-! ## Rules -/

variable {a : α}

theorem done (h : post a pre) : Triple grants vital pre (pure a) post :=
  fun _ s _ hs => ⟨a, s, pre, rfl, h, hs⟩

variable {m : Prog ρ α}

/-- First `m` with what it needs, then the rest. -/
theorem step {k : α → Prog ρ β} {post' : β → Multiset (Token ρ) → Prop}
    (h : Triple grants vital pre m post) (hpre : own = pre + rest)
    (hk : ∀ a o, post a o → Triple grants vital (o + rest) (k a) post') :
    Triple grants vital own (m >>= k) post' := by
  intro s₀ s frame hs
  rw [hpre, add_assoc] at hs
  obtain ⟨a, s₁, o, hm, hpost, hs₁⟩ := h s₀ s _ hs
  rw [← add_assoc] at hs₁
  obtain ⟨c, s₂, o₂, hrun, hpost₂, hs₂⟩ := hk a o hpost s₀ s₁ frame hs₁
  refine ⟨c, s₂, o₂, ?_, hpost₂, hs₂⟩
  have hbind : (m >>= k) s = (m s).bind fun p => k p.1 p.2 := rfl
  rw [hbind, hm]
  exact hrun

theorem framing (rest : Multiset (Token ρ)) {k : α → Prog ρ β}
    {post' : β → Multiset (Token ρ) → Prop} (h : Triple grants vital pre m post)
    (hpre : own = pre + rest)
    (hk : ∀ a o, post a o → Triple grants vital (o + rest) (k a) post') :
    Triple grants vital own (m >>= k) post' :=
  h.step hpre hk

/-- `m` needs all that is owned. -/
theorem whole (h : Triple grants vital pre m post) (hown : own = pre) :
    Triple grants vital own m post :=
  hown ▸ h

/-- `m` leaves what there is alone. -/
theorem pass {k : α → Prog ρ β} {post' : β → Multiset (Token ρ) → Prop}
    (h : Triple grants vital 0 m fun _ o => o = 0)
    (hk : ∀ a, Triple grants vital own (k a) post') :
    Triple grants vital own (m >>= k) post' := by
  refine h.step (zero_add own).symm ?_
  rintro a _ rfl
  rw [zero_add]
  exact hk a

theorem conseq (h : Triple grants vital pre m post)
    (hpost : ∀ a o, post a o → post' a o) : Triple grants vital pre m post' := by
  intro s₀ s frame hs
  obtain ⟨a, s', o, hm, hq, hs'⟩ := h s₀ s frame hs
  exact ⟨a, s', o, hm, hpost a o hq, hs'⟩

theorem forget (h : Triple grants vital ({.block b} + rest) m post) :
    Triple grants vital ({.object b n} + rest) m post := by
  intro s₀ s frame hs
  rw [add_assoc] at hs
  exact h s₀ s frame (by rw [add_assoc]; exact hs.forget)

theorem last (h : Triple grants vital pre m post) (hpre : own = pre + rest)
    (hpost : ∀ a o, post a o → post' a (o + rest)) : Triple grants vital own m post' := by
  intro s₀ s frame hs
  rw [hpre, add_assoc] at hs
  obtain ⟨a, s', o, hm, hq, hs'⟩ := h s₀ s _ hs
  exact ⟨a, s', o + rest, hm, hpost a o hq, by rwa [add_assoc]⟩

theorem run (h : Triple grants vital 0 m post)
    (hv : ∀ r, vital r → 0 < s.held r) :
    ∃ a s' o, m s = some (a, s') ∧ post a o ∧ Holds grants vital s s' o := by
  obtain ⟨a, s', o, hm, hq, hs'⟩ := h s s 0 (by rw [add_zero]; exact .start hv)
  exact ⟨a, s', o, hm, hq, by rwa [add_zero] at hs'⟩

/-! ## Blocks -/

/-- The token of a pointer that may be `NULL`. -/
def ofPtr (p : Option Nat) : Multiset (Token ρ) :=
  match p with
  | none => 0
  | some b => {.block b}

theorem alloc : Triple (ρ := ρ) grants vital 0 (Prog.alloc grants) fun p o => o = ofPtr p := by
  intro s₀ s frame hs
  rw [zero_add] at hs
  obtain ⟨bs, hbs, ho⟩ := hs.owes
  cases halloc : s.blocks.alloc grants with
  | mk p h =>
    refine ⟨p, { s with blocks := h }, ofPtr p, by rw [Prog.alloc, halloc], rfl, ?_⟩
    cases p with
    | none =>
      obtain ⟨ho', -, -⟩ := ho.alloc_none halloc
      rw [ofPtr, zero_add]
      exact ⟨⟨bs, hbs, ho'⟩, hs.held, hs.header, hs.vital⟩
    | some b =>
      obtain ⟨ho', -, -⟩ := ho.alloc_some halloc
      refine ⟨⟨b :: bs, ?_, ho'⟩, fun r => ?_, fun b' n hmem => ?_, hs.vital⟩
      · have hblock : (Token.block b : Token ρ).block? = some b := rfl
        rw [ofPtr, singleton_add, filterMap_cons_some _ _ _ hblock,
          ← cons_coe, hbs]
      · rw [ofPtr, singleton_add, count_cons_of_ne (by simp)]
        exact hs.held r
      · rw [ofPtr, singleton_add, mem_cons] at hmem
        rcases hmem with h | hmem
        · cases h
        · exact hs.header b' n hmem

theorem freeToken (ht : t.block? = some b) :
    Triple grants vital {t} (Prog.free (some b)) fun _ o => o = 0 := by
  intro s₀ s frame hs
  obtain ⟨bs, hbs, ho⟩ := hs.pull ht
  obtain ⟨h', hfree, ho', -⟩ := ho.free
  refine ⟨(), { s with blocks := h' }, 0, by rw [Prog.free, hfree]; rfl, rfl, ?_⟩
  rw [zero_add]
  refine ⟨⟨bs, hbs, ho'⟩, fun r => ?_, fun b' n hmem => ?_, hs.vital⟩
  · have hne : .ref r ≠ t := by
      rintro rfl
      cases ht
    have := hs.held r
    rwa [singleton_add, count_cons_of_ne hne] at this
  · exact hs.header b' n (mem_add.2 (.inr hmem))

variable {p : Option Nat}

theorem free :
    Triple (ρ := ρ) grants vital (ofPtr p) (Prog.free p) fun _ o => o = 0 := by
  cases p with
  | none => exact fun s₀ s frame hs => ⟨(), s, 0, rfl, rfl, hs⟩
  | some b => exact freeToken rfl

/-- The tokens of several pointers. -/
def ofPtrs (ps : List (Option Nat)) : Multiset (Token ρ) := (ps.map ofPtr).sum

variable {ps : List (Option Nat)}

omit [DecidableEq ρ] in
theorem ofPtrs_cons :
    (ofPtrs (p :: ps) : Multiset (Token ρ)) = ofPtr p + ofPtrs ps := by
  rw [ofPtrs, List.map_cons, List.sum_cons, ofPtrs]

omit [DecidableEq ρ] in
theorem ofPtrs_append {qs : List (Option Nat)} :
    (ofPtrs (ps ++ qs) : Multiset (Token ρ)) = ofPtrs ps + ofPtrs qs := by
  rw [ofPtrs, List.map_append, List.sum_append, ofPtrs, ofPtrs]

theorem freeAll :
    Triple (ρ := ρ) grants vital (ofPtrs ps) (Prog.freeAll ps) fun _ o => o = 0 := by
  induction ps with
  | nil => exact done rfl
  | cons p ps ih =>
    refine free.step ofPtrs_cons ?_
    rintro _ _ rfl
    rw [zero_add]
    exact ih

/-! ## Counts -/

theorem refs : Triple (ρ := ρ) grants vital {.object b n} (Prog.refs b)
    fun c o => c = n ∧ o = {.object b n} := by
  intro s₀ s frame hs
  refine ⟨s.header b, s, _, if_pos (hs.live rfl), ⟨?_, rfl⟩, hs⟩
  exact hs.header b n (mem_add.2 (.inl (mem_singleton_self _)))

theorem setRefs (ht : t.block? = some b) :
    Triple grants vital {t} (Prog.setRefs b n) fun _ o => o = {.object b n} := by
  intro s₀ s frame hs
  refine ⟨(), _, _, if_pos (hs.live ht), rfl, ?_⟩
  obtain ⟨bs, hbs, ho⟩ := hs.pull ht
  refine ⟨⟨b :: bs, ?_, ho⟩, fun r => ?_, fun b' m hmem => ?_, hs.vital⟩
  · have hobject : (Token.object b n : Token ρ).block? = some b := rfl
    rw [singleton_add, filterMap_cons_some _ _ _ hobject, ← cons_coe,
      hbs]
  · have hne : .ref r ≠ t := by
      rintro rfl
      cases ht
    have := hs.held r
    rw [singleton_add, count_cons_of_ne hne] at this
    rw [singleton_add, count_cons_of_ne (by simp)]
    exact this
  · rw [singleton_add, mem_cons] at hmem
    rcases hmem with h | hmem
    · cases h
      exact update_self _ _ _
    · have hne : b' ≠ b := by
        rintro rfl
        exact hs.other ht hmem rfl
      have := hs.header b' m (mem_add.2 (.inr hmem))
      rwa [← update_of_ne hne n s.header] at this

theorem tick : Triple (ρ := ρ) grants vital 0 Prog.tick fun _ o => o = 0 :=
  fun _ s _ hs => ⟨s.calls, { s with calls := s.calls + 1 }, 0, rfl, rfl,
    hs.owes, hs.held, hs.header, hs.vital⟩

/-! ## References -/

variable {r : ρ}

theorem held : Triple grants vital own (Prog.held r) fun c o => o = own ∧
    (.ref r ∈ own → 0 < c ∧ (vital r → 1 < c)) := by
  intro s₀ s frame hs
  refine ⟨s.held r, s, own, rfl, ⟨rfl, fun hmem => ?_⟩, hs⟩
  have hcount := hs.held r
  have hpos : 0 < (own + frame).count (.ref r) :=
    count_pos.2 (mem_add.2 (.inl hmem))
  refine ⟨by omega, fun hv => ?_⟩
  have := hs.vital r hv
  omega

theorem acquire : Triple grants vital 0 (Prog.acquire r) fun _ o => o = {.ref r} := by
  intro s₀ s frame hs
  rw [zero_add] at hs
  refine ⟨(), _, _, rfl, rfl, ?_⟩
  refine ⟨?_, fun r' => ?_, fun b n hmem => ?_, hs.vital⟩
  · rw [singleton_add, filterMap_cons_none _ _ rfl]
    exact hs.owes
  · have := hs.held r'
    rw [singleton_add]
    by_cases hr : r' = r
    · subst hr
      rw [count_cons_self, ← Nat.add_assoc, ← this]
      exact update_self _ _ _
    · rw [count_cons_of_ne (by simpa using hr), ← this]
      exact update_of_ne hr _ _
  · rw [singleton_add, mem_cons] at hmem
    rcases hmem with h | hmem
    · cases h
    · exact hs.header b n hmem

theorem drop : Triple grants vital {.ref r} (Prog.drop r) fun _ o => o = 0 := by
  intro s₀ s frame hs
  have hcount : s.held r = s₀.held r + (frame.count (.ref r) + 1) := by
    have := hs.held r
    rwa [singleton_add, count_cons_self] at this
  refine ⟨(), _, 0, if_neg (by omega), rfl, ?_⟩
  rw [zero_add]
  refine ⟨?_, fun r' => ?_, fun b n hmem => ?_, hs.vital⟩
  · have := hs.owes
    rwa [singleton_add, filterMap_cons_none _ _ rfl] at this
  · by_cases hr : r' = r
    · subst hr
      rw [show s.held r' - 1 = s₀.held r' + frame.count (.ref r') by omega]
      exact update_self _ _ _
    · have := hs.held r'
      rw [singleton_add, count_cons_of_ne (by simpa using hr)] at this
      rw [← this]
      exact update_of_ne hr _ _
  · exact hs.header b n (mem_add.2 (.inr hmem))

/-! ## Failures -/

variable {ε σ : Type}

/-- What is owned where a call succeeds, and nothing where it fails. -/
def made (own : α → Multiset (Token ρ)) (r : Except ε α) : Multiset (Token ρ) :=
  match r with
  | .error _ => 0
  | .ok a => own a

variable {k : α → Prog ρ (Except ε β)} {undo : Prog ρ Unit}

theorem attempt {m : Prog ρ (Except ε α)}
    {post : Except ε α → Multiset (Token ρ) → Prop}
    {post' : Except ε β → Multiset (Token ρ) → Prop} (h : Triple grants vital pre m post)
    (hown : own = pre + rest)
    (herror : ∀ e o, post (.error e) o →
      Triple grants vital (o + rest) undo fun _ o' => post' (.error e) o')
    (hok : ∀ a o, post (.ok a) o → Triple grants vital (o + rest) (k a) post') :
    Triple grants vital own (Prog.attempt m undo k) post' := by
  refine h.step hown fun r o hr => ?_
  cases r with
  | error e =>
    refine (herror e o hr).step (add_zero _).symm fun _ o' ho' => ?_
    rw [add_zero]
    exact done ho'
  | ok a => exact hok a o hr

theorem attemptAll {m : Prog ρ (Except ε α)}
    {post : Except ε α → Multiset (Token ρ) → Prop}
    {post' : Except ε β → Multiset (Token ρ) → Prop} (h : Triple grants vital pre m post)
    (hown : own = pre)
    (herror : ∀ e o, post (.error e) o → Triple grants vital o undo fun _ o' => post' (.error e) o')
    (hok : ∀ a o, post (.ok a) o → Triple grants vital o (k a) post') :
    Triple grants vital own (Prog.attempt m undo k) post' := by
  refine h.attempt (hown.trans (add_zero _).symm) (fun e o ho => ?_) fun a o ho => ?_
  · rw [add_zero]
    exact herror e o ho
  · rw [add_zero]
    exact hok a o ho

theorem call {m : Prog ρ (Except ε α)}
    {got : α → Multiset (Token ρ)} {post' : Except ε β → Multiset (Token ρ) → Prop}
    (h : Triple grants vital 0 m fun r o => o = made got r)
    (herror : ∀ e, Triple grants vital own undo fun _ o => post' (.error e) o)
    (hok : ∀ a, Triple grants vital (got a + own) (k a) post') :
    Triple grants vital own (Prog.attempt m undo k) post' := by
  refine h.attempt (zero_add own).symm ?_ ?_
  · rintro e _ rfl
    rw [made, zero_add]
    exact herror e
  · rintro a _ rfl
    exact hok a

/-- A program that leaves everything as it is. -/
def Neutral (grants : Nat → Bool) (vital : ρ → Prop) (m : Prog ρ α) : Prop :=
  Triple grants vital 0 m fun _ o => o = 0

namespace Neutral

theorem done : Neutral (ρ := ρ) grants vital (pure a) :=
  Triple.done rfl

theorem step {k : α → Prog ρ β} (h : Neutral grants vital m)
    (hk : ∀ a, Neutral grants vital (k a)) : Neutral grants vital (m >>= k) :=
  pass h hk

/-- The rule for calls that may fail and leave everything as it is. -/
theorem call {m : Prog ρ (Except ε α)}
    {post' : Except ε β → Multiset (Token ρ) → Prop} (h : Neutral grants vital m)
    (herror : ∀ e, Triple grants vital own undo fun _ o => post' (.error e) o)
    (hok : ∀ a, Triple grants vital own (k a) post') :
    Triple grants vital own (Prog.attempt m undo k) post' := by
  refine Triple.attempt h (zero_add own).symm ?_ ?_
  · rintro e _ rfl
    rw [zero_add]
    exact herror e
  · rintro a _ rfl
    rw [zero_add]
    exact hok a

theorem attempt {m : Prog ρ (Except ε α)}
    (h : Neutral grants vital m) (hundo : Neutral grants vital undo)
    (hk : ∀ a, Neutral grants vital (k a)) : Neutral grants vital (Prog.attempt m undo k) :=
  call h (fun _ => hundo) hk

theorem firstOf {f : α → Prog ρ (Except ε (Option β))} (h : ∀ a, Neutral grants vital (f a))
    (as : List α) : Neutral grants vital (Prog.firstOf f as) := by
  induction as with
  | nil => exact done
  | cons a as ih =>
    refine (h a).attempt done fun found => ?_
    cases found with
    | none => exact ih
    | some b => exact done

theorem accumulate {f : σ → α → Prog ρ (Except ε σ)} (h : ∀ acc a, Neutral grants vital (f acc a))
    (as : List α) (acc : σ) : Neutral grants vital (Prog.accumulate f as acc) := by
  induction as generalizing acc with
  | nil => exact done
  | cons a as ih => exact (h acc a).attempt done fun acc => ih acc

end Neutral

end Triple

end Library
