import EightyNine.Wasm89.Transfer

/-!
# Type equality and matching are the iso-recursive ones

They are on the accepted sections in which no two types differ in the mutability of
their fields alone.  The comparison of fields leaves mutability out, within a module
and between modules.
-/

namespace Wasm89

open Library (Whether Returns)
open Relation (ReflTransGen)

variable {rts rts' : List (RecType Nat)} {a b c d x y : Nat}

/-- A section is type-checked for equality and matching as iso-recursive types are. -/
structure IsoRecursive (rts : List (RecType Nat)) : Prop where
  /-- Equality is equality of what the types stand for. -/
  canon : ∀ a < rts.flatten.length, ∀ b < rts.flatten.length,
    Whether (fun n => typeCanonEq n (typeenvBuild rts) a b) (rolled rts a = rolled rts b)
  /-- Matching is reflexive. -/
  refl : ∀ a < rts.flatten.length, Returns (fun n => matchDeftype n (typeenvBuild rts) a a) true
  /-- Matching is transitive. -/
  trans : ∀ a < rts.flatten.length, ∀ b < rts.flatten.length, ∀ c < rts.flatten.length,
    Returns (fun n => matchDeftype n (typeenvBuild rts) a b) true →
    Returns (fun n => matchDeftype n (typeenvBuild rts) b c) true →
    Returns (fun n => matchDeftype n (typeenvBuild rts) a c) true
  /-- Matching is the closure of equality under declared supertypes. -/
  closure : ∀ a < rts.flatten.length, ∀ b < rts.flatten.length,
    Whether (fun n => matchDeftype n (typeenvBuild rts) a b)
      (∃ c, ReflTransGen (Declares rts) a c ∧ rolled rts c = rolled rts b)
  /-- The types of another module are compared as in one section with them. -/
  cross : ∀ rts', Accepted rts' → ∀ same, (same = true → rts = rts') →
    ∀ a < rts.flatten.length, ∀ b < rts'.flatten.length,
      (∃ v, Returns (fun n => deftypeCanonEqX same n (typeenvBuild rts) a (typeenvBuild rts') b) v ∧
        Returns (fun n => typeCanonEq n (typeenvBuild (beside rts rts')) a
          (rts.flatten.length + b)) v) ∧
      ∃ v, Returns (fun n => matchDeftypeX same n (typeenvBuild rts) a (typeenvBuild rts') b) v ∧
        Returns (fun n => matchDeftype n (typeenvBuild (beside rts rts')) a
          (rts.flatten.length + b)) v

/-- No two types of the section differ in the mutability of their fields alone. -/
def NoTwins (rts : List (RecType Nat)) : Prop :=
  ∀ a < rts.flatten.length, ∀ b < rts.flatten.length,
    rolled (eraseMuts rts) a = rolled (eraseMuts rts) b → rolled rts a = rolled rts b

/-! ## Closure -/

theorem Below.trans (hab : Below rts a rts b) (hbc : Below rts b rts c) : Below rts a rts c := by
  obtain ⟨t, u, ht, hu, htu⟩ := hab
  obtain ⟨u', v, hu', hv, huv⟩ := hbc
  rw [hu] at hu'
  cases hu'
  exact ⟨t, v, ht, hv, htu.trans huv⟩

theorem Below.refl (ha : a < rts.flatten.length) : Below rts a rts a := by
  have hget := List.getElem?_eq_getElem (l := rolledTypes rts) (i := a) (by simpa using ha)
  exact ⟨_, _, hget, hget, .refl⟩

theorem below_iff_declares (hrefs : RefsOk rts) (hsup : SupersOk rts)
    (ha : a < rts.flatten.length) (hb : b < rts.flatten.length) :
    Below (eraseMuts rts) a (eraseMuts rts) b ↔
      ∃ c, ReflTransGen (Declares rts) a c ∧ rolled (eraseMuts rts) c = rolled (eraseMuts rts) b := by
  induction a using Nat.strong_induction_on with
  | _ a ih =>
  obtain ⟨pre, rt, k, sub, hla⟩ := exists_located ha
  have hup : ∀ y ∈ sub.supertypes, y < a := fun y hy => hsup a y (hla.declares.mpr hy)
  rw [hla.below_erased hrefs hb]
  constructor
  · rintro (heq | ⟨y, hy, hyb⟩)
    · exact ⟨a, .refl, heq⟩
    · have hlt := hup y hy
      obtain ⟨c, hyc, hc⟩ := (ih y hlt (hlt.trans ha)).mp hyb
      exact ⟨c, .head (hla.declares.mpr hy) hyc, hc⟩
  · rintro ⟨c, hac, hc⟩
    rcases ReflTransGen.cases_head hac with rfl | ⟨y, hay, hyc⟩
    · exact .inl hc
    · have hy := hla.declares.mp hay
      have hlt := hup y hy
      exact .inr ⟨y, hy, (ih y hlt (hlt.trans ha)).mpr ⟨c, hyc, hc⟩⟩

theorem declares_lt (hsup : SupersOk rts) (hac : ReflTransGen (Declares rts) a c) : c ≤ a := by
  induction hac with
  | refl => exact le_rfl
  | tail _ hcd ih => exact (hsup _ _ hcd).le.trans ih

/-! ## Between modules -/

theorem below_beside (rts rts' : List (RecType Nat)) (ha : a < rts.flatten.length) (b : Nat) :
    Below (beside rts rts') a (beside rts rts') (rts.flatten.length + b) ↔ Below rts a rts' b := by
  unfold Below
  rw [rolled_beside_left rts' ha, rolled_beside_right]

/-- What compares the types of two sections compares those of the one section. -/
theorem Accepted.cross (h : Accepted rts) (h' : Accepted rts') {same : Bool}
    (hsame : same = true → rts = rts') (ha : a < rts.flatten.length)
    (hb : b < rts'.flatten.length) :
    (∃ v, Returns (fun n => deftypeCanonEqX same n (typeenvBuild rts) a (typeenvBuild rts') b) v ∧
      Returns (fun n => typeCanonEq n (typeenvBuild (beside rts rts')) a
        (rts.flatten.length + b)) v) ∧
    ∃ v, Returns (fun n => matchDeftypeX same n (typeenvBuild rts) a (typeenvBuild rts') b) v ∧
      Returns (fun n => matchDeftype n (typeenvBuild (beside rts rts')) a
        (rts.flatten.length + b)) v := by
  have hrefs := h.refsOk.beside h'.refsOk
  have hsup := h.supersOk.beside h'.supersOk
  have halt : a < (beside rts rts').flatten.length := by
    rw [length_beside]
    omega
  have hblt : rts.flatten.length + b < (beside rts rts').flatten.length := by
    rw [length_beside]
    omega
  have ha' : a < (eraseMuts rts).flatten.length := by rwa [length_flatten_eraseMuts]
  have hlen : rts.flatten.length + b = (eraseMuts rts).flatten.length + b := by
    rw [length_flatten_eraseMuts]
  constructor
  · have hone := typeCanonEq_whether hrefs halt hblt
    rw [eraseMuts_beside, rolled_beside_left _ ha', hlen, rolled_beside_right, ← hlen] at hone
    exact (deftypeCanonEqX_whether hsame h.refsOk h'.refsOk ha hb).alike hone
  · have hone := matchDeftype_whether hrefs hsup halt hblt
    rw [eraseMuts_beside, hlen, below_beside _ _ ha', ← hlen] at hone
    exact (matchDeftypeX_whether hsame h.refsOk h'.refsOk h.supersOk ha hb).alike hone

/-! ## The type section -/

theorem NoTwins.rolled_iff (h : NoTwins rts) (hrefs : RefsOk rts) (ha : a < rts.flatten.length)
    (hb : b < rts.flatten.length) :
    rolled (eraseMuts rts) a = rolled (eraseMuts rts) b ↔ rolled rts a = rolled rts b :=
  ⟨h a ha b hb, rolled_erase hrefs hrefs ha hb⟩

/-- Equality and matching are iso-recursive exactly when mutability alone tells no two types
apart. -/
theorem isoRecursive_iff (rts : List (RecType Nat)) (h : Accepted rts) :
    IsoRecursive rts ↔ NoTwins rts := by
  have hrefs := h.refsOk
  have hsup := h.supersOk
  constructor
  · intro hiso a ha b hb heq
    exact ((typeCanonEq_whether hrefs ha hb).same (hiso.canon a ha b hb)).mp heq
  · intro htwins
    have hbelow : ∀ a < rts.flatten.length, ∀ b < rts.flatten.length,
        Whether (fun n => matchDeftype n (typeenvBuild rts) a b)
          (Below (eraseMuts rts) a (eraseMuts rts) b) :=
      fun a ha b hb => matchDeftype_whether hrefs hsup ha hb
    constructor
    case canon =>
      intro a ha b hb
      exact (typeCanonEq_whether hrefs ha hb).congr (htwins.rolled_iff hrefs ha hb)
    case refl =>
      intro a ha
      refine (hbelow a ha a ha).returns_true.mpr (.refl ?_)
      rwa [length_flatten_eraseMuts]
    case trans =>
      intro a ha b hb c hc hab hbc
      exact (hbelow a ha c hc).returns_true.mpr
        (((hbelow a ha b hb).returns_true.mp hab).trans ((hbelow b hb c hc).returns_true.mp hbc))
    case closure =>
      intro a ha b hb
      refine (hbelow a ha b hb).congr ((below_iff_declares hrefs hsup ha hb).trans ?_)
      constructor
      · rintro ⟨c, hac, hc⟩
        exact ⟨c, hac, htwins c ((declares_lt hsup hac).trans_lt ha) b hb hc⟩
      · rintro ⟨c, hac, hc⟩
        exact ⟨c, hac, rolled_erase hrefs hrefs ((declares_lt hsup hac).trans_lt ha) hb hc⟩
    case cross =>
      intro rts' h' same hsame a ha b hb
      exact h.cross h' hsame ha hb

/-- A structure type of one field, of type `i32`. -/
def oneField (isMut : Bool) : RecType Nat := [⟨false, [], .struct [⟨.val (.num 0x7F), isMut⟩]⟩]

/-- A reference to a type by its index. -/
def refTo (x : Nat) : FieldType Nat := ⟨.val (.ref ⟨true, .idx x⟩), false⟩

/-- Two types that refer to each other, from index `x` on.  The first extends type 0. -/
def pairGroup (x : Nat) : RecType Nat :=
  [⟨false, [0], .struct [⟨.val (.num 0x7F), false⟩, refTo (x + 1)]⟩,
    ⟨false, [], .struct [refTo x, refTo 0]⟩]

/-- Types 1 and 2 are types 3 and 4. -/
theorem isoRecursive_iff_pairs : IsoRecursive [oneField false, pairGroup 1, pairGroup 3] :=
  (isoRecursive_iff _ ⟨4, rfl⟩).mpr fun _ _ _ _ h => h

/-- A structure type with a constant field is taken for the one with a mutable field. -/
theorem not_isoRecursive : ¬∀ rts, Accepted rts → IsoRecursive rts := by
  intro h
  have hiso := h [oneField false, oneField true] ⟨0, rfl⟩
  have hret : Returns (fun n => typeCanonEq n (typeenvBuild [oneField false, oneField true]) 0 1)
      true := by
    refine ⟨1, fun n hn => ?_⟩
    obtain ⟨m, rfl⟩ := Nat.exists_eq_add_of_le' hn
    rfl
  have heq := (hiso.canon 0 (by decide) 1 (by decide)).returns_true.mp hret
  have hmut : ∀ pre post, rolled [oneField pre, oneField post] 0 =
      some (.roll [⟨false, [], .struct [⟨.val (.num 0x7F), pre⟩]⟩] 0) := fun _ _ => rfl
  have hmut' : ∀ pre post, rolled [oneField pre, oneField post] 1 =
      some (.roll [⟨false, [], .struct [⟨.val (.num 0x7F), post⟩]⟩] 0) := fun _ _ => rfl
  rw [hmut, hmut'] at heq
  simp at heq

end Wasm89
