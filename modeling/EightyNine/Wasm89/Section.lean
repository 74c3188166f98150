import EightyNine.Wasm89.CanonOk
import EightyNine.Library.Outcome

/-!
# Matching is the closure under declared supertypes

A type matches another when one of the types reached from it through declared
supertypes stands for the same.  Supertypes are declared before their subtypes, so
the search through them returns.
-/

namespace Wasm89

open List

open Library (Whether Returns)

variable {rts rts' pre post : List (RecType Nat)} {rt : RecType Nat} {sub : SubType Nat}
  {x y k a b : Nat} {c d : Rolled}

/-- Supertypes are declared before their subtypes. -/
def SupersOk (rts : List (RecType Nat)) : Prop := ∀ x y, Declares rts x y → y < x

theorem Located.flatten (h : Located rts x pre rt k sub) : rts.flatten[x]? = some sub := by
  obtain ⟨⟨post, rfl⟩, rfl, hsub⟩ := h
  have hk := (List.getElem?_eq_some_iff.mp hsub).1
  rw [flatten_append, flatten_cons, List.getElem?_append_right (Nat.le_add_right _ _),
    Nat.add_sub_cancel_left, List.getElem?_append_left hk, hsub]

theorem Located.declares (h : Located rts x pre rt k sub) :
    Declares rts x y ↔ y ∈ sub.supertypes := by
  unfold Declares
  rw [h.flatten]
  constructor
  · rintro ⟨s, hs, hy⟩
    cases hs
    exact hy
  · exact fun hy => ⟨sub, rfl, hy⟩

theorem supertypes_uses : sub.supertypes ⊆ sub.uses := subset_append_left _ _

theorem Located.lt_length (h : Located rts x pre rt k sub) (hy : y < pre.flatten.length + rt.length) :
    y < rts.flatten.length := by
  obtain ⟨⟨post, rfl⟩, _, _⟩ := h
  rw [flatten_append, flatten_cons, length_append, length_append]
  omega

/-- The supertypes of a rolled type are those its index declares. -/
theorem Located.declaredSuper (h : Located rts a pre rt k sub) (hc : rolled rts a = some c)
    (hrefs : ∀ y ∈ sub.supertypes, y < pre.flatten.length + rt.length) :
    DeclaredSuper c d ↔ ∃ y ∈ sub.supertypes, rolled rts y = some d := by
  rw [h.rolled_eq] at hc
  cases hc
  have hget : (rt.map (SubType.map (rollRef (rolledTypes pre))))[k]? =
      some (sub.map (rollRef (rolledTypes pre))) := by
    rw [List.getElem?_map, h.sub]
    rfl
  constructor
  · rintro ⟨subs, pos, s, hroll, hs, r, hr, rfl⟩
    cases hroll
    rw [hget] at hs
    cases hs
    obtain ⟨y, hy, rfl⟩ := mem_map.mp hr
    exact ⟨y, hy, h.unroll_eq (hrefs y hy)⟩
  · rintro ⟨y, hy, hd⟩
    rw [h.unroll_eq (hrefs y hy)] at hd
    cases hd
    exact ⟨_, _, _, rfl, hget, _, mem_map_of_mem hy, rfl⟩

/-- A type stands for the other, or one of its supertypes matches it. -/
theorem Located.below_iff (h : Located rts a pre rt k sub) (hb : b < rts'.flatten.length)
    (hrefs : ∀ y ∈ sub.supertypes, y < pre.flatten.length + rt.length) :
    Below rts a rts' b ↔ rolled rts a = rolled rts' b ∨ ∃ y ∈ sub.supertypes, Below rts y rts' b := by
  have hd := List.getElem?_eq_getElem (l := rolledTypes rts') (i := b) (by simpa using hb)
  have hc := h.rolled_eq
  constructor
  · rintro ⟨c, d, hca, hdb, hrun⟩
    rcases Relation.ReflTransGen.cases_head hrun with rfl | ⟨e, hce, hrest⟩
    · exact .inl (hca.trans hdb.symm)
    · obtain ⟨y, hy, he⟩ := (h.declaredSuper hca hrefs).mp hce
      exact .inr ⟨y, hy, e, d, he, hdb, hrest⟩
  · rintro (heq | ⟨y, hy, c, d, hcy, hdb, hrun⟩)
    · exact ⟨_, _, hc, heq ▸ hc, .refl⟩
    · exact ⟨_, d, hc, hdb, .head ((h.declaredSuper hc hrefs).mpr ⟨y, hy, hcy⟩) hrun⟩

/-- The same with the mutabilities erased. -/
theorem Located.below_erased (hrefs : RefsOk rts) (h : Located rts a pre rt k sub)
    (hb : b < rts'.flatten.length) :
    Below (eraseMuts rts) a (eraseMuts rts') b ↔
      rolled (eraseMuts rts) a = rolled (eraseMuts rts') b ∨
        ∃ y ∈ sub.supertypes, Below (eraseMuts rts) y (eraseMuts rts') b :=
  h.erase.below_iff (by rwa [length_flatten_eraseMuts]) fun y hy => by
    rw [length_flatten_eraseMuts, length_map]
    exact hrefs.located h (supertypes_uses hy)

theorem anyOf_whether {f : Nat → Nat → Option Bool} {P : Nat → Prop} {xs : List Nat}
    (h : ∀ x ∈ xs, Whether (fun n => f n x) (P x)) :
    Whether (fun n => anyOf (f n) xs) (∃ x ∈ xs, P x) := by
  induction xs with
  | nil => exact .no (by simp)
  | cons x xs ih =>
    refine ((h x mem_cons_self).or fun _ =>
      ih fun y hy => h y (mem_cons_of_mem _ hy)).congr ?_
    simp

theorem matchDeftype_whether (hrefs : RefsOk rts) (hsup : SupersOk rts)
    (ha : a < rts.flatten.length) (hb : b < rts.flatten.length) :
    Whether (fun n => matchDeftype n (typeenvBuild rts) a b)
      (Below (eraseMuts rts) a (eraseMuts rts) b) := by
  induction a using Nat.strong_induction_on with
  | _ a ih =>
  obtain ⟨pre, rt, k, sub, hla⟩ := exists_located ha
  have hup : ∀ y ∈ sub.supertypes, y < a := fun y hy => hsup a y (hla.declares.mpr hy)
  refine .succ (.congr ?_ (hla.below_erased hrefs hb).symm)
  by_cases hab : a = b
  · subst hab
    simp only [matchDeftype, if_true]
    exact .yes (.inl trivial)
  · simp only [matchDeftype, hab, if_false, hla.type]
    exact (typeCanonEq_whether hrefs ha hb).or fun _ => anyOf_whether fun y hy =>
      ih y (hup y hy) ((hup y hy).trans ha)

theorem matchDeftypeX_whether {same : Bool} (hsame : same = true → rts = rts')
    (hrefs : RefsOk rts) (hrefs' : RefsOk rts') (hsup : SupersOk rts)
    (ha : a < rts.flatten.length) (hb : b < rts'.flatten.length) :
    Whether (fun n => matchDeftypeX same n (typeenvBuild rts) a (typeenvBuild rts') b)
      (Below (eraseMuts rts) a (eraseMuts rts') b) := by
  cases same with
  | true =>
    obtain rfl := hsame rfl
    refine .succ ?_
    simp only [matchDeftypeX, if_true]
    exact matchDeftype_whether hrefs hsup ha hb
  | false =>
    induction a using Nat.strong_induction_on with
    | _ a ih =>
    obtain ⟨pre, rt, k, sub, hla⟩ := exists_located ha
    have hup : ∀ y ∈ sub.supertypes, y < a := fun y hy => hsup a y (hla.declares.mpr hy)
    refine .succ (.congr ?_ (hla.below_erased hrefs hb).symm)
    simp only [matchDeftypeX, typeenvBuild_types, ge_iff_le, not_le.mpr ha, not_le.mpr hb,
      if_false, hla.type]
    exact (deftypeCanonEqX_whether hsame hrefs hrefs' ha hb).or fun _ => anyOf_whether fun y hy =>
      ih y (hup y hy) ((hup y hy).trans ha)

end Wasm89

/-!
# Accepted type sections

What the validation of a type section guarantees for the comparisons: references
stay within the groups so far, and supertypes come before their subtypes.  Both
carry over to two sections one after the other.
-/

namespace Wasm89

open List

open Library (bind_ok forM_ok forM_eq_ok)

variable {rts rts' pre post : List (RecType Nat)} {rt : RecType Nat} {sub : SubType Nat}
  {x y k first bound : Nat} {α β γ δ : Type}

/-- The validation returns without a fault. -/
def Accepted (rts : List (RecType Nat)) : Prop :=
  ∃ fuel, validateTypeSection fuel (typeenvBuild rts) = some (.ok ())

/-! ## What the checks say -/

theorem eachOk_ok {f : α → Option (Except TypeFault Unit)} {xs : List α}
    (h : eachOk f xs = some (.ok ())) : ∀ x ∈ xs, f x = some (.ok ()) := by
  induction xs with
  | nil => simp
  | cons x xs ih =>
    rw [eachOk] at h
    cases hx : f x with
    | none =>
      rw [hx] at h
      cases h
    | some r =>
      rw [hx] at h
      cases r with
      | error e => cases h
      | ok u =>
        intro y hy
        rcases mem_cons.mp hy with rfl | hy
        · exact hx
        · exact ih h y hy

theorem vtValid_ok {vt : ValType Nat} (h : vtValid bound vt = .ok ()) : ∀ y ∈ vt.uses, y < bound := by
  unfold vtValid at h
  split at h
  · rename_i x
    split at h
    · intro y hy
      rw [mem_singleton.mp hy]
      assumption
    · cases h
  · rename_i hno
    intro y hy
    cases vt with
    | num n => cases hy
    | ref rt =>
      obtain ⟨nullable, ht⟩ := rt
      cases ht with
      | idx x => exact absurd rfl (hno nullable x)
      | abs a => cases hy

theorem fieldValid_ok {ft : FieldType Nat} (h : fieldValid bound ft = .ok ()) :
    ∀ y ∈ ft.uses, y < bound := by
  obtain ⟨storage, isMut⟩ := ft
  cases storage with
  | packed p => simp [FieldType.uses]
  | val vt => exact vtValid_ok h

theorem compValid_ok {comp : CompType Nat} (h : compValid bound comp = .ok ()) :
    ∀ y ∈ comp.uses, y < bound := by
  cases comp with
  | func ps rs =>
    unfold compValid at h
    dsimp only at h
    cases hps : ps.forM (vtValid bound) with
    | error e =>
      rw [hps] at h
      cases h
    | ok u =>
      rw [hps] at h
      intro y hy
      rcases mem_append.mp hy with hy | hy
      · obtain ⟨vt, hvt, hy⟩ := mem_flatMap.mp hy
        exact vtValid_ok (forM_ok hps vt hvt) y hy
      · obtain ⟨vt, hvt, hy⟩ := mem_flatMap.mp hy
        exact vtValid_ok (forM_ok h vt hvt) y hy
  | struct fs =>
    intro y hy
    obtain ⟨ft, hft, hy⟩ := mem_flatMap.mp hy
    exact fieldValid_ok (forM_ok h ft hft) y hy
  | array ft => exact fieldValid_ok h

theorem Located.refsValid (h : Located rts x pre rt k sub)
    (hok : refsValid (typeenvBuild rts) x = .ok ()) :
    ∀ y ∈ sub.uses, y < pre.flatten.length + rt.length := by
  unfold Wasm89.refsValid at hok
  rw [h.type] at hok
  dsimp only at hok
  rw [h.group] at hok
  dsimp only at hok
  cases hsup : sub.supertypes.forM fun sp =>
      if sp ≥ pre.flatten.length + rt.length then Except.error (TypeFault.unknown sp)
      else .ok () with
  | error e =>
    rw [hsup] at hok
    cases hok
  | ok u =>
    rw [hsup] at hok
    intro y hy
    rcases mem_append.mp hy with hy | hy
    · have hle := forM_ok hsup y hy
      split at hle
      · cases hle
      · omega
    · exact compValid_ok hok y hy

theorem refsFrom_of (h : ∀ x pre rt k sub, Located rts x pre rt k sub →
      ∀ y ∈ sub.uses, y < pre.flatten.length + rt.length) :
    ∀ post pre : List (RecType Nat), rts = pre ++ post → RefsFrom pre.flatten.length post := by
  intro post
  induction post with
  | nil => exact fun _ _ => trivial
  | cons rt post ih =>
    rintro pre hpre
    constructor
    · intro sub hsub
      obtain ⟨k, hk⟩ := mem_iff_getElem?.mp hsub
      exact h _ pre rt k sub ⟨⟨post, hpre⟩, rfl, hk⟩
    · have hnext := ih (pre ++ [rt]) (by simp [hpre])
      rwa [flatten_append, flatten_singleton, length_append] at hnext

theorem refsOk_of_loop
    (h : (List.range rts.flatten.length).forM (refsValid (typeenvBuild rts)) = .ok ()) :
    RefsOk rts := by
  have hlocated : ∀ x pre rt k sub, Located rts x pre rt k sub →
      ∀ y ∈ sub.uses, y < pre.flatten.length + rt.length := by
    intro x pre rt k sub hloc
    refine hloc.refsValid (forM_ok h x ?_)
    rw [mem_range]
    exact (List.getElem?_eq_some_iff.mp hloc.flatten).1
  exact refsFrom_of hlocated rts [] rfl

theorem vtValid_of {vt : ValType Nat} (h : ∀ y ∈ vt.uses, y < bound) : vtValid bound vt = .ok () := by
  cases vt with
  | num n => rfl
  | ref rt =>
    obtain ⟨nullable, ht⟩ := rt
    cases ht with
    | idx x => exact if_pos (h x mem_cons_self)
    | abs a => rfl

theorem fieldValid_of {ft : FieldType Nat} (h : ∀ y ∈ ft.uses, y < bound) :
    fieldValid bound ft = .ok () := by
  obtain ⟨storage, isMut⟩ := ft
  cases storage with
  | packed p => rfl
  | val vt => exact vtValid_of h

theorem compValid_of {comp : CompType Nat} (h : ∀ y ∈ comp.uses, y < bound) :
    compValid bound comp = .ok () := by
  cases comp with
  | func ps rs =>
    have hps : ps.forM (vtValid bound) = .ok () := forM_eq_ok fun vt hvt => vtValid_of fun y hy =>
      h y (mem_append_left _ (mem_flatMap.mpr ⟨vt, hvt, hy⟩))
    have hrs : rs.forM (vtValid bound) = .ok () := forM_eq_ok fun vt hvt => vtValid_of fun y hy =>
      h y (mem_append_right _ (mem_flatMap.mpr ⟨vt, hvt, hy⟩))
    show (ps.forM (vtValid bound) >>= fun _ => rs.forM (vtValid bound)) = .ok ()
    rw [hps]
    exact hrs
  | struct fs =>
    exact forM_eq_ok fun ft hft => fieldValid_of fun y hy => h y (mem_flatMap.mpr ⟨ft, hft, hy⟩)
  | array ft => exact fieldValid_of h

/-- The first loop finds no fault where the references are in range. -/
theorem RefsOk.loop (hrefs : RefsOk rts) :
    (List.range rts.flatten.length).forM (refsValid (typeenvBuild rts)) = .ok () := by
  refine forM_eq_ok fun x hx => ?_
  obtain ⟨pre, rt, k, sub, hloc⟩ := exists_located (mem_range.mp hx)
  have huses := fun y hy => hrefs.located hloc (y := y) hy
  unfold refsValid
  rw [hloc.type]
  dsimp only
  rw [hloc.group]
  dsimp only
  have hsup : (sub.supertypes.forM fun sp =>
      if sp ≥ pre.flatten.length + rt.length then Except.error (TypeFault.unknown sp)
      else .ok ()) = .ok () := forM_eq_ok fun y hy =>
    if_neg (not_le.mpr (huses y (mem_append_left _ hy)))
  rw [hsup]
  exact compValid_of fun y hy => huses y (mem_append_right _ hy)

theorem Accepted.refsOk (h : Accepted rts) : RefsOk rts := by
  obtain ⟨fuel, h⟩ := h
  unfold validateTypeSection at h
  split at h
  · cases h
  · rename_i hrefs
    rw [typeenvBuild_types] at hrefs
    exact refsOk_of_loop hrefs

theorem Accepted.supersOk (h : Accepted rts) : SupersOk rts := by
  obtain ⟨fuel, h⟩ := h
  unfold validateTypeSection at h
  split at h
  · cases h
  · rintro x y ⟨sub, hsub, hy⟩
    have hx := (List.getElem?_eq_some_iff.mp hsub).1
    obtain ⟨pre, rt, k, sub', hloc⟩ := exists_located hx
    have hflat := hloc.flatten
    rw [hsub] at hflat
    cases hflat
    have hsup := eachOk_ok h x (by rw [mem_range, typeenvBuild_types]; exact hx)
    unfold supersValid at hsup
    rw [hloc.type] at hsup
    have hone := eachOk_ok hsup y hy
    unfold superValid at hone
    split at hone
    · cases hone
    · omega

end Wasm89
