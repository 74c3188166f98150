import EightyNine.Wasm89.Section

/-!
# Sections side by side

Types that are equal stay equal when other references are put in their place, as long
as equal references are replaced by equal ones.  So equal types are equal without
their mutability, and a section moved behind another stands for what it stood for.
-/

namespace Wasm89

open List

variable {ρ σ τ : Type} {f f' : ρ → τ} {g g' : σ → τ} {f'' : ρ → σ}
  {rts rts' pre post : List (RecType Nat)} {rt : RecType Nat} {sub : SubType Nat}
  {x y k a b n first : Nat}

/-! ## Replacing references -/

theorem map_transfer {α β γ δ : Type} {F : α → γ} {G : β → γ} {F' : α → δ} {G' : β → δ}
    {as : List α} {bs : List β} (h : as.map F = bs.map G)
    (hfg : ∀ a ∈ as, ∀ b ∈ bs, F a = G b → F' a = G' b) : as.map F' = bs.map G' := by
  induction as generalizing bs with
  | nil =>
    cases bs with
    | nil => rfl
    | cons b bs => cases h
  | cons a as ih =>
    cases bs with
    | nil => cases h
    | cons b bs =>
      obtain ⟨hhead, htail⟩ := cons.inj h
      have hrest := ih htail fun a ha b hb =>
        hfg a (mem_cons_of_mem _ ha) b (mem_cons_of_mem _ hb)
      rw [map_cons, map_cons, hrest, hfg a mem_cons_self b mem_cons_self hhead]

/-- References that were equal are replaced by equal ones. -/
def Transfers (f : ρ → τ) (g : σ → τ) {υ : Type} (f' : ρ → υ) (g' : σ → υ) (xs : List ρ)
    (ys : List σ) : Prop := ∀ x ∈ xs, ∀ y ∈ ys, f x = g y → f' x = g' y

section

variable {υ : Type} {f' : ρ → υ} {g' : σ → υ}

theorem Transfers.mono {xs xs' : List ρ} {ys ys' : List σ} (h : Transfers f g f' g' xs ys)
    (hx : xs' ⊆ xs) (hy : ys' ⊆ ys) : Transfers f g f' g' xs' ys' :=
  fun x hx' y hy' => h x (hx hx') y (hy hy')

theorem ValType.map_transfer {a : ValType ρ} {b : ValType σ} (h : a.map f = b.map g)
    (hu : Transfers f g f' g' a.uses b.uses) : a.map f' = b.map g' := by
  cases a with
  | num n =>
    cases b with
    | num m =>
      cases h
      rfl
    | ref b => cases h
  | ref a =>
    cases b with
    | num m => cases h
    | ref b =>
      obtain ⟨an, ah⟩ := a
      obtain ⟨bn, bh⟩ := b
      cases ah with
      | idx x =>
        cases bh with
        | idx y =>
          simp only [ValType.map, RefType.map, HeapType.map, ValType.ref.injEq, RefType.mk.injEq,
            HeapType.idx.injEq] at h ⊢
          exact ⟨h.1, hu x mem_cons_self y mem_cons_self h.2⟩
        | abs k => simp [ValType.map, RefType.map, HeapType.map] at h
      | abs j =>
        cases bh with
        | idx y => simp [ValType.map, RefType.map, HeapType.map] at h
        | abs k =>
          cases h
          rfl

theorem FieldType.map_transfer {a : FieldType ρ} {b : FieldType σ} (h : a.map f = b.map g)
    (hu : Transfers f g f' g' a.uses b.uses) : a.map f' = b.map g' := by
  obtain ⟨as, am⟩ := a
  obtain ⟨bs, bm⟩ := b
  cases as with
  | packed p =>
    cases bs with
    | packed q =>
      cases h
      rfl
    | val w => simp [FieldType.map, StorageType.map] at h
  | val v =>
    cases bs with
    | packed q => simp [FieldType.map, StorageType.map] at h
    | val w =>
      simp only [FieldType.map, StorageType.map, FieldType.mk.injEq, StorageType.val.injEq] at h ⊢
      exact ⟨ValType.map_transfer h.1 hu, h.2⟩

theorem CompType.map_transfer {a : CompType ρ} {b : CompType σ} (h : a.map f = b.map g)
    (hu : Transfers f g f' g' a.uses b.uses) : a.map f' = b.map g' := by
  cases a with
  | func ps rs =>
    cases b with
    | func ps' rs' =>
      simp only [CompType.map, CompType.func.injEq] at h ⊢
      constructor
      · refine Wasm89.map_transfer h.1 fun a ha b hb heq => ValType.map_transfer heq (hu.mono ?_ ?_)
        · exact fun x hx => mem_append_left _ (mem_flatMap.mpr ⟨a, ha, hx⟩)
        · exact fun x hx => mem_append_left _ (mem_flatMap.mpr ⟨b, hb, hx⟩)
      · refine Wasm89.map_transfer h.2 fun a ha b hb heq => ValType.map_transfer heq (hu.mono ?_ ?_)
        · exact fun x hx => mem_append_right _ (mem_flatMap.mpr ⟨a, ha, hx⟩)
        · exact fun x hx => mem_append_right _ (mem_flatMap.mpr ⟨b, hb, hx⟩)
    | struct fs' | array ft' => cases h
  | struct fs =>
    cases b with
    | func ps' rs' => cases h
    | struct fs' =>
      simp only [CompType.map, CompType.struct.injEq] at h ⊢
      refine Wasm89.map_transfer h fun a ha b hb heq => FieldType.map_transfer heq (hu.mono ?_ ?_)
      · exact fun x hx => mem_flatMap.mpr ⟨a, ha, hx⟩
      · exact fun x hx => mem_flatMap.mpr ⟨b, hb, hx⟩
    | array ft' => cases h
  | array ft =>
    cases b with
    | func ps' rs' | struct fs' => cases h
    | array ft' =>
      simp only [CompType.map, CompType.array.injEq] at h ⊢
      exact FieldType.map_transfer h hu

theorem SubType.map_transfer {a : SubType ρ} {b : SubType σ} (h : a.map f = b.map g)
    (hu : Transfers f g f' g' a.uses b.uses) : a.map f' = b.map g' := by
  simp only [SubType.map, SubType.mk.injEq] at h ⊢
  obtain ⟨hfin, hsup, hcomp⟩ := h
  refine ⟨hfin, Wasm89.map_transfer hsup fun x hx y hy heq => ?_,
    CompType.map_transfer hcomp (hu.mono ?_ ?_)⟩
  · exact hu x (mem_append_left _ hx) y (mem_append_left _ hy) heq
  · exact subset_append_right _ _
  · exact subset_append_right _ _

end

/-! ## Mutability and references -/

theorem SubType.map_eraseMut (f : ρ → τ) (sub : SubType ρ) :
    sub.eraseMut.map f = (sub.map f).eraseMut := by
  obtain ⟨isFinal, supertypes, comp⟩ := sub
  cases comp with
  | func ps rs => rfl
  | struct fs =>
    simp only [SubType.eraseMut, SubType.map, CompType.eraseMut, CompType.map, List.map_map]
    rfl
  | array ft => rfl

theorem SubType.uses_eraseMut (sub : SubType ρ) : sub.eraseMut.uses = sub.uses := by
  obtain ⟨isFinal, supertypes, comp⟩ := sub
  cases comp with
  | func ps rs => rfl
  | struct fs =>
    simp only [SubType.eraseMut, SubType.uses, CompType.eraseMut, CompType.uses, flatMap_map]
    rfl
  | array ft => rfl

/-- Types that are equal are equal without the mutability of their fields. -/
theorem rolled_erase (hrefs : RefsOk rts) (hrefs' : RefsOk rts') (ha : a < rts.flatten.length)
    (hb : b < rts'.flatten.length) (h : rolled rts a = rolled rts' b) :
    rolled (eraseMuts rts) a = rolled (eraseMuts rts') b := by
  induction a using Nat.strong_induction_on generalizing b with
  | _ a ih =>
  obtain ⟨pre, rt, k, sub, hla⟩ := exists_located ha
  obtain ⟨pre', rt', k', sub', hlb⟩ := exists_located hb
  have hxa := hla.index
  have hxb := hlb.index
  rw [hla.rolled_eq, hlb.rolled_eq, Option.some_inj, Rolled.roll.injEq] at h
  rw [hla.rolled_erase, hlb.rolled_erase, Option.some_inj, Rolled.roll.injEq]
  refine ⟨map_transfer h.1 fun s hs s' hs' heq => ?_, h.2⟩
  obtain ⟨j, hj⟩ := hla.mem hs
  obtain ⟨j', hj'⟩ := hlb.mem hs'
  have hmut : s.eraseMut.map (rollRef (rolledTypes pre)) =
      s'.eraseMut.map (rollRef (rolledTypes pre')) := by
    rw [SubType.map_eraseMut, SubType.map_eraseMut, heq]
  refine SubType.map_transfer hmut fun x hx y hy hxy => ?_
  rw [SubType.uses_eraseMut] at hx hy
  have hxlt := hrefs.located hj hx
  have hylt := hrefs'.located hj' hy
  -- Both references are out of their groups, or both are positions in them.
  rcases lt_or_ge x pre.flatten.length with hxin | hxin
  · obtain ⟨c, hc, hcx⟩ := rollRef_lt hla hxin
    obtain ⟨c', hc', hcx'⟩ := rollRef_lt hla.erase (by rwa [length_flatten_eraseMuts])
    rw [hc']
    rcases lt_or_ge y pre'.flatten.length with hyin | hyin
    · obtain ⟨d, hd, hdy⟩ := rollRef_lt hlb hyin
      obtain ⟨d', hd', hdy'⟩ := rollRef_lt hlb.erase (by rwa [length_flatten_eraseMuts])
      rw [hc, hd, Sum.inr.injEq] at hxy
      have hnext := ih x (by omega) (b := y) (by omega) (by omega) (by rw [hcx, hdy, hxy])
      rw [hcx', hdy', Option.some_inj] at hnext
      rw [hd', hnext]
    · rw [hc, rollRef_ge hyin] at hxy
      cases hxy
  · rw [rollRef_ge (by rwa [length_flatten_eraseMuts])]
    rcases lt_or_ge y pre'.flatten.length with hyin | hyin
    · obtain ⟨d, hd, hdy⟩ := rollRef_lt hlb hyin
      rw [rollRef_ge hxin, hd] at hxy
      cases hxy
    · rw [rollRef_ge hxin, rollRef_ge hyin] at hxy
      rw [rollRef_ge (by rwa [length_flatten_eraseMuts]), length_flatten_eraseMuts,
        length_flatten_eraseMuts, Sum.inl.inj hxy]

/-! ## One section after the other -/

theorem ValType.map_map (f : σ → τ) (g : ρ → σ) (vt : ValType ρ) :
    (vt.map g).map f = vt.map (f ∘ g) := by
  cases vt with
  | num n => rfl
  | ref rt =>
    obtain ⟨nullable, ht⟩ := rt
    cases ht with
    | idx x | abs h => rfl

theorem FieldType.map_map (f : σ → τ) (g : ρ → σ) (ft : FieldType ρ) :
    (ft.map g).map f = ft.map (f ∘ g) := by
  obtain ⟨storage, isMut⟩ := ft
  cases storage with
  | packed p => rfl
  | val vt => simp only [FieldType.map, StorageType.map, ValType.map_map]

theorem SubType.map_map (f : σ → τ) (g : ρ → σ) (sub : SubType ρ) :
    (sub.map g).map f = sub.map (f ∘ g) := by
  obtain ⟨isFinal, supertypes, comp⟩ := sub
  cases comp with
  | func ps rs =>
    simp only [SubType.map, CompType.map, List.map_map, Function.comp_def, ValType.map_map]
  | struct fs =>
    simp only [SubType.map, CompType.map, List.map_map, Function.comp_def, FieldType.map_map]
  | array ft =>
    simp only [SubType.map, CompType.map, List.map_map, FieldType.map_map]

theorem ValType.uses_map (f : ρ → σ) (vt : ValType ρ) : (vt.map f).uses = vt.uses.map f := by
  cases vt with
  | num n => rfl
  | ref rt =>
    obtain ⟨nullable, ht⟩ := rt
    cases ht with
    | idx x | abs h => rfl

theorem FieldType.uses_map (f : ρ → σ) (ft : FieldType ρ) : (ft.map f).uses = ft.uses.map f := by
  obtain ⟨storage, isMut⟩ := ft
  cases storage with
  | packed p => rfl
  | val vt => exact ValType.uses_map f vt

theorem SubType.uses_map (f : ρ → σ) (sub : SubType ρ) : (sub.map f).uses = sub.uses.map f := by
  obtain ⟨isFinal, supertypes, comp⟩ := sub
  cases comp with
  | func ps rs =>
    simp only [SubType.map, SubType.uses, CompType.map, CompType.uses, map_append,
      flatMap_map, map_flatMap, ValType.uses_map]
  | struct fs =>
    simp only [SubType.map, SubType.uses, CompType.map, CompType.uses, map_append,
      flatMap_map, map_flatMap, FieldType.uses_map]
  | array ft =>
    simp only [SubType.map, SubType.uses, CompType.map, CompType.uses, map_append,
      FieldType.uses_map]

/-- The section, with its references moved up by `n` types. -/
def shifted (n : Nat) (rts : List (RecType Nat)) : List (RecType Nat) :=
  rts.map fun rt => rt.map (.map (· + n))

/-- A section after another, its references moved behind those of the other. -/
def beside (rts rts' : List (RecType Nat)) : List (RecType Nat) :=
  rts ++ shifted rts.flatten.length rts'

theorem flatten_shifted (n : Nat) (rts : List (RecType Nat)) :
    (shifted n rts).flatten = rts.flatten.map (.map (· + n)) := by
  rw [shifted, map_flatten]

theorem eraseMuts_beside (rts rts' : List (RecType Nat)) :
    eraseMuts (beside rts rts') = beside (eraseMuts rts) (eraseMuts rts') := by
  simp only [eraseMuts, beside, shifted, map_append, List.map_map]
  rw [← eraseMuts, length_flatten_eraseMuts]
  congr 2
  funext rt
  simp only [Function.comp_apply, List.map_map]
  congr 1
  funext sub
  exact (SubType.map_eraseMut _ sub).symm

theorem rollRef_shifted (acc acc' : List Rolled) (x : Nat) :
    rollRef (acc ++ acc') (x + acc.length) = rollRef acc' x := by
  rw [rollRef, rollRef, getElem?_append_right (Nat.le_add_left _ _), Nat.add_sub_cancel]
  cases acc'[x]? with
  | some c => rfl
  | none =>
    simp only [length_append]
    congr 1
    omega

theorem rollFrom_shifted (acc acc' : List Rolled) (rts : List (RecType Nat)) :
    rollFrom (acc ++ acc') (shifted acc.length rts) = acc ++ rollFrom acc' rts := by
  induction rts generalizing acc' with
  | nil => rfl
  | cons rt rts ih =>
    have hgroup : rollGroup (acc ++ acc') (rt.map (SubType.map (· + acc.length))) =
        rollGroup acc' rt := by
      simp only [rollGroup, length_map, List.map_map]
      congr 2
      funext k
      congr 2
      funext sub
      rw [Function.comp_apply, SubType.map_map]
      congr 1
      funext x
      exact rollRef_shifted acc acc' x
    have hcons : shifted acc.length (rt :: rts) =
        rt.map (SubType.map (· + acc.length)) :: shifted acc.length rts := rfl
    rw [hcons, rollFrom, hgroup, append_assoc, ih, ← rollFrom]

theorem rolled_beside_right (rts rts' : List (RecType Nat)) (b : Nat) :
    rolled (beside rts rts') (rts.flatten.length + b) = rolled rts' b := by
  have hroll := rollFrom_shifted (rolledTypes rts) [] rts'
  rw [append_nil, length_rolledTypes] at hroll
  rw [rolled, rolledTypes, beside, rollFrom_append, ← rolledTypes, hroll,
    getElem?_append_right (by simp), length_rolledTypes, Nat.add_sub_cancel_left, rolled,
    rolledTypes]

theorem rolled_beside_left (rts' : List (RecType Nat)) (ha : a < rts.flatten.length) :
    rolled (beside rts rts') a = rolled rts a := rolled_append_left ha

theorem refsFrom_append (hrefs : RefsFrom first rts)
    (hrefs' : RefsFrom (first + rts.flatten.length) rts') : RefsFrom first (rts ++ rts') := by
  induction rts generalizing first with
  | nil => exact hrefs'
  | cons rt rts ih =>
    refine ⟨hrefs.1, ih hrefs.2 ?_⟩
    rwa [flatten_cons, length_append, ← Nat.add_assoc] at hrefs'

theorem refsFrom_shifted (h : RefsFrom first rts) : RefsFrom (first + n) (shifted n rts) := by
  induction rts generalizing first with
  | nil => exact h
  | cons rt rts ih =>
    constructor
    · intro sub hsub y hy
      obtain ⟨s, hs, rfl⟩ := mem_map.mp hsub
      rw [SubType.uses_map] at hy
      obtain ⟨x, hx, rfl⟩ := mem_map.mp hy
      have := h.1 s hs x hx
      rw [length_map]
      omega
    · have hnext := ih h.2
      rw [length_map]
      rwa [Nat.add_right_comm] at hnext

theorem RefsOk.beside (hrefs : RefsOk rts) (hrefs' : RefsOk rts') :
    RefsOk (beside rts rts') :=
  refsFrom_append hrefs (refsFrom_shifted hrefs')

theorem SupersOk.beside (hsup : SupersOk rts) (hsup' : SupersOk rts') :
    SupersOk (beside rts rts') := by
  rintro x y ⟨sub, hsub, hy⟩
  rw [Wasm89.beside, flatten_append] at hsub
  rcases lt_or_ge x rts.flatten.length with hx | hx
  · rw [getElem?_append_left hx] at hsub
    exact hsup x y ⟨sub, hsub, hy⟩
  · rw [getElem?_append_right hx, flatten_shifted, getElem?_map, Option.map_eq_some_iff] at hsub
    obtain ⟨s, hs, rfl⟩ := hsub
    obtain ⟨z, hz, rfl⟩ := mem_map.mp hy
    have := hsup' _ z ⟨s, hs, hz⟩
    omega

theorem length_beside (rts rts' : List (RecType Nat)) :
    (beside rts rts').flatten.length = rts.flatten.length + rts'.flatten.length := by
  rw [beside, flatten_append, length_append, flatten_shifted, length_map]

end Wasm89
