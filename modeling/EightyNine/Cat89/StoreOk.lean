import EightyNine.Cat89.FiniteOk
import EightyNine.Cat89.World
import Mathlib.Data.Finset.Card

/-!
# libcat89: built categories

The store of a build is a copy of the tables (`Store.Copies`), and no call changes
that.  Each live handle holds a reference to its store, so the count of the store is
one more than the number of handles.  These lie apart in memory, so the count never
reaches `ULONG_MAX`.
-/

namespace Cat89

open Library (Links)
open Relation Option List

/-- Numbers that lie `size` apart are few. -/
theorem length_le_of_apart {size n : Nat} {l : List Nat} (hsize : 0 < size)
    (hapart : l.Pairwise fun a b => a + size ≤ b ∨ b + size ≤ a)
    (hn : ∀ a ∈ l, a + size ≤ n * size) : l.length ≤ n := by
  have hnodup : (l.map (· / size)).Nodup := by
    refine List.Pairwise.map _ (fun a b hab => ?_) hapart
    intro heq
    have ha := Nat.div_add_mod a size
    have hb := Nat.div_add_mod b size
    have := Nat.mod_lt a hsize
    have := Nat.mod_lt b hsize
    rw [heq] at ha
    omega
  have hsub : (l.map (· / size)).toFinset ⊆ Finset.range n := by
    intro x hx
    obtain ⟨a, ha, rfl⟩ := mem_map.1 (mem_toFinset.1 hx)
    rw [Finset.mem_range, Nat.div_lt_iff_lt_mul hsize]
    have := hn a ha
    omega
  have hcard := Finset.card_le_card hsub
  rwa [toFinset_card_of_nodup hnodup, length_map, Finset.card_range] at hcard

namespace Store

variable {s s' : Store} {t : Tables} {mem : Option Nat} {a b c d e f g i j m r : Nat}

/-! ## Handles -/

theorem Denotes.owned (h : s.Denotes m i) : s.finOwnsMor m = true := by
  obtain ⟨refs, hm⟩ := h
  rw [finOwnsMor, Links.owns_eq, show s.live.find m = some ⟨refs, i⟩ from hm]
  rfl

theorem Denotes.link (h : s.Denotes m i) : ∃ refs, (m, ⟨refs, i⟩) ∈ s.live := by
  obtain ⟨refs, hm⟩ := h
  exact ⟨refs, Links.mem_of_find hm⟩

theorem Denotes.unique (h : s.Denotes m i) (h' : s.Denotes m j) : i = j := by
  obtain ⟨refs, hm⟩ := h
  obtain ⟨refs', hm'⟩ := h'
  have := hm.symm.trans hm'
  simp only [some.injEq, FinMor.mk.injEq] at this
  exact this.2

theorem denotes_of_cread {h : FinMor} (hm : s.morCread m = some h) : s.Denotes m h.index :=
  ⟨h.refs, hm⟩

/-! ## Copies -/

/-- The store holds a copy of the tables, its handles wrap rows of them, and it counts
its handles. -/
structure Copies (s : Store) (t : Tables) : Prop where
  nObj : s.nObj = t.ident.length
  nMor : s.nMor = t.mors.length
  nComp : s.nComp = t.comps.length
  dom : s.dom = t.mors.map MorphismRow.dom
  cod : s.cod = t.mors.map MorphismRow.cod
  ident : s.ident = t.ident
  cg : s.cg = t.comps.map CompositionRow.g
  cf : s.cf = t.comps.map CompositionRow.f
  cr : s.cr = t.comps.map CompositionRow.result
  refs : s.refs = s.live.length + 1
  index : ∀ link ∈ s.live, link.2.index < t.mors.length
  inSpace : ∀ link ∈ s.live, link.1 + sizeofFinMor ≤ 2 ^ 64
  apart : s.live.addresses.Pairwise fun p q => p + sizeofFinMor ≤ q ∨ q + sizeofFinMor ≤ p

theorem Copies.refs_lt (hs : s.Copies t) : s.refs < ulongMax := by
  have hlen : s.live.addresses.length ≤ 2 ^ 59 := by
    refine length_le_of_apart (show 0 < sizeofFinMor by decide) hs.apart fun p hp => ?_
    obtain ⟨link, hlink, rfl⟩ := mem_map.1 hp
    have := hs.inSpace link hlink
    rw [sizeofFinMor] at this ⊢
    omega
  rw [Links.addresses, length_map] at hlen
  rw [hs.refs, ulongMax]
  omega

/-- The store with a new handle. -/
def withMor (s : Store) (m i : Nat) : Store :=
  { s with refs := s.refs + 1, live := (m, ⟨1, i⟩) :: s.live }

theorem Copies.morMake (hs : s.Copies t) : s.morMake (some m) i = .ok (m, s.withMor m i) := by
  rw [Store.morMake, refInc_of_lt hs.refs_lt]
  rfl

theorem morMake_ok (hs : s.Copies t) (h : s.morMake mem i = .ok (m, s')) :
    mem = some m ∧ s' = s.withMor m i := by
  cases mem with
  | none =>
    rw [Store.morMake, refInc_of_lt hs.refs_lt] at h
    cases h
  | some p =>
    rw [hs.morMake] at h
    cases h
    exact ⟨rfl, rfl⟩

theorem denotes_withMor : (s.withMor m i).Denotes m i :=
  ⟨1, Links.find_cons_self⟩

theorem Copies.withMor (hs : s.Copies t) (hm : s.Fresh m) (hi : i < t.mors.length) :
    (s.withMor m i).Copies t where
  nObj := hs.nObj
  nMor := hs.nMor
  nComp := hs.nComp
  dom := hs.dom
  cod := hs.cod
  ident := hs.ident
  cg := hs.cg
  cf := hs.cf
  cr := hs.cr
  refs := by simp [Store.withMor, hs.refs]
  index := by
    simp only [Store.withMor, forall_mem_cons]
    exact ⟨hi, hs.index⟩
  inSpace := by
    simp only [Store.withMor, forall_mem_cons]
    exact ⟨hm.1, hs.inSpace⟩
  apart := by
    simp only [Store.withMor, Links.addresses, map_cons, pairwise_cons,
      List.forall_mem_map]
    exact ⟨hm.2, hs.apart⟩

/-! ## Lookups -/

theorem Copies.dom_eq (hs : s.Copies t) (hf : t.Typed f a b) : s.dom[f]? = some a := by
  have : t.mors[f]? = some ⟨a, b⟩ := hf
  simp [hs.dom, this]

theorem Copies.cod_eq (hs : s.Copies t) (hf : t.Typed f a b) : s.cod[f]? = some b := by
  have : t.mors[f]? = some ⟨a, b⟩ := hf
  simp [hs.cod, this]

theorem Copies.storeCompFrom_eq (hs : s.Copies t) {k : Nat} (hk : i + k = t.comps.length) :
    s.storeCompFrom g f i k = some ((((t.comps.drop i).filter fun row =>
      row.g = g ∧ row.f = f).map CompositionRow.result).headD finSentinel) := by
  induction k generalizing i with
  | zero =>
    have hdrop : t.comps.drop i = [] := drop_eq_nil_of_le (by omega)
    rw [hdrop]
    rfl
  | succ k ih =>
    have hi : i < t.comps.length := by omega
    have hrow : t.comps[i]? = some t.comps[i] := getElem?_eq_getElem hi
    have hcg : s.cg[i]? = some t.comps[i].g := by simp [hs.cg, hrow]
    have hcf : s.cf[i]? = some t.comps[i].f := by simp [hs.cf, hrow]
    have hcr : s.cr[i]? = some t.comps[i].result := by simp [hs.cr, hrow]
    rw [storeCompFrom, hcg, bind_some, hcf, bind_some, hcr, ih (by omega),
      drop_eq_getElem_cons hi]
    by_cases hg : t.comps[i].g = g
    · by_cases hf : t.comps[i].f = f <;> simp [-getElem_cons_drop, hg, hf]
    · simp [-getElem_cons_drop, hg]

theorem Copies.storeComp_eq (hs : s.Copies t) :
    s.storeComp g f = some ((t.results g f).headD finSentinel) := by
  rw [storeComp, hs.nComp, hs.storeCompFrom_eq (by omega)]
  rfl

theorem Copies.storeComp_comp (hs : s.Copies t) (hc : t.Comp g f r) : s.storeComp g f = some r := by
  rw [hs.storeComp_eq, show t.results g f = [r] from hc]
  rfl

/-- A result that `store_comp` finds is that of a pair that composes. -/
theorem Copies.storeComp_lt (hs : s.Copies t) (ht : t.Total) (hc : s.storeComp g f = some r)
    (hr : r ≠ finSentinel) : r < t.mors.length := by
  rw [hs.storeComp_eq, some_inj] at hc
  cases hres : t.results g f with
  | nil =>
    rw [hres] at hc
    exact absurd hc.symm hr
  | cons r' rest =>
    have hmem : r' ∈ t.results g f := by simp [hres]
    obtain ⟨a, b, c, hf, hg⟩ := ht.composable _ (Tables.mem_results.1 hmem)
    obtain ⟨r'', hr'', htyped⟩ := ht.complete hf hg
    rw [show t.results g f = [r''] from hr'', mem_singleton] at hmem
    rw [hres, headD_cons] at hc
    subst hc hmem
    exact htyped.lt

theorem Copies.objIdOf (hs : s.Copies t) (ha : a < t.ident.length) :
    s.finOwnsObj (s.objOf a) = true ∧ s.objIdOf (s.objOf a) = a := by
  have hn := hs.nObj
  refine ⟨?_, by simp [Store.objIdOf, objOf]⟩
  rw [finOwnsObj, objOf, if_neg (by omega), if_neg (by omega), if_neg (by omega)]

/-! ## Steps -/

/-- What a call makes of the store: nothing new, or one more handle. -/
def Made (s : Store) (t : Tables) (s' : Store) : Prop :=
  s' = s ∨ ∃ m i, s.Fresh m ∧ i < t.mors.length ∧ s' = s.withMor m i

theorem Copies.made (hs : s.Copies t) (hmem : s.Allows mem) (hi : i < t.mors.length)
    (h : s.morMake mem i = .ok (m, s')) : s.Made t s' := by
  obtain ⟨rfl, rfl⟩ := morMake_ok hs h
  exact .inr ⟨m, i, hmem m rfl, hi, rfl⟩

theorem Copies.identity_made (hs : s.Copies t) (ht : t.Total) (hmem : s.Allows mem)
    (h : Cat89.identity (finOps mem) s a = some (.ok (m, s'))) : s.Made t s' := by
  rw [Cat89.identity] at h
  split at h
  · cases h
  · obtain ⟨e, he, hmake⟩ := map_eq_some_iff.1 h
    rw [hs.ident] at he
    have hlt := (List.getElem?_eq_some_iff.1 he).1
    obtain ⟨e', he', htyped⟩ := ht.identity _ hlt
    obtain rfl := some.inj (he.symm.trans he')
    exact hs.made hmem htyped.lt hmake

theorem finCompose_made (hs : s.Copies t) (ht : t.Total) (hmem : s.Allows mem)
    (h : s.finCompose mem g f = some (.ok (m, s'))) : s.Made t s' := by
  obtain ⟨gm, -, h⟩ := bind_eq_some_iff.1 h
  obtain ⟨fm, -, h⟩ := bind_eq_some_iff.1 h
  obtain ⟨r, hr, h⟩ := map_eq_some_iff.1 h
  split at h
  next => cases h
  next hne => exact hs.made hmem (hs.storeComp_lt ht hr hne) h

theorem Copies.compose_made (hs : s.Copies t) (ht : t.Total) (hmem : s.Allows mem)
    (h : Cat89.compose (finOps mem) s g f = some (.ok (m, s'))) : s.Made t s' := by
  rw [Cat89.compose] at h
  split at h
  · cases h
  · split at h
    · cases h
    · obtain ⟨codF, domG, -, -, -, h⟩ := composeOwned_ok h
      exact finCompose_made hs ht hmem h

theorem Copies.morNext_made (hs : s.Copies t) {out : Option Nat} {next next' : Nat}
    (hmem : s.Allows mem) (h : s.morIterNext mem next = .ok (out, next', s')) : s.Made t s' := by
  rw [morIterNext] at h
  split at h
  next =>
    cases h
    exact .inl rfl
  next hlt =>
    split at h
    next => cases h
    next m s'' hmake =>
      cases h
      exact hs.made hmem (hs.nMor ▸ not_le.1 hlt) hmake

theorem Copies.nodup (hs : s.Copies t) : s.live.addresses.Nodup := by
  refine List.Pairwise.imp (fun {p q} hpq heq => ?_) hs.apart
  rw [heq, sizeofFinMor] at hpq
  omega

/-- The store with the count of the handle `m` changed. -/
def recount (s : Store) (m : Nat) (count : Nat → Nat) : Store :=
  { s with live := s.live.update m fun h => { h with refs := count h.refs } }

theorem Copies.recount (hs : s.Copies t) (count : Nat → Nat) : (s.recount m count).Copies t := by
  have hlive : (s.recount m count).live =
      s.live.update m fun h => { h with refs := count h.refs } := rfl
  refine ⟨hs.nObj, hs.nMor, hs.nComp, hs.dom, hs.cod, hs.ident, hs.cg, hs.cf, hs.cr, ?_, ?_, ?_, ?_⟩
  · exact hs.refs.trans (by rw [hlive, Links.update, length_map])
  · intro link hlink
    rw [hlive] at hlink
    obtain ⟨link', hmem, -, heq | heq⟩ := Links.mem_update hlink
    · rw [heq]
      exact hs.index link' hmem
    · rw [heq]
      exact hs.index link' hmem
  · intro link hlink
    rw [hlive] at hlink
    obtain ⟨link', hmem, heq, -⟩ := Links.mem_update hlink
    rw [← heq]
    exact hs.inSpace link' hmem
  · rw [hlive, Links.addresses_update]
    exact hs.apart

theorem denotes_recount (hg : s.Denotes g j) (count : Nat → Nat) :
    (s.recount m count).Denotes g j := by
  obtain ⟨refs, hg⟩ := hg
  refine ⟨if g = m then count refs else refs, ?_⟩
  rw [morCread, Store.recount, Links.find_update, show s.live.find g = some ⟨refs, j⟩ from hg,
    map_some]
  split_ifs
  · rfl
  · rfl

theorem Copies.morDispose (hs : s.Copies t) {h : FinMor} (hm : s.morCread m = some h) :
    (s.morDispose m).Copies t := by
  have hsub : (s.live.unlink m).Sublist s.live := Links.unlink_sublist
  refine ⟨hs.nObj, hs.nMor, hs.nComp, hs.dom, hs.cod, hs.ident, hs.cg, hs.cf, hs.cr, ?_, ?_, ?_, ?_⟩
  · have hlen := Links.length_unlink hm
    change (refDec s.refs).1 = (s.live.unlink m).length + 1
    rw [hs.refs, refDec_succ]
    exact hlen.symm
  · exact fun link hlink => hs.index link (hsub.subset hlink)
  · exact fun link hlink => hs.inSpace link (hsub.subset hlink)
  · exact hs.apart.sublist (hsub.map _)

theorem Copies.denotes_morDispose (hs : s.Copies t) (hg : s.Denotes g j) :
    (s.morDispose m).Denotes g j ∨ (s.morDispose m).morCread g = none := by
  by_cases hgm : g = m
  · subst hgm
    exact .inr (Links.find_unlink_self hs.nodup)
  · obtain ⟨refs, hg⟩ := hg
    exact .inl ⟨refs, (Links.find_unlink_ne hgm).trans hg⟩

/-- What a call leaves as it was: the objects, and the row of every handle that stays
live. -/
def Keeps (s s' : Store) : Prop :=
  s'.objMem = s.objMem ∧ ∀ g j, s.Denotes g j → s'.Denotes g j ∨ s'.morCread g = none

theorem Copies.step (hs : s.Copies t) (ht : t.Total) (h : s.Step s') :
    s'.Copies t ∧ s.Keeps s' := by
  have of_made : s.Made t s' → s'.Copies t ∧ s.Keeps s' := by
    rintro (rfl | ⟨m, i, hm, hi, rfl⟩)
    · exact ⟨hs, rfl, fun g j hg => .inl hg⟩
    · refine ⟨hs.withMor hm hi, rfl, fun g j hg => .inl ?_⟩
      have hgm : g ≠ m := by
        rintro rfl
        obtain ⟨refs, hmem⟩ := hg.link
        have := hm.2 _ hmem
        rw [sizeofFinMor] at this
        omega
      obtain ⟨refs, hg⟩ := hg
      refine ⟨refs, ?_⟩
      rw [← hg]
      exact Links.find_cons_ne hgm
  cases h with
  | identity hmem h => exact of_made (hs.identity_made ht hmem h)
  | compose hmem h => exact of_made (hs.compose_made ht hmem h)
  | morNext hmem h => exact of_made (hs.morNext_made hmem h)
  | @retain m h =>
    rw [finMorRetain] at h
    split at h
    · cases h
    · obtain ⟨hm, hcread, h⟩ := map_eq_some_iff.1 h
      split at h
      next => cases h
      next refs _ =>
        cases h
        exact ⟨hs.recount fun _ => refs, rfl, fun g j hg => .inl (denotes_recount hg fun _ => refs)⟩
  | @release m h =>
    rw [finMorRelease] at h
    split at h
    · cases h
      exact ⟨hs, rfl, fun g j hg => .inl hg⟩
    · obtain ⟨hm, hcread, h⟩ := map_eq_some_iff.1 h
      split at h
      · subst h
        exact ⟨hs.morDispose hcread, rfl, fun g j hg => hs.denotes_morDispose hg⟩
      · subst h
        exact ⟨hs.recount fun refs => (refDec refs).1, rfl, fun g j hg =>
          .inl (denotes_recount hg fun refs => (refDec refs).1)⟩

end Store

end Cat89
