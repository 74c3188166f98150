import EightyNine.Cat89.Finite
import Mathlib.Logic.Relation

/-!
# libcat89: the finite backend is exactly the categories

`IsCategory` says when tables form a category.  `cat89_finite_validate` decides it on
the tables of every builder (`builderValid_decides`): what a pass reads is there
because the passes before it succeeded or because the builder checked it.  The store
of a build is a copy of the tables (`Store.Copies`), and no operation of the built
category changes it.
-/

namespace Cat89

open Library (Decides checkThen checkAll)
open Relation Option List

/-! ## Categories given by tables -/

namespace Tables

variable {t : Tables} {a b c d e f g h r : Nat}

/-- The morphism `f` goes from `a` to `b`. -/
def Typed (t : Tables) (f a b : Nat) : Prop := t.mors[f]? = some ⟨a, b⟩

/-- The results of the composition rows for `g` and `f`. -/
def results (t : Tables) (g f : Nat) : List Nat :=
  (t.comps.filter fun row => row.g = g ∧ row.f = f).map CompositionRow.result

/-- There is one row for `g` and `f`, and its result is `r`. -/
def Comp (t : Tables) (g f r : Nat) : Prop := t.results g f = [r]

/-- The tables form a category. -/
structure IsCategory (t : Tables) : Prop where
  identity : ∀ a < t.ident.length, ∃ e, t.ident[a]? = some e ∧ t.Typed e a a
  complete : ∀ {f g a b c}, t.Typed f a b → t.Typed g b c → ∃ r, t.Comp g f r ∧ t.Typed r a c
  composable : ∀ row ∈ t.comps, ∃ a b c, t.Typed row.f a b ∧ t.Typed row.g b c
  assoc : ∀ {f g h a b c d gf hg}, t.Typed f a b → t.Typed g b c → t.Typed h c d →
    t.Comp g f gf → t.Comp h g hg → ∃ r, t.Comp h gf r ∧ t.Comp hg f r
  left_unit : ∀ {f a b e}, t.Typed f a b → t.ident[b]? = some e → t.Comp e f f
  right_unit : ∀ {f a b e}, t.Typed f a b → t.ident[a]? = some e → t.Comp f e f

/-- The tables give every identity and every composite, each with the ends it should have. -/
structure Total (t : Tables) : Prop where
  identity : ∀ a < t.ident.length, ∃ e, t.ident[a]? = some e ∧ t.Typed e a a
  complete : ∀ {f g a b c}, t.Typed f a b → t.Typed g b c → ∃ r, t.Comp g f r ∧ t.Typed r a c
  composable : ∀ row ∈ t.comps, ∃ a b c, t.Typed row.f a b ∧ t.Typed row.g b c

theorem IsCategory.total (ht : t.IsCategory) : t.Total :=
  ⟨ht.identity, ht.complete, ht.composable⟩

theorem Typed.lt (hf : t.Typed f a b) : f < t.mors.length :=
  (List.getElem?_eq_some_iff.1 hf).1

theorem Typed.unique (hf : t.Typed f a b) (hf' : t.Typed f c d) : a = c ∧ b = d := by
  have := hf.symm.trans hf'
  simpa using this

theorem typed_of_lt (hf : f < t.mors.length) : ∃ a b, t.Typed f a b :=
  ⟨t.mors[f].dom, t.mors[f].cod, getElem?_eq_getElem hf⟩

theorem mem_results : r ∈ t.results g f ↔ ⟨g, f, r⟩ ∈ t.comps := by
  simp only [results, List.mem_map, mem_filter, decide_eq_true_eq]
  constructor
  · rintro ⟨row, ⟨hrow, rfl, rfl⟩, rfl⟩
    exact hrow
  · intro hrow
    exact ⟨⟨g, f, r⟩, ⟨hrow, rfl, rfl⟩, rfl⟩

theorem Comp.mem (hc : t.Comp g f r) : ⟨g, f, r⟩ ∈ t.comps :=
  mem_results.1 (by rw [show t.results g f = [r] from hc]; exact mem_singleton_self r)

theorem Comp.unique {r' : Nat} (hc : t.Comp g f r) (hc' : t.Comp g f r') : r = r' := by
  have := hc.symm.trans hc'
  simpa using this

/-- `comp_lookup` finds the last result and counts them all. -/
theorem compLookup_eq : t.compLookup g f = ((t.results g f).getLastD 0, (t.results g f).length) := by
  have hfold : ∀ (rows : List CompositionRow) (seen : List Nat),
      rows.foldl (compLookupRow g f) (seen.getLastD 0, seen.length) =
        ((seen ++ (rows.filter fun row => row.g = g ∧ row.f = f).map
            CompositionRow.result).getLastD 0,
          (seen ++ (rows.filter fun row => row.g = g ∧ row.f = f).map
            CompositionRow.result).length) := by
    intro rows
    induction rows with
    | nil =>
      intro seen
      simp
    | cons row rows ih =>
      intro seen
      by_cases hrow : row.g = g ∧ row.f = f
      · have hstep : compLookupRow g f (seen.getLastD 0, seen.length) row =
            ((seen ++ [row.result]).getLastD 0, (seen ++ [row.result]).length) := by
          simp [compLookupRow, hrow]
        rw [foldl_cons, hstep, ih]
        simp [hrow]
      · have hstep : compLookupRow g f (seen.getLastD 0, seen.length) row =
            (seen.getLastD 0, seen.length) := by
          rw [compLookupRow]
          split_ifs with hg hf
          · rfl
          · rfl
          · exact absurd ⟨not_not.1 hg, not_not.1 hf⟩ hrow
        rw [foldl_cons, hstep, ih]
        simp [hrow]
  simpa [compLookup, results] using hfold t.comps []

theorem Comp.lookup (hc : t.Comp g f r) : t.compLookup g f = (r, 1) := by
  rw [compLookup_eq, show t.results g f = [r] from hc]
  rfl

theorem comp_of_count (hc : (t.compLookup g f).2 = 1) : t.Comp g f (t.compLookup g f).1 := by
  rw [compLookup_eq] at hc ⊢
  obtain ⟨r, hr⟩ := length_eq_one_iff.1 hc
  simp [Comp, hr]

theorem comp_iff : t.Comp g f r ↔ (t.compLookup g f).2 = 1 ∧ (t.compLookup g f).1 = r := by
  constructor
  · intro hc
    simp [hc.lookup]
  · rintro ⟨hcount, rfl⟩
    exact comp_of_count hcount

/-! ## Validation -/

/-- What `cat89_finite_add_morphism` checks. -/
def Ends (t : Tables) : Prop :=
  ∀ f a b, t.Typed f a b → a < t.ident.length ∧ b < t.ident.length

theorem identRefOk_decides (hlen : t.mors.length ≤ finSentinel) (ha : a < t.ident.length) :
    Decides (t.identRefOk a) (∃ e, t.ident[a]? = some e ∧ e < t.mors.length) := by
  have he : t.ident[a]? = some t.ident[a] := getElem?_eq_getElem ha
  simp only [identRefOk, builderIdent, he, map_some, some.injEq, exists_eq_left']
  split_ifs with hs hle
  · exact .no (by omega)
  · exact .no (not_lt.2 hle)
  · exact .yes (not_le.1 hle)

theorem identTypingOk_decides (href : ∃ e, t.ident[a]? = some e ∧ e < t.mors.length) :
    Decides (t.identTypingOk a) (∃ e, t.ident[a]? = some e ∧ t.Typed e a a) := by
  obtain ⟨e, hie, hlt⟩ := href
  obtain ⟨c, d, he⟩ := typed_of_lt hlt
  have hrow : t.mors[e]? = some ⟨c, d⟩ := he
  simp only [identTypingOk, builderIdent, builderMor, hie, bind_some, hrow,
    map_some, some.injEq, exists_eq_left']
  split_ifs with hc hd
  · exact .no fun he' => hc (he.unique he').1
  · exact .no fun he' => hd (he.unique he').2
  · obtain rfl := not_not.1 hc
    obtain rfl := not_not.1 hd
    exact .yes he

/-- The row composes two morphisms that fit and has a result that does. -/
def RowTyped (t : Tables) (row : CompositionRow) : Prop :=
  ∃ a b c, t.Typed row.f a b ∧ t.Typed row.g b c ∧ t.Typed row.result a c

theorem compRowOk_decides {i : Nat} (hi : i < t.comps.length) :
    Decides (t.compRowOk i) (t.RowTyped t.comps[i]) := by
  have hrow : t.comps[i]? = some t.comps[i] := getElem?_eq_getElem hi
  rw [compRowOk, hrow, bind_some]
  generalize t.comps[i] = row
  split_ifs with hg hf hr
  · refine .no ?_
    rintro ⟨a, b, c, -, h, -⟩
    exact absurd h.lt (not_lt.2 hg)
  · refine .no ?_
    rintro ⟨a, b, c, h, -, -⟩
    exact absurd h.lt (not_lt.2 hf)
  · refine .no ?_
    rintro ⟨a, b, c, -, -, h⟩
    exact absurd h.lt (not_lt.2 hr)
  · obtain ⟨a, b, hf⟩ := typed_of_lt (not_le.1 hf)
    obtain ⟨b', c, hg⟩ := typed_of_lt (not_le.1 hg)
    obtain ⟨a', c', hr⟩ := typed_of_lt (not_le.1 hr)
    have hreads : t.builderMor row.f = some ⟨a, b⟩ ∧ t.builderMor row.g = some ⟨b', c⟩ ∧
        t.builderMor row.result = some ⟨a', c'⟩ := ⟨hf, hg, hr⟩
    simp only [hreads, bind_some, map_some]
    have hiff : t.RowTyped row ↔ b = b' ∧ a' = a ∧ c' = c := by
      constructor
      · rintro ⟨x, y, z, hxy, hyz, hxz⟩
        obtain ⟨rfl, rfl⟩ := hf.unique hxy
        obtain ⟨rfl, rfl⟩ := hg.unique hyz
        obtain ⟨rfl, rfl⟩ := hr.unique hxz
        exact ⟨rfl, rfl, rfl⟩
      · rintro ⟨rfl, rfl, rfl⟩
        exact ⟨a', b, c', hf, hg, hr⟩
    refine Decides.congr ?_ hiff.symm
    split_ifs with hb ha hc
    · exact .no fun h => hb h.1
    · exact .no fun h => ha h.2.1
    · exact .no fun h => hc h.2.2
    · exact .yes ⟨not_not.1 hb, not_not.1 ha, not_not.1 hc⟩

theorem pairCompleteOk_decides (hg : g < t.mors.length) (hf : f < t.mors.length) :
    Decides (t.pairCompleteOk g f)
      (∀ a b c, t.Typed f a b → t.Typed g b c → ∃ r, t.Comp g f r) := by
  obtain ⟨a, b, hf⟩ := typed_of_lt hf
  obtain ⟨b', c, hg⟩ := typed_of_lt hg
  have hreads : t.builderMor f = some ⟨a, b⟩ ∧ t.builderMor g = some ⟨b', c⟩ := ⟨hf, hg⟩
  simp only [pairCompleteOk, hreads, bind_some, map_some]
  split_ifs with hb hcount
  · refine .yes fun x y z hxy hyz => ?_
    obtain ⟨-, rfl⟩ := hf.unique hxy
    obtain ⟨rfl, -⟩ := hg.unique hyz
    exact absurd rfl hb
  · refine .no fun hall => ?_
    obtain rfl := not_not.1 hb
    obtain ⟨r, hr⟩ := hall a b c hf hg
    exact hcount (comp_iff.1 hr).1
  · exact .yes fun _ _ _ _ _ => ⟨_, comp_of_count (not_not.1 hcount)⟩

theorem assocTripleOk_decides {gf : Nat} (hh : h < t.mors.length) (hg : t.Typed g b c) :
    Decides (t.assocTripleOk h g f gf) (∀ d, t.Typed h c d →
      (t.compLookup (t.compLookup h g).1 f).1 = (t.compLookup h gf).1) := by
  obtain ⟨c', d, hh⟩ := typed_of_lt hh
  have hreads : t.builderMor h = some ⟨c', d⟩ ∧ t.builderMor g = some ⟨b, c⟩ := ⟨hh, hg⟩
  simp only [assocTripleOk, hreads, bind_some, map_some]
  split_ifs with hc hne
  · exact .yes fun d' hd' => absurd (hh.unique hd').1 hc
  · refine .no fun hall => ?_
    obtain rfl := not_not.1 hc
    exact hne (hall d hh)
  · exact .yes fun _ _ => not_not.1 hne

/-- The lookups of the two ways round agree at `g` and `f`. -/
def LookupsAssoc (t : Tables) (g f : Nat) : Prop :=
  ∀ a b c, t.Typed f a b → t.Typed g b c → ∀ h < t.mors.length, ∀ d, t.Typed h c d →
    (t.compLookup (t.compLookup h g).1 f).1 = (t.compLookup h (t.compLookup g f).1).1

theorem assocPairOk_decides (hg : g < t.mors.length) (hf : f < t.mors.length) :
    Decides (t.assocPairOk g f) (t.LookupsAssoc g f) := by
  obtain ⟨a, b, hf⟩ := typed_of_lt hf
  obtain ⟨b', c, hg⟩ := typed_of_lt hg
  have hreads : t.builderMor f = some ⟨a, b⟩ ∧ t.builderMor g = some ⟨b', c⟩ := ⟨hf, hg⟩
  simp only [assocPairOk, hreads, bind_some]
  split_ifs with hb
  · refine .yes fun x y z hxy hyz => ?_
    obtain ⟨-, rfl⟩ := hf.unique hxy
    obtain ⟨rfl, -⟩ := hg.unique hyz
    exact absurd rfl hb
  · obtain rfl := not_not.1 hb
    refine (Decides.all fun h hh => assocTripleOk_decides hh hg).congr ⟨?_, ?_⟩
    · intro hall x y z hxy hyz h hh d hd
      obtain ⟨-, rfl⟩ := hg.unique hyz
      exact hall h hh d hd
    · intro hall h hh d hd
      exact hall a b c hf hg h hh d hd

/-- The unit laws at `f`. -/
def Units (t : Tables) (f : Nat) : Prop :=
  ∀ a b, t.Typed f a b → (∀ e, t.ident[b]? = some e → t.Comp e f f) ∧
    ∀ e, t.ident[a]? = some e → t.Comp f e f

theorem identityOk_decides (hends : t.Ends) (hf : f < t.mors.length) :
    Decides (t.identityOk f) (t.Units f) := by
  obtain ⟨a, b, hf⟩ := typed_of_lt hf
  obtain ⟨ha, hb⟩ := hends f a b hf
  have hia : t.ident[a]? = some t.ident[a] := getElem?_eq_getElem ha
  have hib : t.ident[b]? = some t.ident[b] := getElem?_eq_getElem hb
  have hiff : t.Units f ↔ t.Comp t.ident[b] f f ∧ t.Comp f t.ident[a] f := by
    constructor
    · intro hu
      exact ⟨(hu a b hf).1 _ hib, (hu a b hf).2 _ hia⟩
    · rintro ⟨hl, hr⟩ x y hxy
      obtain ⟨rfl, rfl⟩ := hf.unique hxy
      constructor
      · intro e he
        obtain rfl := some.inj (hib.symm.trans he)
        exact hl
      · intro e he
        obtain rfl := some.inj (hia.symm.trans he)
        exact hr
  have hrow : t.builderMor f = some ⟨a, b⟩ := hf
  simp only [identityOk, hrow, builderIdent, hia, hib, bind_some, map_some]
  refine Decides.congr ?_ hiff.symm
  rw [comp_iff, comp_iff]
  split_ifs with h1 h2 h3 h4
  · exact .no fun h => h1 h.1.1
  · exact .no fun h => h2 h.1.2
  · exact .no fun h => h3 h.2.1
  · exact .no fun h => h4 h.2.2
  · exact .yes ⟨⟨not_not.1 h1, not_not.1 h2⟩, not_not.1 h3, not_not.1 h4⟩

/-- What the six passes find out is that the tables form a category. -/
theorem isCategory_iff : t.IsCategory ↔
    (∀ a < t.ident.length, ∃ e, t.ident[a]? = some e ∧ e < t.mors.length) ∧
    (∀ a < t.ident.length, ∃ e, t.ident[a]? = some e ∧ t.Typed e a a) ∧
    (∀ row ∈ t.comps, t.RowTyped row) ∧
    (∀ g < t.mors.length, ∀ f < t.mors.length,
      ∀ a b c, t.Typed f a b → t.Typed g b c → ∃ r, t.Comp g f r) ∧
    (∀ g < t.mors.length, ∀ f < t.mors.length, t.LookupsAssoc g f) ∧
    (∀ f < t.mors.length, t.Units f) := by
  constructor
  · intro ht
    refine ⟨fun a ha => ?_, ht.identity, fun row hrow => ?_, fun g _ f _ a b c hf hg => ?_,
      fun g _ f _ a b c hf hg h _ d hh => ?_, fun f _ a b hf => ?_⟩
    · obtain ⟨e, hie, he⟩ := ht.identity a ha
      exact ⟨e, hie, he.lt⟩
    · obtain ⟨a, b, c, hf, hg⟩ := ht.composable row hrow
      obtain ⟨r, hr, hrt⟩ := ht.complete hf hg
      have hmem : row.result ∈ t.results row.g row.f := mem_results.2 hrow
      rw [show t.results row.g row.f = [r] from hr, mem_singleton] at hmem
      exact ⟨a, b, c, hf, hg, hmem ▸ hrt⟩
    · obtain ⟨r, hr, -⟩ := ht.complete hf hg
      exact ⟨r, hr⟩
    · obtain ⟨gf, hgf, -⟩ := ht.complete hf hg
      obtain ⟨hg', hhg, -⟩ := ht.complete hg hh
      obtain ⟨r, hl, hr⟩ := ht.assoc hf hg hh hgf hhg
      rw [hgf.lookup, hhg.lookup, hl.lookup, hr.lookup]
    · exact ⟨fun e he => ht.left_unit hf he, fun e he => ht.right_unit hf he⟩
  · rintro ⟨-, hident, hrows, hcomplete, hassoc, hunits⟩
    have complete : ∀ {f g a b c}, t.Typed f a b → t.Typed g b c →
        ∃ r, t.Comp g f r ∧ t.Typed r a c := by
      intro f g a b c hf hg
      obtain ⟨r, hr⟩ := hcomplete g hg.lt f hf.lt a b c hf hg
      obtain ⟨x, y, z, hxy, hyz, hxz⟩ := hrows _ hr.mem
      obtain ⟨rfl, rfl⟩ := hf.unique hxy
      obtain ⟨-, rfl⟩ := hg.unique hyz
      exact ⟨r, hr, hxz⟩
    refine ⟨hident, complete, fun row hrow => ?_, ?_, fun hf he => (hunits _ hf.lt _ _ hf).1 _ he,
      fun hf he => (hunits _ hf.lt _ _ hf).2 _ he⟩
    · obtain ⟨a, b, c, hf, hg, -⟩ := hrows row hrow
      exact ⟨a, b, c, hf, hg⟩
    · intro f g h a b c d gf hg' hf hg hh hgf hhg
      obtain ⟨gf', hgf', hgft⟩ := complete hf hg
      obtain ⟨hg'', hhg', hhgt⟩ := complete hg hh
      obtain rfl := hgf.unique hgf'
      obtain rfl := hhg.unique hhg'
      obtain ⟨r, hr, -⟩ := complete hgft hh
      obtain ⟨r', hr', -⟩ := complete hf hhgt
      have hsame := hassoc g hg.lt f hf.lt a b c hf hg h hh.lt d hh
      rw [hgf.lookup, hhg.lookup, hr.lookup, hr'.lookup] at hsame
      exact ⟨r, hr, by rwa [← show r' = r from hsame]⟩

/-- `builder_valid` answers, and says whether the tables form a category. -/
theorem builderValid_decides (hlen : t.mors.length ≤ finSentinel) (hends : t.Ends) :
    Decides t.builderValid t.IsCategory := by
  have hrows : Decides t.validateCompRows (∀ row ∈ t.comps, t.RowTyped row) := by
    have hall : Decides t.validateCompRows
        (∀ i, i < t.comps.length → ∀ hi : i < t.comps.length, t.RowTyped t.comps[i]) :=
      Decides.all fun i hi => (compRowOk_decides hi).congr ⟨fun h _ => h, fun h => h hi⟩
    refine hall.congr ⟨fun h row hrow => ?_, fun h i _ hi => h _ (getElem_mem hi)⟩
    obtain ⟨i, hi, rfl⟩ := mem_iff_getElem.1 hrow
    exact h i hi hi
  have hcomplete : Decides t.validateCompleteness (∀ g < t.mors.length, ∀ f < t.mors.length,
      ∀ a b c, t.Typed f a b → t.Typed g b c → ∃ r, t.Comp g f r) :=
    Decides.all fun g hg => Decides.all fun f hf => pairCompleteOk_decides hg hf
  have hassoc : Decides t.validateAssociativity
      (∀ g < t.mors.length, ∀ f < t.mors.length, t.LookupsAssoc g f) :=
    Decides.all fun g hg => Decides.all fun f hf => assocPairOk_decides hg hf
  have hchecks :=
    (Decides.all fun a ha => identRefOk_decides hlen ha).andThen fun hrefs =>
    (Decides.all fun a ha => identTypingOk_decides (hrefs a ha)).andThen fun _ =>
    hrows.andThen fun _ => hcomplete.andThen fun _ => hassoc.andThen fun _ =>
    Decides.all fun f hf => identityOk_decides hends hf
  exact hchecks.congr isCategory_iff.symm

end Tables

end Cat89
