import EightyNine.Cat89.StoreOk

/-!
# libcat89: what is built is what was recorded

A build succeeds exactly on the tables of a category.  The store it makes represents
them (`Represents`), now and in every later world: the operations, the equality and
the enumeration of the category are those of the tables.
-/

namespace Cat89

open Library (Decides Links)
open Relation Store Option List

/-! ## Vectors and builders -/

theorem vecGrowCap_error {cap elem : Nat} {st : Status} (h : vecGrowCap cap elem = .error st) :
    st = .nomem := by
  rw [vecGrowCap, vecNewCap] at h
  split at h
  next hcap =>
    split at hcap
    · cases hcap
    · rw [sizeAdd] at hcap
      split at hcap
      · cases hcap
        exact (Except.error.inj h).symm
      · cases hcap
  next =>
    rw [sizeMul] at h
    split at h
    next hmul =>
      split at hmul
      · cases hmul
        exact (Except.error.inj h).symm
      · cases hmul
    next => cases h

theorem Vec.push_cases {α : Type} {elem : Nat} (room : Bool) (v : Vec α elem) (x : α) :
    v.push room x = (.nomem, v) ∨
      ∃ w : Vec α elem, v.push room x = (.ok, w) ∧ w.data = v.data ++ [x] := by
  rw [Vec.push]
  split
  · split
    next st hcap =>
      left
      rw [vecGrowCap_error hcap]
    next =>
      cases room
      · left
        rfl
      · right
        exact ⟨_, rfl, rfl⟩
  · right
    exact ⟨_, rfl, rfl⟩

theorem Builder.length_le {α : Type} {elem n : Nat} (v : Vec α elem) (hn : n ≤ elem) :
    v.data.length * n ≤ ulongMax :=
  (Nat.mul_le_mul v.le_cap hn).trans v.fits

namespace Builder

variable {b : Builder} {room : Bool} {c : BuilderCall}

theorem call_failed (h : (b.call room c).1 ≠ .ok) : (b.call room c).2 = b := by
  cases c with
  | addObject =>
    rcases Vec.push_cases room b.ident finSentinel with hp | ⟨w, hp, -⟩
    · simp [call, Cat89.addObject, hp]
    · simp [call, Cat89.addObject, hp] at h
  | addMorphism dom cod =>
    simp only [call, Cat89.addMorphism] at h ⊢
    split_ifs with hd hc
    · rfl
    · rfl
    · rw [if_neg hd, if_neg hc] at h
      rcases Vec.push_cases room b.mors ⟨dom, cod⟩ with hp | ⟨w, hp, -⟩
      · simp [hp]
      · simp [hp] at h
  | setIdentity obj mor =>
    simp only [call, Cat89.setIdentity] at h ⊢
    split_ifs with ho hm
    · rfl
    · rfl
    · rw [if_neg ho, if_neg hm] at h
      exact absurd rfl h
  | setComposition g f result =>
    simp only [call, Cat89.setComposition] at h ⊢
    split_ifs with hg hf hr
    · rfl
    · rfl
    · rfl
    · rw [if_neg hg, if_neg hf, if_neg hr] at h
      rcases Vec.push_cases room b.comps ⟨g, f, result⟩ with hp | ⟨w, hp, -⟩
      · simp [hp]
      · simp [hp] at h

theorem call_ends (hb : b.tables.Ends) : (b.call room c).2.tables.Ends := by
  cases c with
  | addObject =>
    rcases Vec.push_cases room b.ident finSentinel with hp | ⟨w, hp, hw⟩
    · simpa [call, Cat89.addObject, hp] using hb
    · simp only [call, Cat89.addObject, hp]
      intro f x y hf
      have hlen : w.data.length = b.ident.data.length + 1 := by simp [hw]
      obtain ⟨hx, hy⟩ := hb f x y hf
      exact ⟨(hx.trans (Nat.lt_succ_self _)).trans_eq hlen.symm,
        (hy.trans (Nat.lt_succ_self _)).trans_eq hlen.symm⟩
  | addMorphism dom cod =>
    simp only [call, Cat89.addMorphism]
    split_ifs with hd hc
    · exact hb
    · exact hb
    · rcases Vec.push_cases room b.mors ⟨dom, cod⟩ with hp | ⟨w, hp, hw⟩
      · simpa [hp] using hb
      · simp only [hp]
        intro f x y hf
        have hf' : (b.mors.data ++ [⟨dom, cod⟩])[f]? = some ⟨x, y⟩ := hw ▸ hf
        rcases Nat.lt_or_ge f b.mors.data.length with hlt | hge
        · rw [getElem?_append_left hlt] at hf'
          exact hb f x y hf'
        · rw [getElem?_append_right hge] at hf'
          obtain ⟨hi, heq⟩ := List.getElem?_eq_some_iff.1 hf'
          rw [getElem_singleton] at heq
          cases heq
          exact ⟨not_le.1 hd, not_le.1 hc⟩
  | setIdentity obj mor =>
    simp only [call, Cat89.setIdentity]
    split_ifs with ho hm
    · exact hb
    · exact hb
    · intro f x y hf
      have hlen : (b.ident.set obj mor).data.length = b.ident.data.length := length_set
      obtain ⟨hx, hy⟩ := hb f x y hf
      exact ⟨hx.trans_eq hlen.symm, hy.trans_eq hlen.symm⟩
  | setComposition g f result =>
    simp only [call, Cat89.setComposition]
    split_ifs with hg hf hr
    · exact hb
    · exact hb
    · exact hb
    · exact hb

/-- What `cat89_finite_validate` answers. -/
theorem validate_decides (hb : b.tables.Ends) : Decides (finiteValidate b) b.tables.IsCategory := by
  refine Tables.builderValid_decides ?_ hb
  have := length_le b.mors (show 1 ≤ 16 by omega)
  rwa [Nat.mul_one] at this

/-! ## Building -/

theorem allocUlArray_ok {mem : Option Nat} {n : Nat} (hmem : mem.isSome) (hn : n * 8 ≤ ulongMax) :
    allocUlArray mem n = .ok := by
  rw [allocUlArray]
  split
  · rfl
  · rw [sizeMul_of_le hn (by decide)]
    cases mem with
    | none => cases hmem
    | some m => rfl

theorem storeBuild_copies {mem : Answers} {t : Tables} {s : Store}
    (h : storeBuild mem t = .ok s) : s.Copies t := by
  rw [storeBuild] at h
  split at h
  · cases h
  · split at h
    · cases h
      refine ⟨rfl, rfl, rfl, rfl, rfl, rfl, rfl, rfl, rfl, rfl, ?_, ?_, .nil⟩
      · simp
      · simp
    · cases h

theorem storeBuild_ok {mem : Answers} (hmem : ∀ site, (mem site).isSome) :
    ∃ s, storeBuild mem b.tables = .ok s := by
  have hsome : ∀ site, (mem site).isNone = false := by
    intro site
    rw [isNone_eq_false_iff]
    exact hmem site
  have hobj : b.tables.ident.length * 8 ≤ ulongMax := length_le b.ident le_rfl
  have hmor : b.tables.mors.length * 8 ≤ ulongMax := length_le b.mors (by omega)
  have hcomp : b.tables.comps.length * 8 ≤ ulongMax := length_le b.comps (by omega)
  have harrays : storeAllocArrays mem b.tables.ident.length b.tables.mors.length
      b.tables.comps.length = .ok := by
    simp [storeAllocArrays, firstFailure, allocUlArray_ok (hmem _) hobj,
      allocUlArray_ok (hmem _) hmor, allocUlArray_ok (hmem _) hcomp, hsome]
  rw [storeBuild, hsome, harrays]
  exact ⟨_, rfl⟩

theorem buildCommon_copies {check : Bool} {mem : Answers} {eq enum : Bool} {s : Store}
    (h : buildCommon b check mem eq enum = some (.ok s)) :
    (check = true → b.tables.builderValid = some true) ∧ s.Copies b.tables := by
  rw [buildCommon] at h
  split at h
  next => cases h
  next => cases h
  next hvalid =>
    split at h
    next => cases h
    next store hstore =>
      refine ⟨fun hcheck => by rwa [if_pos hcheck] at hvalid, ?_⟩
      split at h
      · cases h
      · split at h
        · cases h
        · split at h
          · cases h
          · cases h
            exact storeBuild_copies hstore

theorem build_copies {mem : Answers} {eq enum : Bool} {s : Store}
    (h : finiteBuild b mem eq enum = some (.ok s)) :
    b.tables.builderValid = some true ∧ s.Copies b.tables := by
  obtain ⟨hvalid, hcopies⟩ := buildCommon_copies h
  exact ⟨hvalid rfl, hcopies⟩

/-- With memory, a build succeeds exactly on the tables of a category. -/
theorem build_iff (hb : b.tables.Ends) {mem : Answers} (hmem : ∀ site, (mem site).isSome)
    (eq enum : Bool) :
    (∃ s, finiteBuild b mem eq enum = some (.ok s)) ↔ b.tables.IsCategory := by
  have hvalid := (validate_decides hb).iff
  constructor
  · rintro ⟨s, h⟩
    exact hvalid.1 (build_copies h).1
  · intro ht
    obtain ⟨s, hs⟩ := storeBuild_ok (b := b) hmem
    have hsome : ∀ site, (mem site).isNone = false := by
      intro site
      rw [isNone_eq_false_iff]
      exact hmem site
    refine ⟨s, ?_⟩
    have hb' : b.tables.builderValid = some true := hvalid.2 ht
    rw [finiteBuild, buildCommon, if_pos rfl, hb', hs]
    simp [hsome]

end Builder

/-! ## The built category -/

/-- The category on the store is the one the tables give. -/
structure Represents (s : Store) (t : Tables) : Prop where
  owned : ∀ m, s.finOwnsMor m = true → ∃ i a b, s.Denotes m i ∧ t.Typed i a b
  dom : ∀ {mem m i a b}, s.Denotes m i → t.Typed i a b →
    Cat89.dom (finOps mem) s m = some (.ok (s.objOf a))
  cod : ∀ {mem m i a b}, s.Denotes m i → t.Typed i a b →
    Cat89.cod (finOps mem) s m = some (.ok (s.objOf b))
  identity : ∀ {a e p}, t.ident[a]? = some e → s.Fresh p →
    ∃ s', Cat89.identity (finOps (some p)) s (s.objOf a) = some (.ok (p, s')) ∧ s'.Denotes p e
  compose : ∀ {g f j i a b c r p}, s.Denotes g j → s.Denotes f i → t.Typed i a b →
    t.Typed j b c → t.Comp j i r → s.Fresh p →
    ∃ s', Cat89.compose (finOps (some p)) s g f = some (.ok (p, s')) ∧ s'.Denotes p r
  compose_domain : ∀ {mem g f j i a b b' c}, s.Denotes g j → s.Denotes f i → t.Typed i a b →
    t.Typed j b' c → b ≠ b' → Cat89.compose (finOps mem) s g f = some (.error .domain)
  objEqual : ∀ {mem a b}, a < t.ident.length → b < t.ident.length →
    Cat89.objEqual (finOps mem) s finEqOps (s.objOf a) (s.objOf b) = some (.ok (decide (a = b)))
  morEqual : ∀ {mem f g i j}, s.Denotes f i → s.Denotes g j →
    Cat89.morEqual (finOps mem) s finEqOps f g = some (.ok (decide (i = j)))
  objNext : ∀ next < t.ident.length, s.objIterNext next = (some (s.objOf next), next + 1)
  morNext : ∀ {next p}, next < t.mors.length → s.Fresh p →
    ∃ s', s.morIterNext (some p) next = .ok (some p, next + 1, s') ∧ s'.Denotes p next
  objects : ∀ objs, s.ObjDrain 0 objs → objs = (range t.ident.length).map s.objOf
  morphisms : ∀ rows, s.MorDrain 0 rows → rows = range t.mors.length

namespace Store

variable {s s' : Store} {t : Tables} {mem : Option Nat} {a b c f g i j m : Nat}

theorem Copies.finDom_eq (hs : s.Copies t) (hm : s.Denotes m i) (hi : t.Typed i a b) :
    s.finDom m = some (.ok (s.objOf a)) := by
  obtain ⟨refs, hm⟩ := hm
  rw [finDom, hm, bind_some, hs.dom_eq hi]
  rfl

theorem Copies.finCod_eq (hs : s.Copies t) (hm : s.Denotes m i) (hi : t.Typed i a b) :
    s.finCod m = some (.ok (s.objOf b)) := by
  obtain ⟨refs, hm⟩ := hm
  rw [finCod, hm, bind_some, hs.cod_eq hi]
  rfl

theorem Copies.compose_eq (hs : s.Copies t) (hg : s.Denotes g j) (hf : s.Denotes f i)
    (hi : t.Typed i a b) {b' : Nat} (hj : t.Typed j b' c) :
    Cat89.compose (finOps mem) s g f =
      if b = b' then s.finCompose mem g f else some (.error .domain) := by
  have hcod : (finOps mem).cod s f = some (.ok (s.objOf b)) := hs.finCod_eq hf hi
  have hdom : (finOps mem).dom s g = some (.ok (s.objOf b')) := hs.finDom_eq hg hj
  have hsame : (finOps mem).objSame s (s.objOf b) (s.objOf b') = some (decide (b = b')) := by
    by_cases hb : b = b'
    · simp [finOps, hb]
    · simp [finOps, objOf, hb]
  have hog : (finOps mem).ownsMor s g = true := hg.owned
  have hof : (finOps mem).ownsMor s f = true := hf.owned
  rw [Cat89.compose, hog, hof, if_neg (by simp), if_neg (by simp), composeOwned, hcod, hdom]
  by_cases hb : b = b'
  · subst hb
    simp only [hsame, decide_true, if_true]
    rfl
  · simp only [hsame, hb, decide_false, if_false]

theorem Copies.finCompose_eq (hs : s.Copies t) (hlen : t.mors.length ≤ finSentinel)
    (hg : s.Denotes g j) (hf : s.Denotes f i) {r p : Nat} (hr : t.Comp j i r)
    (hlt : r < t.mors.length) : s.finCompose (some p) g f = some (.ok (p, s.withMor p r)) := by
  obtain ⟨grefs, hg⟩ := hg
  obtain ⟨frefs, hf⟩ := hf
  rw [finCompose, hg, bind_some, hf, bind_some, hs.storeComp_comp hr,
    map_some, if_neg (by omega), hs.morMake]

/-- The objects still to come are those from `next` on. -/
theorem ObjDrain.eq_range {next : Nat} {objs : List Nat} (h : s.ObjDrain next objs)
    (hs : s.Copies t) (ht : t.Total) (hnext : next ≤ t.ident.length) :
    objs = (range' next (t.ident.length - next)).map s.objOf := by
  induction h with
  | @done s next next' h =>
    rw [objIterNext] at h
    split at h
    next hle =>
      have : t.ident.length - next = 0 := by
        have := hs.nObj
        omega
      rw [this]
      rfl
    next => cases h
  | @next s next next' a objs h hrest ih =>
    rw [objIterNext] at h
    split at h
    next => cases h
    next hlt =>
      cases h
      have hn := hs.nObj
      have hsucc : t.ident.length - next = (t.ident.length - (next + 1)) + 1 := by omega
      rw [ih hs (by omega), hsucc, range'_succ, map_cons]
  | wait h hrest ih =>
    obtain ⟨hs', hmem, -⟩ := hs.step ht h
    rw [ih hs' hnext]
    refine map_congr_left fun a _ => ?_
    rw [objOf, objOf, hmem]

theorem MorDrain.eq_range {next : Nat} {rows : List Nat} (h : s.MorDrain next rows)
    (hs : s.Copies t) (ht : t.Total) (hnext : next ≤ t.mors.length) :
    rows = range' next (t.mors.length - next) := by
  induction h with
  | @done s s' mem next next' h =>
    rw [morIterNext] at h
    split at h
    next hle =>
      have : t.mors.length - next = 0 := by
        have := hs.nMor
        omega
      rw [this]
      rfl
    next =>
      split at h <;> cases h
  | @next s s' mem next next' m i rows hmem h hi hrest ih =>
    have hmade := hs.morNext_made hmem h
    rw [morIterNext] at h
    split at h
    next => cases h
    next hlt =>
      split at h
      next => cases h
      next p s'' hmake =>
        cases h
        obtain ⟨rfl, rfl⟩ := morMake_ok hs hmake
        obtain rfl := hi.unique denotes_withMor
        have hn := hs.nMor
        have hs' := hs.withMor (hmem _ rfl) (show i < t.mors.length by omega)
        have hsucc : t.mors.length - i = (t.mors.length - (i + 1)) + 1 := by omega
        rw [ih hs' (by omega), hsucc, range'_succ]
  | wait h hrest ih => exact ih (hs.step ht h).1 hnext

theorem Copies.represents (hs : s.Copies t) (ht : t.Total)
    (hlen : t.mors.length ≤ finSentinel) : Represents s t where
  owned m hm := by
    rw [finOwnsMor, Links.owns_eq, isSome_iff_exists] at hm
    obtain ⟨h, hm⟩ := hm
    have hden := denotes_of_cread hm
    obtain ⟨refs, hlink⟩ := hden.link
    obtain ⟨a, b, htyped⟩ := Tables.typed_of_lt (hs.index _ hlink)
    exact ⟨h.index, a, b, hden, htyped⟩
  dom {mem m i a b} hm hi := by
    have hown : (finOps mem).ownsMor s m = true := hm.owned
    rw [Cat89.dom, hown, if_neg (by simp)]
    exact hs.finDom_eq hm hi
  cod {mem m i a b} hm hi := by
    have hown : (finOps mem).ownsMor s m = true := hm.owned
    rw [Cat89.cod, hown, if_neg (by simp)]
    exact hs.finCod_eq hm hi
  identity {a e p} he hp := by
    obtain ⟨hown, hid⟩ := hs.objIdOf (List.getElem?_eq_some_iff.1 he).1
    have hown' : (finOps (some p)).ownsObj s (s.objOf a) = true := hown
    refine ⟨s.withMor p e, ?_, denotes_withMor⟩
    rw [Cat89.identity, hown', if_neg (by simp)]
    change s.finIdentity (some p) (s.objOf a) = _
    rw [finIdentity, hid, hs.ident, he, map_some, hs.morMake]
  compose {g f j i a b c r p} hg hf hi hj hr hp := by
    obtain ⟨r', hr', htyped⟩ := ht.complete hi hj
    obtain rfl := hr.unique hr'
    refine ⟨s.withMor p r, ?_, denotes_withMor⟩
    rw [hs.compose_eq hg hf hi hj, if_pos rfl, hs.finCompose_eq hlen hg hf hr htyped.lt]
  compose_domain hg hf hi hj hne := by rw [hs.compose_eq hg hf hi hj, if_neg hne]
  objEqual {mem a b} ha hb := by
    obtain ⟨hownA, hidA⟩ := hs.objIdOf ha
    obtain ⟨hownB, hidB⟩ := hs.objIdOf hb
    have hownA' : (finOps mem).ownsObj s (s.objOf a) = true := hownA
    have hownB' : (finOps mem).ownsObj s (s.objOf b) = true := hownB
    rw [Cat89.objEqual, hownA', hownB', if_neg (by simp), if_neg (by simp)]
    simp only [finEqOps, hidA, hidB]
    rfl
  morEqual {mem f g i j} hf hg := by
    have hownF : (finOps mem).ownsMor s f = true := hf.owned
    have hownG : (finOps mem).ownsMor s g = true := hg.owned
    rw [Cat89.morEqual, hownF, hownG, if_neg (by simp), if_neg (by simp)]
    obtain ⟨frefs, hf⟩ := hf
    obtain ⟨grefs, hg⟩ := hg
    simp only [finEqOps, hf, hg, bind_some, map_some]
    rfl
  objNext next hnext := by
    rw [objIterNext, if_neg (by rw [hs.nObj]; omega)]
  morNext {next p} hnext hp := by
    refine ⟨s.withMor p next, ?_, denotes_withMor⟩
    rw [morIterNext, if_neg (by rw [hs.nMor]; omega), hs.morMake]
  objects objs h := by
    rw [h.eq_range hs ht (Nat.zero_le _), Nat.sub_zero, range_eq_range']
  morphisms rows h := by
    rw [h.eq_range hs ht (Nat.zero_le _), Nat.sub_zero, range_eq_range']

end Store

/-! ## Runs -/

theorem World.Reached.ends {w : World} (hw : w.Reached) {b : Builder} (hb : w.builder = some b) :
    b.tables.Ends := by
  induction hw generalizing b with
  | refl => cases hb
  | tail _ hstep ih =>
    cases hstep with
    | new =>
      cases hb
      intro f x y hf
      cases hf
    | call b₀ stores room c =>
      cases hb
      exact Builder.call_ends (ih rfl)
    | release => cases hb
    | build h | category hk h => exact ih hb

/-- A store keeps its place and its copy, whatever is called. -/
theorem World.Steps.copies {w w' : World} (hw : w.Steps w') {k : Nat} {s : Store} {t : Tables}
    (ht : t.Total) (hk : w.stores[k]? = some s) (hs : s.Copies t) :
    ∃ s', w'.stores[k]? = some s' ∧ s'.Copies t := by
  induction hw with
  | refl => exact ⟨s, hk, hs⟩
  | tail _ hstep ih =>
    obtain ⟨s', hk', hs'⟩ := ih
    cases hstep with
    | new | call | release => exact ⟨s', hk', hs'⟩
    | build h =>
      refine ⟨s', ?_, hs'⟩
      rw [getElem?_append_left (List.getElem?_eq_some_iff.1 hk').1]
      exact hk'
    | @category b stores k₀ s₀ s₁ hk₀ h =>
      by_cases hkk : k₀ = k
      · subst hkk
        obtain rfl := some.inj (hk₀.symm.trans hk')
        refine ⟨s₁, ?_, (hs'.step ht h).1⟩
        exact getElem?_set_self (List.getElem?_eq_some_iff.1 hk').1
      · refine ⟨s', ?_, hs'⟩
        rw [getElem?_set_ne hkk]
        exact hk'

/-- The finite backend is exactly the categories: the tables of a builder are valid, and
build, just when they form a category, and what is built represents them for good. -/
theorem finite_exact {w : World} {b : Builder} (hw : w.Reached) (hb : w.builder = some b) :
    (∀ room c, (b.call room c).1 ≠ .ok → (b.call room c).2 = b) ∧
    (∃ v, finiteValidate b = some v ∧ (v = true ↔ b.tables.IsCategory)) ∧
    (∀ mem eq enum, (∀ site, (mem site).isSome) →
      ((∃ s, finiteBuild b mem eq enum = some (.ok s)) ↔ b.tables.IsCategory)) ∧
    ∀ mem eq enum s, finiteBuild b mem eq enum = some (.ok s) →
      ∀ w', World.Steps ⟨w.builder, w.stores ++ [s]⟩ w' →
        ∃ s', w'.stores[w.stores.length]? = some s' ∧ Represents s' b.tables ∧
          ∀ s'', s'.Step s'' → s'.Keeps s'' := by
  have hends := hw.ends hb
  refine ⟨fun _ _ => Builder.call_failed, Builder.validate_decides hends,
    fun mem eq enum hmem => Builder.build_iff hends hmem eq enum, ?_⟩
  intro mem eq enum s hbuild w' hw'
  obtain ⟨hvalid, hcopies⟩ := Builder.build_copies hbuild
  have ht : b.tables.IsCategory := (Builder.validate_decides hends).iff.1 hvalid
  have hlast : (w.stores ++ [s])[w.stores.length]? = some s := getElem?_concat_length
  obtain ⟨s', hs', hcopies'⟩ := hw'.copies ht.total hlast hcopies
  have hlen : b.tables.mors.length ≤ finSentinel := by
    have := Builder.length_le b.mors (show 1 ≤ 16 by omega)
    rwa [Nat.mul_one] at this
  exact ⟨s', hs', hcopies'.represents ht.total hlen, fun s'' hstep => (hcopies'.step ht.total hstep).2⟩

/-- A builder of the category with one morphism. -/
def oneBuilder : Builder :=
  let b := (builderNew.call true .addObject).2
  let b := (b.call true (.addMorphism 0 0)).2
  let b := (b.call true (.setIdentity 0 0)).2
  (b.call true (.setComposition 0 0 0)).2

theorem oneBuilder_reached : World.Reached ⟨some oneBuilder, []⟩ :=
  ((((ReflTransGen.single (.new [])).tail (.call _ _ true .addObject)).tail
    (.call _ _ true (.addMorphism 0 0))).tail (.call _ _ true (.setIdentity 0 0))).tail
    (.call _ _ true (.setComposition 0 0 0))

theorem finite_exact_one :
    finiteValidate oneBuilder = some true ∧ oneBuilder.tables.IsCategory ∧
      ∃ s, finiteBuild oneBuilder (fun _ => some 4096) true true = some (.ok s) := by
  obtain ⟨-, ⟨v, hv, hiff⟩, hbuild, -⟩ := finite_exact oneBuilder_reached rfl
  have hvalid : finiteValidate oneBuilder = some true := by decide
  have ht : oneBuilder.tables.IsCategory := by
    rw [hvalid, some_inj] at hv
    exact hiff.1 hv.symm
  exact ⟨hvalid, ht, (hbuild _ true true fun _ => rfl).2 ht⟩

end Cat89
