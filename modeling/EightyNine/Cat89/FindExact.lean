import EightyNine.Cat89.FindOk

/-!
# libcat89: products, coproducts, equalizers and pullbacks are found

A candidate is accepted where each object has as many morphisms to the apex as it has
cones, and each of its cones factors: then each cone factors in one way.  Each search
tries every apex with every pair of legs, so it finds the construction if there is one.
-/

namespace Cat89

open Library List

/-! ## Universal properties -/

namespace Category

variable {Obj Mor : Type} (K : Category Obj Mor)

structure IsProduct (a b p : Obj) (pa pb : Mor) : Prop where
  hom_pa : K.Hom p a pa
  hom_pb : K.Hom p b pb
  universal : ∀ y xa xb, K.Hom y a xa → K.Hom y b xb →
    ∃! m, K.Hom y p m ∧ K.Comp pa m xa ∧ K.Comp pb m xb

structure IsCoproduct (a b s : Obj) (ia ib : Mor) : Prop where
  hom_ia : K.Hom a s ia
  hom_ib : K.Hom b s ib
  universal : ∀ y xa xb, K.Hom a y xa → K.Hom b y xb →
    ∃! u, K.Hom s y u ∧ K.Comp u ia xa ∧ K.Comp u ib xb

/-- `f` after `h` and `g` after `k` are the same. -/
def Commutes (f g h k : Mor) : Prop := ∃ r, K.Comp f h r ∧ K.Comp g k r

structure IsEqualizer (f g : Mor) (apex : Obj) (e : Mor) : Prop where
  hom_e : K.Hom apex (K.dom f) e
  equalizes : K.Commutes f g e e
  universal : ∀ w z, K.Hom w (K.dom f) z → K.Commutes f g z z →
    ∃! u, K.Hom w apex u ∧ K.Comp e u z

structure IsPullback (f g : Mor) (apex : Obj) (pX pY : Mor) : Prop where
  hom_pX : K.Hom apex (K.dom f) pX
  hom_pY : K.Hom apex (K.dom g) pY
  commutes : K.Commutes f g pX pY
  universal : ∀ w wX wY, K.Hom w (K.dom f) wX → K.Hom w (K.dom g) wY → K.Commutes f g wX wY →
    ∃! u, K.Hom w apex u ∧ K.Comp pX u wX ∧ K.Comp pY u wY

end Category

variable {Obj Mor : Type} [DecidableEq Obj] [DecidableEq Mor] {K : Category Obj Mor}
  {en : Enumeration Obj Mor} {a b p s w x y : Obj} {e f g m pa pb ia ib pX pY : Mor} {room : Bool}

omit [DecidableEq Obj] [DecidableEq Mor] in
theorem Category.Commutes.comp {h k u h' k' : Mor} (hc : K.Commutes f g h k) (hh : K.Comp h u h')
    (hk : K.Comp k u k') : K.Commutes f g h' k' := by
  obtain ⟨r, ⟨hfh, hr⟩, ⟨hgk, hr'⟩⟩ := hc
  obtain ⟨hhu, rfl⟩ := hh
  obtain ⟨hku, rfl⟩ := hk
  have hru : K.dom r = K.cod u := by rw [← hr, K.dom_comp, hhu]
  refine ⟨K.comp r u hru, ⟨hfh.trans (K.cod_comp h u hhu).symm, ?_⟩,
    hgk.trans (K.cod_comp k u hku).symm, ?_⟩
  · rw [K.assoc f h u hhu hfh]
    exact K.comp_congr hr rfl _
  · rw [K.assoc g k u hku hgk]
    exact K.comp_congr hr' rfl _

omit [DecidableEq Obj] [DecidableEq Mor] in
theorem Category.comp_hom {z : Obj} (hg : K.Hom y z g) (hf : K.Hom x y f) :
    ∃ r, K.Comp g f r ∧ K.Hom x z r := by
  have hgf : K.dom g = K.cod f := hg.1.trans hf.2.symm
  exact ⟨K.comp g f hgf, K.comp_of hgf, (K.dom_comp _ _ _).trans hf.1,
    (K.cod_comp _ _ _).trans hg.2⟩

/-! ## Products -/

theorem evaluateMediator_eq {xa xb : Mor} (ha : K.dom pa = p) (hb : K.dom pb = p)
    (hm : K.Hom y p m) : evaluateMediator K pa pb xa xb m =
      pure (decide (K.Comp pa m xa ∧ K.Comp pb m xb)) :=
  evaluate_eq (ha.trans hm.2.symm) (hb.trans hm.2.symm)

theorem objCheck_settles (hfits : en.Fits room) (ha : K.Hom p a pa) (hb : K.Hom p b pb) :
    Settles (objCheck K en.census y p a b pa pb)
      (∀ xa ∈ en.homs K y a, ∀ xb ∈ en.homs K y b,
        ∃! m, m ∈ en.homs K y p ∧ K.Comp pa m xa ∧ K.Comp pb m xb) := by
  rw [objCheck, homCount_census, homCount_census, homCount_census]
  refine objCheckRows_settles homs_nodup homs_nodup homs_nodup hfits.homs_lt ?_ ?_ ?_
  · intro m hm
    obtain ⟨xa, hxa, homa⟩ := K.comp_hom ha (mem_homs.1 hm)
    obtain ⟨xb, hxb, homb⟩ := K.comp_hom hb (mem_homs.1 hm)
    exact ⟨xa, mem_homs.2 homa, xb, mem_homs.2 homb, hxa, hxb⟩
  · exact fun m xa xb xa' xb' h h' => ⟨h.1.unique h'.1, h.2.unique h'.2⟩
  · exact fun xa _ xb _ => tally_eq fun m hm => evaluateMediator_eq ha.1 hb.1 hm

theorem isProduct_settles (hfits : en.Fits room) (ha : K.Hom p a pa) (hb : K.Hom p b pb) :
    Settles (isProduct K en.census p a b pa pb) (K.IsProduct a b p pa pb) := by
  refine (Settles.all fun y _ => objCheck_settles hfits ha hb).congr ?_
  constructor
  · intro h
    refine ⟨ha, hb, fun y xa xb hxa hxb => ?_⟩
    have := h y (en.mem_objs y) xa (mem_homs.2 hxa) xb (mem_homs.2 hxb)
    simpa only [mem_homs] using this
  · intro h y _ xa hxa xb hxb
    simpa only [mem_homs] using h.universal y xa xb (mem_homs.1 hxa) (mem_homs.1 hxb)

theorem searchProduct_finds (hfits : en.Fits room) :
    Finds (searchProduct K en.census a b) fun found =>
      K.IsProduct a b found.1 found.2.1 found.2.2 := by
  refine (firstApex_finds (Q := fun p (legs : Mor × Mor) => K.IsProduct a b p legs.1 legs.2)
    fun apex => ?_)
  refine (firstPair_finds fun pa ha pb hb =>
    isProduct_settles hfits (mem_homs.1 ha) (mem_homs.1 hb)).congr fun legs => ?_
  exact ⟨fun h => h.2.2, fun h => ⟨mem_homs.2 h.hom_pa, mem_homs.2 h.hom_pb, h⟩⟩

/-- `cat89_find_binary_product` finds a product if there is one, and its `factor` the
mediator of each cone. -/
def ProductFound (K : Category Obj Mor) (en : Enumeration Obj Mor) (room : Bool) (a b : Obj) :
    Prop :=
  (∃ rx, findBinaryProduct K en room a b = .ok rx ∧ K.IsProduct a b rx.apex rx.pa rx.pb ∧
      resLeg rx rx.ptA = .ok rx.pa ∧ resLeg rx rx.ptB = .ok rx.pb ∧
      ∀ room' (candidate : Cone Obj Mor) xa xb, en.Fits room' →
        candidate.legAt rx.ptA = .ok xa → candidate.legAt rx.ptB = .ok xb →
        K.Hom candidate.apex a xa → K.Hom candidate.apex b xb →
        ∃ m, resFactor K en room' rx candidate = some (.ok m) ∧
          (K.Hom candidate.apex rx.apex m ∧ K.Comp rx.pa m xa ∧ K.Comp rx.pb m xb) ∧
          ∀ m', K.Hom candidate.apex rx.apex m' → K.Comp rx.pa m' xa ∧ K.Comp rx.pb m' xb →
            m' = m) ∨
    (findBinaryProduct K en room a b = .error .notFound ∧
      ∀ p pa pb, ¬ K.IsProduct a b p pa pb)

theorem productFound (hfits : en.Fits room) : ProductFound K en room a b := by
  rw [ProductFound, findBinaryProduct, hfits.build]
  rcases searchProduct_finds (K := K) (a := a) (b := b) hfits with
    ⟨⟨p, pa, pb⟩, hfound, hp⟩ | ⟨hfound, hnone⟩
  · refine .inl ⟨⟨some 0, some 1, p, pa, pb⟩, ?_, hp, rfl, rfl, ?_⟩
    · change (do
        let found ← searchProduct K en.census a b
        presFound .discrete2 found) = _
      rw [hfound]
      rfl
    · intro room' candidate xa xb hfits' hxa hxb homa homb
      rw [resFactor, hxa, hxb]
      exact factorCensus_ok hfits'
        (fun m hm => evaluateMediator_eq hp.hom_pa.1 hp.hom_pb.1 hm)
        (hp.universal _ xa xb homa homb)
  · refine .inr ⟨?_, fun p pa pb hp => hnone (p, pa, pb) hp⟩
    change (do
      let found ← searchProduct K en.census a b
      presFound .discrete2 found) = _
    rw [hfound]
    rfl

/-! ## Coproducts -/

theorem evaluateCol_eq {xa xb u : Mor} (ha : K.cod ia = s) (hb : K.cod ib = s)
    (hu : K.Hom s y u) : evaluateCol K ia ib xa xb u =
      pure (decide (K.Comp u ia xa ∧ K.Comp u ib xb)) :=
  evaluate_eq (hu.1.trans ha.symm) (hu.1.trans hb.symm)

theorem objCheckCol_settles (hfits : en.Fits room) (ha : K.Hom a s ia) (hb : K.Hom b s ib) :
    Settles (objCheckCol K en.census y s a b ia ib)
      (∀ xa ∈ en.homs K a y, ∀ xb ∈ en.homs K b y,
        ∃! u, u ∈ en.homs K s y ∧ K.Comp u ia xa ∧ K.Comp u ib xb) := by
  rw [objCheckCol, homCount_census, homCount_census, homCount_census]
  refine objCheckRows_settles homs_nodup homs_nodup homs_nodup hfits.homs_lt ?_ ?_ ?_
  · intro u hu
    obtain ⟨xa, hxa, homa⟩ := K.comp_hom (mem_homs.1 hu) ha
    obtain ⟨xb, hxb, homb⟩ := K.comp_hom (mem_homs.1 hu) hb
    exact ⟨xa, mem_homs.2 homa, xb, mem_homs.2 homb, hxa, hxb⟩
  · exact fun u xa xb xa' xb' h h' => ⟨h.1.unique h'.1, h.2.unique h'.2⟩
  · exact fun xa _ xb _ => tally_eq fun u hu => evaluateCol_eq ha.2 hb.2 hu

theorem isCoproduct_settles (hfits : en.Fits room) (ha : K.Hom a s ia) (hb : K.Hom b s ib) :
    Settles (isCoproduct K en.census s a b ia ib) (K.IsCoproduct a b s ia ib) := by
  refine (Settles.all fun y _ => objCheckCol_settles hfits ha hb).congr ?_
  constructor
  · intro h
    refine ⟨ha, hb, fun y xa xb hxa hxb => ?_⟩
    have := h y (en.mem_objs y) xa (mem_homs.2 hxa) xb (mem_homs.2 hxb)
    simpa only [mem_homs] using this
  · intro h y _ xa hxa xb hxb
    simpa only [mem_homs] using h.universal y xa xb (mem_homs.1 hxa) (mem_homs.1 hxb)

theorem searchCoproduct_finds (hfits : en.Fits room) :
    Finds (searchCoproduct K en.census a b) fun found =>
      K.IsCoproduct a b found.1 found.2.1 found.2.2 := by
  refine (firstApex_finds (Q := fun s (legs : Mor × Mor) => K.IsCoproduct a b s legs.1 legs.2)
    fun apex => ?_)
  refine (firstPair_finds fun ia ha ib hb =>
    isCoproduct_settles hfits (mem_homs.1 ha) (mem_homs.1 hb)).congr fun legs => ?_
  exact ⟨fun h => h.2.2, fun h => ⟨mem_homs.2 h.hom_ia, mem_homs.2 h.hom_ib, h⟩⟩

/-- The same for `cat89_find_binary_coproduct`. -/
def CoproductFound (K : Category Obj Mor) (en : Enumeration Obj Mor) (room : Bool) (a b : Obj) :
    Prop :=
  (∃ rx, findBinaryCoproduct K en room a b = .ok rx ∧ K.IsCoproduct a b rx.apex rx.pa rx.pb ∧
      resLeg rx rx.ptA = .ok rx.pa ∧ resLeg rx rx.ptB = .ok rx.pb ∧
      ∀ room' (candidate : Cone Obj Mor) xa xb, en.Fits room' →
        candidate.legAt rx.ptA = .ok xa → candidate.legAt rx.ptB = .ok xb →
        K.Hom a candidate.apex xa → K.Hom b candidate.apex xb →
        ∃ u, colFactor K en room' rx candidate = some (.ok u) ∧
          (K.Hom rx.apex candidate.apex u ∧ K.Comp u rx.pa xa ∧ K.Comp u rx.pb xb) ∧
          ∀ u', K.Hom rx.apex candidate.apex u' → K.Comp u' rx.pa xa ∧ K.Comp u' rx.pb xb →
            u' = u) ∨
    (findBinaryCoproduct K en room a b = .error .notFound ∧
      ∀ s ia ib, ¬ K.IsCoproduct a b s ia ib)

theorem coproductFound (hfits : en.Fits room) : CoproductFound K en room a b := by
  rw [CoproductFound, findBinaryCoproduct, hfits.build]
  rcases searchCoproduct_finds (K := K) (a := a) (b := b) hfits with
    ⟨⟨s, ia, ib⟩, hfound, hs⟩ | ⟨hfound, hnone⟩
  · refine .inl ⟨⟨some 0, some 1, s, ia, ib⟩, ?_, hs, rfl, rfl, ?_⟩
    · change (do
        let found ← searchCoproduct K en.census a b
        presFound .discrete2 found) = _
      rw [hfound]
      rfl
    · intro room' candidate xa xb hfits' hxa hxb homa homb
      rw [colFactor, hxa, hxb]
      exact factorCensus_ok hfits'
        (fun u hu => evaluateCol_eq hs.hom_ia.2 hs.hom_ib.2 hu)
        (hs.universal _ xa xb homa homb)
  · refine .inr ⟨?_, fun s ia ib hs => hnone (s, ia, ib) hs⟩
    change (do
      let found ← searchCoproduct K en.census a b
      presFound .discrete2 found) = _
    rw [hfound]
    rfl

/-! ## Equalizers -/

theorem evaluateLeg_eq {tar u : Mor} (he : K.dom e = p) (hu : K.Hom w p u) :
    evaluateLeg K e tar u = pure (decide (K.Comp e u tar)) := by
  have h : K.dom e = K.cod u := he.trans hu.2.symm
  rw [evaluateLeg, baseCompose_of_eq h]
  change Except.ok _ = Except.ok _
  rw [Except.ok.injEq, decide_eq_decide, K.comp_iff h]

/-- Whether two composites are the same. -/
def commutesBool (K : Category Obj Mor) (f g h k : Mor) : Bool :=
  match baseCompose K f h, baseCompose K g k with
  | .ok c1, .ok c2 => c1 = c2
  | _, _ => false

theorem commutesBool_iff {h k : Mor} (hf : K.dom f = K.cod h) (hg : K.dom g = K.cod k) :
    commutesBool K f g h k = true ↔ K.Commutes f g h k := by
  rw [commutesBool, baseCompose_of_eq hf, baseCompose_of_eq hg]
  simp only [decide_eq_true_eq]
  constructor
  · exact fun heq => ⟨_, K.comp_of hf, heq ▸ K.comp_of hg⟩
  · rintro ⟨r, hr, hr'⟩
    exact ((K.comp_iff hf).1 hr).trans ((K.comp_iff hg).1 hr').symm

theorem evaluateSame_commutes {h k : Mor} (hf : K.dom f = K.cod h) (hg : K.dom g = K.cod k) :
    evaluateSame (baseCompose K f h) (baseCompose K g k) = pure (commutesBool K f g h k) := by
  rw [evaluateSame_eq hf hg, commutesBool, baseCompose_of_eq hf, baseCompose_of_eq hg]

/-- The morphisms from `w` that `f` and `g` do not tell apart. -/
def equalized (K : Category Obj Mor) (en : Enumeration Obj Mor) (f g : Mor) (w : Obj) : List Mor :=
  en.mors.filter fun m => inHom K w (K.dom f) m && commutesBool K f g m m

theorem mem_equalized (hpar : K.dom f = K.dom g) :
    m ∈ equalized K en f g w ↔ K.Hom w (K.dom f) m ∧ K.Commutes f g m m := by
  rw [equalized, mem_filter, and_iff_right (en.mem_mors m), Bool.and_eq_true, inHom_iff]
  exact and_congr_right fun h =>
    commutesBool_iff h.2.symm (hpar.symm.trans h.2.symm)

/-- The test of `eqz_count` and `eqz_gather`. -/
theorem eqzStep_eq {α : Type} (hpar : K.dom f = K.dom g) (yes no : α) :
    (if K.dom m ≠ w then pure no
      else do
        let eqv ← eqzArrowStep K f g (K.dom f) m
        pure (if eqv then yes else no)) =
      (pure (if inHom K w (K.dom f) m && commutesBool K f g m m then yes else no) :
        Except Status α) := by
  rw [inHom]
  by_cases hdom : K.dom m = w
  · rw [if_neg (not_not.2 hdom), if_neg (not_not.2 hdom), eqzArrowStep]
    by_cases hcod : K.cod m = K.dom f
    · rw [if_neg (not_not.2 hcod), if_neg (not_not.2 hcod), eqzEqualizes,
        evaluateSame_commutes hcod.symm (hpar.symm.trans hcod.symm), pure_bind, Bool.true_and]
    · rw [if_pos hcod, if_pos hcod, pure_bind, Bool.false_and]
  · rw [if_pos hdom, if_pos hdom, Bool.false_and]
    rfl

theorem eqzCount_eq (hpar : K.dom f = K.dom g) :
    eqzCount K en.census w (K.dom f) f g = pure (equalized K en f g w).length := by
  rw [eqzCount, foldlM_pure_of fun m _ n => eqzStep_eq hpar (n + 1) n, foldl_count, Nat.zero_add,
    countP_eq_length_filter]
  rfl

theorem eqzGather_eq (hpar : K.dom f = K.dom g) :
    eqzGather K en.census w (K.dom f) f g = pure (equalized K en f g w) := by
  rw [eqzGather, foldlM_pure_of fun m _ vec => eqzStep_eq hpar (vec ++ [m]) vec]
  have hfold : ∀ (q : Mor → Bool) (l vec : List Mor),
      l.foldl (fun vec m => if q m then vec ++ [m] else vec) vec = vec ++ l.filter q := by
    intro q l
    induction l with
    | nil => simp
    | cons m l ih =>
      intro vec
      rw [foldl_cons, ih, filter_cons]
      split
      · simp
      · rfl
  rw [hfold]
  rfl

theorem eqzObjOk_settles (hpar : K.dom f = K.dom g) (he : K.Hom p (K.dom f) e)
    (heq : K.Commutes f g e e) :
    Settles (eqzObjOk K en.census w (K.dom f) p e f g)
      (∀ z ∈ equalized K en f g w, ∃! u, u ∈ en.homs K w p ∧ K.Comp e u z) := by
  have hnodup : (equalized K en f g w).Nodup := en.mors_nodup.filter _
  have hbij := bijective_iff (R := fun u z => K.Comp e u z) (l := en.homs K w p) homs_nodup hnodup
    (fun u hu => by
      obtain ⟨z, hz, homz⟩ := K.comp_hom he (mem_homs.1 hu)
      exact ⟨z, (mem_equalized hpar).2 ⟨homz, heq.comp hz hz⟩, hz⟩)
    fun u _ z z' hz hz' => hz.unique hz'
  rw [eqzObjOk, eqzCount_eq hpar, pure_bind, homCount_census]
  split
  next hne => exact .no fun h => hne (hbij.2 h).1
  next hlen =>
    rw [eqzGather_eq hpar, pure_bind, eqzCovered]
    refine (Settles.all (R := fun z => ∃ u ∈ en.homs K w p, K.Comp e u z) fun z _ => ?_).congr
      ((and_iff_right (not_not.1 hlen)).symm.trans hbij)
    rw [eqzMedCount, tally_eq fun u hu => evaluateLeg_eq he.1 hu, pure_bind, gatherIndices_census]
    exact Settles.of_decide.congr countP_homs_ne_zero

theorem isEqualizer_settles (hpar : K.dom f = K.dom g) (he : K.Hom p (K.dom f) e) :
    Settles (isEqualizer K en.census p (K.dom f) f g e) (K.IsEqualizer f g p e) := by
  have hf : K.dom f = K.cod e := he.2.symm
  have hg : K.dom g = K.cod e := hpar.symm.trans hf
  rw [isEqualizer, eqzEqualizes, evaluateSame_commutes hf hg, pure_bind]
  split
  next hno =>
    refine .no fun h => ?_
    rw [(commutesBool_iff hf hg).2 h.equalizes] at hno
    cases hno
  next hyes =>
    have heq : K.Commutes f g e e := (commutesBool_iff hf hg).1 (by simpa using hyes)
    refine (Settles.all fun w _ => eqzObjOk_settles hpar he heq).congr ?_
    constructor
    · intro h
      refine ⟨he, heq, fun w z hz hc => ?_⟩
      have := h w (en.mem_objs w) z ((mem_equalized hpar).2 ⟨hz, hc⟩)
      simpa only [mem_homs] using this
    · intro h w _ z hz
      obtain ⟨hom, hc⟩ := (mem_equalized hpar).1 hz
      simpa only [mem_homs] using h.universal w z hom hc

theorem searchEqualizer_finds (hpar : K.dom f = K.dom g) :
    Finds (searchEqualizer K en.census (K.dom f) f g) fun found =>
      K.IsEqualizer f g found.1 found.2 := by
  refine firstApex_finds (Q := fun p e => K.IsEqualizer f g p e) fun apex => ?_
  refine (Finds.some fun e he =>
    (isEqualizer_settles hpar (mem_homs.1 he)).finds e).congr fun e => ?_
  constructor
  · rintro ⟨e', -, rfl, h⟩
    exact h
  · exact fun h => ⟨e, mem_homs.2 h.hom_e, rfl, h⟩

/-- `cat89_find_equalizer` finds an equalizer if there is one, and its `factor` the mediator of
each cone. -/
def EqualizerFound (K : Category Obj Mor) (en : Enumeration Obj Mor) (room : Bool) (f g : Mor) :
    Prop :=
  (∃ rx, findEqualizer K en room f g = .ok rx ∧ K.IsEqualizer f g rx.apex rx.pa ∧
      resLeg rx rx.ptA = .ok rx.pa ∧ resLeg rx rx.ptB = .ok rx.pb ∧ K.Comp f rx.pa rx.pb ∧
      ∀ room' (candidate : Cone Obj Mor) z0 z1, en.Fits room' →
        candidate.legAt rx.ptA = .ok z0 → candidate.legAt rx.ptB = .ok z1 →
        K.Hom candidate.apex (K.dom f) z0 → K.Comp f z0 z1 → K.Comp g z0 z1 →
        ∃ u, eqzLimitFactor K en room' rx candidate = some (.ok u) ∧
          (K.Hom candidate.apex rx.apex u ∧ K.Comp rx.pa u z0 ∧ K.Comp rx.pb u z1) ∧
          ∀ u', K.Hom candidate.apex rx.apex u' → K.Comp rx.pa u' z0 → u' = u) ∨
    (findEqualizer K en room f g = .error .notFound ∧ ∀ p e, ¬ K.IsEqualizer f g p e)

omit [DecidableEq Obj] [DecidableEq Mor] in
/-- A triangle over a leg is one over what comes after the leg. -/
theorem Category.Comp.after {h u z r t : Mor} (hz : K.Comp h u z) (hr : K.Comp f h r)
    (ht : K.Comp f z t) : K.Comp r u t := by
  obtain ⟨hhu, rfl⟩ := hz
  obtain ⟨hfh, rfl⟩ := hr
  obtain ⟨hfz, rfl⟩ := ht
  exact ⟨(K.dom_comp f h hfh).trans hhu, (K.assoc f h u hhu hfh).symm⟩

theorem equalizerFound (hfits : en.Fits room) (hdom : K.dom f = K.dom g)
    (hcod : K.cod f = K.cod g) : EqualizerFound K en room f g := by
  rw [EqualizerFound, findEqualizer, if_neg (not_not.2 hdom), if_neg (not_not.2 hcod), hfits.build]
  have hsearch : Finds (searchEqualizer K en.census (K.dom f) f g) fun found =>
      K.IsEqualizer f g found.1 found.2 := searchEqualizer_finds hdom
  rcases hsearch with ⟨⟨p, e⟩, hfound, hp⟩ | ⟨hfound, hnone⟩
  · have hfe : K.dom f = K.cod e := hp.hom_e.2.symm
    refine .inl ⟨⟨some 0, some 1, p, e, K.comp f e hfe⟩, ?_, hp, rfl, rfl, K.comp_of hfe, ?_⟩
    · change (searchEqualizer K en.census (K.dom f) f g >>= _) = _
      rw [hfound, pure_bind]
      change (do
        let yl ← baseCompose K f e
        presFound .parallel (some (p, e, yl))) = _
      rw [baseCompose_of_eq hfe]
      rfl
    · intro room' candidate z0 z1 hfits' hz0 _ hom hf hg
      rw [eqzLimitFactor, hz0]
      obtain ⟨u, hu, hmed, huniq⟩ := factorCensus_ok hfits'
        (fun u hu => evaluateLeg_eq hp.hom_e.1 hu) (hp.universal _ z0 hom ⟨z1, hf, hg⟩)
      exact ⟨u, hu, ⟨hmed.1, hmed.2, hmed.2.after (K.comp_of hfe) hf⟩, huniq⟩
  · refine .inr ⟨?_, fun p e hp => hnone (p, e) hp⟩
    change (searchEqualizer K en.census (K.dom f) f g >>= _) = _
    rw [hfound]
    rfl

/-! ## Pullbacks -/

/-- The cones from `w`. -/
def squares (K : Category Obj Mor) (en : Enumeration Obj Mor) (f g : Mor) (w : Obj) :
    List (Mor × Mor) :=
  (en.homs K w (K.dom f) ×ˢ en.homs K w (K.dom g)).filter fun q => commutesBool K f g q.1 q.2

theorem mem_squares {q : Mor × Mor} : q ∈ squares K en f g w ↔
    K.Hom w (K.dom f) q.1 ∧ K.Hom w (K.dom g) q.2 ∧ K.Commutes f g q.1 q.2 := by
  obtain ⟨wX, wY⟩ := q
  rw [squares, mem_filter, mem_product, mem_homs, mem_homs, and_assoc]
  exact and_congr_right fun hX => and_congr_right fun hY =>
    commutesBool_iff hX.2.symm hY.2.symm

/-- What `pb_cell` does to `ok` and `nc` for a cone with `n` mediators. -/
def cellStep (n : Nat) (acc : Bool × Nat) : Bool × Nat :=
  (if n = 0 then false else acc.1, (acc.2 + 1) % 2 ^ 64)

/-- The mediators of a cone. -/
def mediators (K : Category Obj Mor) (en : Enumeration Obj Mor) (w p : Obj) (pX pY : Mor)
    (q : Mor × Mor) : Nat :=
  (en.homs K w p).countP fun m => K.Comp pX m q.1 ∧ K.Comp pY m q.2

theorem pbCell_eq (hX : K.dom pX = p) (hY : K.dom pY = p) {wX wY : Mor}
    (homX : K.Hom w (K.dom f) wX) (homY : K.Hom w (K.dom g) wY) (acc : Bool × Nat) :
    pbCell K en.census w p f g pX pY wX wY acc =
      pure (if commutesBool K f g wX wY then
        cellStep (mediators K en w p pX pY (wX, wY)) acc else acc) := by
  rw [pbCell, pbCommute, evaluateSame_commutes homX.2.symm homY.2.symm, pure_bind]
  split
  · rw [pbPairCov, countMediators, tally_eq fun m hm => evaluateMediator_eq hX hY hm]
    rfl
  · rfl

/-- The loops of `pb_obj_check` go through the cones. -/
theorem pbLoops_eq (hX : K.dom pX = p) (hY : K.dom pY = p) (acc : Bool × Nat) :
    ((gatherIndices K en.census w (K.dom f)).foldlM
      (fun acc wX =>
        (gatherIndices K en.census w (K.dom g)).foldlM
          (fun acc wY => pbCell K en.census w p f g pX pY wX wY acc) acc) acc :
            Except Status (Bool × Nat)) =
      pure ((squares K en f g w).foldl
        (fun acc q => cellStep (mediators K en w p pX pY q) acc) acc) := by
  have hinner : ∀ wX ∈ gatherIndices K en.census w (K.dom f), ∀ acc : Bool × Nat,
      ((gatherIndices K en.census w (K.dom g)).foldlM
          (fun acc wY => pbCell K en.census w p f g pX pY wX wY acc) acc :
            Except Status (Bool × Nat)) =
        pure ((en.homs K w (K.dom g)).foldl (fun acc wY => if commutesBool K f g wX wY then
          cellStep (mediators K en w p pX pY (wX, wY)) acc else acc) acc) := by
    intro wX hwX acc
    exact foldlM_pure_of fun wY hwY acc =>
      pbCell_eq hX hY (mem_homs.1 hwX) (mem_homs.1 hwY) acc
  rw [foldlM_pure_of hinner, squares, foldl_filter, gatherIndices_census]
  refine congrArg pure ?_
  change _ = ((en.homs K w (K.dom f)).flatMap fun wX =>
    (en.homs K w (K.dom g)).map (Prod.mk wX)).foldl _ acc
  rw [foldl_flatMap]
  simp only [foldl_map]

omit [DecidableEq Obj] [DecidableEq Mor] in
/-- The cones are counted modulo `2 ^ 64`, and one without a mediator is remembered. -/
theorem foldl_cellStep {n : Mor × Mor → Nat} {l : List (Mor × Mor)} {ok : Bool} {k : Nat} :
    l.foldl (fun acc q => cellStep (n q) acc) (ok, k % 2 ^ 64) =
      (ok && l.all fun q => n q ≠ 0, (k + l.length) % 2 ^ 64) := by
  induction l generalizing ok k with
  | nil => simp
  | cons q l ih =>
    rw [foldl_cons, cellStep, all_cons, length_cons]
    have hk : (k % 2 ^ 64 + 1) % 2 ^ 64 = (k + 1) % 2 ^ 64 := by omega
    simp only [hk, ih]
    rw [show k + 1 + l.length = k + (l.length + 1) by omega]
    by_cases hq : n q = 0 <;> simp [hq]

theorem pbObjCheck_settles (hfits : en.Fits room) (hX : K.Hom p (K.dom f) pX)
    (hY : K.Hom p (K.dom g) pY) (hsq : K.Commutes f g pX pY) :
    Settles (pbObjCheck K en.census w (K.dom f) (K.dom g) p f g pX pY)
      (∀ q ∈ squares K en f g w,
        ∃! m, m ∈ en.homs K w p ∧ K.Comp pX m q.1 ∧ K.Comp pY m q.2) := by
  have hnodup : (squares K en f g w).Nodup := (homs_nodup.product homs_nodup).filter _
  have hbij := bijective_iff_mod (R := fun m (q : Mor × Mor) => K.Comp pX m q.1 ∧ K.Comp pY m q.2)
    (l := en.homs K w p) hfits.homs_lt homs_nodup hnodup
    (fun m hm => by
      obtain ⟨wX, hwX, homX⟩ := K.comp_hom hX (mem_homs.1 hm)
      obtain ⟨wY, hwY, homY⟩ := K.comp_hom hY (mem_homs.1 hm)
      exact ⟨(wX, wY), mem_squares.2 ⟨homX, homY, hsq.comp hwX hwY⟩, hwX, hwY⟩)
    fun m _ q q' hq hq' => Prod.ext (hq.1.unique hq'.1) (hq.2.unique hq'.2)
  rw [pbObjCheck, pbLoops_eq hX.1 hY.1, pure_bind]
  have hfold : (squares K en f g w).foldl
      (fun acc q => cellStep (mediators K en w p pX pY q) acc) (true, 0 % 2 ^ 64) =
        (true && (squares K en f g w).all fun q => mediators K en w p pX pY q ≠ 0,
          (0 + (squares K en f g w).length) % 2 ^ 64) := foldl_cellStep
  rw [Nat.zero_mod, Nat.zero_add, Bool.true_and] at hfold
  rw [hfold, homCount_census]
  have hall : (squares K en f g w).all (fun q => mediators K en w p pX pY q ≠ 0) = true ↔
      ∀ q ∈ squares K en f g w, ∃ m ∈ en.homs K w p, K.Comp pX m q.1 ∧ K.Comp pY m q.2 := by
    rw [all_eq_true]
    refine forall₂_congr fun q _ => ?_
    rw [decide_eq_true_eq]
    exact countP_homs_ne_zero
  refine ⟨_, rfl, ?_⟩
  rw [← hbij, ← hall]
  simp only
  split
  next hyes =>
    rw [hyes]
    split
    next hne => simp only [Bool.false_eq_true, and_true, false_iff]; exact fun h => hne h.symm
    next heq => simp only [and_true, true_iff]; exact (not_not.1 heq).symm
  next hno =>
    rw [Bool.not_eq_true] at hno
    simp only [hno, Bool.false_eq_true, and_false]

theorem isPullback_settles (hfits : en.Fits room) (hX : K.Hom p (K.dom f) pX)
    (hY : K.Hom p (K.dom g) pY) :
    Settles (isPullback K en.census p (K.dom f) (K.dom g) f g pX pY)
      (K.IsPullback f g p pX pY) := by
  rw [isPullback, pbCommute, evaluateSame_commutes hX.2.symm hY.2.symm, pure_bind]
  split
  next hno =>
    refine .no fun h => ?_
    rw [(commutesBool_iff hX.2.symm hY.2.symm).2 h.commutes] at hno
    cases hno
  next hyes =>
    have hsq : K.Commutes f g pX pY :=
      (commutesBool_iff hX.2.symm hY.2.symm).1 (by simpa using hyes)
    refine (Settles.all fun w _ => pbObjCheck_settles hfits hX hY hsq).congr ?_
    constructor
    · intro h
      refine ⟨hX, hY, hsq, fun w wX wY homX homY hc => ?_⟩
      have := h w (en.mem_objs w) (wX, wY) (mem_squares.2 ⟨homX, homY, hc⟩)
      simpa only [mem_homs] using this
    · intro h w _ q hq
      obtain ⟨homX, homY, hc⟩ := mem_squares.1 hq
      simpa only [mem_homs] using h.universal w q.1 q.2 homX homY hc

theorem searchPullback_finds (hfits : en.Fits room) :
    Finds (searchPullback K en.census (K.dom f) (K.dom g) f g) fun found =>
      K.IsPullback f g found.1 found.2.1 found.2.2 := by
  refine firstApex_finds (Q := fun p (legs : Mor × Mor) => K.IsPullback f g p legs.1 legs.2)
    fun apex => ?_
  refine (firstPair_finds fun pX hX pY hY =>
    isPullback_settles hfits (mem_homs.1 hX) (mem_homs.1 hY)).congr fun legs => ?_
  exact ⟨fun h => h.2.2, fun h => ⟨mem_homs.2 h.hom_pX, mem_homs.2 h.hom_pY, h⟩⟩

/-- `cat89_find_pullback` finds a pullback if there is one, and its `factor` the mediator of each
cone. -/
def PullbackFound (K : Category Obj Mor) (en : Enumeration Obj Mor) (room : Bool) (f g : Mor) :
    Prop :=
  (∃ rx, findPullback K en room f g = .ok rx ∧ K.IsPullback f g rx.apex rx.leg0 rx.leg1 ∧
      p3Leg rx rx.pt0 = .ok rx.leg0 ∧ p3Leg rx rx.pt1 = .ok rx.leg1 ∧
      p3Leg rx rx.pt2 = .ok rx.leg2 ∧ K.Comp f rx.leg0 rx.leg2 ∧
      ∀ room' (candidate : Cone Obj Mor) wX wY wZ, en.Fits room' →
        candidate.legAt rx.pt0 = .ok wX → candidate.legAt rx.pt1 = .ok wY →
        candidate.legAt rx.pt2 = .ok wZ →
        K.Hom candidate.apex (K.dom f) wX → K.Hom candidate.apex (K.dom g) wY →
        K.Comp f wX wZ → K.Comp g wY wZ →
        ∃ u, p3LimitFactor K en room' rx candidate = some (.ok u) ∧
          (K.Hom candidate.apex rx.apex u ∧ (K.Comp rx.leg0 u wX ∧ K.Comp rx.leg1 u wY) ∧
            K.Comp rx.leg2 u wZ) ∧
          ∀ u', K.Hom candidate.apex rx.apex u' → K.Comp rx.leg0 u' wX ∧ K.Comp rx.leg1 u' wY →
            u' = u) ∨
    (findPullback K en room f g = .error .notFound ∧
      ∀ p pX pY, ¬ K.IsPullback f g p pX pY)

theorem pullbackFound (hfits : en.Fits room) (hcod : K.cod f = K.cod g) :
    PullbackFound K en room f g := by
  rw [PullbackFound, findPullback, if_neg (not_not.2 hcod), hfits.build]
  rcases searchPullback_finds (K := K) (f := f) (g := g) hfits with
    ⟨⟨p, pX, pY⟩, hfound, hp⟩ | ⟨hfound, hnone⟩
  · have hfp : K.dom f = K.cod pX := hp.hom_pX.2.symm
    refine .inl ⟨⟨some 0, some 1, some 2, p, pX, pY, K.comp f pX hfp⟩, ?_, hp, rfl, rfl, rfl,
      K.comp_of hfp, ?_⟩
    · change (searchPullback K en.census (K.dom f) (K.dom g) f g >>= _) = _
      rw [hfound, pure_bind]
      change (do
        let lz ← baseCompose K f pX
        let pt := grabThree (shapeObjects .span)
        pure (⟨pt.1, pt.2.1, pt.2.2, p, pX, pY, lz⟩ : P3 Obj Mor)) = _
      rw [baseCompose_of_eq hfp]
      rfl
    · intro room' candidate wX wY wZ hfits' hwX hwY _ homX homY hf hg
      rw [p3LimitFactor, hwX, hwY]
      obtain ⟨u, hu, hmed, huniq⟩ := factorCensus_ok hfits'
        (fun u hu => evaluateMediator_eq hp.hom_pX.1 hp.hom_pY.1 hu)
        (hp.universal _ wX wY homX homY ⟨wZ, hf, hg⟩)
      exact ⟨u, hu, ⟨hmed.1, hmed.2, hmed.2.1.after (K.comp_of hfp) hf⟩, huniq⟩
  · refine .inr ⟨?_, fun p pX pY hp => hnone (p, pX, pY) hp⟩
    change (searchPullback K en.census (K.dom f) (K.dom g) f g >>= _) = _
    rw [hfound]
    rfl

end Cat89

/-!
# libcat89: when the finders are right

The finders of `src/findlim.c` are right on every finite category.  Those of `src/find.c`
are right as long as `one_mor` can count the hom sets that it comes to.
-/

namespace Cat89

open Library List

variable {Obj Mor : Type} [DecidableEq Obj] [DecidableEq Mor] {room : Bool}

/-- What holds of the finders on a category with an enumeration: without a failure of the
allocator, each finds what there is to find. -/
structure FindersCorrect (K : Category Obj Mor) (en : Enumeration Obj Mor) (room : Bool) : Prop where
  terminal : TerminalFound K en room
  initial : InitialFound K en room
  product : en.Fits room → ∀ a b, ProductFound K en room a b
  coproduct : en.Fits room → ∀ a b, CoproductFound K en room a b
  equalizer : en.Fits room → ∀ f g, K.dom f = K.dom g → K.cod f = K.cod g →
    EqualizerFound K en room f g
  pullback : en.Fits room → ∀ f g, K.cod f = K.cod g → PullbackFound K en room f g

/-- The finders are right exactly where the scans of `src/find.c` come to no hom set that their
counter cannot count. -/
theorem finders_correct_iff (K : Category Obj Mor) (en : Enumeration Obj Mor)
    (hroom : allocates room (en.objs.length * sizeofObj) = true) :
    FindersCorrect K en room ↔ TerminalCounted K en ∧ InitialCounted K en := by
  constructor
  · intro h
    exact ⟨(terminalFound_iff hroom).1 h.terminal, (initialFound_iff hroom).1 h.initial⟩
  · rintro ⟨hterm, hinit⟩
    exact ⟨(terminalFound_iff hroom).2 hterm, (initialFound_iff hroom).2 hinit,
      fun hfits _ _ => productFound hfits, fun hfits _ _ => coproductFound hfits,
      fun hfits _ _ hdom hcod => equalizerFound hfits hdom hcod,
      fun hfits _ _ hcod => pullbackFound hfits hcod⟩

/-! ## A large monoid -/

/-- One object, whose `n` morphisms other than the identity undo all that comes before them. -/
def leftZero (n : Nat) : Category Unit (Option (Fin n)) where
  dom _ := ()
  cod _ := ()
  ident _ := none
  comp g f _ := g.or f
  dom_ident _ := rfl
  cod_ident _ := rfl
  dom_comp _ _ _ := rfl
  cod_comp _ _ _ := rfl
  ident_comp _ := rfl
  comp_ident _ := Option.or_none
  assoc _ _ _ _ _ := Option.or_assoc.symm

/-- Its enumeration. -/
def leftZeroEnumeration (n : Nat) : Enumeration Unit (Option (Fin n)) where
  objs := [()]
  mors := none :: (finRange n).map some
  objs_nodup := nodup_singleton ()
  mors_nodup := by
    refine nodup_cons.2 ⟨?_, (nodup_finRange n).map (Option.some_injective _)⟩
    simp
  mem_objs _ := mem_singleton.2 rfl
  mem_mors m := by
    cases m with
    | none => exact mem_cons_self
    | some i =>
      exact mem_cons_of_mem _ (mem_map_of_mem (mem_finRange i))

theorem length_homs_leftZero (n : Nat) :
    ((leftZeroEnumeration n).homs (leftZero n) () ()).length = n + 1 := by
  have hall : (leftZeroEnumeration n).homs (leftZero n) () () = (leftZeroEnumeration n).mors :=
    filter_eq_self.2 fun m _ => rfl
  rw [hall]
  simp [leftZeroEnumeration]

theorem finders_correct_iff_two :
    FindersCorrect (leftZero 1) (leftZeroEnumeration 1) true := by
  have hlen := (length_homs_leftZero 1).trans_le (show 2 ≤ maxHom by decide)
  exact (finders_correct_iff _ _ (by decide)).mpr
    ⟨⟨⟨hlen, fun _ => trivial⟩, fun _ => trivial⟩, ⟨hlen, fun _ => trivial⟩, fun _ => trivial⟩

/-- With one morphism too many the counter overflows. -/
theorem finders_not_correct :
    ¬ FindersCorrect (leftZero (2 ^ 31)) (leftZeroEnumeration (2 ^ 31)) true := by
  intro h
  have hroom : allocates true ((leftZeroEnumeration (2 ^ 31)).objs.length * sizeofObj) = true := by
    decide
  have hlen : ((leftZeroEnumeration (2 ^ 31)).homs (leftZero (2 ^ 31)) () ()).length ≤ maxHom :=
    ((terminalFound_iff hroom).1 h.terminal).1.1
  rw [length_homs_leftZero, maxHom, intMax] at hlen
  omega

end Cat89
