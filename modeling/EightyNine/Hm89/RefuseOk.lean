import EightyNine.Hm89.SchemeOk

/-!
# When generalization is exact

A variable is left out of a set when every request for its room is refused.  `Offered` says
so for a sequence of adds, and `generalize_exact_iff` says which refused requests change the
quantified variables.
-/

namespace Hm89

open Library List Nat

variable {s s' : Store} {mem : Nat → Bool} {site : Ref → Site} {L L' : List Ref}
  {new new' : List Site} {f f' f'' : Filling}

/-! ## Adding variables -/

/-- The adds of the variables `L`, in order, with the requests `new` refused. -/
structure Offered (mem : Nat → Bool) (site : Ref → Site) (L : List Ref) (new : List Site)
    (f f' : Filling) : Prop where
  log : f'.work.refused = new ++ f.work.refused
  sites : ∀ r ∈ new, ∃ v, r = site v
  granted : (∀ n, mem n = true) → new = []
  count_le : ∀ x, new.count (site x) ≤ L.count x
  kept : ∀ x ∈ f.set.items, new.count (site x) = 0
  mem_iff : ∀ x, x ∈ f'.set.items ↔ x ∈ f.set.items ∨ new.count (site x) < L.count x
  nodup : f.set.items.Nodup → f'.set.items.Nodup

theorem Offered.nil (f : Filling) : Offered mem site [] [] f f where
  log := rfl
  sites := fun r hr => absurd hr not_mem_nil
  granted := fun _ => rfl
  count_le := fun _ => le_refl 0
  kept := fun _ _ => rfl
  mem_iff := fun x => by simp
  nodup := fun h => h

theorem Offered.append (h : Offered mem site L new f f') (h' : Offered mem site L' new' f' f'') :
    Offered mem site (L ++ L') (new' ++ new) f f'' where
  log := by rw [h'.log, h.log, append_assoc]
  sites := fun r hr => (mem_append.1 hr).elim (h'.sites r) (h.sites r)
  granted := fun hm => by rw [h.granted hm, h'.granted hm]; rfl
  count_le := fun x => by
    have h₁ := h.count_le x
    have h₂ := h'.count_le x
    rw [count_append, count_append]
    omega
  kept := fun x hx => by
    rw [count_append, h.kept x hx, h'.kept x ((h.mem_iff x).2 (.inl hx))]
  mem_iff := fun x => by
    have h₁ := h.count_le x
    have h₂ := h'.count_le x
    rw [h'.mem_iff, h.mem_iff, count_append, count_append, or_assoc]
    refine or_congr_right ?_
    by_cases hlt : new.count (site x) < L.count x
    · have hzero := h'.kept x ((h.mem_iff x).2 (.inr hlt))
      omega
    · omega
  nodup := fun hn => h'.nodup (h.nodup hn)

/-- `hm_i_set_add` finds the variable, stores it, or leaves it out after a refusal. -/
theorem setAddIn_cases (mem : Nat → Bool) (r : Site) (f : Filling) (v : Ref) :
    (setAddIn mem r f v).work.store = f.work.store ∧
      ((v ∈ f.set.items ∧ setAddIn mem r f v = f) ∨
        (v ∉ f.set.items ∧ (setAddIn mem r f v).set.items = f.set.items ++ [v] ∧
          (setAddIn mem r f v).work.refused = f.work.refused) ∨
        (v ∉ f.set.items ∧ (setAddIn mem r f v).set.items = f.set.items ∧
          (setAddIn mem r f v).work.refused = r :: f.work.refused ∧ ¬ ∀ n, mem n = true)) := by
  by_cases hv : v ∈ f.set.items
  · rw [setAddIn, if_pos hv]
    exact ⟨rfl, .inl ⟨hv, rfl⟩⟩
  rw [setAddIn, if_neg hv]
  by_cases hfull : f.set.items.length = f.set.cap
  · rw [if_pos hfull]
    cases hm : mem f.work.made with
    | true =>
      have hgrow : setGrow mem r f = ⟨⟨f.work.store, f.work.made + 1, f.work.refused⟩,
          f.set.grown⟩ := by
        rw [setGrow, Work.alloc, hm]
        rfl
      have hroom : f.set.grown.items.length ≠ f.set.grown.cap := by
        have hlt := lt_growCap f.set.cap
        have hitems : f.set.grown.items.length = f.set.cap := hfull
        have hcap : f.set.grown.cap = growCap f.set.cap := rfl
        omega
      rw [hgrow, dif_neg hroom]
      exact ⟨rfl, .inr (.inl ⟨hv, rfl, rfl⟩)⟩
    | false =>
      have hgrow : setGrow mem r f = ⟨⟨f.work.store, f.work.made + 1, r :: f.work.refused⟩,
          f.set⟩ := by
        rw [setGrow, Work.alloc, hm]
        rfl
      rw [hgrow, dif_pos hfull]
      refine ⟨rfl, .inr (.inr ⟨hv, rfl, rfl, fun hall => ?_⟩)⟩
      exact absurd (hm.symm.trans (hall _)) Bool.false_ne_true
  · rw [if_neg hfull, dif_neg hfull]
    exact ⟨rfl, .inr (.inl ⟨hv, rfl, rfl⟩)⟩

theorem offered_setAddIn (mem : Nat → Bool) (hsite : Function.Injective site) (f : Filling)
    (v : Ref) :
    ∃ new, Offered mem site [v] new f (setAddIn mem (site v) f v) := by
  obtain ⟨-, ⟨hv, heq⟩ | ⟨hv, hitems, hlog⟩ | ⟨hv, hitems, hlog, hmem⟩⟩ :=
    setAddIn_cases mem (site v) f v
  · refine ⟨[], by rw [heq]; rfl, fun r hr => absurd hr not_mem_nil, fun _ => rfl,
      fun x => zero_le _, fun _ _ => rfl, fun x => ?_, fun hn => by rwa [heq]⟩
    rw [heq, count_nil, count_pos_iff, mem_singleton]
    refine (or_iff_left_of_imp ?_).symm
    rintro rfl
    exact hv
  · refine ⟨[], hlog, fun r hr => absurd hr not_mem_nil, fun _ => rfl,
      fun x => zero_le _, fun _ _ => rfl, fun x => ?_, fun hn => ?_⟩
    · rw [hitems, count_nil, count_pos_iff, mem_append]
    · rw [hitems]
      refine nodup_append.2 ⟨hn, nodup_singleton v, ?_⟩
      rintro x hx y hy rfl
      exact hv (mem_singleton.1 hy ▸ hx)
  · refine ⟨[site v], hlog, fun r hr => ⟨v, mem_singleton.1 hr⟩,
      fun hall => absurd hall hmem, fun x => ?_, fun x hx => ?_, fun x => ?_,
      fun hn => by rwa [hitems]⟩
    · rw [count_singleton, count_singleton]
      by_cases hx : x = v
      · simp [hx]
      · simp [Ne.symm hx, hsite.eq_iff]
    · refine count_eq_zero_of_not_mem fun hin => hv ?_
      rw [← hsite (mem_singleton.1 hin)]
      exact hx
    · rw [hitems]
      refine (or_iff_left ?_).symm
      rw [count_singleton, count_singleton]
      by_cases hx : x = v
      · simp [hx]
      · simp [Ne.symm hx]

/-- The adds of the items that are not in `skip`. -/
theorem offered_foldl (mem : Nat → Bool) (hsite : Function.Injective site)
    (skip items : List Ref) :
    ∀ f, ∃ new, Offered mem site (items.filter (· ∉ skip)) new f
        (items.foldl (fun f v => if v ∈ skip then f else setAddIn mem (site v) f v) f) ∧
      (items.foldl (fun f v => if v ∈ skip then f else setAddIn mem (site v) f v) f).work.store =
        f.work.store := by
  induction items with
  | nil => exact fun f => ⟨[], .nil f, rfl⟩
  | cons v items ih =>
    intro f
    rw [foldl_cons]
    by_cases hv : v ∈ skip
    · rw [if_pos hv, filter_cons_of_neg (by simpa using hv)]
      exact ih f
    · rw [if_neg hv, filter_cons_of_pos (by simpa using hv)]
      obtain ⟨new, hfirst⟩ := offered_setAddIn mem hsite f v
      obtain ⟨new', hrest, hstore⟩ := ih (setAddIn mem (site v) f v)
      exact ⟨new' ++ new, hfirst.append hrest, hstore.trans (setAddIn_cases mem (site v) f v).1⟩

/-! ## The free variables of a type -/

variable {items : List Ref}

theorem foldlM_offered (g : Nat → Filling → Ref → Option Filling) (t : Ref → Ty)
    (hg : ∀ a ∈ items, ∀ f, Compress s f.work.store → ∃ f' new,
      Returns (fun fuel => g fuel f a) f' ∧ Compress f.work.store f'.work.store ∧
        Offered mem site (t a).leaves new f f') :
    ∀ f, Compress s f.work.store → ∃ f' new,
      Returns (fun fuel => items.foldlM (g fuel) f) f' ∧
        Compress f.work.store f'.work.store ∧
        Offered mem site (items.flatMap fun a => (t a).leaves) new f f' := by
  induction items with
  | nil => exact fun f _ => ⟨f, [], .pure _, .refl _, .nil f⟩
  | cons a items ih =>
    intro f hf
    obtain ⟨f₁, new₁, hret₁, hc₁, ho₁⟩ := hg a mem_cons_self f hf
    obtain ⟨f₂, new₂, hret₂, hc₂, ho₂⟩ :=
      ih (fun b hb => hg b (mem_cons_of_mem a hb)) f₁ (hf.trans hc₁)
    refine ⟨f₂, new₂ ++ new₁, ?_, hc₁.trans hc₂, ?_⟩
    · simp only [foldlM_cons]
      exact hret₁.bind hret₂
    · rw [flatMap_cons]
      exact ho₁.append ho₂

variable {type : Ref}

theorem Store.Acyclic.typeFtvIn (mem : Nat → Bool) (hsite : Function.Injective site)
    (hs : f.work.store.Acyclic) (htype : type < f.work.store.nodes.length) :
    ∃ f' new, Returns (fun fuel => typeFtvIn mem site fuel f type) f' ∧
      Compress f.work.store f'.work.store ∧
      Offered mem site (f.work.store.denote type).leaves new f f' := by
  generalize ht : f.work.store.denote type = t
  induction t using Term.induct generalizing f type with
  | var x =>
    obtain ⟨s', id, hret, hc, hn⟩ := hs.typePrune_var htype ht
    let f₁ : Filling := ⟨⟨s', f.work.made, f.work.refused⟩, f.set⟩
    obtain ⟨new, hadd⟩ := offered_setAddIn mem hsite f₁ x
    refine ⟨setAddIn mem (site x) f₁ x, new, Returns.succ (hret.bind ?_), ?_, ?_⟩
    · simp only [hn]
      exact .pure _
    · rw [(setAddIn_cases mem (site x) f₁ x).1]
      exact hc
    · rw [Term.leaves]
      exact ⟨hadd.log, hadd.sites, hadd.granted, hadd.count_le, hadd.kept, hadd.mem_iff,
        hadd.nodup⟩
  | con name ts ih =>
    obtain ⟨s', p, args, hret, hc, hn, rfl⟩ := hs.typePrune_con htype ht
    have hs' := hc.acyclic hs
    let f₁ : Filling := ⟨⟨s', f.work.made, f.work.refused⟩, f.set⟩
    obtain ⟨f₂, new, hret', hc', hadds⟩ :=
      foldlM_offered (Hm89.typeFtvIn mem site) s'.denote
        (fun a ha f₂ hc₂ =>
          ih _ (mem_map_of_mem ha) (hc₂.acyclic hs')
            (by rw [hc₂.grows.length]; exact hs'.args_lt hn a ha)
            (hc₂.denote hs' (hs'.args_lt hn a ha))) f₁ (.refl s')
    refine ⟨f₂, new, Returns.succ (hret.bind ?_), hc.trans hc', ?_⟩
    · simp only [hn]
      exact hret'
    · rw [Term.leaves_con, flatMap_map]
      exact ⟨hadds.log, hadds.sites, hadds.granted, hadds.count_le, hadds.kept,
        hadds.mem_iff, hadds.nodup⟩

/-! ## The free variables of the environment -/

/-- Some occurrence of the variable in the type was added without a refusal. -/
def Kept (refused : List Site) (site : Site) (t : Ty) (x : Ref) : Prop :=
  refused.count site < t.leaves.count x

/-- The variable is free in the scheme with number `k` and reached the set of the
environment from there. -/
structure Scheme.Seen (s : Store) (refused : List Site) (k : Nat) (scheme : Scheme) (x : Ref) :
    Prop where
  free : x ∉ scheme.vars
  body : .bodySet k ∉ refused
  kept : Kept refused (.bodyItem k x) (s.denote scheme.body) x
  env : .envItem k x ∉ refused

/-- The scheme of the environment a request is for. -/
def Site.number : Site → Option Nat
  | .bodySet k => some k
  | .bodyItem k _ => some k
  | .envItem k _ => some k
  | _ => none

variable {refused : List Site} {k : Nat} {scheme : Scheme} {x : Ref}

/-- Only the requests for a scheme decide whether a variable is seen in it. -/
theorem Scheme.seen_congr {refused' : List Site}
    (h : ∀ r : Site, r.number = some k → refused.count r = refused'.count r) :
    scheme.Seen s refused k x ↔ scheme.Seen s refused' k x := by
  have hmem : ∀ r : Site, r.number = some k → (r ∉ refused ↔ r ∉ refused') := fun r hr => by
    rw [← count_eq_zero, ← count_eq_zero, h r hr]
  constructor
  · intro hs
    refine ⟨hs.free, (hmem _ rfl).1 hs.body, ?_, (hmem _ rfl).1 hs.env⟩
    rw [Kept, ← h _ rfl]
    exact hs.kept
  · intro hs
    refine ⟨hs.free, (hmem _ rfl).2 hs.body, ?_, (hmem _ rfl).2 hs.env⟩
    rw [Kept, h _ rfl]
    exact hs.kept

variable {r : Site}

theorem count_append_of_number (h : ∀ r ∈ new, r.number ≠ some k)
    (hr : r.number = some k) (refused : List Site) :
    (new ++ refused).count r = refused.count r ∧ (refused ++ new).count r = refused.count r := by
  have hzero : new.count r = 0 := count_eq_zero_of_not_mem fun hin => h r hin hr
  rw [count_append, count_append, hzero, zero_add]
  exact ⟨rfl, rfl⟩

/-- What the schemes with numbers from `k` on have added to the set. -/
structure Collected (mem : Nat → Bool) (s : Store) (k : Nat) (schemes : List Scheme)
    (new : List Site) (f f' : Filling) : Prop where
  log : f'.work.refused = new ++ f.work.refused
  numbers : ∀ r ∈ new, ∃ j, r.number = some j ∧ k ≤ j ∧ j < k + schemes.length
  granted : (∀ n, mem n = true) → new = []
  mem_iff : ∀ x, x ∈ f'.set.items ↔ x ∈ f.set.items ∨
    ∃ (j : Nat) (scheme : Scheme), schemes[j]? = some scheme ∧ scheme.Seen s new (k + j) x

theorem Collected.nil (k : Nat) (f : Filling) : Collected mem s k [] [] f f where
  log := rfl
  numbers := fun r hr => absurd hr not_mem_nil
  granted := fun _ => rfl
  mem_iff := fun x => by simp

theorem Collected.cons {schemes : List Scheme}
    (h : Collected mem s k [scheme] new f f')
    (h' : Collected mem s (k + 1) schemes new' f' f'') :
    Collected mem s k (scheme :: schemes) (new' ++ new) f f'' where
  log := by rw [h'.log, h.log, append_assoc]
  numbers := fun r hr => by
    rcases mem_append.1 hr with hr | hr
    · obtain ⟨j, hj, hle, hlt⟩ := h'.numbers r hr
      rw [length_cons]
      exact ⟨j, hj, by omega, by omega⟩
    · obtain ⟨j, hj, hle, hlt⟩ := h.numbers r hr
      rw [length_singleton] at hlt
      rw [length_cons]
      exact ⟨j, hj, hle, by omega⟩
  granted := fun hm => by rw [h.granted hm, h'.granted hm]; rfl
  mem_iff := fun x => by
    have hfirst : ∀ j, j ≠ k → ∀ r ∈ new, r.number ≠ some j := by
      intro j hj r hr hr'
      obtain ⟨i, hi, hle, hlt⟩ := h.numbers r hr
      rw [length_singleton] at hlt
      obtain rfl : i = j := Option.some.inj (hi.symm.trans hr')
      omega
    have hrest : ∀ r ∈ new', r.number ≠ some k := by
      intro r hr hr'
      obtain ⟨i, hi, hle, hlt⟩ := h'.numbers r hr
      obtain rfl : i = k := Option.some.inj (hi.symm.trans hr')
      omega
    rw [h'.mem_iff, h.mem_iff, or_assoc]
    refine or_congr_right ⟨?_, ?_⟩
    · rintro (⟨j, σ, hσ, hseen⟩ | ⟨j, σ, hσ, hseen⟩)
      · obtain ⟨rfl, rfl⟩ : j = 0 ∧ scheme = σ := by
          cases j with
          | zero => exact ⟨rfl, Option.some.inj hσ⟩
          | succ j => cases hσ
        exact ⟨0, scheme, rfl,
          (Scheme.seen_congr fun r hr => (count_append_of_number hrest hr new).1).2 hseen⟩
      · refine ⟨j + 1, σ, hσ, ?_⟩
        rw [add_assoc, add_comm 1 j] at hseen
        exact (Scheme.seen_congr fun r hr =>
          (count_append_of_number (hfirst _ (by omega)) hr new').2).2 hseen
    · rintro ⟨j, σ, hσ, hseen⟩
      cases j with
      | zero =>
        obtain rfl := Option.some.inj hσ
        exact .inl ⟨0, scheme, rfl,
          (Scheme.seen_congr fun r hr => (count_append_of_number hrest hr new).1).1 hseen⟩
      | succ j =>
        refine .inr ⟨j, σ, hσ, ?_⟩
        rw [add_assoc, add_comm 1 j]
        exact (Scheme.seen_congr fun r hr =>
          (count_append_of_number (hfirst _ (by omega)) hr new').2).1 hseen

theorem bodyItem_injective (k : Nat) : Function.Injective (Site.bodyItem k) := by
  intro x y h
  cases h
  rfl

theorem envItem_injective (k : Nat) : Function.Injective (Site.envItem k) := by
  intro x y h
  cases h
  rfl

theorem count_lt_count_filter {skip : List Ref} (hn : items.Nodup) (x : Ref) :
    new.count (site x) < (items.filter (· ∉ skip)).count x ↔
      x ∈ items ∧ x ∉ skip ∧ site x ∉ new := by
  have hle : (items.filter (· ∉ skip)).count x ≤ 1 :=
    nodup_iff_count_le_one.1 (hn.filter _) x
  have hmem : x ∈ items.filter (· ∉ skip) ↔ x ∈ items ∧ x ∉ skip := by
    rw [mem_filter, decide_eq_true_iff]
  rw [← and_assoc, ← hmem, ← count_pos_iff, ← count_eq_zero]
  omega

/-- `hm_i_scheme_ftv`. -/
theorem Store.Acyclic.schemeFtvIn (mem : Nat → Bool)
    (hs : s.Acyclic) (hf : Compress s f.work.store) (hbody : scheme.body < s.nodes.length) :
    ∃ f' new, Returns (fun fuel => schemeFtvIn mem fuel k f scheme) f' ∧
      Compress f.work.store f'.work.store ∧ Collected mem s k [scheme] new f f' := by
  cases hm : mem f.work.made with
  | false =>
    refine ⟨⟨⟨f.work.store, f.work.made + 1, .bodySet k :: f.work.refused⟩, f.set⟩, [.bodySet k],
      ?_, .refl _, rfl, fun r hr => ⟨k, ?_, le_refl k, lt_succ_self k⟩,
      fun hall => absurd (hm.symm.trans (hall _)) Bool.false_ne_true, fun x => ?_⟩
    · simp only [Hm89.schemeFtvIn, Work.alloc, hm]
      exact .pure _
    · rw [mem_singleton.1 hr]
      rfl
    · refine (or_iff_left ?_).symm
      rintro ⟨j, σ, hσ, hseen⟩
      cases j with
      | zero => exact hseen.body mem_cons_self
      | succ j => cases hσ
  | true =>
    have hlt : scheme.body < f.work.store.nodes.length := by
      rw [hf.grows.length]
      exact hbody
    obtain ⟨body, new₁, hret, hc, hadds⟩ := Store.Acyclic.typeFtvIn
      (f := ⟨⟨f.work.store, f.work.made + 1, f.work.refused⟩, .empty⟩) mem (bodyItem_injective k)
      (hf.acyclic hs) hlt
    obtain ⟨new₂, hfree, hstore⟩ := offered_foldl mem (envItem_injective k) scheme.vars
      body.set.items ⟨body.work, f.set⟩
    have hden : f.work.store.denote scheme.body = s.denote scheme.body := hf.denote hs hbody
    have hnodup : body.set.items.Nodup := hadds.nodup nodup_nil
    have hitems : ∀ x, x ∈ body.set.items ↔
        new₁.count (Site.bodyItem k x) < (s.denote scheme.body).leaves.count x := fun x => by
      rw [hadds.mem_iff, ← hden]
      exact or_iff_right not_mem_nil
    have hnumbers : ∀ r ∈ new₂ ++ new₁, (∃ v, r = Site.envItem k v) ∨ ∃ v, r = Site.bodyItem k v :=
      fun r hr => (mem_append.1 hr).imp (hfree.sites r) (hadds.sites r)
    refine ⟨body.set.items.foldl (addFreeIn mem k scheme) ⟨body.work, f.set⟩, new₂ ++ new₁, ?_,
      ?_, hfree.log.trans ?_, fun r hr => ⟨k, ?_, le_refl k, lt_succ_self k⟩,
      fun hall => ?_, fun x => ?_⟩
    · simp only [Hm89.schemeFtvIn, Work.alloc, hm]
      exact hret.bind (.pure _)
    · exact (congrArg (Compress f.work.store) hstore).mpr hc
    · rw [hadds.log, append_assoc]
    · obtain ⟨v, rfl⟩ | ⟨v, rfl⟩ := hnumbers r hr <;> rfl
    · rw [hfree.granted hall, hadds.granted hall]
      rfl
    · refine (hfree.mem_iff x).trans (or_congr_right ?_)
      rw [count_lt_count_filter hnodup, hitems]
      have henv : Site.envItem k x ∉ new₂ ++ new₁ ↔ Site.envItem k x ∉ new₂ := by
        rw [mem_append, not_or]
        refine and_iff_left fun hin => ?_
        obtain ⟨v, hv⟩ := hadds.sites _ hin
        cases hv
      have hcount : (new₂ ++ new₁).count (Site.bodyItem k x) = new₁.count (Site.bodyItem k x) := by
        rw [count_append, count_eq_zero_of_not_mem, zero_add]
        intro hin
        obtain ⟨v, hv⟩ := hfree.sites _ hin
        cases hv
      have hset : Site.bodySet k ∉ new₂ ++ new₁ := by
        intro hin
        obtain ⟨v, hv⟩ | ⟨v, hv⟩ := hnumbers _ hin <;> cases hv
      constructor
      · rintro ⟨hkept, hvar, hroom⟩
        refine ⟨0, scheme, rfl, hvar, hset, ?_, henv.2 hroom⟩
        rw [Kept, add_zero, hcount]
        exact hkept
      · rintro ⟨j, σ, hσ, hseen⟩
        cases j with
        | succ j => cases hσ
        | zero =>
          obtain rfl := Option.some.inj hσ
          refine ⟨?_, hseen.free, henv.1 hseen.env⟩
          have hkept := hseen.kept
          rwa [Kept, add_zero, hcount] at hkept

/-- `hm_i_scope_ftv`. -/
theorem Store.Acyclic.scopeFtvIn (mem : Nat → Bool) (hs : s.Acyclic) (schemes : List Scheme)
    (hbody : ∀ scheme ∈ schemes, scheme.body < s.nodes.length) : ∀ k f,
    Compress s f.work.store →
    ∃ f' new, Returns (fun fuel => scopeFtvIn mem fuel k f schemes) f' ∧
      Compress f.work.store f'.work.store ∧ Collected mem s k schemes new f f' := by
  induction schemes with
  | nil => exact fun k f _ => ⟨f, [], .pure _, .refl _, .nil k f⟩
  | cons scheme schemes ih =>
    intro k f hf
    obtain ⟨f₁, new₁, hret₁, hc₁, hcol₁⟩ :=
      hs.schemeFtvIn mem (k := k) hf (hbody scheme mem_cons_self)
    obtain ⟨f₂, new₂, hret₂, hc₂, hcol₂⟩ :=
      ih (fun σ hσ => hbody σ (mem_cons_of_mem scheme hσ)) (k + 1) f₁ (hf.trans hc₁)
    exact ⟨f₂, new₂ ++ new₁, hret₁.bind hret₂, hc₁.trans hc₂, hcol₁.cons hcol₂⟩

theorem scopeFtvIn_append (mem : Nat → Bool) (fuel : Nat) (scope rest : List Scheme) : ∀ k f,
    scopeFtvIn mem fuel k f (scope ++ rest) =
      (scopeFtvIn mem fuel k f scope).bind fun f =>
        scopeFtvIn mem fuel (k + scope.length) f rest := by
  induction scope with
  | nil => exact fun k f => rfl
  | cons scheme scope ih =>
    intro k f
    rw [cons_append, scopeFtvIn, scopeFtvIn, Option.bind_eq_bind, Option.bind_assoc]
    refine congrArg _ (funext fun f => ?_)
    rw [ih, length_cons, add_assoc, add_comm 1]

theorem envFtvIn_eq (mem : Nat → Bool) (fuel : Nat) (env : Env) : ∀ k f,
    envFtvIn mem fuel k f env = scopeFtvIn mem fuel k f env.flatten := by
  induction env with
  | nil => exact fun k f => rfl
  | cons scope env ih =>
    intro k f
    rw [flatten_cons, scopeFtvIn_append, envFtvIn, Option.bind_eq_bind]
    exact congrArg _ (funext fun f => ih _ f)

/-! ## Generalization -/

/-- The requests after whose refusal `hm_generalize` gives up. -/
def Site.isChecked : Site → Bool
  | .typeSet | .envSet | .quantSet | .scheme | .vars => true
  | _ => false

/-- The variable reached the set of the environment from one of its schemes. -/
def Env.Seen (s : Store) (refused : List Site) (env : Env) (x : Ref) : Prop :=
  ∃ (k : Nat) (scheme : Scheme), env.flatten[k]? = some scheme ∧ scheme.Seen s refused k x

/-- The refused requests do not change the quantified variables: `hm_generalize` gives up,
or each variable of the type that is to be quantified was stored, and each variable free in
the environment was seen there or was not stored either. -/
def Harmless (s : Store) (env : Env) (type : Ref) (refused : List Site) : Prop :=
  (∃ r ∈ refused, r.isChecked = true) ∨
    ∀ x, (s.denote type).Has x →
      (¬ env.Free s x →
        Kept refused (.typeItem x) (s.denote type) x ∧ .quantItem x ∉ refused) ∧
      (env.Free s x → Kept refused (.typeItem x) (s.denote type) x →
        .quantItem x ∈ refused ∨ env.Seen s refused x)

theorem typeItem_injective : Function.Injective Site.typeItem := by
  intro x y h
  cases h
  rfl

theorem quantItem_injective : Function.Injective Site.quantItem := by
  intro x y h
  cases h
  rfl

variable {t : Ty}

theorem Kept.has (h : Kept refused r t x) :
    t.Has x := by
  rw [← Term.mem_leaves, ← count_pos_iff]
  exact lt_of_le_of_lt (zero_le _) h

theorem kept_nil (r : Site) : Kept [] r t x ↔ t.Has x := by
  rw [Kept, count_nil, count_pos_iff, Term.mem_leaves]

variable {env : Env}

theorem Env.Seen.free (h : env.Seen s refused x) :
    env.Free s x := by
  obtain ⟨k, scheme, hk, hseen⟩ := h
  obtain ⟨scope, hscope, hscheme⟩ := mem_flatten.1 (mem_of_getElem? hk)
  exact ⟨scope, hscope, scheme, hscheme, hseen.kept.has, hseen.free⟩

theorem seen_nil : env.Seen s [] x ↔ env.Free s x := by
  refine ⟨Env.Seen.free, ?_⟩
  rintro ⟨scope, hscope, scheme, hscheme, hhas, hvar⟩
  obtain ⟨k, hk⟩ := getElem?_of_mem (mem_flatten.2 ⟨scope, hscope, hscheme⟩)
  exact ⟨k, scheme, hk, hvar, not_mem_nil, (kept_nil _).2 hhas, not_mem_nil⟩

/-- What `hm_generalize` answers, in terms of the requests that were refused. -/
structure Answered (s : Store) (env : Env) (type : Ref) (w : Work) (answer : Option Scheme) :
    Prop where
  null : answer = none ↔ ∃ r ∈ w.refused, r.isChecked = true
  vars : ∀ scheme, answer = some scheme → ∀ x, x ∈ scheme.vars ↔
    Kept w.refused (.typeItem x) (s.denote type) x ∧ ¬ env.Seen s w.refused x ∧
      .quantItem x ∉ w.refused

variable {w : Work}

theorem answered_null (hr : r ∈ w.refused)
    (hchecked : r.isChecked = true) : Answered s env type w none :=
  ⟨iff_of_true rfl ⟨r, hr, hchecked⟩, fun _ h => absurd h.symm (Option.some_ne_none _)⟩

theorem Work.alloc_granted (r : Site) (w : Work) (hm : mem w.made = true) :
    w.alloc mem r = (true, ⟨w.store, w.made + 1, w.refused⟩) := by
  rw [Work.alloc, hm]
  rfl

theorem Work.alloc_refused (r : Site) (w : Work) (hm : mem w.made = false) :
    w.alloc mem r = (false, ⟨w.store, w.made + 1, r :: w.refused⟩) := by
  rw [Work.alloc, hm]
  rfl

/-- `hm_i_scheme_alloc` answers `NULL` exactly after a refusal. -/
theorem schemeAlloc_cases (mem : Nat → Bool) (count : Nat) (w : Work) :
    ((schemeAlloc mem count w).1 = true ∧ (schemeAlloc mem count w).2.refused = w.refused) ∨
      ((schemeAlloc mem count w).1 = false ∧ (¬ ∀ n, mem n = true) ∧
        ∃ r : Site, r.isChecked = true ∧ r ∈ (schemeAlloc mem count w).2.refused) := by
  have hno : ∀ n, mem n = false → ¬ ∀ n, mem n = true := fun n hn hall =>
    absurd (hn.symm.trans (hall n)) Bool.false_ne_true
  cases hm : mem w.made with
  | false =>
    have h : schemeAlloc mem count w =
        (false, ⟨w.store, w.made + 1, .scheme :: w.refused⟩) := by
      simp only [schemeAlloc, w.alloc_refused .scheme hm, Bool.false_eq_true, false_and, if_false]
    rw [h]
    exact .inr ⟨rfl, hno _ hm, .scheme, rfl, mem_cons_self⟩
  | true =>
    have hfirst := w.alloc_granted .scheme hm
    by_cases hcount : count = 0
    · have h : schemeAlloc mem count w = (true, ⟨w.store, w.made + 1, w.refused⟩) := by
        simp only [schemeAlloc, hfirst]
        exact if_neg fun hc => hc.2 hcount
      rw [h]
      exact .inl ⟨rfl, rfl⟩
    · have h : schemeAlloc mem count w =
          Work.alloc mem .vars ⟨w.store, w.made + 1, w.refused⟩ := by
        simp only [schemeAlloc, hfirst]
        exact if_pos ⟨trivial, hcount⟩
      cases hm' : mem (w.made + 1) with
      | false =>
        rw [h, Work.alloc_refused .vars ⟨w.store, w.made + 1, w.refused⟩ hm']
        exact .inr ⟨rfl, hno _ hm', .vars, rfl, mem_cons_self⟩
      | true =>
        rw [h, Work.alloc_granted .vars ⟨w.store, w.made + 1, w.refused⟩ hm']
        exact .inl ⟨rfl, rfl⟩

/-- The three sets, in terms of the requests refused for each of them. -/
theorem vars_iff {nt ne nq : List Site}
    (ht : ∀ r ∈ nt, ∃ v, r = Site.typeItem v) (he : ∀ r ∈ ne, ∃ k, r.number = some k)
    (hq : ∀ r ∈ nq, ∃ v, r = Site.quantItem v) :
    (Kept nt (.typeItem x) t x ∧ ¬ env.Seen s ne x ∧ .quantItem x ∉ nq) ↔
      (Kept (nq ++ (ne ++ nt)) (.typeItem x) t x ∧ ¬ env.Seen s (nq ++ (ne ++ nt)) x ∧
        .quantItem x ∉ nq ++ (ne ++ nt)) := by
  have hzero : ∀ {l : List Site} {r : Site}, r ∉ l → l.count r = 0 :=
    fun h => count_eq_zero_of_not_mem h
  have hte : Site.typeItem x ∉ ne := fun hin => by
    obtain ⟨k, hk⟩ := he _ hin
    cases hk
  have htq : Site.typeItem x ∉ nq := fun hin => by
    obtain ⟨v, hv⟩ := hq _ hin
    cases hv
  have hqe : Site.quantItem x ∉ ne := fun hin => by
    obtain ⟨k, hk⟩ := he _ hin
    cases hk
  have hqt : Site.quantItem x ∉ nt := fun hin => by
    obtain ⟨v, hv⟩ := ht _ hin
    cases hv
  have hseen : env.Seen s ne x ↔ env.Seen s (nq ++ (ne ++ nt)) x := by
    refine exists_congr fun k => exists_congr fun scheme => and_congr_right fun _ =>
      Scheme.seen_congr fun r hr => ?_
    have hrq : r ∉ nq := fun hin => by
      obtain ⟨v, rfl⟩ := hq _ hin
      cases hr
    have hrt : r ∉ nt := fun hin => by
      obtain ⟨v, rfl⟩ := ht _ hin
      cases hr
    rw [count_append, count_append, hzero hrq, hzero hrt, zero_add, add_zero]
  rw [← hseen, Kept, Kept, count_append, count_append, hzero hte, hzero htq,
    zero_add, zero_add, mem_append, mem_append]
  refine and_congr_right fun _ => and_congr_right fun _ => not_congr ?_
  exact (or_iff_left fun h => h.elim hqe hqt).symm

/-- `generalize` answers whatever is refused, and with no refusal it succeeds. -/
theorem Store.Acyclic.generalizeIn (mem : Nat → Bool) (hs : s.Acyclic)
    (henv : env.In s) (htype : type < s.nodes.length) :
    ∃ w answer, Returns (fun fuel => Hm89.generalizeIn mem fuel s env type) (w, answer) ∧
      Answered s env type w answer ∧
      ((∀ n, mem n = true) → w.refused = [] ∧ answer ≠ none) := by
  have hno : ∀ n, mem n = false → ¬ ∀ n, mem n = true := fun n hn hall =>
    absurd (hn.symm.trans (hall n)) Bool.false_ne_true
  cases hm₀ : mem 0 with
  | false =>
    refine ⟨⟨s, 1, [.typeSet]⟩, none, ?_, answered_null mem_cons_self rfl,
      fun hall => absurd hall (hno _ hm₀)⟩
    simp only [Hm89.generalizeIn, Work.alloc_refused .typeSet ⟨s, 0, []⟩ hm₀]
    exact .pure _
  | true =>
    have ha₀ := Work.alloc_granted .typeSet ⟨s, 0, []⟩ hm₀
    obtain ⟨freeType, nt, hret₁, hc₁, ho₁⟩ := Store.Acyclic.typeFtvIn
      (f := ⟨⟨s, 1, []⟩, .empty⟩) mem typeItem_injective hs htype
    cases hm₁ : mem freeType.work.made with
    | false =>
      refine ⟨⟨freeType.work.store, freeType.work.made + 1, .envSet :: freeType.work.refused⟩,
        none, ?_, answered_null mem_cons_self rfl, fun hall => absurd hall (hno _ hm₁)⟩
      simp only [Hm89.generalizeIn, ha₀]
      refine hret₁.bind ?_
      simp only [Work.alloc_refused .envSet freeType.work hm₁]
      exact .pure _
    | true =>
      have ha₁ := Work.alloc_granted .envSet freeType.work hm₁
      have hbodies : ∀ scheme ∈ env.flatten, scheme.body < s.nodes.length := fun scheme hin => by
        obtain ⟨scope, hscope, hscheme⟩ := mem_flatten.1 hin
        exact henv scope hscope scheme hscheme
      obtain ⟨freeEnv, ne, hret₂, hc₂, ho₂⟩ := hs.scopeFtvIn mem env.flatten hbodies 0
        ⟨⟨freeType.work.store, freeType.work.made + 1, freeType.work.refused⟩, .empty⟩ hc₁
      simp only [← envFtvIn_eq] at hret₂
      cases hm₂ : mem freeEnv.work.made with
      | false =>
        refine ⟨⟨freeEnv.work.store, freeEnv.work.made + 1, .quantSet :: freeEnv.work.refused⟩,
          none, ?_, answered_null mem_cons_self rfl, fun hall => absurd hall (hno _ hm₂)⟩
        simp only [Hm89.generalizeIn, ha₀]
        refine hret₁.bind ?_
        simp only [ha₁]
        refine hret₂.bind ?_
        simp only [Work.alloc_refused .quantSet freeEnv.work hm₂]
        exact .pure _
      | true =>
        have ha₂ := Work.alloc_granted .quantSet freeEnv.work hm₂
        obtain ⟨nq, ho₃, -⟩ := offered_foldl mem quantItem_injective freeEnv.set.items
          freeType.set.items
          ⟨⟨freeEnv.work.store, freeEnv.work.made + 1, freeEnv.work.refused⟩, .empty⟩
        obtain ⟨quant, hquant⟩ : ∃ quant, quant =
            freeType.set.items.foldl (collectFreeIn mem freeEnv.set.items)
              ⟨⟨freeEnv.work.store, freeEnv.work.made + 1, freeEnv.work.refused⟩, .empty⟩ :=
          ⟨_, rfl⟩
        have hq₃ : Offered mem Site.quantItem
            (freeType.set.items.filter (· ∉ freeEnv.set.items)) nq
            ⟨⟨freeEnv.work.store, freeEnv.work.made + 1, freeEnv.work.refused⟩, .empty⟩ quant :=
          hquant ▸ ho₃
        have hlog : quant.work.refused = nq ++ (ne ++ nt) := by
          refine hq₃.log.trans (congrArg (nq ++ ·) (ho₂.log.trans (congrArg (ne ++ ·) ?_)))
          exact ho₁.log.trans (append_nil nt)
        have hreturns : Returns (fun fuel => Hm89.generalizeIn mem fuel s env type)
            ((schemeAlloc mem quant.set.items.length quant.work).2,
              if ! (schemeAlloc mem quant.set.items.length quant.work).1 then none
              else some ⟨quant.set.items, type⟩) := by
          simp only [Hm89.generalizeIn, ha₀]
          refine hret₁.bind ?_
          simp only [ha₁]
          refine hret₂.bind ?_
          simp only [ha₂, ← hquant]
          cases (schemeAlloc mem quant.set.items.length quant.work).1 <;> exact .pure _
        rcases schemeAlloc_cases mem quant.set.items.length quant.work with
          ⟨hsome, hsame⟩ | ⟨hnone, hall, r, hr, hin⟩
        · rw [hsome] at hreturns
          refine ⟨_, _, hreturns, ⟨iff_of_false (Option.some_ne_none _) ?_, ?_⟩, fun hall => ?_⟩
          · rintro ⟨r, hr, hchecked⟩
            rw [hsame, hlog, mem_append, mem_append] at hr
            rcases hr with hr | hr | hr
            · obtain ⟨v, rfl⟩ := hq₃.sites r hr
              cases hchecked
            · obtain ⟨k, hk, -, -⟩ := ho₂.numbers r hr
              cases r <;> cases hk <;> cases hchecked
            · obtain ⟨v, rfl⟩ := ho₁.sites r hr
              cases hchecked
          · intro scheme hscheme x
            obtain rfl := (Option.some.inj hscheme).symm
            rw [hsame, hlog, ← vars_iff ho₁.sites (fun r hr => ?_) hq₃.sites]
            · refine (hq₃.mem_iff x).trans ((or_iff_right not_mem_nil).trans ?_)
              rw [count_lt_count_filter (ho₁.nodup nodup_nil), ho₁.mem_iff, ho₂.mem_iff]
              refine and_congr (or_iff_right not_mem_nil) (and_congr_left fun _ => ?_)
              refine not_congr ((or_iff_right not_mem_nil).trans ?_)
              simp only [zero_add]
              exact Iff.rfl
            · obtain ⟨k, hk, -, -⟩ := ho₂.numbers r hr
              exact ⟨k, hk⟩
          · refine ⟨?_, Option.some_ne_none _⟩
            rw [hsame, hlog, hq₃.granted hall, ho₂.granted hall, ho₁.granted hall]
            rfl
        · rw [hnone] at hreturns
          exact ⟨_, _, hreturns, answered_null hin hr, fun h => absurd h hall⟩

/-- Without refusals the quantified variables are those of `generalize`. -/
theorem Answered.granted (h : Answered s env type w (some scheme)) (hw : w.refused = []) (x : Ref) :
    x ∈ scheme.vars ↔ (s.denote type).Has x ∧ ¬ env.Free s x := by
  rw [h.vars scheme rfl, hw, kept_nil, seen_nil]
  exact and_congr_right fun _ => and_iff_left not_mem_nil

theorem Answered.exact_iff {answer : Option Scheme}
    (h : Answered s env type w answer) :
    (∀ scheme, answer = some scheme → ∀ x, x ∈ scheme.vars ↔
      (s.denote type).Has x ∧ ¬ env.Free s x) ↔ Harmless s env type w.refused := by
  constructor
  · intro hexact
    cases answer with
    | none => exact .inl (h.null.1 rfl)
    | some scheme =>
      refine .inr fun x hx => ?_
      have hiff := (h.vars scheme rfl x).symm.trans (hexact scheme rfl x)
      constructor
      · intro hfree
        obtain ⟨hkept, -, hroom⟩ := hiff.2 ⟨hx, hfree⟩
        exact ⟨hkept, hroom⟩
      · intro hfree hkept
        by_contra hlost
        rw [not_or] at hlost
        exact (hiff.1 ⟨hkept, hlost.2, hlost.1⟩).2 hfree
  · rintro hharm scheme rfl x
    rw [h.vars scheme rfl]
    obtain hnull | hall := hharm
    · exact absurd (h.null.2 hnull) (Option.some_ne_none _)
    · constructor
      · rintro ⟨hkept, hseen, hroom⟩
        refine ⟨hkept.has, fun hfree => ?_⟩
        exact ((hall x hkept.has).2 hfree hkept).elim hroom hseen
      · rintro ⟨hx, hfree⟩
        obtain ⟨hkept, hroom⟩ := (hall x hx).1 hfree
        exact ⟨hkept, fun hseen => hfree hseen.free, hroom⟩

/-- Whatever requests are refused, `hm_generalize` answers `NULL` or quantifies the variables
it quantifies when none is, exactly when the refused requests are harmless. -/
theorem generalize_exact_iff (hs : s.Acyclic) {env : Env} (henv : env.In s) {type : Ref}
    (htype : type < s.nodes.length) (mem : Nat → Bool) :
    ∃ w answer w₀ scheme₀,
      Returns (fun fuel => generalizeIn mem fuel s env type) (w, answer) ∧
      Returns (fun fuel => generalizeIn (fun _ => true) fuel s env type) (w₀, some scheme₀) ∧
      ((∀ scheme, answer = some scheme → ∀ x, x ∈ scheme.vars ↔ x ∈ scheme₀.vars) ↔
        Harmless s env type w.refused) := by
  obtain ⟨w, answer, hret, hans, -⟩ := hs.generalizeIn mem henv htype
  obtain ⟨w₀, answer₀, hret₀, hans₀, hgranted⟩ := hs.generalizeIn (fun _ => true) henv htype
  obtain ⟨hlog, hsome⟩ := hgranted fun _ => rfl
  obtain ⟨scheme₀, rfl⟩ := Option.ne_none_iff_exists'.1 hsome
  refine ⟨w, answer, w₀, scheme₀, hret, hret₀, ?_⟩
  rw [← hans.exact_iff]
  simp only [hans₀.granted hlog]

/-- The free variables of `a -> Int` under an environment with `b`, with the fourth request
refused. -/
theorem generalize_exact_fun : ∃ w answer w₀ scheme₀,
    Returns (fun fuel => generalizeIn (fun n => n ≠ 3) fuel funStore [[⟨[], 4⟩]] 2)
      (w, answer) ∧
    Returns (fun fuel => generalizeIn (fun _ => true) fuel funStore [[⟨[], 4⟩]] 2)
      (w₀, some scheme₀) ∧
    ((∀ scheme, answer = some scheme → ∀ x, x ∈ scheme.vars ↔ x ∈ scheme₀.vars) ↔
      Harmless funStore [[⟨[], 4⟩]] 2 w.refused) :=
  generalize_exact_iff funStore_acyclic
    (by
      intro scope hscope scheme hscheme
      rw [mem_singleton.1 hscope] at hscheme
      rw [mem_singleton.1 hscheme]
      decide)
    (by decide) fun n => n ≠ 3

/-- The environment binds a name to the variable 0.  When the set for the body of its scheme
is refused, the variable is quantified. -/
theorem generalize_unsound : ∃ w w₀,
    Returns (fun fuel => generalizeIn (fun n => n ≠ 3) fuel ⟨[.var 0 none], 1⟩ [[⟨[], 0⟩]] 0)
      (w, some ⟨[0], 0⟩) ∧
    Returns (fun fuel => generalizeIn (fun _ => true) fuel ⟨[.var 0 none], 1⟩ [[⟨[], 0⟩]] 0)
      (w₀, some ⟨[], 0⟩) := by
  refine ⟨⟨⟨[.var 0 none], 1⟩, 8, [.bodySet 0]⟩, ⟨⟨[.var 0 none], 1⟩, 8, []⟩,
    ⟨2, fun m hm => ?_⟩, ⟨2, fun m hm => ?_⟩⟩
  · obtain ⟨k, rfl⟩ := Nat.exists_eq_add_of_le' hm
    rfl
  · obtain ⟨k, rfl⟩ := Nat.exists_eq_add_of_le' hm
    rfl

end Hm89
