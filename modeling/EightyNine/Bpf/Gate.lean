import EightyNine.Bpf.Step
import Mathlib.Data.List.Infix

/-!
# The import gate

A helper call passes the gate if `r1` holds a live handle of the required type and rights.
`Issued` and `Revoked` say which handles are live in terms of the events of a run, and
`Tracks` connects them to the table of the machine.  The gate looks at the low half of
`r1` only: `gated_iff` says that a run keeps the contract exactly when no helper call that
passes the gate has a larger value there.
-/

namespace Bpf

open List Function Option Nat

/-! ## The history of a run -/

/-- `ev` happened in state `v`, with `after` following. -/
def Vm.Happened (vm₀ : Vm) (events : List Event) (ev : Event) (v : Vm) (after : List Event) :
    Prop :=
  ∃ before, events = before ++ ev :: after ∧ vm₀.run before = some v

/-- A registration returned the handle `h`, and it was not revoked since. -/
def Vm.Issued (vm₀ : Vm) (events : List Event) (h : Nat) (type rights : BitVec 32) : Prop :=
  ∃ v after c, vm₀.Happened events (.regCap type rights) v after ∧
    vmRegCap v type rights = .ok (c, h) ∧ .revokeCap h ∉ after

/-- A revocation of `h` succeeded. -/
def Vm.Revoked (vm₀ : Vm) (events : List Event) (h : Nat) : Prop :=
  ∃ v after c, vm₀.Happened events (.revokeCap h) v after ∧ vmRevokeCap v h = .ok c

/-- The type and the rights the last gate requires, if one was set. -/
def lastGate (events : List Event) : Option (BitVec 32 × BitVec 32) :=
  events.foldl (fun gate ev =>
    match ev with
    | .setImportGate type rights => some (type, rights)
    | _ => gate) none

/-- The value `r1` of a helper call after the events is admitted: no gate was ever set, or
it is a handle that meets the last one. -/
def Vm.Admitted (vm₀ : Vm) (events : List Event) (r1 : Word) : Prop :=
  ∀ type rights, lastGate events = some (type, rights) →
    ∃ granted, vm₀.Issued events r1.toNat type granted ∧ granted &&& rights = rights

/-- The step makes the machine `WAITING`. -/
def Vm.StartsWaiting (vm : Vm) (r : Stepped) : Prop :=
  vm.state ≠ .waiting ∧ r.vm.state = .waiting

def Vm.r1 (vm : Vm) : Word := vm.reg 1

/-- The contract of the gate over a run. -/
structure Vm.Gated (vm₀ : Vm) (events : List Event) : Prop where
  /-- A step makes the machine `WAITING` only on an admitted `r1`. -/
  admits : ∀ pre vm r, pre ++ [.step] <+: events → vm₀.run pre = some vm → vmStep vm = some r →
    vm.StartsWaiting r → vm₀.Admitted pre vm.r1
  /-- The gate accepts no revoked handle. -/
  revoked : ∀ pre vm r h, pre ++ [.step] <+: events → vm₀.run pre = some vm →
    vmStep vm = some r → vm.StartsWaiting r → lastGate pre ≠ none → vm₀.Revoked pre h →
    vm.r1.toNat ≠ h
  /-- A machine that does not wait refuses to complete, and stays as it is. -/
  stale : ∀ pre status vm, pre ++ [.complete status] <+: events → vm₀.run pre = some vm →
    vm.state ≠ .waiting → vmComplete vm status = .error .stale ∧
      vm.event (.complete status) = some vm
  /-- Between two completions the machine has become `WAITING` again. -/
  completes : ∀ pre status vm done mid status' vm' done',
    pre ++ .complete status :: (mid ++ [.complete status']) <+: events →
    vm₀.run pre = some vm → vmComplete vm status = .ok done →
    done.run mid = some vm' → vmComplete vm' status' = .ok done' →
    ∃ first last w r, mid = first ++ .step :: last ∧ done.run first = some w ∧
      vmStep w = some r ∧ w.StartsWaiting r

/-- The next step executes a helper call. -/
structure Vm.CallsHelper (vm : Vm) (pi : ProgInsn) : Prop where
  live : vm.Live pi
  jump : pi.insn.isJump
  code : pi.insn.code = jmpCall
  src : pi.insn.srcReg ≠ 1

/-- In every helper call the gate lets pass, `r1` is no larger than a handle. -/
def Vm.Narrow (vm₀ : Vm) (events : List Event) : Prop :=
  ∀ pre vm pi, pre ++ [.step] <+: events → vm₀.run pre = some vm → vm.CallsHelper pi →
    vm.hasReq = true → gateOk vm vm.r1 = true → vm.r1.toNat < 2 ^ 32

/-! ## The history after one more event -/

variable {vm₀ vm vm' : Vm} {events : List Event} {ev ev₁ : Event} {pi : ProgInsn} {r : Stepped}
  {v : Vm} {after : List Event} {h : Nat} {type rights : BitVec 32}

theorem Vm.run_snoc : vm₀.run (events ++ [ev]) = (vm₀.run events).bind fun vm => vm.event ev := by
  rw [Vm.run, foldlM_append]
  refine congrArg (bind _) (funext fun vm => ?_)
  rw [foldlM_cons]
  cases vm.event ev <;> rfl

theorem Vm.happened_snoc : vm₀.Happened (events ++ [ev₁]) ev v after ↔
    (after = [] ∧ ev = ev₁ ∧ vm₀.run events = some v) ∨
      ∃ rest, after = rest ++ [ev₁] ∧ vm₀.Happened events ev v rest := by
  constructor
  · rintro ⟨before, heq, hrun⟩
    rcases eq_nil_or_concat after with rfl | ⟨rest, last, rfl⟩
    · obtain ⟨rfl, hlast⟩ := append_inj' heq rfl
      exact .inl ⟨rfl, (cons.inj hlast).1.symm, hrun⟩
    · have heq' : events ++ [ev₁] = (before ++ ev :: rest) ++ [last] := by
        rw [heq, append_assoc, cons_append, concat_eq_append]
      obtain ⟨rfl, hlast⟩ := append_inj' heq' rfl
      obtain rfl := (cons.inj hlast).1
      exact .inr ⟨rest, concat_eq_append, before, rfl, hrun⟩
  · rintro (⟨rfl, rfl, hrun⟩ | ⟨rest, rfl, before, rfl, hrun⟩)
    · exact ⟨events, rfl, hrun⟩
    · exact ⟨before, by rw [append_assoc, cons_append], hrun⟩

theorem Vm.issued_snoc : vm₀.Issued (events ++ [ev]) h type rights ↔
    (∃ v c, vm₀.run events = some v ∧ ev = .regCap type rights ∧
      vmRegCap v type rights = .ok (c, h)) ∨
    (vm₀.Issued events h type rights ∧ ev ≠ .revokeCap h) := by
  constructor
  · rintro ⟨v, after, c, hap, hreg, hnot⟩
    rcases Vm.happened_snoc.mp hap with ⟨rfl, rfl, hrun⟩ | ⟨rest, rfl, hrest⟩
    · exact .inl ⟨v, c, hrun, rfl, hreg⟩
    · rw [mem_append, mem_singleton, not_or] at hnot
      exact .inr ⟨⟨v, rest, c, hrest, hreg, hnot.1⟩, fun he => hnot.2 he.symm⟩
  · rintro (⟨v, c, hrun, rfl, hreg⟩ | ⟨⟨v, rest, c, hap, hreg, hnot⟩, hne⟩)
    · exact ⟨v, [], c, Vm.happened_snoc.mpr (.inl ⟨rfl, rfl, hrun⟩), hreg, not_mem_nil⟩
    · refine ⟨v, rest ++ [ev], c, Vm.happened_snoc.mpr (.inr ⟨rest, rfl, hap⟩), hreg, ?_⟩
      rw [mem_append, mem_singleton, not_or]
      exact ⟨hnot, fun he => hne he.symm⟩

theorem Vm.revoked_snoc : vm₀.Revoked (events ++ [ev]) h ↔
    (∃ v c, vm₀.run events = some v ∧ ev = .revokeCap h ∧ vmRevokeCap v h = .ok c) ∨
    vm₀.Revoked events h := by
  constructor
  · rintro ⟨v, after, c, hap, hrev⟩
    rcases Vm.happened_snoc.mp hap with ⟨rfl, rfl, hrun⟩ | ⟨rest, rfl, hrest⟩
    · exact .inl ⟨v, c, hrun, rfl, hrev⟩
    · exact .inr ⟨v, rest, c, hrest, hrev⟩
  · rintro (⟨v, c, hrun, rfl, hrev⟩ | ⟨v, rest, c, hap, hrev⟩)
    · exact ⟨v, [], c, Vm.happened_snoc.mpr (.inl ⟨rfl, rfl, hrun⟩), hrev⟩
    · exact ⟨v, rest ++ [ev], c, Vm.happened_snoc.mpr (.inr ⟨rest, rfl, hap⟩), hrev⟩

theorem lastGate_snoc : lastGate (events ++ [ev]) =
    match ev with
    | .setImportGate type rights => some (type, rights)
    | _ => lastGate events := by
  rw [lastGate, foldl_append, foldl_cons, foldl_nil]
  rfl

/-! ## The table and the history -/

/-- The table and the gate of a machine are what the events have made of them. -/
structure Vm.Tracks (vm₀ : Vm) (events : List Event) (vm : Vm) : Prop where
  reached : vm₀.run events = some vm
  max : vm.caps.max = vmCaps
  room : vm.caps.next ≤ vm.caps.max
  below : ∀ h, vm.caps.live h = true → h < vm.caps.next
  issued : ∀ h type rights, vm₀.Issued events h type rights ↔
    vm.caps.live h = true ∧ vm.caps.type h = type ∧ vm.caps.rights h = rights
  revoked : ∀ h, vm₀.Revoked events h → h < vm.caps.next ∧ vm.caps.live h = false
  gate : lastGate events = if vm.hasReq then some (vm.reqType, vm.reqRights) else none

theorem Vm.Tracks.reached_snoc (ht : vm₀.Tracks events vm) (hev : vm.event ev = some vm') :
    vm₀.run (events ++ [ev]) = some vm' := by
  rw [Vm.run_snoc, ht.reached, bind_some, hev]

/-- An event that neither registers nor revokes keeps the table. -/
theorem Vm.Tracks.same_caps (ht : vm₀.Tracks events vm) (hev : vm.event ev = some vm')
    (hreg : ∀ type rights, ev ≠ .regCap type rights) (hrev : ∀ h, ev ≠ .revokeCap h)
    (hcaps : vm'.caps = vm.caps)
    (hgate : lastGate (events ++ [ev]) =
      if vm'.hasReq then some (vm'.reqType, vm'.reqRights) else none) :
    vm₀.Tracks (events ++ [ev]) vm' where
  reached := ht.reached_snoc hev
  max := by rw [hcaps, ht.max]
  room := by rw [hcaps]; exact ht.room
  below := by rw [hcaps]; exact ht.below
  issued := by
    intro h type rights
    rw [hcaps, ← ht.issued h type rights, Vm.issued_snoc]
    constructor
    · rintro (⟨v, c, -, he, -⟩ | ⟨hi, -⟩)
      · exact absurd he (hreg type rights)
      · exact hi
    · exact fun hi => .inr ⟨hi, hrev h⟩
  revoked := by
    intro h hr
    rw [hcaps]
    rcases Vm.revoked_snoc.mp hr with ⟨v, c, -, he, -⟩ | hr
    · exact absurd he (hrev h)
    · exact ht.revoked h hr
  gate := hgate

theorem Vm.Tracks.same_gate (ht : vm₀.Tracks events vm) (hev : vm.event ev = some vm')
    (hreg : ∀ type rights, ev ≠ .regCap type rights) (hrev : ∀ h, ev ≠ .revokeCap h)
    (hset : ∀ type rights, ev ≠ .setImportGate type rights) (hsame : vm.SameGate vm') :
    vm₀.Tracks (events ++ [ev]) vm' := by
  refine ht.same_caps hev hreg hrev hsame.caps ?_
  rw [hsame.hasReq, hsame.reqType, hsame.reqRights, ← ht.gate, lastGate_snoc]
  cases ev with
  | setImportGate type rights => exact absurd rfl (hset type rights)
  | _ => rfl

theorem capsAlloc_ok {c d : Caps} (hc : capsAlloc c type rights = .ok (d, h)) :
    c.next < c.max ∧ h = c.next ∧ d.max = c.max ∧ d.next = c.next + 1 ∧
      d.live = update c.live c.next true ∧
      d.type = update c.type c.next type ∧
      d.rights = update c.rights c.next rights := by
  rw [capsAlloc] at hc
  split at hc
  next => cases hc
  next hroom =>
    cases hc
    exact ⟨Nat.lt_of_not_le hroom, rfl, rfl, rfl, rfl, rfl, rfl⟩

/-- A registration that succeeds issues the next handle. -/
theorem Vm.Tracks.regCap (ht : vm₀.Tracks events vm) {d : Caps}
    (hc : capsAlloc vm.caps type rights = .ok (d, h)) :
    vm₀.Tracks (events ++ [.regCap type rights]) { vm with caps := d } := by
  have hreg : vmRegCap vm type rights = .ok ({ vm with caps := d }, h) := by
    rw [vmRegCap, hc]
    rfl
  have hev : vm.event (.regCap type rights) = some { vm with caps := d } := by
    rw [Vm.event]
    · simp only [Vm.host, hreg]
    · simp
  obtain ⟨hroom, rfl, hmax, hnext, hlive, htype, hrights⟩ := capsAlloc_ok hc
  have hfresh : vm.caps.live vm.caps.next = false :=
    Bool.eq_false_iff.mpr fun hl => Nat.lt_irrefl _ (ht.below _ hl)
  refine ⟨ht.reached_snoc hev, hmax.trans ht.max, ?_, ?_, ?_, ?_, ?_⟩
  · simp only [hmax, hnext]
    exact hroom
  · intro k hk
    simp only [hlive, hnext] at hk ⊢
    rcases Decidable.eq_or_ne k vm.caps.next with rfl | hne
    · exact lt_succ_self _
    · rw [update_of_ne hne] at hk
      exact lt_succ_of_lt (ht.below k hk)
  · intro k ty rq
    rw [Vm.issued_snoc]
    simp only [hlive, htype, hrights]
    rcases Decidable.eq_or_ne k vm.caps.next with rfl | hne
    · simp only [update_self, true_and]
      constructor
      · rintro (⟨v, c, hrun, he, hok⟩ | ⟨hi, -⟩)
        · obtain ⟨rfl, rfl⟩ := Event.regCap.inj he
          exact ⟨rfl, rfl⟩
        · have hl := ((ht.issued _ _ _).mp hi).1
          exact absurd (hfresh.symm.trans hl) Bool.false_ne_true
      · rintro ⟨rfl, rfl⟩
        exact .inl ⟨vm, _, ht.reached, rfl, hreg⟩
    · simp only [update_of_ne hne]
      rw [← ht.issued]
      constructor
      · rintro (⟨v, c, hrun, he, hok⟩ | ⟨hi, -⟩)
        · obtain ⟨rfl, rfl⟩ := Event.regCap.inj he
          obtain rfl := some.inj (ht.reached.symm.trans hrun)
          exact absurd (Prod.mk.inj (Except.ok.inj (hok.symm.trans hreg))).2 hne
        · exact hi
      · exact fun hi => .inr ⟨hi, fun he => Event.noConfusion he⟩
  · intro k hr
    simp only [hlive, hnext]
    rcases Vm.revoked_snoc.mp hr with ⟨v, c, -, he, -⟩ | hr
    · cases he
    · obtain ⟨hlt, hdead⟩ := ht.revoked k hr
      refine ⟨lt_succ_of_lt hlt, ?_⟩
      rw [update_of_ne (Nat.ne_of_lt hlt)]
      exact hdead
  · rw [lastGate_snoc]
    exact ht.gate

/-- The handles that are live are those a revocation finds. -/
theorem Vm.Tracks.liveAt (ht : vm₀.Tracks events vm) (h : Nat) :
    vm.caps.liveAt h = vm.caps.live h := by
  rw [Caps.liveAt]
  cases hl : vm.caps.live h with
  | false => simp
  | true => simp [Nat.lt_of_lt_of_le (ht.below h hl) ht.room]

/-- A revocation that succeeds takes a live handle away. -/
theorem Vm.Tracks.revokeCap (ht : vm₀.Tracks events vm) (hl : vm.caps.live h = true) :
    vm₀.Tracks (events ++ [.revokeCap h])
      { vm with caps := { vm.caps with live := update vm.caps.live h false } } := by
  have hrevoke : vmRevokeCap vm h =
      .ok { vm with caps := { vm.caps with live := update vm.caps.live h false } } := by
    rw [vmRevokeCap, capsRevoke, if_pos ((ht.liveAt h).trans hl)]
    rfl
  have hev : vm.event (.revokeCap h) =
      some { vm with caps := { vm.caps with live := update vm.caps.live h false } } := by
    rw [Vm.event]
    · simp only [Vm.host, hrevoke]
    · simp
  refine ⟨ht.reached_snoc hev, ht.max, ht.room, ?_, ?_, ?_, ?_⟩
  · intro k hk
    rcases Decidable.eq_or_ne k h with rfl | hne
    · simp only [update_self, Bool.false_eq_true] at hk
    · simp only [update_of_ne hne] at hk
      exact ht.below k hk
  · intro k ty rq
    rw [Vm.issued_snoc]
    rcases Decidable.eq_or_ne k h with rfl | hne
    · simp
    · simp only [update_of_ne hne, ← ht.issued]
      constructor
      · rintro (⟨v, c, -, he, -⟩ | ⟨hi, -⟩)
        · cases he
        · exact hi
      · exact fun hi => .inr ⟨hi, fun he => hne (Event.revokeCap.inj he).symm⟩
  · intro k hr
    rcases Decidable.eq_or_ne k h with rfl | hne
    · simp only [update_self, and_true]
      exact ht.below k hl
    · simp only [update_of_ne hne]
      rcases Vm.revoked_snoc.mp hr with ⟨v, c, -, he, -⟩ | hr
      · exact absurd (Event.revokeCap.inj he).symm hne
      · exact ht.revoked k hr
  · rw [lastGate_snoc]
    exact ht.gate

theorem vmStep_sameGate (hr : vmStep vm = some r) : vm.SameGate r.vm := by
  cases vmStep_cases hr with
  | deep pi calls full state kept =>
    rw [kept]
    exact ⟨rfl, rfl, rfl, rfl⟩
  | call pi calls room called => exact called.toSameGate
  | top pi exits none state keeps | other calls exits keeps => exact keeps.toSameGate
  | ret pi exits pos hk returned => exact returned.toSameGate

/-- Every event keeps the table and the gate as the events have made them. -/
theorem Vm.Tracks.event (ht : vm₀.Tracks events vm) (hev : vm.event ev = some vm') :
    vm₀.Tracks (events ++ [ev]) vm' := by
  cases ev with
  | step =>
    obtain ⟨r, hr, rfl⟩ := map_eq_some_iff.mp hev
    exact ht.same_gate hev (by simp) (by simp) (by simp) (vmStep_sameGate hr)
  | regCap type rights =>
    cases hc : capsAlloc vm.caps type rights with
    | ok c =>
      have hvm : vm' = { vm with caps := c.1 } := by
        cases hev
        simp only [Vm.host, vmRegCap, hc, Except.map]
      rw [hvm]
      exact ht.regCap hc
    | error e =>
      have hvm : vm' = vm := by
        cases hev
        simp only [Vm.host, vmRegCap, hc, Except.map]
      have hfull : ∀ v c k, vm₀.run events = some v → vmRegCap v type rights ≠ .ok (c, k) := by
        intro v c k hrun hok
        obtain rfl := some.inj (ht.reached.symm.trans hrun)
        rw [vmRegCap, hc] at hok
        cases hok
      rw [hvm] at hev ⊢
      refine ⟨ht.reached_snoc hev, ht.max, ht.room, ht.below, ?_, ?_, ?_⟩
      · intro k ty rq
        rw [← ht.issued, Vm.issued_snoc]
        constructor
        · rintro (⟨v, c, hrun, he, hok⟩ | ⟨hi, -⟩)
          · obtain ⟨rfl, rfl⟩ := Event.regCap.inj he
            exact absurd hok (hfull v c k hrun)
          · exact hi
        · exact fun hi => .inr ⟨hi, fun he => Event.noConfusion he⟩
      · intro k hr
        rcases Vm.revoked_snoc.mp hr with ⟨v, c, -, he, -⟩ | hr
        · cases he
        · exact ht.revoked k hr
      · rw [lastGate_snoc]
        exact ht.gate
  | revokeCap k =>
    cases hl : vm.caps.live k with
    | true =>
      have hvm := ht.revokeCap hl
      rwa [some.inj ((ht.reached_snoc hev).symm.trans hvm.reached)]
    | false =>
      have hdead : capsRevoke vm.caps k = .error .handle := by
        rw [capsRevoke, ht.liveAt, hl, if_neg Bool.false_ne_true]
      have hvm : vm' = vm := by
        cases hev
        simp only [Vm.host, vmRevokeCap, hdead, Except.map]
      rw [hvm] at hev ⊢
      refine ⟨ht.reached_snoc hev, ht.max, ht.room, ht.below, ?_, ?_, ?_⟩
      · intro h ty rq
        rw [← ht.issued, Vm.issued_snoc]
        constructor
        · rintro (⟨v, c, -, he, -⟩ | ⟨hi, -⟩)
          · cases he
          · exact hi
        · intro hi
          refine .inr ⟨hi, fun he => ?_⟩
          have hlive := ((ht.issued _ _ _).mp hi).1
          rw [← Event.revokeCap.inj he] at hlive
          exact absurd (hl.symm.trans hlive) Bool.false_ne_true
      · intro h hr
        rcases Vm.revoked_snoc.mp hr with ⟨v, c, hrun, he, hok⟩ | hr
        · obtain rfl := Event.revokeCap.inj he
          obtain rfl := some.inj (ht.reached.symm.trans hrun)
          rw [vmRevokeCap, hdead] at hok
          cases hok
        · exact ht.revoked h hr
      · rw [lastGate_snoc]
        exact ht.gate
  | setImportGate type rights =>
    refine ht.same_caps hev (by simp) (by simp) ?_ ?_
    · cases hev
      rfl
    · cases hev
      rw [lastGate_snoc]
      rfl
  | setBudget budget =>
    refine ht.same_gate hev (by simp) (by simp) (by simp) ?_
    cases hev
    exact ⟨rfl, rfl, rfl, rfl⟩
  | complete status =>
    refine ht.same_gate hev (by simp) (by simp) (by simp) ?_
    cases hev
    rw [Vm.host, vmComplete]
    by_cases hw : vm.state ≠ .waiting
    · rw [if_pos hw]
      exact ⟨rfl, rfl, rfl, rfl⟩
    · rw [if_neg hw]
      exact ⟨rfl, rfl, rfl, rfl⟩

theorem Vm.Tracks.run (more : List Event) : ∀ {events : List Event} {vm vm' : Vm},
    vm₀.Tracks events vm → vm.run more = some vm' → vm₀.Tracks (events ++ more) vm' := by
  induction more with
  | nil =>
    intro events vm vm' ht hrun
    cases hrun
    rwa [append_nil]
  | cons ev more ih =>
    intro events vm vm' ht hrun
    rw [Vm.run, foldlM_cons] at hrun
    obtain ⟨vm₁, hev, hrun⟩ := bind_eq_some_iff.mp hrun
    rw [append_cons]
    exact ih (ht.event hev) hrun

theorem vmCreate_tracks {fresh : Nat → Byte} {frames : Frames} {p : Program}
    {cfg : List RegionCfg} {budget : Word}
    (hcreate : vmCreate fresh frames p cfg budget = .ok vm₀) : vm₀.Tracks [] vm₀ := by
  have hempty : ∀ ev v after, ¬ vm₀.Happened [] ev v after := by
    rintro ev v after ⟨before, he, -⟩
    exact absurd he (by simp)
  rw [vmCreate] at hcreate
  split at hcreate
  next => cases hcreate
  next mem hmem =>
    cases hcreate
    refine ⟨rfl, rfl, Nat.zero_le _, fun h hl => absurd hl Bool.false_ne_true, ?_, ?_, rfl⟩
    · intro h type rights
      constructor
      · rintro ⟨v, after, c, hap, -⟩
        exact absurd hap (hempty _ _ _)
      · exact fun hl => absurd hl.1 Bool.false_ne_true
    · rintro h ⟨v, after, c, hap, -⟩
      exact absurd hap (hempty _ _ _)

/-! ## Helper calls -/

/-- A step that executes no instruction keeps the state or ends the run. -/
theorem vmStep_idle_state (hidle : ∀ pi, ¬ vm.Live pi) (hr : vmStep vm = some r) :
    r.vm.state = .waiting → vm.state = .waiting := by
  intro hw
  by_cases hlive : vm.state = .running ∨ vm.state = .exhausted
  · rw [vmStep_of_live hlive, stepLive] at hr
    split at hr
    next =>
      cases hr
      cases hw
    next hpc =>
      split at hr
      next =>
        cases hr
        cases hw
      next hbudget =>
        cases hget : programGet vm.prog vm.pc with
        | error e =>
          simp only [hget] at hr
          cases hr
          cases hw
        | ok pi => exact absurd ⟨hlive, Nat.lt_of_not_le hpc, hbudget, hget⟩ (hidle pi)
  · cases hs : vm.state with
    | running => exact absurd (.inl hs) hlive
    | exhausted => exact absurd (.inr hs) hlive
    | waiting => rfl
    | _ =>
      rw [vmStep, hs] at hr
      cases hr
      exact absurd (hs.symm.trans hw) (by decide)

theorem Vm.CallsHelper.step (hc : vm.CallsHelper pi) (hr : vmStep vm = some r) :
    r.vm.state = .waiting ↔ (vm.hasReq = true → gateOk vm vm.r1 = true) := by
  have hexec := (vmStep_live hc.live).symm.trans hr
  obtain ⟨is32, hexec⟩ := execInsn_jump hexec hc.jump
  have hja : pi.insn.code ≠ jmpJa := by rw [hc.code]; decide
  have hexit : pi.insn.code ≠ jmpExit := by rw [hc.code]; decide
  rw [execJmp, if_neg hja, if_neg hexit, if_pos hc.code, if_neg hc.src] at hexec
  simp only [execHelper, Regs.get_eq (show 1 < nreg by decide), bind_eq_bind,
    bind_some] at hexec
  have hsame : gateOk { vm with budget := vm.budget - 1 } (vm.regs ⟨1, by decide⟩) =
    gateOk vm vm.r1 := rfl
  rw [hsame] at hexec
  split at hexec
  next hgate =>
    cases hexec
    have hnw : vm.state ≠ .waiting := by
      rcases hc.live.state with hs | hs <;> rw [hs] <;> decide
    refine iff_of_false hnw fun hopen => ?_
    rw [hopen hgate.1] at hgate
    exact absurd hgate.2 (by decide)
  next hgate =>
    cases hexec
    refine iff_of_true rfl fun hreq => ?_
    cases hopen : gateOk vm vm.r1 with
    | true => rfl
    | false => exact absurd ⟨hreq, by rw [hopen]; rfl⟩ hgate

theorem Vm.parks_iff : vm.parks pi = true ↔ pi.insn.isJump ∧
    ((pi.insn.code = jmpExit ∧ vm.retn = 0) ∨
      (pi.insn.code = jmpCall ∧ pi.insn.srcReg ≠ 1)) := by
  rw [Vm.parks, Insn.isJump]
  cases pi.insn.cls <;> simp

theorem vmStep_startsWaiting {fp : Word} (hp : vm.prog.Safe) (hn : vm.n = vm.prog.n)
    (hf : vm.Framed fp) (hr : vmStep vm = some r) : vm.StartsWaiting r ↔
      ∃ pi, vm.CallsHelper pi ∧ (vm.hasReq = true → gateOk vm vm.r1 = true) := by
  constructor
  · rintro ⟨hnw, hw⟩
    by_cases hlive : ∃ pi, vm.Live pi
    · obtain ⟨pi, hl⟩ := hlive
      obtain ⟨qi, hget, -, hi⟩ := hp.get (hn ▸ hl.pc)
      obtain rfl : qi = pi := Except.ok.inj (hget.symm.trans hl.get)
      have hexec := (vmStep_live hl).symm.trans hr
      have hspent : Vm.Framed fp { vm with budget := vm.budget - 1 } := ⟨hf.r10, hf.depth, hf.saved⟩
      have ha := execInsn_answers hspent hi hexec
      by_cases hpark : Vm.parks { vm with budget := vm.budget - 1 } qi = true
      · obtain ⟨hjump, ⟨hexit, h0⟩ | ⟨hcall, hsrc⟩⟩ := Vm.parks_iff.mp hpark
        · obtain ⟨is32, hexec⟩ := execInsn_jump hexec hjump
          have hja : qi.insn.code ≠ jmpJa := by rw [hexit]; decide
          rw [execJmp, if_neg hja, if_pos hexit] at hexec
          obtain rfl := execExit_top hexec h0
          cases hw
        · have hc : vm.CallsHelper qi := ⟨hl, hjump, hcall, hsrc⟩
          exact ⟨qi, hc, (hc.step hr).mp hw⟩
      · have hkept : r.vm.state = vm.state := by
          cases hfault : Vm.faults { vm with budget := vm.budget - 1 } qi with
          | true => exact (ha.faults hfault).2
          | false => exact (ha.runs hfault (Bool.eq_false_iff.mpr hpark)).2
        exact absurd (hkept.symm.trans hw) hnw
    · exact absurd (vmStep_idle_state (fun pi hl => hlive ⟨pi, hl⟩) hr hw) hnw
  · rintro ⟨pi, hc, hgate⟩
    refine ⟨?_, (hc.step hr).mpr hgate⟩
    rcases hc.live.state with hs | hs <;> rw [hs] <;> decide

/-! ## The contract -/

/-- The gate lets pass what the low half of `r1` is admitted as. -/
theorem Vm.Tracks.gateOk_iff (ht : vm₀.Tracks events vm) (hreq : vm.hasReq = true) (hv : Word) :
    gateOk vm hv = true ↔ vm₀.Admitted events ((hv.setWidth 32).setWidth 64) := by
  have hlow : ((hv.setWidth 32).setWidth 64 : Word).toNat = (hv.setWidth 32).toNat := by
    rw [BitVec.toNat_setWidth, mod_eq_of_lt]
    exact Nat.lt_of_lt_of_le (hv.setWidth 32).isLt (by decide)
  have hgate : lastGate events = some (vm.reqType, vm.reqRights) := by
    rw [ht.gate, if_pos hreq]
  rw [gateOk, capsLookup, ht.liveAt, Vm.Admitted, hlow]
  generalize (hv.setWidth 32).toNat = low
  constructor
  · intro hok type rights hlast
    obtain ⟨rfl, rfl⟩ := Prod.mk.inj (some.inj (hgate.symm.trans hlast))
    cases hl : vm.caps.live low with
    | false =>
      rw [hl] at hok
      cases hok
    | true =>
      simp only [hl, if_true, decide_eq_true_eq] at hok
      exact ⟨_, (ht.issued _ _ _).mpr ⟨hl, hok.1, rfl⟩, hok.2⟩
  · intro hadm
    obtain ⟨granted, hi, hrights⟩ := hadm _ _ hgate
    obtain ⟨hl, htype, hgranted⟩ := (ht.issued _ _ _).mp hi
    simp only [hl, if_true, htype, hgranted, hrights, and_self, decide_true]

theorem Vm.Tracks.issued_lt (ht : vm₀.Tracks events vm) (hi : vm₀.Issued events h type rights) :
    h < vmCaps := by
  have hlt := ht.below h ((ht.issued _ _ _).mp hi).1
  exact Nat.lt_of_lt_of_le hlt (ht.max ▸ ht.room)

theorem setWidth_low {hv : Word} (hlt : hv.toNat < 2 ^ 32) :
    (hv.setWidth 32).setWidth 64 = hv := by
  refine BitVec.eq_of_toNat_eq ?_
  rw [BitVec.toNat_setWidth, BitVec.toNat_setWidth, mod_eq_of_lt hlt,
    mod_eq_of_lt hv.isLt]

/-- A host call leaves the machine `WAITING` only if it was. -/
theorem Vm.host_waiting (hw : (vm.host ev).state = .waiting) : vm.state = .waiting := by
  cases ev with
  | step => exact hw
  | regCap type rights =>
    rw [Vm.host, vmRegCap] at hw
    cases hc : capsAlloc vm.caps type rights <;> rw [hc] at hw <;> exact hw
  | revokeCap handle =>
    rw [Vm.host, vmRevokeCap] at hw
    cases hc : capsRevoke vm.caps handle <;> rw [hc] at hw <;> exact hw
  | setImportGate type rights | setBudget budget => exact hw
  | complete status =>
    by_contra hnw
    rw [Vm.host, vmComplete, if_pos hnw] at hw
    exact hnw hw

/-- A run that ends `WAITING` and did not start so has a step that made it so. -/
theorem Vm.run_startsWaiting (events : List Event) : ∀ {vm vm' : Vm}, vm.state ≠ .waiting →
    vm.run events = some vm' → vm'.state = .waiting →
    ∃ first last w r, events = first ++ .step :: last ∧ vm.run first = some w ∧
      vmStep w = some r ∧ w.StartsWaiting r := by
  induction events with
  | nil =>
    intro vm vm' hnw hrun hw
    cases hrun
    exact absurd hw hnw
  | cons ev events ih =>
    intro vm vm' hnw hrun hw
    rw [Vm.run, foldlM_cons] at hrun
    obtain ⟨vm₁, hev, hrun⟩ := bind_eq_some_iff.mp hrun
    by_cases hw₁ : vm₁.state = .waiting
    · cases ev with
      | step =>
        obtain ⟨r, hr, rfl⟩ := map_eq_some_iff.mp hev
        exact ⟨[], events, vm, r, rfl, rfl, hr, hnw, hw₁⟩
      | _ =>
        cases hev
        exact absurd (Vm.host_waiting hw₁) hnw
    · obtain ⟨first, last, w, r, rfl, hfirst, hr, hstart⟩ := ih hw₁ hrun hw
      refine ⟨ev :: first, last, w, r, rfl, ?_, hr, hstart⟩
      rw [Vm.run, foldlM_cons, hev]
      exact hfirst

theorem vmComplete_ok {status : Word} {done : Vm} (hd : vmComplete vm status = .ok done) :
    vm.state = .waiting ∧ done.state = .running := by
  rw [vmComplete] at hd
  split at hd
  next => cases hd
  next hw =>
    cases hd
    exact ⟨Decidable.not_not.mp hw, rfl⟩

/-- A run keeps the contract of the gate exactly when no helper call that passes the gate
has a value in `r1` that is larger than every handle. -/
theorem gated_iff {raw : List Byte} {prof : Option Profile} {p : Program}
    {fresh : Nat → Byte} {frames : Frames} {cfg : List RegionCfg} {budget : Word}
    (hload : loadProgram raw prof = .ok p)
    (hcreate : vmCreate fresh frames p cfg budget = .ok vm₀) (events : List Event) :
    vm₀.Gated events ↔ vm₀.Narrow events := by
  have hp : p.Safe := (loadProgram_ok hload).safe
  have htracks : ∀ {pre vm}, vm₀.run pre = some vm → vm₀.Tracks pre vm :=
    fun hrun => (vmCreate_tracks hcreate).run _ hrun
  have hstarts : ∀ {pre vm r}, vm₀.run pre = some vm → vmStep vm = some r →
      (vm.StartsWaiting r ↔ ∃ pi, vm.CallsHelper pi ∧
        (vm.hasReq = true → gateOk vm vm.r1 = true)) := by
    intro pre vm r hrun hr
    obtain ⟨vm', hrun', hinv⟩ := Vm.Inv.run hp pre (vmCreate_inv hcreate)
    obtain rfl : vm = vm' := some.inj (hrun.symm.trans hrun')
    exact vmStep_startsWaiting (hinv.prog ▸ hp) (hinv.prog ▸ hinv.count) hinv.framed hr
  constructor
  · intro hg pre vm pi hpre hrun hc hreq hgate
    obtain ⟨vm', hrun', hinv⟩ := Vm.Inv.run hp pre (vmCreate_inv hcreate)
    obtain rfl : vm = vm' := some.inj (hrun.symm.trans hrun')
    obtain ⟨r, hr, -, -⟩ := hinv.step hp
    have ht := htracks hrun
    have hadm := hg.admits pre vm r hpre hrun hr ((hstarts hrun hr).mpr ⟨pi, hc, fun _ => hgate⟩)
    obtain ⟨granted, hi, -⟩ := hadm vm.reqType vm.reqRights (by rw [ht.gate, if_pos hreq])
    exact Nat.lt_of_lt_of_le (ht.issued_lt hi) (by decide)
  · intro hn
    refine ⟨?_, ?_, ?_, ?_⟩
    · intro pre vm r hpre hrun hr hstart
      have ht := htracks hrun
      obtain ⟨pi, hc, hgate⟩ := (hstarts hrun hr).mp hstart
      cases hreq : vm.hasReq with
      | false =>
        intro type rights hlast
        rw [ht.gate, hreq] at hlast
        cases hlast
      | true =>
        have hok := hgate hreq
        have hlt := hn pre vm pi hpre hrun hc hreq hok
        have hadm := (ht.gateOk_iff hreq vm.r1).mp hok
        rwa [setWidth_low hlt] at hadm
    · rintro pre vm r h hpre hrun hr hstart hset hrev rfl
      have ht := htracks hrun
      obtain ⟨pi, hc, hgate⟩ := (hstarts hrun hr).mp hstart
      have hreq : vm.hasReq = true := by
        cases hreq : vm.hasReq with
        | true => rfl
        | false => exact absurd (by rw [ht.gate, hreq]; rfl) hset
      have hok := hgate hreq
      have hlt := hn pre vm pi hpre hrun hc hreq hok
      have hadm := (ht.gateOk_iff hreq vm.r1).mp hok
      rw [setWidth_low hlt] at hadm
      obtain ⟨granted, hi, -⟩ := hadm vm.reqType vm.reqRights (by rw [ht.gate, if_pos hreq])
      have hlive := ((ht.issued _ _ _).mp hi).1
      exact absurd ((ht.revoked _ hrev).2.symm.trans hlive) Bool.false_ne_true
    · intro pre status vm hpre hrun hnw
      have hstale : vmComplete vm status = .error .stale := by rw [vmComplete, if_pos hnw]
      refine ⟨hstale, ?_⟩
      rw [Vm.event]
      · simp only [Vm.host, hstale]
      · simp
    · intro pre status vm done mid status' vm' done' hpre hrun hd hmid hd'
      have hnw : done.state ≠ .waiting := by
        rw [(vmComplete_ok hd).2]
        decide
      exact Vm.run_startsWaiting mid hnw hmid (vmComplete_ok hd').1

/-- Handle 0 is registered and gated, and the helper call with it waits. -/
def gatedEvents : List Event := [.regCap 7 1, .setImportGate 7 1, .step, .step, .step, .step, .step]

theorem gated_work :
    (workVm.run gatedEvents).map Vm.state = some .waiting ∧ workVm.Gated gatedEvents := by
  refine ⟨by decide +kernel, (gated_iff load_work create_work gatedEvents).mpr ?_⟩
  intro pre vm _ hpre hrun _ _ _
  have hlow : ∀ pre ∈ gatedEvents.inits,
      (workVm.run pre).all (fun vm => decide (vm.r1.toNat < 2 ^ 32)) = true := by
    decide +kernel
  have h := hlow pre ((mem_inits pre gatedEvents).mpr ((prefix_append pre _).trans hpre))
  rw [hrun] at h
  exact of_decide_eq_true h

/-- `LDDW r1, 2^32; CALL 5; EXIT`. -/
def wideHandleBytes : List Byte :=
  [0x18, 0x01, 0, 0, 0, 0, 0, 0, 0, 0, 0, 0, 1, 0, 0, 0, 0x85, 0, 0, 0, 5, 0, 0, 0,
    0x95, 0, 0, 0, 0, 0, 0, 0]

def wideHandleProgram : Program where
  n := 3
  conf := 3
  ins :=
    [⟨0x18, .ld, 0, .k, 0, .dw, 0, 1, 0, 0, true, 1⟩,
      ⟨0x85, .jmp, 8, .k, 0, .w, 0, 0, 0, 5, false, 0⟩,
      ⟨0x95, .jmp, 9, .k, 0, .w, 0, 0, 0, 0, false, 0⟩]
  recs := [⟨0, 0, false, false⟩, ⟨2, 0, false, false⟩, ⟨3, 0, false, false⟩]

/-- The only capability has handle 0, and the helper call waits with `2^32` in `r1`. -/
theorem wideHandle_admitted : ∃ vm₀, loadProgram wideHandleBytes none = .ok wideHandleProgram ∧
    vmCreate blankBytes blankFrames wideHandleProgram [] 10 = .ok vm₀ ∧
      ¬ vm₀.Gated [.regCap 7 1, .setImportGate 7 1, .step, .step] := by
  obtain ⟨vm₀, hcreate⟩ : ∃ vm₀, vmCreate blankBytes blankFrames wideHandleProgram [] 10 =
    .ok vm₀ := ⟨_, rfl⟩
  refine ⟨vm₀, by decide +kernel, hcreate, fun hg => ?_⟩
  have htracks : ∀ {pre vm}, vm₀.run pre = some vm → vm₀.Tracks pre vm :=
    fun hrun => (vmCreate_tracks hcreate).run _ hrun
  cases hcreate
  have hadm := hg.admits [.regCap 7 1, .setImportGate 7 1, .step] _ _ (prefix_refl _) rfl rfl
    ⟨by decide, by decide⟩
  obtain ⟨granted, hi, -⟩ := hadm 7 1 rfl
  have hlt := (htracks rfl).issued_lt hi
  exact absurd hlt (by decide)

end Bpf
