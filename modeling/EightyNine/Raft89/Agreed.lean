import EightyNine.Raft89.ShapeOk

/-!
# libraft89: members agree on message shapes

`HostShaped` holds of a host over every run, whatever allocations fail, and says
how a step moves the replication counters (`HostShaped.moved`).  A message that
is handed over is accepted by its receiver (`sends_agreed`), unless a request
found no room for its stash while a reply was still to be sent: that reply then
has a shape that no member accepts (`send_not_agreed`).
-/

namespace Raft89

open Option List

open Library (Run)

/-! ## Runs under a condition -/

/-- One event of a host and the action it emits, with a condition on the event
and the state it meets. -/
def Host.NextIf (meets : Supply → Host → Event → Prop) (h : Host) (out : List ActionBody)
    (h' : Host) : Prop :=
  ∃ s ev rc, ev.InRange ∧ meets s h ev ∧ h.step s ev = some (rc, h') ∧
    out = (h.emits h').toList

/-- Every `AppendEntries` request finds room for its stash while the reply of an
earlier one is still to be sent. -/
def Host.Holds (s : Supply) (h : Host) (ev : Event) : Prop :=
  ∀ n, h.node = some n → n.Holds s h.disk ev

/-- The events of a list in order, each with what the host supplies. -/
def Host.drive : Host → List (Supply × Event) → Option (List ActionBody × Host) :=
  Library.play fun h p => (h.step p.1 p.2).map fun r => ((h.emits r.2).toList, r.2)

variable {meets : Supply → Host → Event → Prop} {out : List ActionBody}

theorem Host.drive_run {evs : List (Supply × Event)}
    {h h' : Host} (hdrive : h.drive evs = some (out, h'))
    (hev : ∀ p ∈ evs, p.2.InRange) (hmeets : ∀ p ∈ evs, ∀ h, meets p.1 h p.2) :
    Run (Host.NextIf meets) h out h' :=
  .of_play hdrive fun p hmem h o h' hmove => by
    obtain ⟨⟨rc, h₁⟩, hstep, heq⟩ := map_eq_some_iff.mp hmove
    cases heq
    exact ⟨p.1, p.2, rc, hev p hmem, hmeets p hmem h, hstep, rfl⟩

/-! ## The invariant of a host -/

/-- The invariant of a host over every run. -/
structure HostShaped (strict : Prop) (h : Host) : Prop where
  positive : strict → h.disk.Positive
  node : ∀ n, h.node = some n → Shaped strict n

section Step

variable {strict : Prop} {h h' : Host} {n : Node} {s : Supply} {ev : Event} {rc : Result}

theorem Shaped.free (h : Shaped strict n) (hf : n.faulted = false) (hq : n.hasAction = false) :
    Poised strict n :=
  { h.toSteady with
    noAction := hq
    running := hf
    term := fun hr => by
      have := h.term hf hr
      rwa [Node.nextTerm, if_neg (by simp [hq])] at this }

variable {d : Disk}

theorem Shaped.tick (h : Shaped strict n) (hd : strict → d.Positive) (elapsed : Nat) :
    Shapes strict n.counters (tick (s.env d) n elapsed) := by
  by_cases hf : n.faulted = true
  · rw [Raft89.tick, if_pos hf]
    exact ⟨h, .refl _⟩
  by_cases hq : n.hasAction = true
  · rw [Raft89.tick, if_neg hf, if_pos hq]
    exact ⟨h, .refl _⟩
  rw [Bool.not_eq_true] at hf hq
  exact tick_shapes (h.free hf hq) hd (h.step hf) elapsed

theorem Shaped.proposev (h : Shaped strict n) (cs : Ptr Command) :
    Shapes strict n.counters (proposev (s.env d) n cs) := by
  have hsame : ∀ rc, Shapes strict n.counters (rc, n) := fun _ => ⟨h, .refl _⟩
  by_cases hf : n.faulted = true
  · unfold Raft89.proposev
    split_ifs <;> exact hsame _
  by_cases hq : n.hasAction = true
  · unfold Raft89.proposev
    split_ifs <;> exact hsame _
  rw [Bool.not_eq_true] at hf hq
  exact proposev_shapes (h.free hf hq) (h.step hf) cs

/-- A call on a node keeps the shapes; responses move the counters first. -/
theorem HostShaped.call (hok : HostShaped strict h) (hn : h.node = some n)
    (hev : ev.isCall = true) (hholds : strict → n.Holds s h.disk ev)
    (hstep : h.step s ev = some (rc, h')) :
    ∃ n' w p, h' = ⟨h.disk, some n', w⟩ ∧ Shaped strict n' ∧
      n.Responds h.disk.store ev p ∧ p.Next n'.counters := by
  have hnode := hok.node n hn
  have hd := hok.positive
  cases ev with
  | tick elapsed =>
    obtain ⟨-, hh⟩ := Host.call_eq hn hstep
    have hs := hnode.tick (s := s) hd elapsed
    exact ⟨_, _, _, hh, hs.ok, .same _, hs.next⟩
  | recv m =>
    obtain ⟨-, hh⟩ := Host.call_eq hn hstep
    obtain ⟨p, hp, hs⟩ := recv_shapes (s := s) hnode hd hholds
    exact ⟨_, _, _, hh, hs.ok, hp, hs.next⟩
  | proposev cs =>
    obtain ⟨-, hh⟩ := Host.call_eq hn hstep
    have hs := hnode.proposev (s := s) (d := h.disk) cs
    exact ⟨_, _, _, hh, hs.ok, .same _, hs.next⟩
  | done id result =>
    simp only [Host.step] at hstep
    by_cases hmay : h.mayReport id result = true
    · rw [if_pos hmay] at hstep
      obtain ⟨-, hh⟩ := Host.call_eq hn hstep
      have hs := actionDone_shapes (s := s) hnode hd id result
      exact ⟨_, _, _, hh, hs.ok, .same _, hs.next⟩
    · rw [if_neg hmay] at hstep
      cases hstep
  | _ => cases hev

theorem Disk.Positive.lastTerm (hd : d.Positive) :
    d.log.length = 0 ↔ lastTerm d.log = 0 := by
  constructor
  · intro h0
    simp [Raft89.lastTerm, termAt, h0]
  · intro ht
    by_contra h0
    obtain ⟨t, hlast⟩ := termAt_isSome (Nat.le_refl d.log.length)
    rw [Raft89.lastTerm, hlast] at ht
    rw [← store_logTerm_pos d (Nat.pos_of_ne_zero h0)] at hlast
    exact hd.term_ne hlast ht

theorem Shaped.restored {config : Config} {timeout : Nat}
    (hd : strict → d.Positive) (hv : configValidate config = true) :
    Shaped strict (restored d config timeout) := by
  obtain ⟨-, hself, hnone, -⟩ := configValidate_members hv
  exact
    { self_mem := hself
      none_notMem := hnone
      peers_eq := rfl
      last := fun hk => (hd hk).lastTerm
      pending := nofun
      next_length := nofun
      match_length := nofun
      next := nofun
      term := fun _ hr => absurd rfl hr
      step := fun _ => trivial
      action := nofun }

theorem Disk.Positive.write {d' : Disk} (hd : d.Positive) {body : ActionBody} {w : Nat}
    (hbody : ∀ entries, body = .logAppend entries → ∀ e ∈ entries, e.term ≠ 0)
    (hw : d.write body w = some d') : d'.Positive := by
  rcases Disk.write_cases hw with ⟨m, -, rfl⟩ | ⟨st, -, -, rfl⟩ | ⟨entries, e, hb, he, rfl⟩ |
    ⟨first, -, -, rfl⟩
  · exact hd
  · exact hd
  · intro f hf
    rcases mem_append.1 hf with hf | hf
    · exact hd f hf
    · rw [mem_singleton.1 hf]
      exact hbody entries hb e (mem_of_getElem? he)
  · exact fun f hf => hd f (dropLast_subset _ hf)

/-- Every event keeps the shapes.  A node that runs before it moves its counters
by a response and a call, and a node that starts with it follows. -/
theorem HostShaped.moved (hok : HostShaped strict h) (hholds : strict → h.Holds s ev)
    (hstep : h.step s ev = some (rc, h')) :
    HostShaped strict h' ∧ ∀ n', h'.node = some n' → n'.role = .leader →
      ∃ n p, h.node = some n ∧ n.Responds h.disk.store ev p ∧ p.Next n'.counters := by
  by_cases hcall : ev.isCall = true
  · cases hn : h.node with
    | none =>
      rw [Host.step_none hn hcall] at hstep
      cases hstep
    | some n =>
      obtain ⟨n', w, p, rfl, hs, hp, hnext⟩ :=
        hok.call hn hcall (fun hk => hholds hk n hn) hstep
      refine ⟨⟨hok.positive, fun m hm => ?_⟩, fun m hm _ => ?_⟩
      · simp only [some.injEq] at hm
        rwa [← hm]
      · simp only [some.injEq] at hm
        rw [← hm]
        exact ⟨n, p, rfl, hp, hnext⟩
  · cases ev with
    | start config =>
      obtain ⟨hn, rfl | ⟨hv, -, timeout, rfl⟩⟩ := Host.step_start hstep
      · refine ⟨hok, fun m hm _ => ?_⟩
        rw [hn] at hm
        cases hm
      · refine ⟨⟨hok.positive, fun m hm => ?_⟩, fun m hm hr => ?_⟩
        · simp only [some.injEq] at hm
          rw [← hm]
          exact .restored hok.positive hv
        · simp only [some.injEq] at hm
          rw [← hm] at hr
          cases hr
    | write =>
      obtain ⟨n, d, hn, ha, hd, rfl⟩ := Host.step_write hstep
      have hnode := hok.node n hn
      refine ⟨⟨fun hk => (hok.positive hk).write (fun entries hb => ?_) hd, fun m hm => ?_⟩,
        fun m hm _ => ?_⟩
      · have haction := hnode.action ha
        rw [hb] at haction
        exact haction
      · simp only [some.injEq] at hm
        rwa [← hm]
      · simp only [some.injEq] at hm
        rw [← hm]
        exact ⟨n, _, hn, .same _, .refl _⟩
    | crash =>
      obtain rfl := Host.step_crash hstep
      exact ⟨⟨hok.positive, fun m hm => by cases hm⟩, fun m hm => by cases hm⟩
    | _ => exact absurd rfl hcall

theorem HostShaped.run
    (hok : HostShaped strict h) (hholds : strict → ∀ s h ev, meets s h ev → h.Holds s ev)
    (hrun : Run (Host.NextIf meets) h out h') : HostShaped strict h' := by
  refine hrun.inv hok fun b o c hb hstep => ?_
  obtain ⟨s, ev, rc, -, hmeets, hst, -⟩ := hstep
  exact (hb.moved (fun hk => hholds hk _ _ _ hmeets) hst).1

end Step

/-! ## Messages are accepted -/

/-- In a run whose requests all find room for their stash where it matters, every
message that a node with a representable next index hands over goes to a member
that accepts its envelope and its body. -/
theorem sends_agreed {d : Disk} (hd : d.Positive) {out : List ActionBody} {h : Host}
    (hrun : Run (Host.NextIf Host.Holds) ⟨d, none, 0⟩ out h) {n : Node} (hn : h.node = some n)
    (ha : n.hasAction = true) {m : Message} (hm : n.action.body = .send m)
    (hlast : n.lastLogIndex < u64Max) : n.Agreed m := by
  have hstart : HostShaped True ⟨d, none, 0⟩ := ⟨fun _ => hd, fun n hn => by cases hn⟩
  have hok := hstart.run (fun _ _ _ _ hmeets => hmeets) hrun
  have hnode := hok.node n hn
  have haction := hnode.action ha
  rw [hm] at haction
  exact Node.Delivers.agreed (haction trivial hlast) hnode.toConfigured

/-- A request with one entry and no commit, and the reply to it. -/
def appendOne : Message := ⟨2, 1, .appendEntries 2 0 0 0 (.arr [⟨2, 1, .arr [7]⟩])⟩

/-- Node 1 appends an entry of its leader and its reply is accepted. -/
theorem sends_agreed_append : ∃ (h : Host) (n : Node), h.node = some n ∧
    n.action.body = .send ⟨1, 2, .appendEntriesResponse 2 1 1 0 0⟩ ∧
    n.Agreed ⟨1, 2, .appendEntriesResponse 2 1 1 0 0⟩ := by
  have hdrive : (Host.drive ⟨⟨⟨2, 0⟩, []⟩, none, 0⟩
      [(plenty, .start pairConfig), (plenty, .recv appendOne), (plenty, .write),
        (plenty, .done 1 .ok)]).map
        (fun r => r.2.node.map fun n => (n.hasAction, n.action.body, n.lastLogIndex)) =
      some (some (true, .send ⟨1, 2, .appendEntriesResponse 2 1 1 0 0⟩, 1)) := by
    decide +kernel
  rw [map_eq_some_iff] at hdrive
  obtain ⟨⟨out, h⟩, hdrive, hh⟩ := hdrive
  have hrun : Run (Host.NextIf Host.Holds) ⟨⟨⟨2, 0⟩, []⟩, none, 0⟩ out h := by
    refine Host.drive_run hdrive (by decide +kernel) ?_
    intro p hp h n hn
    simp only [mem_cons, not_mem_nil, or_false] at hp
    rcases hp with rfl | rfl | rfl | rfl
    · trivial
    · intro _ _ _ _
      rfl
    · trivial
    · trivial
  rw [map_eq_some_iff] at hh
  obtain ⟨n, hn, hh⟩ := hh
  simp only [Prod.mk.injEq] at hh
  obtain ⟨ha, hb, hlast⟩ := hh
  exact ⟨h, n, hn, hb, sends_agreed (fun e he => by cases he) hrun hn ha hb
    (by rw [hlast]; decide)⟩

/-- Every allocation but the one at this site succeeds. -/
def starved (site : AllocSite) : Supply := ⟨fun _ => 0, fun a => decide (a ≠ site), true⟩

/-- An appended entry that is committed at once, a request that follows it, and
an old request for a vote. -/
def appendCommitted : Message := ⟨2, 1, .appendEntries 2 0 0 1 (.arr [⟨2, 1, .arr [7]⟩])⟩

def appendNext : Message := ⟨2, 1, .appendEntries 2 1 2 1 (.arr [⟨2, 2, .arr [8]⟩])⟩

def oldVoteRequest : Message := ⟨2, 1, .requestVote 1 0 0⟩

/-- The application of the first entry finds no memory, so the continuation of
the append is left.  The stash of the next request finds none either, which
leaves a reply without success, and the acknowledgement of the refused vote runs
the continuation that sends it. -/
theorem send_not_agreed : ∃ (out : List ActionBody) (h : Host) (n : Node) (m : Message),
    Run (Host.NextIf fun _ _ _ => True) ⟨⟨⟨2, 0⟩, []⟩, none, 0⟩ out h ∧ h.node = some n ∧
      n.hasAction = true ∧ n.action.body = .send m ∧ n.lastLogIndex < u64Max ∧ ¬ n.Agreed m := by
  have hdrive : (Host.drive ⟨⟨⟨2, 0⟩, []⟩, none, 0⟩
      [(plenty, .start pairConfig), (plenty, .recv appendCommitted), (plenty, .write),
        (starved .payload, .done 1 .ok), (starved .stash, .recv appendNext),
        (plenty, .recv oldVoteRequest), (plenty, .done 2 .ok)]).map
        (fun r => r.2.node.map fun n =>
          ((n.hasAction, n.action.body, n.lastLogIndex),
            (n.members, n.maxAppendEntries, n.maxAppendBytes))) =
      some (some ((true, .send ⟨1, 2, .appendEntriesResponse 2 0 1 0 0⟩, 1), ([1, 2], 4, 64))) := by
    decide +kernel
  rw [map_eq_some_iff] at hdrive
  obtain ⟨⟨out, h⟩, hdrive, hh⟩ := hdrive
  rw [map_eq_some_iff] at hh
  obtain ⟨n, hn, hh⟩ := hh
  simp only [Prod.mk.injEq] at hh
  obtain ⟨⟨ha, hb, hlast⟩, hmembers, hentries, hbytes⟩ := hh
  refine ⟨out, h, n, _, Host.drive_run hdrive (by decide +kernel) (fun _ _ _ => trivial), hn, ha,
    hb, by rw [hlast]; decide, fun hagreed => ?_⟩
  have hvalid := hagreed.2 (nodeInit { pairConfig with self := 2 }) rfl hmembers.symm
    hentries.symm hbytes.symm
  exact absurd hvalid (by decide)

end Raft89
