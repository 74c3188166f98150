import EightyNine.Library.Run
import EightyNine.Raft89.Effects

/-!
# libraft89: runs of one host

A host is driven by any sequence of events, with any random source, and stops
and restarts at any point.  Without a failed allocation it satisfies `HostOk`
throughout (`HostOk.run`), so every message it hands over is backed by its
durable state and every entry it applies is the next one.
-/

namespace Raft89

open List Option

open Library (Run)

/-! ## One call -/

section Call

variable {me : Id} {members : List Id} {d : Disk} {V : View me members d.log} {n : Node}
  {w : Nat}

/-- The pieces written do not matter while nothing is outstanding. -/
theorem NodeOk.unused (h : NodeOk V d n w) (hq : n.hasAction = false) (w' : Nat) :
    NodeOk V d n w' where
  base := h.base
  quiet := h.quiet
  idle := h.idle
  busy ha := by rw [hq] at ha; cases ha

/-- A node that faults keeps what holds of it. -/
theorem NodeOk.fault (h : NodeOk V d n w) : NodeOk V d { n with faulted := true } w where
  base := { h.base with }
  quiet hq := ⟨(h.quiet hq).term, (h.quiet hq).vote⟩
  idle _ hf := by cases hf
  busy ha := by
    have hbusy := h.busy ha
    unfold Busy at hbusy ⊢
    obtain ⟨body, hb⟩ : ∃ body, n.action.body = body := ⟨_, rfl⟩
    simp only [hb] at hbusy ⊢
    cases body with
    | none => exact hbusy
    | send m =>
      refine
        { hbusy with
          hard := ⟨hbusy.hard.term, hbusy.hard.vote⟩
          log := ⟨hbusy.log.index, hbusy.log.term⟩
          candidate := fun hr => { hbusy.candidate hr with }
          step := ?_ }
      have hstep := hbusy.step
      unfold StepOk at hstep ⊢
      obtain ⟨step, hs⟩ : ∃ step, n.step = step := ⟨_, rfl⟩
      simp only [hs] at hstep ⊢
      cases step with
      | aeHardState => exact ⟨hstep.matched, hstep.conflict⟩
      | _ => exact hstep
    | hardState st =>
      exact
        { hbusy with
          hard := hbusy.hard.imp (fun h => ⟨h.1, ⟨h.2.term, h.2.vote⟩⟩) id
          log := ⟨hbusy.log.index, hbusy.log.term⟩
          next := by
            have hnext := hbusy.next
            obtain ⟨step, hs⟩ : ∃ step, n.step = step := ⟨_, rfl⟩
            simp only [hs] at hnext ⊢
            cases step with
            | aeHardState => exact ⟨hnext.1, hnext.2.1, ⟨hnext.2.2.slice, hnext.2.2.range⟩⟩
            | _ => exact hnext }
    | logAppend entries =>
      exact
        { hbusy with
          hard := ⟨hbusy.hard.term, hbusy.hard.vote⟩
          next := by
            have hnext := hbusy.next
            obtain ⟨step, hs⟩ : ∃ step, n.step = step := ⟨_, rfl⟩
            simp only [hs] at hnext ⊢
            cases step with
            | aeAppend =>
              obtain ⟨h1, h2, h3, h4, h5, h6, h7, h8⟩ := hnext
              exact ⟨h1, h2, h3, h4, h5, h6, ⟨h7.slice, h7.range⟩, h8⟩
            | _ => exact hnext }
    | logTruncate first =>
      exact
        { hbusy with
          hard := ⟨hbusy.hard.term, hbusy.hard.vote⟩
          stash := ⟨hbusy.stash.slice, hbusy.stash.range⟩ }
    | apply e =>
      exact
        { hbusy with
          hard := ⟨hbusy.hard.term, hbusy.hard.vote⟩
          log := ⟨hbusy.log.index, hbusy.log.term⟩
          candidate := fun hr => { hbusy.candidate hr with }
          after := hbusy.after.imp id fun ⟨h1, h2⟩ => ⟨h1, ⟨h2.le, h2.agrees⟩⟩ }

/-- The counters a call on the node starts from: an acknowledged application
moves the applied index. -/
def Node.nextMark (n : Node) : Mark :=
  if n.hasAction then n.mark.ack n.action.body else n.mark

/-- How a call may move the counters of a node. -/
inductive Moved (n n' : Node) : Prop where
  | same (h : n' = n)
  | fault (h : n' = { n with faulted := true })
  | on (fresh : n'.hasAction = true → n.actionSeq < n'.actionSeq)
      (applied : n'.appliedIndex = n.nextMark.applied) (commit : n.commitIndex ≤ n'.commitIndex)

theorem Mark.ack_seq (k : Mark) (body : ActionBody) : (k.ack body).seq = k.seq := by
  cases body <;> rfl

theorem Mark.ack_commit (k : Mark) (body : ActionBody) : (k.ack body).commit = k.commit := by
  cases body <;> rfl

/-- The pieces written after a call. -/
def writtenAfter (n n' : Node) (w : Nat) : Nat := if n'.actionSeq = n.actionSeq then w else 0

variable {r : Ret}

theorem After.nodeOk {k : Mark} (h : After V k r) (hk : k.seq = n.actionSeq) :
    NodeOk V d r.2 (writtenAfter n r.2 w) := by
  cases ha : r.2.hasAction with
  | false => exact h.ok.unused ha _
  | true =>
    have := h.fresh ha
    rw [writtenAfter, if_neg (by omega)]
    exact h.ok

theorem CallOk.nodeOk (h : CallOk V n r) (hn : NodeOk V d n w) :
    NodeOk V d r.2 (writtenAfter n r.2 w) ∧ Moved n r.2 := by
  rcases h with h | ⟨hq, -, h⟩
  · rw [h, writtenAfter, if_pos rfl]
    exact ⟨hn, .same rfl⟩
  · refine ⟨h.nodeOk rfl, .on h.fresh ?_ h.commit⟩
    rw [h.applied, Node.nextMark, if_neg (by simp [hq])]

theorem DoneOk.nodeOk (h : DoneOk V n r) (hn : NodeOk V d n w) :
    NodeOk V d r.2 (writtenAfter n r.2 w) ∧ Moved n r.2 := by
  rcases h with h | h | ⟨hq, -, h⟩
  · rw [h, writtenAfter, if_pos rfl]
    exact ⟨hn, .same rfl⟩
  · rw [h, writtenAfter, if_pos rfl]
    exact ⟨hn.fault, .fault rfl⟩
  · refine ⟨h.nodeOk (Mark.ack_seq _ _), .on ?_ ?_ ?_⟩
    · have := h.fresh
      rw [Mark.ack_seq] at this
      exact this
    · rw [h.applied, Node.nextMark, if_pos hq]
    · have := h.commit
      rw [Mark.ack_commit] at this
      exact this

end Call

/-! ## One event -/

/-- The event is a call on a running node. -/
def Event.isCall : Event → Bool
  | .tick _ | .recv _ | .proposev _ | .done _ _ => true
  | .start _ | .write | .crash => false

variable {h h' : Host} {rc : Result}

theorem Host.call_eq {n : Node} {f : Node → Ret}
    (hn : h.node = some n) (hcall : h.call f = some (rc, h')) :
    rc = (f n).1 ∧ h' = ⟨h.disk, some (f n).2, writtenAfter n (f n).2 h.written⟩ := by
  unfold Host.call at hcall
  rw [hn] at hcall
  simp only [some.injEq, Prod.mk.injEq] at hcall
  exact ⟨hcall.1.symm, hcall.2.symm⟩

variable {s : Supply} {ev : Event}

theorem Host.step_none (hn : h.node = none) (hev : ev.isCall = true) : h.step s ev = none := by
  have hcall : ∀ f, h.call f = none := by
    intro f
    rw [Host.call, hn]
  cases ev with
  | tick elapsed | recv m | proposev cs => exact hcall _
  | done id result =>
    simp only [Host.step]
    split
    · exact hcall _
    · rfl
  | _ => cases hev

/-- A call keeps the invariant for any view that backs the received message. -/
theorem Host.step_call {n : Node}
    {me : Id} {members : List Id} {V : View me members h.disk.log} (hn : h.node = some n)
    (hok : NodeOk V h.disk n h.written) (hev : ev.isCall = true)
    (hrecv : ∀ m, ev = .recv m → V.Accepts m) (hstep : h.step s ev = some (rc, h'))
    (hrc : rc ≠ .errNomem) :
    ∃ n', h' = ⟨h.disk, some n', writtenAfter n n' h.written⟩ ∧
      NodeOk V h.disk n' (writtenAfter n n' h.written) ∧ Moved n n' := by
  cases ev with
  | tick elapsed =>
    obtain ⟨rfl, hh⟩ := Host.call_eq hn hstep
    exact ⟨_, hh, (tick_ok hok hrc).nodeOk hok⟩
  | recv m =>
    obtain ⟨rfl, hh⟩ := Host.call_eq hn hstep
    exact ⟨_, hh, (recv_ok hok (hrecv m rfl) hrc).nodeOk hok⟩
  | proposev cs =>
    obtain ⟨rfl, hh⟩ := Host.call_eq hn hstep
    exact ⟨_, hh, (proposev_ok hok hrc).nodeOk hok⟩
  | done id result =>
    simp only [Host.step] at hstep
    by_cases hmay : h.mayReport id result = true
    · rw [if_pos hmay] at hstep
      obtain ⟨rfl, hh⟩ := Host.call_eq hn hstep
      refine ⟨_, hh, (actionDone_ok hok ?_ hrc).nodeOk hok⟩
      intro hres ha hid
      unfold Host.mayReport at hmay
      rw [hn] at hmay
      simpa [hres, ha, hid] using hmay
    · rw [if_neg hmay] at hstep
      cases hstep
  | _ => cases hev

theorem Host.step_start {config : Config}
    (hstep : h.step s (.start config) = some (rc, h')) :
    h.node = none ∧ (h' = h ∨
      (configValidate config = true ∧ config.appliedIndex ≤ h.disk.log.length ∧
        ∃ timeout, h' = ⟨h.disk, some (restored h.disk config timeout), 0⟩)) := by
  simp only [Host.step] at hstep
  cases hn : h.node with
  | some n =>
    rw [hn] at hstep
    cases hstep
  | none =>
    rw [hn] at hstep
    refine ⟨rfl, ?_⟩
    cases hc : create (s.env h.disk) s.nodeAlloc config with
    | error rc' =>
      rw [hc] at hstep
      simp only [some.injEq, Prod.mk.injEq] at hstep
      exact .inl hstep.2.symm
    | ok n =>
      rw [hc] at hstep
      simp only [some.injEq, Prod.mk.injEq] at hstep
      obtain ⟨h1, h2, timeout, rfl⟩ := create_ok hc
      exact .inr ⟨h1, h2, timeout, hstep.2.symm⟩

theorem Host.step_write (hstep : h.step s .write = some (rc, h')) :
    ∃ n d, h.node = some n ∧ n.hasAction = true ∧
      h.disk.write n.action.body h.written = some d ∧ h' = ⟨d, some n, h.written + 1⟩ := by
  simp only [Host.step] at hstep
  cases hn : h.node with
  | none =>
    rw [hn] at hstep
    cases hstep
  | some n =>
    simp only [hn] at hstep
    by_cases ha : n.hasAction = true
    · rw [if_pos ha] at hstep
      cases hd : h.disk.write n.action.body h.written with
      | none =>
        rw [hd] at hstep
        cases hstep
      | some d =>
        rw [hd] at hstep
        simp only [some.injEq, Prod.mk.injEq] at hstep
        exact ⟨n, d, rfl, ha, hd, hstep.2.symm⟩
    · rw [if_neg ha] at hstep
      cases hstep

theorem Host.step_crash (hstep : h.step s .crash = some (rc, h')) : h' = ⟨h.disk, none, 0⟩ := by
  simp only [Host.step] at hstep
  cases hn : h.node with
  | none =>
    rw [hn] at hstep
    cases hstep
  | some n =>
    simp only [hn, some.injEq, Prod.mk.injEq] at hstep
    exact hstep.2.symm

variable {d' : Disk}

theorem Disk.write_cases {d : Disk} {body : ActionBody} {w : Nat}
    (h : d.write body w = some d') :
    (∃ m, body = .send m ∧ d' = d) ∨
      (∃ st, body = .hardState st ∧ w = 0 ∧ d' = { d with hard := st }) ∨
      (∃ entries e, body = .logAppend entries ∧ entries[w]? = some e ∧
        d' = { d with log := d.log ++ [e.toLog] }) ∨
      ∃ first, body = .logTruncate first ∧ first ≤ d.log.length ∧
        d' = { d with log := d.log.dropLast } := by
  unfold Disk.write at h
  cases body with
  | none | apply e => cases h
  | send m =>
    cases h
    exact .inl ⟨m, rfl, rfl⟩
  | hardState st =>
    simp only at h
    by_cases hw : w = 0
    · rw [if_pos hw] at h
      cases h
      exact .inr (.inl ⟨st, rfl, hw, rfl⟩)
    · rw [if_neg hw] at h
      cases h
  | logAppend entries =>
    simp only [map_eq_some_iff] at h
    obtain ⟨e, he, rfl⟩ := h
    exact .inr (.inr (.inl ⟨entries, e, rfl, he, rfl⟩))
  | logTruncate first =>
    simp only at h
    by_cases hle : first ≤ d.log.length
    · rw [if_pos hle] at h
      cases h
      exact .inr (.inr (.inr ⟨first, rfl, hle, rfl⟩))
    · rw [if_neg hle] at h
      cases h

/-- A written piece stays within the words of the library. -/
theorem NodeOk.write_inRange {me : Id} {members : List Id} {d : Disk}
    {V : View me members d.log} {n : Node} {w : Nat} (h : NodeOk V d n w)
    (ha : n.hasAction = true) (hd : d.InRange) (hw : d.write n.action.body w = some d') :
    d'.InRange := by
  have hbusy := h.busy ha
  unfold Busy at hbusy
  rcases Disk.write_cases hw with ⟨m, hb, rfl⟩ | ⟨st, hb, rfl, rfl⟩ | ⟨entries, e, hb, he, rfl⟩ |
    ⟨first, hb, hle, rfl⟩
  · exact hd
  · rw [hb] at hbusy
    exact ⟨hbusy.term_le, hd.length⟩
  · rw [hb] at hbusy
    refine ⟨hd.term, ?_⟩
    have hlt : w < entries.length := by
      by_contra hge
      rw [getElem?_eq_none (by omega)] at he
      cases he
    have := hbusy.length
    have := hbusy.range
    simp only [length_append, length_singleton]
    omega
  · refine ⟨hd.term, ?_⟩
    have := hd.length
    simp only [length_dropLast]
    omega

/-! ## The invariant of a host -/

/-- The invariant of a host that knows nothing of the rest of the cluster. -/
structure HostOk (h : Host) : Prop where
  range : h.disk.InRange
  node : ∀ n, h.node = some n →
    NodeOk (View.trivial n.self n.members h.disk.log) h.disk n h.written

theorem View.trivial_same {me : Id} {members : List Id} {log : List LogEntry} :
    (View.trivial me members log).Same (View.trivial me members log) := View.Same.refl _

theorem NodeOk.write {me : Id} {members : List Id} {d : Disk} {n : Node} {w : Nat}
    (h : NodeOk (View.trivial me members d.log) d n w) (ha : n.hasAction = true)
    (hw : d.write n.action.body w = some d') :
    NodeOk (View.trivial me members d'.log) d' n (w + 1) := by
  rcases Disk.write_cases hw with ⟨m, hb, rfl⟩ | ⟨st, hb, rfl, rfl⟩ | ⟨entries, e, hb, he, rfl⟩ |
    ⟨first, hb, hle, rfl⟩
  · exact h.write_send hb ha
  · exact h.write_hardState hb ha View.trivial_same fun _ => ⟨⟩
  · exact h.write_logAppend hb ha he (View.trivial_moves _ _ _) fun _ => ⟨⟩
  · exact h.write_logTruncate hb ha hle (View.trivial_moves _ _ _)

/-- Every event without a failed allocation keeps the invariant, and moves the
counters of a running node as calls do. -/
theorem HostOk.step (hok : HostOk h)
    (hev : ev.InRange) (hstep : h.step s ev = some (rc, h')) (hrc : rc ≠ .errNomem) :
    HostOk h' := by
  by_cases hcall : ev.isCall = true
  · cases hn : h.node with
    | none =>
      rw [Host.step_none hn hcall] at hstep
      cases hstep
    | some n =>
      have hnode := hok.node n hn
      obtain ⟨n', rfl, hn', -⟩ := Host.step_call hn hnode hcall
        (fun m hm => View.trivial_accepts (by rw [hm] at hev; exact hev)) hstep hrc
      refine ⟨hok.range, fun m hm => ?_⟩
      simp only [some.injEq] at hm
      subst hm
      rw [hn'.base.me_eq, hn'.base.members_eq]
      exact hn'
  · cases ev with
    | start config =>
      obtain ⟨-, rfl | ⟨hv, hle, timeout, rfl⟩⟩ := Host.step_start hstep
      · exact hok
      · refine ⟨hok.range, fun m hm => ?_⟩
        simp only [some.injEq] at hm
        subst hm
        exact NodeOk.restored hok.range hv hle rfl rfl ⟨⟩
    | write =>
      obtain ⟨n, d, hn, ha, hd, rfl⟩ := Host.step_write hstep
      have hnode := hok.node n hn
      refine ⟨hnode.write_inRange ha hok.range hd, fun m hm => ?_⟩
      simp only [some.injEq] at hm
      subst hm
      exact hnode.write ha hd
    | crash =>
      obtain rfl := Host.step_crash hstep
      exact ⟨hok.range, fun n hn => by cases hn⟩
    | _ => exact absurd rfl hcall

/-! ## Runs -/

/-- One event of a host and the action it emits, with a restriction on the
events and on the status they return. -/
def Host.Next (allowed : Event → Result → Prop) (h : Host) (out : List ActionBody)
    (h' : Host) : Prop :=
  ∃ s ev rc, ev.InRange ∧ h.step s ev = some (rc, h') ∧ allowed ev rc ∧
    out = (h.emits h').toList

/-- No call reports a failed allocation. -/
def NoNomem (_ : Event) (rc : Result) : Prop := rc ≠ .errNomem

variable {out : List ActionBody} {allowed : Event → Result → Prop}

theorem HostOk.run (hok : HostOk h) (hallowed : ∀ ev rc, allowed ev rc → rc ≠ .errNomem)
    (hrun : Run (Host.Next allowed) h out h') : HostOk h' := by
  refine hrun.inv hok fun b o c hb hstep => ?_
  obtain ⟨s, ev, rc, hev, hst, hal, -⟩ := hstep
  exact hb.step hev hst (hallowed _ _ hal)

theorem HostOk.off {d : Disk} (hd : d.InRange) : HostOk ⟨d, none, 0⟩ where
  range := hd
  node n hn := by cases hn

/-- The events of a list in order, with the actions they emit; `none` when one is
not possible or its status is not allowed. -/
def Host.play (allowed : Event → Result → Bool) (s : Supply) :
    Host → List Event → Option (List ActionBody × Host) :=
  Library.play fun h ev => (h.step s ev).bind fun r =>
    if allowed ev r.1 then some ((h.emits r.2).toList, r.2) else none

theorem Host.play_run {ok : Event → Result → Bool} {evs : List Event}
    (hplay : h.play ok s evs = some (out, h')) (hev : ∀ ev ∈ evs, ev.InRange)
    (hok : ∀ ev rc, ok ev rc = true → allowed ev rc) : Run (Host.Next allowed) h out h' :=
  .of_play hplay fun ev hmem h o h' hmove => by
    obtain ⟨⟨rc, h₁⟩, hstep, hal⟩ := bind_eq_some_iff.mp hmove
    split at hal
    · rename_i hrc
      cases hal
      exact ⟨s, ev, rc, hev ev hmem, hstep, hok _ _ hrc, rfl⟩
    · cases hal

/-! ## Messages wait for durable state -/

/-- What a message claims about its sender's durable state. -/
def Backed (d : Disk) (m : Message) : Prop :=
  match m.body with
  | .requestVote t i u => t = d.hard.currentTerm ∧ termAt d.log i = some u
  | .requestVoteResponse t g =>
    g ≠ 0 → t = d.hard.currentTerm ∧ d.hard.votedFor = m.receiver
  | .appendEntries t p q _ _ => t = d.hard.currentTerm ∧ termAt d.log p = some q
  | .appendEntriesResponse _ s i _ _ =>
    s ≠ 0 → ∀ k, 0 < k → k ≤ i → (entryAt d.log k).isSome = true
  | .unknown _ => False

theorem SendOk.backed {me : Id} {members : List Id} {d : Disk} {V : View me members d.log}
    {n : Node} {m : Message} (h : SendOk V d n m) : Backed d m := by
  have hbody := h.2
  unfold Backed
  cases hb : m.body with
  | requestVote t i u =>
    rw [hb] at hbody
    obtain ⟨h1, h2, h3, -⟩ := hbody
    obtain ⟨v, hv⟩ := termAt_isSome (Nat.le_refl d.log.length)
    refine ⟨h1, ?_⟩
    rw [h2, h3, lastTerm, hv]
    rfl
  | requestVoteResponse t g =>
    rw [hb] at hbody
    exact fun hg => ⟨(hbody hg).1, (hbody hg).2.1⟩
  | appendEntries t p q c es =>
    rw [hb] at hbody
    exact ⟨hbody.1, hbody.2.2.1⟩
  | appendEntriesResponse t s i ct ci =>
    rw [hb] at hbody
    intro hs k h0 hk
    obtain ⟨e, he⟩ := entryAt_eq_some_of_pos h0 (Nat.le_trans hk (hbody hs).2.1)
    rw [he]
    rfl
  | unknown ty =>
    rw [hb] at hbody
    exact hbody

/-- Whatever a node receives and however its actions are acknowledged, a message
it hands over claims only what is durable. -/
theorem outstanding_send_backed {d : Disk} (hd : d.InRange) {out : List ActionBody} {h : Host}
    (hrun : Run (Host.Next NoNomem) ⟨d, none, 0⟩ out h) {n : Node} (hn : h.node = some n)
    (ha : n.hasAction = true) {m : Message} (hm : n.action.body = .send m) :
    Backed h.disk m := by
  have hok := (HostOk.off hd).run (fun _ _ h => h) hrun
  have hbusy := (hok.node n hn).busy ha
  unfold Busy at hbusy
  rw [hm] at hbusy
  exact hbusy.message.backed

/-- Node 1 of two members. -/
def pairConfig : Config where
  self := 1
  members := .arr [1, 2]
  heartbeatInterval := 1
  electionTimeoutMin := 2
  electionTimeoutMax := 2
  maxAppendEntries := 4
  maxAppendBytes := 64
  appliedIndex := 0

/-- Every allocation succeeds and the random source returns zero. -/
def plenty : Supply := ⟨fun _ => 0, fun _ => true, true⟩

/-- Node 1 grants its vote to node 2 in term 5 once the vote is durable. -/
theorem outstanding_send_backed_vote :
    Backed ⟨⟨5, 2⟩, []⟩ (buildVoteResponse 1 2 5 true) := by
  have hplay : (Host.play (fun _ rc => decide (rc ≠ .errNomem)) plenty
      ⟨⟨⟨0, 0⟩, []⟩, none, 0⟩
      [.start pairConfig, .recv ⟨2, 1, .requestVote 5 0 0⟩, .write, .done 1 .ok]).map
        (fun r => (r.2.disk, r.2.node.map fun n => (n.hasAction, n.action.body))) =
      some (⟨⟨5, 2⟩, []⟩, some (true, .send (buildVoteResponse 1 2 5 true))) := by
    decide +kernel
  rw [map_eq_some_iff] at hplay
  obtain ⟨⟨out, h⟩, hplay, hh⟩ := hplay
  have hrun : Run (Host.Next NoNomem) ⟨⟨⟨0, 0⟩, []⟩, none, 0⟩ out h :=
    Host.play_run hplay (by decide +kernel) fun _ rc h =>
      of_decide_eq_true (p := rc ≠ .errNomem) h
  rw [Prod.mk.injEq, map_eq_some_iff] at hh
  obtain ⟨hdisk, n, hn, hn'⟩ := hh
  rw [Prod.mk.injEq] at hn'
  rw [← hdisk]
  exact outstanding_send_backed ⟨Nat.zero_le _, Nat.zero_le _⟩ hrun hn hn'.1 hn'.2

/-! ## Entries are applied in order -/

/-- The indices of the applications among the emitted actions. -/
def applyIndices (out : List ActionBody) : List Nat :=
  out.filterMap fun
    | .apply e => some e.index
    | _ => none

/-- One when an application is outstanding. -/
def Node.applying (n : Node) : Nat :=
  if n.hasAction then
    match n.action.body with
    | .apply _ => 1
    | _ => 0
  else 0

theorem Node.nextMark_applied (n : Node) :
    n.nextMark.applied = n.appliedIndex + n.applying := by
  unfold Node.nextMark Node.applying
  by_cases ha : n.hasAction = true
  · rw [if_pos ha, if_pos ha]
    cases n.action.body <;> rfl
  · rw [if_neg ha, if_neg ha]
    rfl

/-- No call reports a failed allocation and the process neither stops nor starts. -/
def Undisturbed (ev : Event) (rc : Result) : Prop :=
  rc ≠ .errNomem ∧ match ev with
    | .start _ | .crash => False
    | _ => True

theorem Undisturbed.of_call
    (h : (ev.isCall && decide (rc ≠ .errNomem)) = true) : Undisturbed ev rc := by
  rw [Bool.and_eq_true, decide_eq_true_iff] at h
  obtain ⟨hcall, hrc⟩ := h
  refine ⟨hrc, ?_⟩
  cases ev with
  | start config | crash => cases hcall
  | _ => trivial

/-- A node applied entries `start + 1`, `start + 2`, … without a gap. -/
structure InOrder (start : Nat) (out : List ActionBody) (h : Host) : Prop where
  ok : HostOk h
  node : ∃ n, h.node = some n ∧ start ≤ n.appliedIndex ∧
    applyIndices out = range' (start + 1) (n.appliedIndex - start + n.applying)

theorem range'_snoc (a k : Nat) : range' a k ++ [a + k] = range' a (k + 1) := by
  rw [range'_1_concat]

theorem HostOk.moved {n : Node}
    (hok : HostOk h) (hev : ev.InRange) (hstep : h.step s ev = some (rc, h'))
    (hal : Undisturbed ev rc) (hn : h.node = some n) :
    HostOk h' ∧ ∃ n', h'.node = some n' ∧ Moved n n' := by
  refine ⟨hok.step hev hstep hal.1, ?_⟩
  by_cases hcall : ev.isCall = true
  · obtain ⟨n', rfl, -, hmoved⟩ := Host.step_call hn (hok.node n hn) hcall
      (fun m hm => View.trivial_accepts (by rw [hm] at hev; exact hev)) hstep hal.1
    exact ⟨n', rfl, hmoved⟩
  · cases ev with
    | start config | crash => exact hal.2.elim
    | write =>
      obtain ⟨m, d, hm, -, -, rfl⟩ := Host.step_write hstep
      rw [hn, some.injEq] at hm
      exact ⟨m, rfl, .same hm.symm⟩
    | _ => exact absurd rfl hcall

variable {n' : Node}

theorem Host.emits_of_seq {n : Node} (hn : h.node = some n)
    (hn' : h'.node = some n') (hs : n'.actionSeq = n.actionSeq ∨ n'.hasAction = false) :
    h.emits h' = none := by
  unfold Host.emits
  rw [hn, hn']
  rcases hs with hs | hs <;> simp [hs]

theorem Host.emits_new {n : Node} (hn : h.node = some n)
    (hn' : h'.node = some n') (ha : n'.hasAction = true) (hs : n.actionSeq < n'.actionSeq) :
    h.emits h' = some n'.action.body := by
  have hne : n'.actionSeq ≠ n.actionSeq := by omega
  unfold Host.emits
  rw [hn, hn']
  simp [ha, hne]

theorem InOrder.step {start : Nat}
    (hin : InOrder start out h) (hev : ev.InRange)
    (hstep : h.step s ev = some (rc, h')) (hal : Undisturbed ev rc) :
    InOrder start (out ++ (h.emits h').toList) h' := by
  obtain ⟨n, hn, hle, hidx⟩ := hin.node
  obtain ⟨hok', n', hn', hmoved⟩ := hin.ok.moved hev hstep hal hn
  refine ⟨hok', n', hn', ?_⟩
  cases hmoved with
  | same hsame =>
    subst hsame
    rw [Host.emits_of_seq hn hn' (.inl rfl), toList_none, append_nil]
    exact ⟨hle, hidx⟩
  | fault hfault =>
    subst hfault
    rw [Host.emits_of_seq hn hn' (.inl rfl), toList_none, append_nil]
    exact ⟨hle, hidx⟩
  | on fresh applied commit =>
    rw [Node.nextMark_applied] at applied
    refine ⟨by omega, ?_⟩
    have hcount : n.appliedIndex - start + n.applying = n'.appliedIndex - start := by omega
    rw [hcount] at hidx
    cases ha : n'.hasAction with
    | false =>
      have hnone : n'.applying = 0 := by simp [Node.applying, ha]
      rw [Host.emits_of_seq hn hn' (.inr ha), toList_none, append_nil, hidx, hnone]
      rfl
    | true =>
      rw [Host.emits_new hn hn' ha (fresh ha), toList_some]
      have hbusy := (hok'.node n' hn').busy ha
      unfold Busy at hbusy
      rw [applyIndices, filterMap_append, ← applyIndices, hidx]
      unfold Node.applying
      rw [if_pos ha]
      cases hb : n'.action.body with
      | apply e =>
        rw [hb] at hbusy
        simp only [filterMap_cons, filterMap_nil]
        rw [hbusy.index, ← range'_snoc]
        congr 2
        omega
      | _ => simp

/-- Between two restarts the entries above `applied_index` of the configuration
are applied one after the other, none twice, none above the commit index; the
applied and the commit index only grow, and the applied index has caught up
whenever a running node has nothing outstanding. -/
theorem applies_in_order {d : Disk} (hd : d.InRange) {s : Supply} {config : Config} {n₀ : Node}
    (hstart : create (s.env d) s.nodeAlloc config = .ok n₀) {out : List ActionBody} {h : Host}
    (hrun : Run (Host.Next Undisturbed) ⟨d, some n₀, 0⟩ out h) :
    ∃ n, h.node = some n ∧
      applyIndices out = range' (config.appliedIndex + 1) (applyIndices out).length ∧
      (∀ e, n.hasAction = true → n.action.body = .apply e → e.index ≤ n.commitIndex) ∧
      n.commitIndex ≤ n.lastLogIndex ∧
      (n.hasAction = false → n.faulted = false → n.appliedIndex = n.commitIndex) ∧
      ∀ out' h', Run (Host.Next Undisturbed) h out' h' →
        ∃ n', h'.node = some n' ∧ n.appliedIndex ≤ n'.appliedIndex ∧
          n.commitIndex ≤ n'.commitIndex := by
  obtain ⟨hv, hle, timeout, rfl⟩ := create_ok hstart
  have hinit : InOrder config.appliedIndex [] ⟨d, some (restored d config timeout), 0⟩ := by
    refine ⟨⟨hd, fun m hm => ?_⟩, _, rfl, Nat.le_refl _, ?_⟩
    · simp only [some.injEq] at hm
      subst hm
      exact NodeOk.restored hd hv hle rfl rfl ⟨⟩
    · simp [restored, nodeInit, Node.applying, applyIndices]
  have hin : InOrder config.appliedIndex out h := by
    refine hrun.invOut hinit fun o b o' c hb hstep => ?_
    obtain ⟨s', ev, rc, hev, hst, hal, rfl⟩ := hstep
    exact hb.step hev hst hal
  obtain ⟨n, hn, hge, hidx⟩ := hin.node
  have hnode := hin.ok.node n hn
  refine ⟨n, hn, ?_, ?_, hnode.base.commit_le, ?_, ?_⟩
  · rw [hidx, length_range']
  · intro e ha hb
    have hbusy := hnode.busy ha
    unfold Busy at hbusy
    rw [hb] at hbusy
    have := hbusy.lt
    rw [hbusy.index]
    exact this
  · intro hq hf
    exact (hnode.idle hq hf).drained
  · intro out' h' hrun'
    have hmono : HostOk h' ∧ ∃ n', h'.node = some n' ∧ n.appliedIndex ≤ n'.appliedIndex ∧
        n.commitIndex ≤ n'.commitIndex := by
      refine hrun'.inv (I := fun b => HostOk b ∧ ∃ m, b.node = some m ∧
        n.appliedIndex ≤ m.appliedIndex ∧ n.commitIndex ≤ m.commitIndex)
        ⟨hin.ok, n, hn, Nat.le_refl _, Nat.le_refl _⟩ fun b o c hb hstep => ?_
      obtain ⟨hbok, m, hm, h1, h2⟩ := hb
      obtain ⟨s', ev, rc, hev, hst, hal, -⟩ := hstep
      obtain ⟨hcok, m', hm', hmoved⟩ := hbok.moved hev hst hal hm
      refine ⟨hcok, m', hm', ?_⟩
      cases hmoved with
      | same hsame =>
        subst hsame
        exact ⟨h1, h2⟩
      | fault hfault =>
        subst hfault
        exact ⟨h1, h2⟩
      | on fresh applied commit =>
        rw [Node.nextMark_applied] at applied
        exact ⟨by omega, by omega⟩
    exact hmono.2

/-- A durable log of one entry. -/
def oneEntry : Disk := ⟨⟨1, 0⟩, [⟨1, [7]⟩]⟩

/-- The heartbeat that commits the entry of `oneEntry`. -/
def commitOne : Message := ⟨2, 1, .appendEntries 1 1 1 1 (.arr [])⟩

/-- The entry the heartbeat commits is applied, and nothing else. -/
theorem applies_in_order_entry :
    ∃ h n, Run (Host.Next Undisturbed) ⟨oneEntry, some (restored oneEntry pairConfig 2), 0⟩
        [.apply ⟨1, 1, .arr [7]⟩] h ∧
      h.node = some n ∧ n.commitIndex ≤ n.lastLogIndex := by
  have hplay : (Host.play (fun ev rc => ev.isCall && decide (rc ≠ .errNomem)) plenty
      ⟨oneEntry, some (restored oneEntry pairConfig 2), 0⟩ [.recv commitOne]).map Prod.fst =
      some [.apply ⟨1, 1, .arr [7]⟩] := by
    decide +kernel
  rw [map_eq_some_iff] at hplay
  obtain ⟨⟨out, h⟩, hplay, hout⟩ := hplay
  simp only at hout
  subst hout
  have hrun : Run (Host.Next Undisturbed) ⟨oneEntry, some (restored oneEntry pairConfig 2), 0⟩
      [.apply ⟨1, 1, .arr [7]⟩] h :=
    Host.play_run hplay (by decide +kernel) fun _ _ => Undisturbed.of_call
  have hstart : create (plenty.env oneEntry) plenty.nodeAlloc pairConfig =
      .ok (restored oneEntry pairConfig 2) := by
    rfl
  obtain ⟨n, hn, -, -, hle, -⟩ := applies_in_order (d := oneEntry)
    ⟨by decide +kernel, by decide +kernel⟩ hstart hrun
  exact ⟨h, n, hrun, hn, hle⟩

/-! ### Action ids run out

Every action takes a new id, and the node is faulted when none is left.  That may
happen to the application of a committed entry. -/

/-- The node of `oneEntry` after `k` actions. -/
def spentNode (k : Nat) (action : Action) : Node :=
  { restored oneEntry pairConfig 2 with
    actionSeq := k
    action := action }

/-- A request from an old term and the reply to it. -/
def staleRequest : Message := ⟨2, 1, .appendEntries 0 0 0 0 (.arr [])⟩

def staleReply : Message := ⟨1, 2, .appendEntriesResponse 1 0 0 0 2⟩

variable {k : Nat}

theorem recv_stale (hk : k ≠ ulongMax) (action : Action) :
    recv (plenty.env oneEntry) (spentNode k action) staleRequest =
      (.ok, begun (spentNode k action) (.send staleReply)) := by
  have hrecv : recv (plenty.env oneEntry) (spentNode k action) staleRequest =
      emitSend (spentNode k action) staleReply := by
    rfl
  rw [hrecv, emitSend, actionBegin, if_neg (by exact hk)]
  rfl

theorem done_stale (k : Nat) (action : Action) :
    actionDone (plenty.env oneEntry) (begun (spentNode k action) (.send staleReply)) (k + 1) .ok =
      (.ok, spentNode (k + 1) ⟨k + 1, .send staleReply⟩) := by
  unfold actionDone
  rw [if_neg (by simp [begun, spentNode, restored, nodeInit]), if_neg (by simp [begun]),
    if_neg (by simp [begun, spentNode]), if_neg (by simp [actionResultValid]), if_neg (by simp)]
  rfl

theorem spent_next (hk : k ≠ ulongMax) (action : Action) :
    ∃ out, Run (Host.Next Undisturbed) ⟨oneEntry, some (spentNode k action), 0⟩ out
      ⟨oneEntry, some (spentNode (k + 1) ⟨k + 1, .send staleReply⟩), 0⟩ := by
  have hrecv : Host.step plenty ⟨oneEntry, some (spentNode k action), 0⟩ (.recv staleRequest) =
      some (.ok, ⟨oneEntry, some (begun (spentNode k action) (.send staleReply)), 0⟩) := by
    simp only [Host.step, Host.call, recv_stale hk]
    split <;> rfl
  have hdone : Host.step plenty
      ⟨oneEntry, some (begun (spentNode k action) (.send staleReply)), 0⟩ (.done (k + 1) .ok) =
      some (.ok, ⟨oneEntry, some (spentNode (k + 1) ⟨k + 1, .send staleReply⟩), 0⟩) := by
    simp only [Host.step, Host.mayReport]
    rw [if_pos (by simp [begun, Disk.complete])]
    simp only [Host.call, done_stale]
    split <;> rfl
  have hcalm : Result.ok ≠ Result.errNomem := by
    intro h
    cases h
  exact ⟨_, .snoc (.snoc .refl ⟨_, _, _, by decide +kernel, hrecv, ⟨hcalm, trivial⟩, rfl⟩)
    ⟨_, .done (k + 1) .ok, _, trivial, hdone, ⟨hcalm, trivial⟩, rfl⟩⟩

theorem spent_reached : ∀ k, k ≤ ulongMax → ∃ out action,
    Run (Host.Next Undisturbed) ⟨oneEntry, some (restored oneEntry pairConfig 2), 0⟩ out
      ⟨oneEntry, some (spentNode k action), 0⟩
  | 0, _ => ⟨[], ⟨0, .none⟩, .refl⟩
  | k + 1, hk => by
    obtain ⟨out, action, hrun⟩ := spent_reached k (Nat.le_of_succ_le hk)
    obtain ⟨out', hnext⟩ := spent_next (Nat.ne_of_lt hk) action
    exact ⟨_, _, hrun.trans hnext⟩

theorem recv_commit (action : Action) :
    ∃ n, recv (plenty.env oneEntry) (spentNode ulongMax action) commitOne = (.errLimit, n) ∧
      n.actionSeq = ulongMax ∧ n.hasAction = false ∧ n.appliedIndex = 0 ∧ n.commitIndex = 1 :=
  ⟨_, rfl, rfl, rfl, rfl, rfl⟩

/-- With the last action id spent the application of a committed entry faults the
node: nothing is outstanding, and the applied index stays behind. -/
theorem applied_behind_commit :
    ∃ out h n, Run (Host.Next Undisturbed)
        ⟨oneEntry, some (restored oneEntry pairConfig 2), 0⟩ out h ∧
      h.node = some n ∧ n.hasAction = false ∧ n.appliedIndex ≠ n.commitIndex := by
  obtain ⟨out, action, hrun⟩ := spent_reached ulongMax (Nat.le_refl _)
  obtain ⟨n, hrecv, hseq, hq, happlied, hcommit⟩ := recv_commit action
  have hstep : Host.step plenty ⟨oneEntry, some (spentNode ulongMax action), 0⟩
      (.recv commitOne) = some (.errLimit, ⟨oneEntry, some n, 0⟩) := by
    simp only [Host.step, Host.call, hrecv]
    split <;> rfl
  exact ⟨_, _, n, .snoc hrun ⟨_, _, _, by decide +kernel, hstep, ⟨nofun, trivial⟩, rfl⟩,
    rfl, hq, by rw [happlied, hcommit]; decide⟩

end Raft89
