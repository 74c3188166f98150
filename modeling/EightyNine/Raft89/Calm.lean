import EightyNine.Raft89.View

/-!
# libraft89: emitting actions and applying entries keep the invariant

`Calm` is the state in which the library's own code runs: nothing is
outstanding and the acknowledged state is the durable one.  `After` is what a
call leaves: the invariant, a new id for a new action, and indices that only
grow.  Each function of the source has one lemma from the first to the second.
-/

namespace Raft89

variable {me : Id} {members : List Id} {d : Disk} {V : View me members d.log} {n : Node}

/-! ## The state between two actions -/

/-- Nothing is outstanding and the node agrees with the durable state. -/
structure Calm (V : View me members d.log) (n : Node) : Prop where
  base : Base V n
  noAction : n.hasAction = false
  running : n.faulted = false
  hard : HardSync d n
  log : LogSync d n
  candidate : n.role = .candidate → CandidateOk V n

/-- Timers, the leader hint, the cursor and the continuation are free. -/
theorem Calm.relabel (h : Calm V n) (step : Step) (cursor elapsed timeout beat : Nat)
    (leader : Id) :
    Calm V { n with
      step := step
      peerCursor := cursor
      electionElapsed := elapsed
      electionTimeout := timeout
      heartbeatElapsed := beat
      leaderId := leader } where
  base := { h.base with }
  noAction := h.noAction
  running := h.running
  hard := { h.hard with }
  log := { h.log with }
  candidate hr := { h.candidate hr with }

/-- A continuation that is done is forgotten. -/
theorem Calm.unstep (h : Calm V n) : Calm V { n with step := .none } :=
  h.relabel .none n.peerCursor n.electionElapsed n.electionTimeout n.heartbeatElapsed n.leaderId

theorem Calm.demote (h : Calm V n) (elapsed timeout : Nat) (leader : Id) :
    Calm V { n with
      role := .follower
      leaderId := leader
      electionElapsed := elapsed
      electionTimeout := timeout } where
  base := { h.base with elected := nofun, acked := nofun, next := nofun }
  noAction := h.noAction
  running := h.running
  hard := { h.hard with }
  log := { h.log with }
  candidate := nofun

/-- The counters a call may only advance. -/
structure Mark where
  seq : Nat
  applied : Nat
  commit : Nat

def Node.mark (n : Node) : Mark := ⟨n.actionSeq, n.appliedIndex, n.commitIndex⟩

/-- What a call leaves, given the counters before it. -/
structure After (V : View me members d.log) (k : Mark) (r : Ret) : Prop where
  ok : NodeOk V d r.2 0
  fresh : r.2.hasAction = true → k.seq < r.2.actionSeq
  applied : r.2.appliedIndex = k.applied
  commit : k.commit ≤ r.2.commitIndex

theorem Calm.after (h : Calm V n) (hstep : StepOk d n) (hd : n.appliedIndex = n.commitIndex)
    {k : Mark} (ha : n.appliedIndex = k.applied) (hk : k.commit ≤ n.commitIndex)
    (rc : Result) : After V k (rc, n) where
  ok :=
    { base := h.base
      quiet := fun _ => h.hard
      idle := fun _ _ => ⟨h.log, h.candidate, hstep, hd⟩
      busy := fun hb => by rw [h.noAction] at hb; cases hb }
  fresh hb := by rw [h.noAction] at hb; cases hb
  applied := ha
  commit := hk

theorem after_fault (hb : Base V n) (hq : n.hasAction = false) (hh : HardSync d n)
    {k : Mark} (ha : n.appliedIndex = k.applied) (hk : k.commit ≤ n.commitIndex)
    (rc : Result) : After V k (rc, { n with faulted := true }) where
  ok :=
    { base := { hb with }
      quiet := fun _ => ⟨hh.term, hh.vote⟩
      idle := fun _ hf => by cases hf
      busy := fun h => by rw [hq] at h; cases h }
  fresh h := by rw [hq] at h; cases h
  applied := ha
  commit := hk

theorem Calm.fault (h : Calm V n) (rc : Result) :
    After V n.mark (rc, { n with faulted := true }) :=
  after_fault h.base h.noAction h.hard rfl (Nat.le_refl _) rc

theorem Calm.storeFault (h : Calm V n) : After V n.mark (storeFault n) := h.fault _

/-! ## Emitting an action -/

/-- The node `actionBegin` leaves when it succeeds. -/
def begun (n : Node) (body : ActionBody) : Node :=
  { n with
    actionSeq := n.actionSeq + 1
    action := ⟨n.actionSeq + 1, body⟩
    hasAction := true }

theorem actionBegin_cases (n : Node) (body : ActionBody) :
    actionBegin n body = (.errLimit, { n with faulted := true }) ∨
      actionBegin n body = (.ok, begun n body) := by
  unfold actionBegin begun
  split
  · exact .inl rfl
  · exact .inr rfl

theorem after_busy {n' : Node} (hb : Base V n') (ha : n'.hasAction = true)
    (hbusy : Busy V d n' 0) {k : Mark} (hseq : k.seq < n'.actionSeq)
    (happ : n'.appliedIndex = k.applied) (hk : k.commit ≤ n'.commitIndex) (rc : Result) :
    After V k (rc, n') where
  ok :=
    { base := hb
      quiet := fun h => by rw [ha] at h; cases h
      idle := fun h => by rw [ha] at h; cases h
      busy := fun _ => hbusy }
  fresh _ := hseq
  applied := happ
  commit := hk

theorem Base.begun (hb : Base V n) (body : ActionBody) : Base V (begun n body) := { hb with }

theorem emitSend_after (h : Calm V n) (hd : n.appliedIndex = n.commitIndex) {m : Message}
    (hm : SendOk V d n m) (hstep : StepOk d (begun n (.send m))) :
    After V n.mark (emitSend n m) := by
  unfold emitSend
  rcases actionBegin_cases n (.send m) with hf | hok
  · rw [hf]
    exact h.fault _
  · rw [hok]
    refine after_busy (h.base.begun _) rfl ?_ (Nat.lt_succ_self _) rfl (Nat.le_refl _) _
    exact
      { hard := ⟨h.hard.term, h.hard.vote⟩
        log := ⟨h.log.index, h.log.term⟩
        candidate := fun hr => { h.candidate hr with }
        message := hm
        step := hstep
        drained := hd }

theorem emitSend_none_after (h : Calm V n) (hd : n.appliedIndex = n.commitIndex) {m : Message}
    (hm : SendOk V d n m) (hstep : n.step = .none) : After V n.mark (emitSend n m) :=
  emitSend_after h hd hm (by simp [StepOk, begun, hstep])

/-- The continuation left at rest is also one for a plain message. -/
theorem StepOk.begun (hs : StepOk d n) (h : Calm V n) (body : ActionBody) :
    StepOk d (begun n body) := by
  unfold StepOk at hs ⊢
  cases hstep : n.step with
  | aeHardState =>
    rw [hstep] at hs
    simp only [Raft89.begun, hstep]
    exact ⟨hs.matched, hs.conflict⟩
  | none => simp [Raft89.begun, hstep]
  | electionBroadcast | leaderBroadcast =>
    rw [hstep] at hs
    exact absurd hs.1 (by simp [h.noAction])
  | voteResponse | stepDown | aeTruncate | aeAppend | aeReply | apply | leaderAppend =>
    rw [hstep] at hs; exact hs.elim

/-- The continuation depends neither on the timers nor on the vote and progress counters. -/
theorem StepOk.recount (hs : StepOk d n) (votes : List Bool) (granted : Nat)
    (next matched : List Nat) (elapsed beat : Nat) :
    StepOk d { n with
      votes := votes
      votesGranted := granted
      nextIndex := next
      matchIndex := matched
      electionElapsed := elapsed
      heartbeatElapsed := beat } := by
  unfold StepOk at hs ⊢
  cases hstep : n.step with
  | aeHardState =>
    rw [hstep] at hs
    exact ⟨hs.matched, hs.conflict⟩
  | _ => rw [hstep] at hs; exact hs

/-! ## Reading the durable log -/

theorem entryAt_eq_some_of_pos {log : List LogEntry} {i : Nat} (h0 : 0 < i)
    (hi : i ≤ log.length) : ∃ e, entryAt log i = some e := by
  obtain ⟨j, rfl⟩ : ∃ j, i = j + 1 := ⟨i - 1, by omega⟩
  rw [entryAt_succ]
  exact ⟨log[j], List.getElem?_eq_getElem (by omega)⟩

theorem store_entry {e : LogEntry} {i : Nat} (h : entryAt d.log i = some e) :
    d.store.logTerm i = some e.term ∧ d.store.logSize i = some e.payload.length ∧
      d.store.logRead i e.payload.length = some e.payload := by
  simp [Disk.store, h]

/-! ## Applying entries -/

variable {s : Supply}

/-- `emitNextApply` emits the entry of the log above the applied index. -/
theorem emitNextApply_cases (h : Calm V n) (hlt : n.appliedIndex < n.commitIndex) :
    (emitNextApply (s.env d) n).1 = .errNomem ∨
      emitNextApply (s.env d) n = (.errLimit, { n with faulted := true }) ∨
      ∃ e : Entry, e.index = n.appliedIndex + 1 ∧ entryAt d.log e.index = some e.toLog ∧
        emitNextApply (s.env d) n = (.ok, begun n (.apply e)) := by
  have hidx : n.appliedIndex + 1 ≤ d.log.length := by
    have := h.base.commit_le
    rw [h.log.index] at this
    omega
  have hinc : u64Inc n.appliedIndex = n.appliedIndex + 1 := by
    apply u64Inc_of_lt
    have := h.base.index_le
    rw [h.log.index] at this
    omega
  obtain ⟨e, he⟩ := entryAt_eq_some_of_pos (Nat.succ_pos _) hidx
  obtain ⟨hterm, hsize, hread⟩ := store_entry he
  unfold emitNextApply
  simp only [Supply.env, hinc, hterm, hsize, hread]
  by_cases hz : e.payload.length = 0
  · rw [if_pos hz]
    rcases actionBegin_cases n (.apply ⟨e.term, n.appliedIndex + 1, .null 0⟩) with hf | hok
    · exact .inr (.inl hf)
    · refine .inr (.inr ⟨_, rfl, ?_, hok⟩)
      rw [he]
      obtain ⟨t, p⟩ := e
      simp only [List.length_eq_zero_iff] at hz
      subst hz
      rfl
  · rw [if_neg hz]
    by_cases hm : s.malloc .payload = true
    · rw [if_pos hm]
      rcases actionBegin_cases n (.apply ⟨e.term, n.appliedIndex + 1, .arr e.payload⟩)
        with hf | hok
      · exact .inr (.inl hf)
      · exact .inr (.inr ⟨_, rfl, he, hok⟩)
    · rw [if_neg hm]
      exact .inl rfl

/-- `applyNext` either has nothing to do or starts the next application. -/
theorem applyNext_cases (h : Calm V n)
    (hafter : n.afterApply = .none ∨ (n.afterApply = .aeReply ∧ ReplyOk V d n)) :
    (applyNext (s.env d) n).1 = .errNomem ∨
      (n.appliedIndex = n.commitIndex ∧ applyNext (s.env d) n = (.ok, n)) ∨
      ((applyNext (s.env d) n).2.step = .apply ∨ (applyNext (s.env d) n).1 ≠ .ok) ∧
        After V n.mark (applyNext (s.env d) n) := by
  unfold applyNext
  by_cases hge : n.appliedIndex ≥ n.commitIndex
  · rw [if_pos hge]
    exact .inr (.inl ⟨Nat.le_antisymm h.base.applied_le hge, rfl⟩)
  · rw [if_neg hge]
    have hlt : n.appliedIndex < n.commitIndex := by omega
    rcases emitNextApply_cases (s := s) h hlt with hm | hf | ⟨e, hei, hee, hok⟩
    · left
      rw [Ret.andThen_of_ne (by rw [hm]; decide)]
      exact hm
    · right; right
      rw [hf, Ret.andThen_of_ne (by simp)]
      exact ⟨.inr nofun, h.fault _⟩
    · right; right
      rw [hok, Ret.andThen_ok]
      refine ⟨.inl rfl, ?_⟩
      refine after_busy ?_ rfl ?_ (Nat.lt_succ_self _) rfl (Nat.le_refl _) _
      · exact { h.base with }
      · exact
        { hard := ⟨h.hard.term, h.hard.vote⟩
          log := ⟨h.log.index, h.log.term⟩
          candidate := fun hr => { h.candidate hr with }
          step := rfl
          lt := hlt
          index := hei
          entry := hee
          after := hafter.imp id fun ⟨h1, h2⟩ => ⟨h1, { h2 with }⟩ }

end Raft89
