import EightyNine.Raft89.ElectionOk
import EightyNine.Raft89.ReplicationOk

/-!
# libraft89: the entry points keep the invariant

An entry point leaves the node as it was, or faults it, or runs from a state
without an outstanding action to one described by `After` (`tick_ok`, `recv_ok`,
`proposev_ok`, `actionDone_ok`).
-/

namespace Raft89

variable {me : Id} {members : List Id} {d : Disk} {V : View me members d.log} {n : Node}
  {s : Supply} {w : Nat}

/-! ## Calls that need a free node -/

theorem NodeOk.calm (h : NodeOk V d n w) (hq : n.hasAction = false) (hf : n.faulted = false) :
    Calm V n where
  base := h.base
  noAction := hq
  running := hf
  hard := h.quiet hq
  log := (h.idle hq hf).log
  candidate := (h.idle hq hf).candidate

/-- What a call that needs a free node leaves. -/
def CallOk (V : View me members d.log) (n : Node) (r : Ret) : Prop :=
  r.2 = n ∨ (n.hasAction = false ∧ n.faulted = false ∧ After V n.mark r)

theorem tick_ok (h : NodeOk V d n w) {elapsed : Nat}
    (hm : (tick (s.env d) n elapsed).1 ≠ .errNomem) :
    CallOk V n (tick (s.env d) n elapsed) := by
  by_cases hf : n.faulted = true
  · left
    rw [tick, if_pos hf]
  by_cases hq : n.hasAction = true
  · left
    rw [tick, if_neg hf, if_pos hq]
  rw [Bool.not_eq_true] at hf hq
  have hi := h.idle hq hf
  exact .inr ⟨hq, hf, tick_after (h.calm hq hf) hi.drained hi.step hm⟩

/-- A faulted node and one with an outstanding action refuse every proposal. -/
theorem proposev_refused {env : Env} {cs : Ptr Command}
    (h : n.faulted = true ∨ n.hasAction = true) : (proposev env n cs).2 = n := by
  rw [proposev]
  by_cases h₁ : cs.isNull = true
  · rw [if_pos h₁]
  by_cases h₂ : cs.count = 0
  · rw [if_neg h₁, if_pos h₂]
  by_cases h₃ : commandsBad cs.elems = true
  · rw [if_neg h₁, if_neg h₂, if_pos h₃]
  by_cases hf : n.faulted = true
  · rw [if_neg h₁, if_neg h₂, if_neg h₃, if_pos hf]
  · rw [if_neg h₁, if_neg h₂, if_neg h₃, if_neg hf, if_pos (h.resolve_left hf)]

theorem proposev_ok (h : NodeOk V d n w) {cs : Ptr Command}
    (hm : (proposev (s.env d) n cs).1 ≠ .errNomem) :
    CallOk V n (proposev (s.env d) n cs) := by
  by_cases hf : n.faulted = true
  · exact .inl (proposev_refused (.inl hf))
  by_cases hq : n.hasAction = true
  · exact .inl (proposev_refused (.inr hq))
  rw [Bool.not_eq_true] at hf hq
  have hi := h.idle hq hf
  exact .inr ⟨hq, hf, proposev_after (h.calm hq hf) hi.drained hi.step hm⟩

/-- A valid envelope names another member as the sender. -/
theorem msgEnvelopeValid_sender (hb : Base V n) {m : Message}
    (h : msgEnvelopeValid n m = true) : m.sender ∈ members ∧ m.sender ≠ me := by
  unfold msgEnvelopeValid at h
  by_cases h1 : m.receiver ≠ n.self
  · rw [if_pos h1] at h
    cases h
  rw [if_neg h1] at h
  by_cases h2 : m.sender = n.self
  · rw [if_pos h2] at h
    cases h
  rw [if_neg h2] at h
  by_cases h3 : m.sender = idNone
  · rw [if_pos h3] at h
    cases h
  rw [if_neg h3] at h
  by_cases h4 : nodeHasMember n m.sender = false
  · rw [if_pos h4] at h
    cases h
  · refine ⟨?_, by rw [← hb.me_eq]; exact h2⟩
    rw [Bool.not_eq_false, nodeHasMember, List.contains_iff_mem, hb.members_eq] at h4
    exact h4

theorem msgEnvelopeValid_body {m : Message} (h : msgEnvelopeValid n m = true) :
    (match m.body with
    | .requestVote _ lastLogIndex lastLogTerm => requestVoteValid lastLogIndex lastLogTerm
    | .requestVoteResponse _ voteGranted => voteResponseValid voteGranted
    | .appendEntries _ prevLogIndex _ _ entries =>
      appendEntriesValid prevLogIndex entries n.maxAppendEntries n.maxAppendBytes
    | .appendEntriesResponse _ success matchIndex conflictTerm conflictIndex =>
      appendEntriesResponseValid success matchIndex conflictTerm conflictIndex
    | .unknown _ => false) = true := by
  unfold msgEnvelopeValid at h
  split_ifs at h
  exact h

theorem recv_ok (h : NodeOk V d n w) {m : Message} (hacc : V.Accepts m)
    (hm : (recv (s.env d) n m).1 ≠ .errNomem) : CallOk V n (recv (s.env d) n m) := by
  unfold recv at hm ⊢
  by_cases hf : n.faulted = true
  · left
    rw [if_pos hf]
  by_cases hq : n.hasAction = true
  · left
    rw [if_neg hf, if_pos hq]
  by_cases hv : msgEnvelopeValid n m = false
  · left
    rw [if_neg hf, if_neg hq, if_pos hv]
  rw [if_neg hf, if_neg hq, if_neg hv] at hm ⊢
  rw [Bool.not_eq_true] at hf hq
  rw [Bool.not_eq_false] at hv
  have hi := h.idle hq hf
  have hc := h.calm hq hf
  obtain ⟨hsender, hother⟩ := msgEnvelopeValid_sender h.base hv
  have hbody := msgEnvelopeValid_body hv
  obtain ⟨hmax, hfacts⟩ := hacc
  refine .inr ⟨hq, hf, ?_⟩
  cases hb : m.body with
  | requestVote t i u =>
    rw [hb] at hmax hfacts
    exact recvRequestVote_after hc hi.drained hi.step hsender hother hmax hfacts
  | requestVoteResponse t g =>
    rw [hb] at hmax hfacts hm
    exact recvVoteResponse_after hc hi.drained hi.step hsender hmax hfacts hm
  | appendEntries t p q c es =>
    rw [hb] at hmax hfacts hm hbody
    exact recvAppendEntries_after hc hi.drained hi.step hmax hbody hfacts hm
  | appendEntriesResponse t ok i ct ci =>
    rw [hb] at hmax hfacts hm
    exact recvAeResponse_after hc hi.drained hi.step hsender hmax hfacts hm
  | unknown ty =>
    rw [hb] at hbody
    cases hbody

/-! ## Acknowledgements -/

/-- The node as `raft89__resume` finds it. -/
def acked (n : Node) : Node := { applyHardState n with hasAction := false }

theorem acked_of_ne (h : ∀ st, n.action.body ≠ .hardState st) :
    acked n = { n with hasAction := false } := by
  unfold acked applyHardState
  split
  · exact absurd ‹_› (h _)
  · rfl

/-- The counters after an acknowledgement: an application moves the applied index. -/
def Mark.ack (k : Mark) : ActionBody → Mark
  | .apply _ => { k with applied := k.applied + 1 }
  | _ => k

/-- Processing a request that is stuck stops at the same conflict again. -/
theorem Stuck.after (h : Calm V n) (hd : n.appliedIndex = n.commitIndex) (hs : Stuck d n)
    (hstep : n.step = .aeHardState) : After V n.mark (aeProcess (s.env d) n) := by
  obtain ⟨first, offset, hscan, hpos, hle⟩ := hs.conflict
  have hmatches : ∀ n' : Node, n'.aePrevIndex = n.aePrevIndex → n'.aePrevTerm = n.aePrevTerm →
      n'.lastLogIndex = n.lastLogIndex → aePrefixMatches (s.env d).store n' = some true := by
    intro n' h1 h2 h3
    rw [← hs.matched]
    simp only [aePrefixMatches, h1, h2, h3]
    rfl
  have hrun : aeProcess (s.env d) n = (.errProtocol,
      { n with
        role := .follower
        leaderId := n.aeLeaderId
        electionElapsed := 0
        electionTimeout := pickTimeout (s.env d) n
        aeReplySuccess := true
        aeMatchIndex := u64Add n.aePrevIndex n.pendingCount
        aeTruncateFirst := first
        aeAppendOffset := offset }) := by
    unfold aeProcess
    simp only
    rw [hmatches
      { n with
        role := .follower
        leaderId := n.aeLeaderId
        electionElapsed := 0
        electionTimeout := pickTimeout (s.env d) n } rfl rfl rfl]
    unfold aeApplyEntries
    simp only
    rw [show (s.env d).store = d.store from rfl, hscan]
    simp only
    rw [if_neg (by omega), if_pos hle]
    rfl
  rw [hrun]
  have hc := (h.demote 0 (pickTimeout (s.env d) n) n.aeLeaderId).request n.slice
    (u64Add n.aePrevIndex n.pendingCount) first n.aeConflictTerm n.aeConflictIndex offset true
  refine hc.after ?_ hd rfl (Nat.le_refl _) _
  simp only [StepOk, hstep]
  exact ⟨hmatches _ rfl rfl rfl, first, offset, hscan, hpos, hle⟩

theorem SendPhase.resume (hb : Base V n) (hf : n.faulted = false) {m : Message}
    (hbody : n.action.body = .send m) (hp : SendPhase V d n m)
    (hm : (resume (s.env d) (acked n)).1 ≠ .errNomem) :
    After V n.mark (resume (s.env d) (acked n)) := by
  rw [acked_of_ne (by rw [hbody]; nofun)] at hm ⊢
  have hc : Calm V { n with hasAction := false } :=
    { base := { hb with }
      noAction := rfl
      running := hf
      hard := ⟨hp.hard.term, hp.hard.vote⟩
      log := ⟨hp.log.index, hp.log.term⟩
      candidate := fun hr => { hp.candidate hr with } }
  have hstep := hp.step
  unfold StepOk at hstep
  obtain ⟨st, hs⟩ : ∃ st, n.step = st := ⟨_, rfl⟩
  rw [hs] at hstep
  cases st with
  | none =>
    rw [resume_none (by exact hs)]
    have hc' := hc.unstep
    exact hc'.after (by simp [StepOk]) hp.drained rfl (Nat.le_refl _) _
  | electionBroadcast =>
    rw [resume_electionBroadcast (by exact hs)] at hm ⊢
    exact electionSendNext_after hc hp.drained hstep.2 hm
  | leaderBroadcast =>
    rw [resume_leaderBroadcast (by exact hs)] at hm ⊢
    exact leaderBroadcastNext_after hc hstep.2 hp.drained hm
  | aeHardState =>
    rw [resume_aeHardState (by exact hs)]
    exact Stuck.after (n := { n with hasAction := false }) hc hp.drained
      ⟨hstep.matched, hstep.conflict⟩ hs
  | _ => exact hstep.elim

/-- What goes on once the term and the vote are durable. -/
theorem HardPhase.resume (hb : Base V n) (hf : n.faulted = false) {st : HardState}
    (hbody : n.action.body = .hardState st) (hp : HardPhase V d n w st) (hw : w ≠ 0)
    (hm : (resume (s.env d) (acked n)).1 ≠ .errNomem) :
    After V n.mark (resume (s.env d) (acked n)) := by
  have hacked : acked n =
      { n with
        hasAction := false
        currentTerm := st.currentTerm
        votedFor := st.votedFor } := by
    rw [acked, applyHardState, hbody]
  rw [hacked] at hm ⊢
  obtain ⟨hw1, hdisk⟩ : w = 1 ∧ d.hard = st := by
    rcases hp.hard with ⟨h0, -⟩ | h1
    · exact absurd h0 hw
    · exact h1
  have hle : n.currentTerm ≤ st.currentTerm := by
    rcases hp.advance with h | ⟨h, -⟩
    · exact Nat.le_of_lt h
    · exact Nat.le_of_eq h
  have hnext := hp.next
  have hbase : n.role ≠ .leader → Base V
      { n with
        hasAction := false
        currentTerm := st.currentTerm
        votedFor := st.votedFor } := fun hr =>
    { hb with
      term_le := hp.term_le
      cover := V.cover_term hb.cover hle
      elected := fun h => absurd h hr
      acked := fun h => absurd h hr
      next := fun h => absurd h hr }
  have hhard : HardSync d
      { n with
        hasAction := false
        currentTerm := st.currentTerm
        votedFor := st.votedFor } := by
    rw [← hdisk]
    exact ⟨rfl, rfl⟩
  have hcalm : n.role = .follower → Calm V
      { n with
        hasAction := false
        currentTerm := st.currentTerm
        votedFor := st.votedFor } := fun hr =>
    { base := hbase (by rw [hr]; decide)
      noAction := rfl
      running := hf
      hard := hhard
      log := ⟨hp.log.index, hp.log.term⟩
      candidate := fun h => by cases hr.symm.trans h }
  obtain ⟨step, hs⟩ : ∃ step, n.step = step := ⟨_, rfl⟩
  rw [hs] at hnext
  cases step with
  | electionBroadcast =>
    rw [resume_electionBroadcast (by exact hs)] at hm ⊢
    obtain ⟨hr, hvote, hcount, hvotes, -, hstands⟩ := hnext
    have hc : Calm V
        { n with
          hasAction := false
          currentTerm := st.currentTerm
          votedFor := st.votedFor } :=
      { base := hbase (by rw [hr]; decide)
        noAction := rfl
        running := hf
        hard := hhard
        log := ⟨hp.log.index, hp.log.term⟩
        candidate := fun _ =>
          { stands := hstands hw1
            voted_me := hvote
            granted := hcount
            votes := fun i id hi hv => by
              rw [hvotes i id hi hv]
              exact V.candidate_me (hstands hw1) } }
    exact electionSendNext_after hc hp.drained hr hm
  | voteResponse =>
    rw [resume_voteResponse (by exact hs)] at hm ⊢
    obtain ⟨hr, p, g, hp', -, hmsg, hvote, -⟩ := hnext
    exact voteResponseSend_after (hcalm hr) hp.drained hp' hmsg fun hg => by rw [hvote, hg]; rfl
  | stepDown =>
    rw [resume_stepDown (by exact hs)]
    have hc := (hcalm hnext.1).unstep
    exact hc.after (by simp [StepOk]) hp.drained rfl (Nat.le_refl _) _
  | aeHardState =>
    rw [resume_aeHardState (by exact hs)] at hm ⊢
    obtain ⟨hr, -, hstash⟩ := hnext
    exact aeProcess_after (hcalm hr) hp.drained ⟨hstash.slice, hstash.range⟩ (.inr hs) hm
  | _ => exact hnext.elim

theorem AppendPhase.resume (hb : Base V n) (hf : n.faulted = false) {entries : List Entry}
    (hbody : n.action.body = .logAppend entries)
    (hp : AppendPhase V d n entries.length entries)
    (hm : (resume (s.env d) (acked n)).1 ≠ .errNomem) :
    After V n.mark (resume (s.env d) (acked n)) := by
  rw [acked_of_ne (by rw [hbody]; nofun)] at hm ⊢
  have hnext := hp.next
  obtain ⟨st, hs⟩ : ∃ st, n.step = st := ⟨_, rfl⟩
  rw [hs] at hnext
  cases st with
  | leaderAppend =>
    rw [resume_leaderAppend (by exact hs)] at hm ⊢
    obtain ⟨hr, hpend, -, hidx⟩ := hnext
    have htail := hp.tail
    rw [List.take_length] at htail
    refine leaderAfterAppend_after (n := { n with hasAction := false }) { hb with } rfl hf
      ⟨hp.hard.term, hp.hard.vote⟩ hr hp.drained ?_ ?_ ?_ ?_ ?_ hm
    · rw [hpend]
      exact hp.nonempty
    · rw [hpend]
      exact hp.length
    · rw [hpend]
      exact htail
    · rw [hpend]
      exact hidx
    · rw [hpend]
      exact hp.range
  | aeAppend =>
    rw [resume_aeAppend (by exact hs)] at hm ⊢
    obtain ⟨h1, h2, h3, h4, h5, h6, hstash, h8⟩ := hnext
    refine aeAfterAppend_after (n := { n with hasAction := false }) { hb with } rfl hf
      entries ?_ hs hm
    exact
      { hp with
        hard := ⟨hp.hard.term, hp.hard.vote⟩
        next := by
          simp only [hs]
          exact ⟨h1, h2, h3, h4, h5, h6, ⟨hstash.slice, hstash.range⟩, h8⟩ }
  | _ => exact hnext.elim

/-- The continuation after a conflicting suffix is gone. -/
theorem TruncatePhase.resume (hb : Base V n) (hf : n.faulted = false) {first : Nat}
    (hbody : n.action.body = .logTruncate first) (hp : TruncatePhase V d n first)
    (hdone : d.log.length < first) (hm : (resume (s.env d) (acked n)).1 ≠ .errNomem) :
    After V n.mark (resume (s.env d) (acked n)) := by
  rw [acked_of_ne (by rw [hbody]; nofun)] at hm ⊢
  rw [resume_aeTruncate (by exact hp.step)] at hm ⊢
  exact aeAfterTruncate_after (n := { n with hasAction := false }) { hb with } rfl hf
    { hp with
      hard := ⟨hp.hard.term, hp.hard.vote⟩
      stash := ⟨hp.stash.slice, hp.stash.range⟩ } hdone hm

/-- The continuation after an entry is applied: the next entry, or the reply
that waited for the chain to end. -/
theorem ApplyPhase.resume (hb : Base V n) (hf : n.faulted = false) {e : Entry}
    (hbody : n.action.body = .apply e) (hp : ApplyPhase V d n e)
    (hm : (resume (s.env d) (acked n)).1 ≠ .errNomem) :
    After V { n.mark with applied := n.appliedIndex + 1 } (resume (s.env d) (acked n)) := by
  rw [acked_of_ne (by rw [hbody]; nofun)] at hm ⊢
  have hlt := hp.lt
  have hinc : u64Inc n.appliedIndex = n.appliedIndex + 1 := by
    apply u64Inc_of_lt
    have := hb.commit_le
    have := hb.index_le
    omega
  rw [resume_apply (by exact hp.step)] at hm ⊢
  unfold applyAck at hm ⊢
  simp only [hinc] at hm ⊢
  have hc : Calm V
      { n with
        hasAction := false
        appliedIndex := n.appliedIndex + 1
        step := .none } :=
    { base := { hb with applied_le := hlt }
      noAction := rfl
      running := hf
      hard := ⟨hp.hard.term, hp.hard.vote⟩
      log := ⟨hp.log.index, hp.log.term⟩
      candidate := fun hr => { hp.candidate hr with } }
  rcases applyNext_cases (s := s) hc (hp.after.imp id fun ⟨h1, h2⟩ => ⟨h1, { h2 with }⟩)
    with hno | ⟨heq, hsame⟩ | ⟨hs, ha⟩
  · rw [Ret.andThen_of_ne (by rw [hno]; decide)] at hm
    exact absurd hno hm
  · rw [hsame, Ret.andThen_ok] at hm ⊢
    rw [if_neg (by simp)] at hm ⊢
    rcases hp.after with hnone | ⟨hreply, hrok⟩
    · rw [hnone, resumeFuel] at hm ⊢
      have hc' : Calm V
          { n with
            hasAction := false
            appliedIndex := n.appliedIndex + 1
            step := .none
            afterApply := .none } :=
        { hc with
          base := { hc.base with }
          hard := ⟨hc.hard.term, hc.hard.vote⟩
          log := ⟨hc.log.index, hc.log.term⟩
          candidate := fun hr => { hc.candidate hr with } }
      exact hc'.after (by simp [StepOk]) heq rfl (Nat.le_refl _) _
    · rw [hreply, resumeFuel] at hm ⊢
      have hc' : Calm V
          { n with
            hasAction := false
            appliedIndex := n.appliedIndex + 1
            step := .aeReply
            afterApply := .none } :=
        { hc with
          base := { hc.base with }
          hard := ⟨hc.hard.term, hc.hard.vote⟩
          log := ⟨hc.log.index, hc.log.term⟩
          candidate := fun hr => { hc.candidate hr with } }
      exact aeSendReply_after hc' heq ⟨hrok.le, hrok.agrees⟩
  · by_cases hrc : (applyNext (s.env d)
        { n with
          hasAction := false
          appliedIndex := n.appliedIndex + 1
          step := .none }).1 = .ok
    · rw [Ret.andThen, if_pos hrc, if_pos (hs.resolve_right fun hne => hne hrc)]
      exact ⟨ha.ok, ha.fresh, ha.applied, ha.commit⟩
    · rw [Ret.andThen_of_ne hrc]
      exact ha

/-- What an acknowledgement leaves. -/
def DoneOk (V : View me members d.log) (n : Node) (r : Ret) : Prop :=
  r.2 = n ∨ r = (.ok, { n with faulted := true }) ∨
    (n.hasAction = true ∧ n.faulted = false ∧ After V (n.mark.ack n.action.body) r)

/-- An acknowledgement, given only once the effect is complete. -/
theorem actionDone_ok (h : NodeOk V d n w) {id : Nat} {result : ActionResult}
    (hreport : result = .ok → n.hasAction = true → id = n.action.id →
      d.complete n.action.body w = true)
    (hm : (actionDone (s.env d) n id result).1 ≠ .errNomem) :
    DoneOk V n (actionDone (s.env d) n id result) := by
  unfold actionDone at hm ⊢
  by_cases hf : n.faulted = true
  · left
    rw [if_pos hf]
  by_cases hq : n.hasAction = false
  · left
    rw [if_neg hf, if_pos hq]
  by_cases hid : id ≠ n.action.id
  · left
    rw [if_neg hf, if_neg hq, if_pos hid]
  by_cases hvalid : actionResultValid n.action result = false
  · left
    rw [if_neg hf, if_neg hq, if_neg hid, if_pos hvalid]
  rw [if_neg hf, if_neg hq, if_neg hid, if_neg hvalid] at hm ⊢
  by_cases hfatal : result = .fatal
  · right; left
    rw [if_pos hfatal]
  rw [if_neg hfatal] at hm ⊢
  rw [Bool.not_eq_true] at hf
  rw [Bool.not_eq_false] at hq hvalid
  refine .inr (.inr ⟨hq, hf, ?_⟩)
  have hbusy := h.busy hq
  have hresult : result = .ok ∨ ∃ m, n.action.body = .send m := by
    cases result with
    | ok => exact .inl rfl
    | fatal => exact absurd rfl hfatal
    | unknown v => cases hvalid
    | lost =>
      right
      cases hb : n.action.body with
      | send m => exact ⟨m, rfl⟩
      | _ => simp only [actionResultValid, hb] at hvalid; cases hvalid
  have hdone : d.complete n.action.body w = true := by
    rcases hresult with hok | ⟨m, hb⟩
    · exact hreport hok hq (by simpa using hid)
    · rw [hb]
      rfl
  unfold Busy at hbusy
  obtain ⟨body, hb⟩ : ∃ body, n.action.body = body := ⟨_, rfl⟩
  rw [hb] at hbusy hdone
  rw [hb]
  cases body with
  | none => exact hbusy.elim
  | send m => exact SendPhase.resume h.base hf hb hbusy hm
  | hardState st =>
    exact HardPhase.resume h.base hf hb hbusy (by simpa [Disk.complete] using hdone) hm
  | logAppend entries =>
    have hw : w = entries.length := by simpa [Disk.complete] using hdone
    subst hw
    exact AppendPhase.resume h.base hf hb hbusy hm
  | logTruncate first =>
    exact TruncatePhase.resume h.base hf hb hbusy (by simpa [Disk.complete] using hdone) hm
  | apply e => exact ApplyPhase.resume h.base hf hb hbusy hm

end Raft89
