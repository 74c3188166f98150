import EightyNine.Raft89.LeaderOk

/-!
# libraft89: elections keep the invariant

A vote is sent only once it is durable, a candidate counts only votes it
received, and a majority of them elects it (`CandidateOk.elected`).
-/

namespace Raft89

open List Nat

open Library (Majority)

variable {me : Id} {members : List Id} {d : Disk} {V : View me members d.log} {n : Node}
  {s : Supply}

/-! ## Replying to a vote request -/

variable {peer : Id} {t : Nat} {granted : Bool}

theorem replyVote_after (h : Calm V n) (hd : n.appliedIndex = n.commitIndex)
    (hstep : StepOk d n)
    (hg : granted = true → t = n.currentTerm ∧ n.votedFor = peer ∧ peer ≠ idNone) :
    After V n.mark (replyVote n peer t granted) := by
  refine emitSend_after h hd ⟨h.base.me_eq, ?_⟩ (hstep.begun h _)
  intro hne
  cases granted with
  | false => exact absurd rfl hne
  | true =>
    obtain ⟨h1, h2, h3⟩ := hg rfl
    exact ⟨h1.trans h.hard.term, h.hard.vote.symm.trans h2, h3⟩

theorem persistVoteThenReply_after (h : Calm V n) (hd : n.appliedIndex = n.commitIndex)
    (hr : n.role = .follower) (hp : peer ∈ members) (hpm : peer ≠ me)
    (hmax : t ≤ u64Max)
    (hadv : n.currentTerm < t ∨ (n.currentTerm = t ∧ n.votedFor = idNone)) (granted : Bool)
    (hvote : granted = true → V.mayVote t peer) :
    After V n.mark
      (persistVoteThenReply n peer t (if granted then peer else idNone) granted) := by
  unfold persistVoteThenReply emitHardState
  have hb : Base V { n with pendingMsg := buildVoteResponse n.self peer t granted } :=
    { h.base with }
  rcases actionBegin_cases { n with pendingMsg := buildVoteResponse n.self peer t granted }
    (.hardState ⟨t, if granted then peer else idNone⟩) with hf | hok
  · rw [hf, Ret.andThen_of_ne (by simp)]
    exact after_fault hb h.noAction ⟨h.hard.term, h.hard.vote⟩ rfl (le_refl _) _
  · rw [hok, Ret.andThen_ok]
    refine after_busy ?_ rfl ?_ (lt_succ_self _) rfl (le_refl _) _
    · exact { hb with }
    exact
      { hard := .inl ⟨rfl, ⟨h.hard.term, h.hard.vote⟩⟩
        log := ⟨h.log.index, h.log.term⟩
        term_le := hmax
        advance := hadv
        drained := hd
        next := ⟨hr, peer, granted, hp, hpm, by simp only [begun, h.base.me_eq], rfl,
          fun hg _ => hvote hg⟩ }

theorem voteResponseSend_after (h : Calm V n) (hd : n.appliedIndex = n.commitIndex)
    (hp : peer ∈ members)
    (hmsg : n.pendingMsg = buildVoteResponse me peer n.currentTerm granted)
    (hvote : granted = true → n.votedFor = peer) :
    After V n.mark (voteResponseSend n) := by
  have hc := h.unstep
  refine emitSend_none_after hc hd ?_ rfl
  rw [hmsg]
  refine ⟨rfl, fun hne => ?_⟩
  cases granted with
  | false => exact absurd rfl hne
  | true =>
    refine ⟨h.hard.term, h.hard.vote.symm.trans (hvote rfl), fun h0 => ?_⟩
    exact h.base.none_notMem (h0 ▸ hp)

variable {sender : Id} {i : Nat}

/-- What a request for a vote leaves. -/
theorem recvRequestVote_after (h : Calm V n) (hd : n.appliedIndex = n.commitIndex)
    (hstep : StepOk d n) (hsender : sender ∈ members) (hother : sender ≠ me)
    {u : Nat} (hmax : t ≤ u64Max) (hreq : V.request t sender i u) :
    After V n.mark (recvRequestVote (s.env d) n sender t i u) := by
  have hnone : sender ≠ idNone := fun h0 => h.base.none_notMem (h0 ▸ hsender)
  have hfresh : logIsFresh u i n.lastLogTerm n.lastLogIndex = true → V.mayVote t sender := by
    rw [h.log.index, h.log.term]
    exact V.vote hreq
  unfold recvRequestVote
  by_cases hlt : t < n.currentTerm
  · rw [if_pos hlt]
    exact replyVote_after h hd hstep nofun
  rw [if_neg hlt]
  simp only
  generalize logIsFresh u i n.lastLogTerm n.lastLogIndex = fresh at hfresh ⊢
  by_cases hgt : t > n.currentTerm
  · rw [if_pos hgt]
    exact persistVoteThenReply_after (h.demote 0 (pickTimeout (s.env d) n) idNone) hd rfl
      hsender hother hmax (.inl hgt) fresh hfresh
  rw [if_neg hgt]
  have ht : n.currentTerm = t := by omega
  by_cases hvoted : n.votedFor = sender
  · rw [if_pos hvoted]
    exact replyVote_after h hd hstep fun _ => ⟨ht.symm, hvoted, hnone⟩
  rw [if_neg hvoted]
  by_cases hfree : n.votedFor = idNone
  swap
  · rw [if_pos hfree]
    exact replyVote_after h hd hstep nofun
  rw [if_neg (by simpa using hfree)]
  by_cases hlead : n.role = .leader
  · rw [if_pos hlead]
    exact replyVote_after h hd hstep nofun
  rw [if_neg hlead]
  cases fresh with
  | false =>
    rw [if_pos rfl]
    exact replyVote_after h hd hstep nofun
  | true =>
    rw [if_neg (by simp)]
    have hr : n.role = .follower := by
      cases hr : n.role with
      | follower => rfl
      | leader => exact absurd hr hlead
      | candidate =>
        have hv := (h.candidate hr).voted_me
        exact absurd h.base.me_mem (hv.symm.trans hfree ▸ h.base.none_notMem)
    exact persistVoteThenReply_after h hd hr hsender hother hmax (.inr ⟨ht, hfree⟩) true hfresh

/-! ## Becoming leader -/

theorem CandidateOk.elected (h : CandidateOk V n) (hb : Base V n)
    (hq : n.votesGranted ≥ quorum n) : V.elected n.currentTerm := by
  refine V.elect h.stands (Majority.of_countP_zip hb.nodup
    (le_of_eq hb.votes_length.symm) (fun p => p.2) ?_ ?_)
  · have hcount : (members.zip n.votes).countP (fun p => p.2) = n.votes.count true := by
      have hmap : (members.zip n.votes).countP (fun p => p.2) =
          ((members.zip n.votes).map Prod.snd).countP (fun f => f) := by
        rw [countP_map]
        rfl
      rw [hmap, map_snd_zip (le_of_eq hb.votes_length), List.count]
      congr 1
      funext f
      cases f <;> rfl
    rw [hcount, ← h.granted]
    rw [quorum, Node.memberCount, hb.members_eq] at hq
    exact hq
  · intro v f hvf hf
    obtain ⟨i, hi, hget⟩ := getElem_of_mem hvf
    rw [length_zip] at hi
    rw [getElem_zip, Prod.mk.injEq] at hget
    have hfi : n.votes[i]? = some true := by
      rw [getElem?_eq_getElem (by omega), hget.2]
      exact congrArg some hf
    exact h.votes i v (by rw [getElem?_eq_getElem (by omega), hget.1]) hfi

theorem becomeLeader_after (h : Calm V n) (hd : n.appliedIndex = n.commitIndex)
    (he : V.elected n.currentTerm) (hm : (becomeLeader (s.env d) n).1 ≠ .errNomem) :
    After V n.mark (becomeLeader (s.env d) n) := by
  unfold becomeLeader at hm ⊢
  by_cases hfull : n.lastLogIndex = u64Max
  · rw [if_pos hfull]
    exact h.fault _
  rw [if_neg hfull] at hm ⊢
  have hlt : n.lastLogIndex < u64Max := by
    have := h.base.index_le
    omega
  have hcount : n.memberCount = members.length := by
    rw [Node.memberCount, h.base.members_eq]
  have hc : Calm V
      { n with
        role := .leader
        leaderId := n.self
        heartbeatElapsed := 0
        electionElapsed := 0
        nextIndex := replicate n.memberCount (u64Inc n.lastLogIndex)
        matchIndex := replicate n.memberCount 0
        peerCursor := 0
        step := .leaderBroadcast } :=
    { base :=
        { h.base with
          next_length := by rw [length_replicate, hcount]
          match_length := by rw [length_replicate, hcount]
          elected := fun _ => he
          acked := fun _ i v m _ hmi h0 => by
            have hm0 := eq_of_mem_replicate (mem_of_getElem? hmi)
            omega
          next := fun _ i hi => by
            rw [eq_of_mem_replicate hi, u64Inc_of_lt hlt, u64Dec_of_pos (succ_pos _)]
            exact ⟨hlt, le_refl _⟩ }
      noAction := h.noAction
      running := h.running
      hard := { h.hard with }
      log := { h.log with }
      candidate := by
        intro hrole
        cases hrole }
  exact leaderBroadcastNext_after hc rfl hd hm

/-! ## Campaigning -/

theorem resetVotes_votes (hb : Base V n) :
    (resetVotes n).votes = (replicate members.length false).set (memberIndex n me) true := by
  rw [resetVotes, Node.memberCount, hb.members_eq, hb.me_eq]

theorem count_set_replicate {k : Nat} (hi : i < k) :
    ((replicate k false).set i true).count true = 1 := by
  rw [count_set (by simpa using hi)]
  simp [count_replicate]

/-- What the start of an election leaves. -/
theorem campaign_after (hb : Base V n) (hq : n.hasAction = false) (hh : HardSync d n)
    (hl : LogSync d n) (hr : n.role = .candidate) (hd : n.appliedIndex = n.commitIndex)
    (hlt : n.currentTerm < t) (hmax : t ≤ u64Max) :
    After V n.mark
      ((emitHardState { resetVotes n with votesGranted := 1 } t (resetVotes n).self).andThen
        fun node => (.ok, { node with peerCursor := 0, step := .electionBroadcast })) := by
  have hidx : memberIndex n me < members.length := by
    rw [← hb.members_eq]
    exact memberIndex_lt (by rw [hb.members_eq]; exact hb.me_mem)
  have hget : members[memberIndex n me]? = some me := by
    rw [← hb.members_eq]
    exact getElem?_memberIndex (by rw [hb.members_eq]; exact hb.me_mem)
  have hvotes := resetVotes_votes hb
  have hb' : Base V { resetVotes n with votesGranted := 1 } :=
    { hb with
      votes_length := by
        rw [hvotes, length_set, length_replicate]
      elected := fun h => by cases hr.symm.trans h
      acked := fun h => by cases hr.symm.trans h
      next := fun h => by cases hr.symm.trans h }
  unfold emitHardState
  rcases actionBegin_cases { resetVotes n with votesGranted := 1 }
    (.hardState ⟨t, (resetVotes n).self⟩) with hf | hok
  · rw [hf, Ret.andThen_of_ne (by simp)]
    exact after_fault hb' hq ⟨hh.term, hh.vote⟩ rfl (le_refl _) _
  · rw [hok, Ret.andThen_ok]
    refine after_busy ?_ rfl ?_ (lt_succ_self _) rfl (le_refl _) _
    · exact { hb' with }
    exact
      { hard := .inl ⟨rfl, ⟨hh.term, hh.vote⟩⟩
        log := ⟨hl.index, hl.term⟩
        term_le := hmax
        advance := .inl hlt
        drained := hd
        next := by
          refine ⟨hr, hb.me_eq, ?_, ?_, hlt, nofun⟩
          · simp only [begun]
            rw [hvotes, count_set_replicate hidx]
          · intro i id hi hv
            simp only [begun] at hv
            rw [hvotes] at hv
            by_cases hii : memberIndex n me = i
            · rw [← hii, hget, Option.some.injEq] at hi
              exact hi.symm
            · rw [getElem?_set_ne hii, getElem?_replicate] at hv
              split at hv <;> simp at hv }

theorem startElection_after (h : Calm V n) (hd : n.appliedIndex = n.commitIndex)
    (hstep : StepOk d n) : After V n.mark (startElection (s.env d) n) := by
  unfold startElection
  by_cases hmax : n.currentTerm = u64Max
  · rw [if_pos hmax]
    exact h.after hstep hd rfl (le_refl _) _
  rw [if_neg hmax]
  have hlt : n.currentTerm < u64Max := by
    have := h.base.term_le
    omega
  rw [u64Inc_of_lt hlt]
  have hb : Base V
      { n with
        role := .candidate
        leaderId := idNone
        electionElapsed := 0
        electionTimeout := pickTimeout (s.env d) n } :=
    { h.base with elected := nofun, acked := nofun, next := nofun }
  exact campaign_after hb h.noAction ⟨h.hard.term, h.hard.vote⟩ ⟨h.log.index, h.log.term⟩ rfl
    hd (lt_succ_self _) hlt

theorem electionSendNext_after (h : Calm V n) (hd : n.appliedIndex = n.commitIndex)
    (hr : n.role = .candidate) (hm : (electionSendNext (s.env d) n).1 ≠ .errNomem) :
    After V n.mark (electionSendNext (s.env d) n) := by
  have hcand := h.candidate hr
  unfold electionSendNext at hm ⊢
  by_cases hq : n.votesGranted ≥ quorum n
  · rw [if_pos hq] at hm ⊢
    have hc := h.unstep
    exact becomeLeader_after hc hd (hcand.elected h.base hq) hm
  rw [if_neg hq] at hm ⊢
  by_cases hge : n.peerCursor ≥ n.peerCount
  · rw [if_pos hge]
    have hc := h.unstep
    exact hc.after (by simp [StepOk]) hd rfl (le_refl _) _
  · rw [if_neg hge]
    have hc := h.relabel .electionBroadcast (n.peerCursor + 1) n.electionElapsed
      n.electionTimeout n.heartbeatElapsed n.leaderId
    refine emitSend_after hc hd ⟨h.base.me_eq, h.hard.term, h.log.index, h.log.term, ?_⟩
      ⟨rfl, hr⟩
    exact hcand.stands

/-! ## Vote responses -/

theorem Calm.count (h : Calm V n) (hr : n.role = .candidate) {id : Id} (hid : id ∈ members)
    (hnew : n.votes.getD (memberIndex n id) false = false)
    (hvote : V.voted n.currentTerm id) :
    Calm V { n with
      votes := n.votes.set (memberIndex n id) true
      votesGranted := n.votesGranted + 1 } where
  base := { h.base with
    votes_length := by
      rw [length_set]
      exact h.base.votes_length }
  noAction := h.noAction
  running := h.running
  hard := { h.hard with }
  log := { h.log with }
  candidate _ := by
    have hcand := h.candidate hr
    have hidx : memberIndex n id < n.votes.length := by
      rw [h.base.votes_length, ← h.base.members_eq]
      exact memberIndex_lt (by rw [h.base.members_eq]; exact hid)
    have hget : members[memberIndex n id]? = some id := by
      rw [← h.base.members_eq]
      exact getElem?_memberIndex (by rw [h.base.members_eq]; exact hid)
    rw [getD_eq_getElem?_getD, getElem?_eq_getElem hidx, Option.getD_some] at hnew
    refine ⟨hcand.stands, hcand.voted_me, ?_, ?_⟩
    · simp only
      rw [count_set hidx, hnew, hcand.granted]
      simp
    · intro i v hi hv
      simp only at hv
      by_cases hii : memberIndex n id = i
      · rw [← hii, hget, Option.some.injEq] at hi
        rw [← hi]
        exact hvote
      · rw [getElem?_set_ne hii] at hv
        exact hcand.votes i v hi hv

theorem recvVoteResponse_after (h : Calm V n) (hd : n.appliedIndex = n.commitIndex)
    (hstep : StepOk d n) (hsender : sender ∈ members) {granted : Int}
    (hmax : t ≤ u64Max) (hvote : granted ≠ 0 → V.voted t sender)
    (hm : (recvVoteResponse (s.env d) n sender t granted).1 ≠ .errNomem) :
    After V n.mark (recvVoteResponse (s.env d) n sender t granted) := by
  have hsame : ∀ rc, After V n.mark (rc, n) := h.after hstep hd rfl (le_refl _)
  unfold recvVoteResponse at hm ⊢
  by_cases hlt : t < n.currentTerm
  · rw [if_pos hlt]
    exact hsame _
  rw [if_neg hlt] at hm ⊢
  by_cases hgt : t > n.currentTerm
  · rw [if_pos hgt]
    exact stepDownNewTerm_after h hd hgt hmax
  rw [if_neg hgt] at hm ⊢
  obtain rfl : t = n.currentTerm := by omega
  by_cases hr : n.role = .candidate
  swap
  · rw [if_pos hr]
    exact hsame _
  rw [if_neg (by simpa using hr)] at hm ⊢
  by_cases hg : granted = 0
  · rw [if_pos hg]
    exact hsame _
  rw [if_neg hg] at hm ⊢
  simp only at hm ⊢
  by_cases hold : n.votes.getD (memberIndex n sender) false = true
  · rw [if_pos hold]
    exact hsame _
  rw [if_neg hold] at hm ⊢
  have hc := h.count hr hsender (by simpa using hold) (hvote hg)
  by_cases hq : n.votesGranted + 1 < quorum n
  · rw [if_pos (by exact hq)]
    exact hc.after (hstep.recount _ _ _ _ _ _) hd rfl (le_refl _) _
  · rw [if_neg (by exact hq)] at hm ⊢
    exact becomeLeader_after hc hd ((hc.candidate hr).elected hc.base (Nat.le_of_not_lt hq)) hm

/-! ## Timers -/

theorem tickRunning_after (h : Calm V n) (hd : n.appliedIndex = n.commitIndex)
    (hstep : StepOk d n)
    (hm : (if n.role = .leader then tickLeader (s.env d) n
      else tickFollower (s.env d) n).1 ≠ .errNomem) :
    After V n.mark
      (if n.role = .leader then tickLeader (s.env d) n else tickFollower (s.env d) n) := by
  by_cases hr : n.role = .leader
  · rw [if_pos hr] at hm ⊢
    unfold tickLeader at hm ⊢
    by_cases hlt : n.heartbeatElapsed < n.heartbeatInterval
    · rw [if_pos hlt]
      exact h.after hstep hd rfl (le_refl _) _
    · rw [if_neg hlt] at hm ⊢
      have hc := h.relabel .leaderBroadcast 0 n.electionElapsed n.electionTimeout 0 n.leaderId
      exact leaderBroadcastNext_after hc hr hd hm
  · rw [if_neg hr]
    unfold tickFollower
    by_cases hlt : n.electionElapsed < n.electionTimeout
    · rw [if_pos hlt]
      exact h.after hstep hd rfl (le_refl _) _
    · rw [if_neg hlt]
      exact startElection_after h hd hstep

theorem tick_after (h : Calm V n) (hd : n.appliedIndex = n.commitIndex) (hstep : StepOk d n)
    {elapsed : Nat} (hm : (tick (s.env d) n elapsed).1 ≠ .errNomem) :
    After V n.mark (tick (s.env d) n elapsed) := by
  unfold tick at hm ⊢
  rw [if_neg (by simp [h.running]), if_neg (by simp [h.noAction])] at hm ⊢
  have hc := h.relabel n.step n.peerCursor (satAdd n.electionElapsed elapsed) n.electionTimeout
    (satAdd n.heartbeatElapsed elapsed) n.leaderId
  exact tickRunning_after hc hd (hstep.recount _ _ _ _ _ _) hm

end Raft89
