import EightyNine.Raft89.Run

/-!
# libraft89: conflict repair

A follower that rejects a request answers with the first index of the run of
entries that carry the conflicting term, and the leader moves the next index of
that follower to just above its own last entry of that term, or to the
follower's hint.  One such round is between any two nodes whose logs are the
two given ones: nothing is assumed of their other fields, so other calls may
come between the rounds.
-/

namespace Raft89

open Library Nat List Option

/-! ## Logs -/

/-- The terms of a log: `entry_shape_valid` refuses a zero term, and a leader
appends with its own term, which is at least that of its log. -/
structure TermsOk (log : List LogEntry) : Prop where
  pos : ∀ e ∈ log, 0 < e.term
  sorted : (log.map LogEntry.term).Pairwise (· ≤ ·)

/-- Log matching: entries of one index and one term have the same entries
up to them. -/
def LogMatching (lead follow : List LogEntry) : Prop :=
  ∀ i u, 0 < i → termAt lead i = some u → termAt follow i = some u →
    lead.take i = follow.take i

section Terms

variable {log : List LogEntry} {i j u v : Nat}

theorem TermsOk.term_pos (h : TermsOk log) (hi : 0 < i) (hu : termAt log i = some u) : 0 < u := by
  obtain ⟨i, rfl⟩ : ∃ k, i = k + 1 := ⟨i - 1, by omega⟩
  rw [termAt_succ, map_eq_some_iff] at hu
  obtain ⟨e, he, rfl⟩ := hu
  exact h.pos e (mem_of_getElem? he)

theorem TermsOk.term_le (h : TermsOk log) (hij : i ≤ j) (hu : termAt log i = some u)
    (hv : termAt log j = some v) : u ≤ v := by
  cases i with
  | zero =>
    obtain rfl : 0 = u := some.inj hu
    exact zero_le v
  | succ i =>
    obtain ⟨j, rfl⟩ : ∃ k, j = k + 1 := ⟨j - 1, by omega⟩
    rw [termAt_succ, ← getElem?_map] at hu hv
    obtain ⟨hi, rfl⟩ := List.getElem?_eq_some_iff.1 hu
    obtain ⟨hj, rfl⟩ := List.getElem?_eq_some_iff.1 hv
    rcases lt_or_eq_of_le hij with hlt | heq
    · exact pairwise_iff_getElem.1 h.sorted i j hi hj (lt_of_succ_lt_succ hlt)
    · obtain rfl : i = j := succ.inj heq
      exact Nat.le_refl _

theorem termAt_of_take_eq {lead follow : List LogEntry} {c : Nat}
    (h : lead.take c = follow.take c) (hj : 0 < j) (hjc : j ≤ c) :
    termAt lead j = termAt follow j := by
  obtain ⟨j, rfl⟩ : ∃ k, j = k + 1 := ⟨j - 1, by omega⟩
  have hget := congrArg (fun l => l[j]?) h
  simp only [getElem?_take, if_pos (lt_of_succ_le hjc)] at hget
  rw [termAt_succ, termAt_succ, hget]

end Terms

/-! ## The two backward searches -/

/-- `conflict_hints` finds a run of entries of the term at the previous index. -/
theorem conflictFirst_ok (d : Disk) {u : Nat} : ∀ {i : Nat}, 0 < i → termAt d.log i = some u →
    ∃ first, conflictFirst d.store u i = some first ∧ 0 < first ∧ first ≤ i ∧
      ∀ j, first ≤ j → j ≤ i → termAt d.log j = some u
  | 1, _, hu => ⟨1, rfl, Nat.one_pos, Nat.le_refl 1, fun j h1 h2 => by
    rwa [Nat.le_antisymm h2 h1]⟩
  | i + 2, _, hu => by
    obtain ⟨v, hv⟩ := termAt_isSome (le_of_succ_le (termAt_le hu))
    rw [conflictFirst, store_logTerm_pos d (succ_pos i), hv]
    by_cases huv : v = u
    · subst huv
      obtain ⟨first, hfirst, hpos, hle, hrun⟩ := conflictFirst_ok d (succ_pos i) hv
      refine ⟨first, by simpa using hfirst, hpos, le_succ_of_le hle, fun j h1 h2 => ?_⟩
      rcases lt_or_eq_of_le h2 with hlt | rfl
      · exact hrun j h1 (le_of_lt_succ hlt)
      · exact hu
    · refine ⟨i + 2, by simp [huv], succ_pos _, Nat.le_refl _, fun j h1 h2 => ?_⟩
      rwa [Nat.le_antisymm h2 h1]

/-- `leader_find_term` finds the last index of a term, or there is none. -/
theorem leaderFindTerm_ok (d : Disk) (hlen : d.log.length < u64Max) (u : Nat) :
    ∀ {i : Nat}, i ≤ d.log.length →
      (leaderFindTerm d.store u i = some 0 ∧ ∀ j, 0 < j → j ≤ i → termAt d.log j ≠ some u) ∨
      ∃ k, leaderFindTerm d.store u i = some (k + 1) ∧ 0 < k ∧ k ≤ i ∧
        termAt d.log k = some u ∧ ∀ j, k < j → j ≤ i → termAt d.log j ≠ some u
  | 0, _ => .inl ⟨rfl, fun j h1 h2 => absurd h1 (not_lt.2 h2)⟩
  | i + 1, hi => by
    obtain ⟨v, hv⟩ := termAt_isSome hi
    rw [leaderFindTerm, logTermAt_store, hv]
    by_cases huv : v = u
    · subst huv
      refine .inr ⟨i + 1, ?_, succ_pos i, Nat.le_refl _, hv, fun j h1 h2 => ?_⟩
      · simp [u64Inc_of_lt (lt_of_le_of_lt hi hlen)]
      · exact absurd h1 (not_lt.2 h2)
    · have hstep : ∀ j, j ≤ i + 1 → (j ≤ i → termAt d.log j ≠ some u) →
          termAt d.log j ≠ some u := by
        intro j hj hbelow
        rcases lt_or_eq_of_le hj with hlt | rfl
        · exact hbelow (le_of_lt_succ hlt)
        · rw [hv]
          exact fun heq => huv (some.inj heq)
      simp only [huv, if_false]
      rcases leaderFindTerm_ok d hlen u (le_of_succ_le hi) with
        ⟨hnone, hno⟩ | ⟨k, hsome, hpos, hle, hk, hno⟩
      · exact .inl ⟨hnone, fun j h1 h2 => hstep j h2 (hno j h1)⟩
      · exact .inr ⟨k, hsome, hpos, le_succ_of_le hle, hk, fun j h1 h2 => hstep j h2 (hno j h1)⟩

/-! ## The follower's answer -/

/-- A call on a node whose last action was `seq` emitted an action. -/
structure Emits (seq : Nat) (n' : Node) (body : ActionBody) : Prop where
  seq_eq : n'.actionSeq = seq + 1
  body_eq : n'.action.body = body

/-- A failure response of the term with these hints. -/
def failure (self peer : Id) (term conflictTerm conflictIndex : Nat) : Message :=
  buildAeResponse self peer term false 0 conflictTerm conflictIndex

/-- A call on a node whose last action was `seq` did not send a failure response. -/
def Content (seq : Nat) (n' : Node) : Prop :=
  ∀ self peer term conflictTerm conflictIndex,
    ¬Emits seq n' (.send (failure self peer term conflictTerm conflictIndex))

/-- The hints of a rejection of the term `p` at the index `prev`. -/
inductive Hints (log : List LogEntry) (prev p : Nat) : Nat → Nat → Prop
  /-- The log ends before the previous index. -/
  | short (h : log.length < prev) : Hints log prev p 0 (log.length + 1)
  /-- Another term, with the first index of its run. -/
  | run {u first : Nat} (hne : u ≠ p) (hpos : 0 < first) (hle : first ≤ prev)
      (hrun : ∀ j, first ≤ j → j ≤ prev → termAt log j = some u) : Hints log prev p u first

theorem Hints.differs {log : List LogEntry} {prev p ct ci : Nat} (h : Hints log prev p ct ci) :
    termAt log prev ≠ some p := by
  intro hp
  cases h with
  | short hshort => exact not_le.2 hshort (termAt_le hp)
  | run hne _ hle hrun => exact hne (some.inj ((hrun prev hle (Nat.le_refl _)).symm.trans hp))

/-- The two ways to answer a request of the node's own term: to hold its previous
entry, or to reject it with the hints. -/
def Answered (log : List LogEntry) (self leader : Id) (term prev p seq : Nat) (n' : Node) : Prop :=
  ((prev = 0 ∨ termAt log prev = some p) ∧ Content seq n') ∨
    0 < prev ∧ ∃ ct ci, Hints log prev p ct ci ∧
      Emits seq n' (.send (failure self leader term ct ci))

section Follower

variable {env : Env} {d : Disk} {n n' : Node} {seq : Nat}

theorem content_of_seq (h : n'.actionSeq = seq) : Content seq n' :=
  fun _ _ _ _ _ he => succ_ne_self _ (he.seq_eq.symm.trans h)

theorem content_of_body {body : ActionBody} (h : n'.action.body = body)
    (hb : ∀ self peer term ct ci, body ≠ .send (failure self peer term ct ci)) : Content seq n' :=
  fun _ _ _ _ _ he => hb _ _ _ _ _ (h.symm.trans he.body_eq)

theorem actionBegin_ok {body : ActionBody} (h : actionBegin n body = (.ok, n')) :
    n' = begun n body := by
  rcases actionBegin_cases n body with heq | heq
  · rw [heq] at h
    cases h
  · rw [heq] at h
    exact (Prod.mk.inj h).2.symm

theorem andThen_ok {r : Ret} {k : Node → Ret} (h : r.andThen k = (.ok, n')) :
    ∃ m, r = (.ok, m) ∧ k m = (.ok, n') := by
  obtain ⟨rc, m⟩ := r
  by_cases hrc : rc = .ok
  · subst hrc
    exact ⟨m, rfl, h⟩
  · rw [Ret.andThen_of_ne hrc] at h
    exact absurd (Prod.mk.inj h).1 hrc

theorem emitNextApply_ok (h : emitNextApply env n = (.ok, n')) :
    ∃ e, n'.action.body = .apply e := by
  simp only [emitNextApply] at h
  split at h
  · cases h
  · split at h
    · cases h
    · split_ifs at h
      · exact ⟨_, by rw [actionBegin_ok h]; rfl⟩
      · split at h
        · cases h
        · exact ⟨_, by rw [actionBegin_ok h]; rfl⟩
      · cases h

/-- Commit advancement leaves the reply to be sent, or applies an entry. -/
theorem advanceCommit_ok {k : Nat} {after : Step} (h : advanceCommit env n k after = (.ok, n')) :
    (n'.aeReplySuccess = n.aeReplySuccess ∧ n'.actionSeq = n.actionSeq) ∨
      n'.step = .apply ∧ ∃ e, n'.action.body = .apply e := by
  unfold advanceCommit applyNext at h
  split at h
  · obtain rfl := (Prod.mk.inj h).2
    exact .inl ⟨rfl, rfl⟩
  · split at h
    · obtain rfl := (Prod.mk.inj h).2
      exact .inl ⟨rfl, rfl⟩
    · obtain ⟨m, hm, hn⟩ := andThen_ok h
      obtain ⟨e, he⟩ := emitNextApply_ok hm
      obtain rfl := (Prod.mk.inj hn).2
      exact .inr ⟨rfl, e, he⟩

theorem aeSendReply_content (h : aeSendReply n = (.ok, n')) (hs : n.aeReplySuccess = true) :
    Content seq n' := by
  have hbody := congrArg (fun k => k.action.body) (actionBegin_ok h)
  refine content_of_body hbody fun self peer term ct ci heq => ?_
  simp [begun, failure, buildAeResponse, hs] at heq

theorem aeFinish_content (h : aeFinish env n = (.ok, n')) (hs : n.aeReplySuccess = true) :
    Content n.actionSeq n' := by
  unfold aeFinish at h
  obtain ⟨m, hm, hn⟩ := andThen_ok h
  rcases advanceCommit_ok hm with ⟨hsucc, hseq⟩ | ⟨hstep, e, he⟩
  · split_ifs at hn with hstep
    · obtain rfl := (Prod.mk.inj hn).2
      exact content_of_seq hseq
    · exact aeSendReply_content hn (hsucc.trans hs)
  · rw [if_pos hstep] at hn
    obtain rfl := (Prod.mk.inj hn).2
    exact content_of_body he fun _ _ _ _ _ heq => ActionBody.noConfusion heq

theorem aeEmitAppend_content (h : aeEmitAppend env n = (.ok, n'))
    (hs : n.aeReplySuccess = true) : Content n.actionSeq n' := by
  unfold aeEmitAppend at h
  split_ifs at h
  · exact aeFinish_content h hs
  · obtain ⟨m, hm, hn⟩ := andThen_ok h
    obtain rfl := (Prod.mk.inj hn).2
    have hbody := congrArg (fun k => k.action.body) (actionBegin_ok hm)
    exact content_of_body hbody fun _ _ _ _ _ heq => ActionBody.noConfusion heq

theorem aeApplyEntries_content (h : aeApplyEntries env n = (.ok, n'))
    (hs : n.aeReplySuccess = true) : Content n.actionSeq n' := by
  unfold aeApplyEntries at h
  split at h
  · cases h
  · exact aeFinish_content h hs
  · have hc := aeEmitAppend_content h hs
    exact hc
  · simp only at h
    split_ifs at h
    · have hc := aeEmitAppend_content h hs
      exact hc
    · cases h
    · have hbody := congrArg (fun k => k.action.body) (actionBegin_ok h)
      exact content_of_body hbody fun _ _ _ _ _ heq => ActionBody.noConfusion heq

theorem replyPrefixFailure_ok (h : replyPrefixFailure env n = (.ok, n'))
    (hstore : env.store = d.store) (hlast : n.lastLogIndex = d.log.length)
    (hbound : d.log.length < n.aePrevIndex → d.log.length < u64Max) (hpos : 0 < n.aePrevIndex)
    (hno : termAt d.log n.aePrevIndex ≠ some n.aePrevTerm) :
    ∃ ct ci, Hints d.log n.aePrevIndex n.aePrevTerm ct ci ∧
      Emits n.actionSeq n' (.send (failure n.self n.aeLeaderId n.currentTerm ct ci)) := by
  obtain ⟨m, hm, hn⟩ := andThen_ok h
  obtain rfl := actionBegin_ok hn
  simp only [conflictHints, hlast, hstore] at hm
  split_ifs at hm with hshort
  · obtain rfl := (Prod.mk.inj hm).2
    refine ⟨0, _, .short hshort, rfl, ?_⟩
    rw [← u64Inc_of_lt (hbound hshort)]
    rfl
  · obtain ⟨u, hu⟩ := termAt_isSome (not_lt.1 hshort)
    obtain ⟨first, hfirst, hfpos, hfle, hrun⟩ := conflictFirst_ok d hpos hu
    rw [store_logTerm_pos d hpos, hu] at hm
    simp only [hfirst] at hm
    obtain rfl := (Prod.mk.inj hm).2
    exact ⟨u, first, .run (fun heq => hno (heq ▸ hu)) hfpos hfle hrun, rfl, rfl⟩

theorem aePrefixMatches_eq (hlast : n.lastLogIndex = d.log.length) :
    aePrefixMatches d.store n = some (decide (n.aePrevIndex = 0 ∨
      termAt d.log n.aePrevIndex = some n.aePrevTerm)) := by
  unfold aePrefixMatches
  rw [hlast]
  split_ifs with hz hshort
  · simp [hz]
  · have hnone : termAt d.log n.aePrevIndex ≠ some n.aePrevTerm :=
      fun heq => not_lt.2 (termAt_le heq) hshort
    simp [hz, hnone]
  · obtain ⟨u, hu⟩ := termAt_isSome (not_lt.1 hshort)
    rw [store_logTerm_pos d (Nat.pos_of_ne_zero hz), hu]
    simp [hz]

theorem aeProcess_answered (h : aeProcess env n = (.ok, n')) (hstore : env.store = d.store)
    (hlast : n.lastLogIndex = d.log.length)
    (hbound : d.log.length < n.aePrevIndex → d.log.length < u64Max) :
    Answered d.log n.self n.aeLeaderId n.currentTerm n.aePrevIndex n.aePrevTerm n.actionSeq n' := by
  unfold aeProcess at h
  simp only [hstore, aePrefixMatches_eq (n := { n with
    role := .follower, leaderId := n.aeLeaderId, electionElapsed := 0
    electionTimeout := pickTimeout env n }) hlast] at h
  by_cases hmatch : n.aePrevIndex = 0 ∨ termAt d.log n.aePrevIndex = some n.aePrevTerm
  · simp only [hmatch, decide_true] at h
    have hc := aeApplyEntries_content h rfl
    exact .inl ⟨hmatch, hc⟩
  · simp only [hmatch, decide_false] at h
    rw [not_or] at hmatch
    have hpos := Nat.pos_of_ne_zero hmatch.1
    have hrej := replyPrefixFailure_ok h hstore hlast hbound hpos hmatch.2
    exact .inr ⟨hpos, hrej⟩

theorem ite_ok {c : Prop} [Decidable c] {rc : Result} {m : Node} {r : Ret} (hne : rc ≠ .ok)
    (h : (if c then (rc, m) else r) = (.ok, n')) : r = (.ok, n') := by
  split_ifs at h
  · exact absurd (Prod.mk.inj h).1 hne
  · exact h

/-- A follower that handles a request of its term answers it. -/
theorem recv_answered {sender : Id} {prev p commit : Nat} {entries : Ptr Entry}
    (h : recv env n ⟨sender, n.self, .appendEntries n.currentTerm prev p commit entries⟩ =
      (.ok, n'))
    (hstore : env.store = d.store) (hlast : n.lastLogIndex = d.log.length)
    (hbound : d.log.length < prev → d.log.length < u64Max) :
    Answered d.log n.self sender n.currentTerm prev p n.actionSeq n' := by
  have hterm := lt_irrefl n.currentTerm
  unfold recv at h
  have hrecv := ite_ok (by simp) (ite_ok (by simp) (ite_ok (by simp) h))
  simp only [recvAppendEntries, if_neg hterm] at hrecv
  obtain ⟨m, hm, hn⟩ := andThen_ok (ite_ok (by simp) hrecv)
  rw [aeStash] at hm
  obtain hfail | hok := entriesStash_cases env { n with
      aePrevIndex := prev
      aePrevTerm := p
      aeLeaderCommit := commit
      aeLeaderId := sender
      aeMatchIndex := prev
      aeTruncateFirst := 0
      aeConflictTerm := 0
      aeConflictIndex := 0
      aeAppendOffset := 0
      aeReplySuccess := false } entries.elems
  · rw [hm] at hfail
    cases hfail
  · obtain rfl := (Prod.mk.inj (hok.symm.trans hm)).2
    simp only [gt_iff_lt, if_neg hterm] at hn
    have hanswer := aeProcess_answered hn hstore hlast hbound
    exact hanswer

end Follower

/-! ## The leader's next index -/

/-- An idle leader of the term with this log, and its next index for a peer. -/
structure Leads (d : Disk) (term : Nat) (peer : Id) (next : Nat) (n : Node) : Prop where
  running : n.faulted = false
  noAction : n.hasAction = false
  leader : n.role = .leader
  term_eq : n.currentTerm = term
  last : n.lastLogIndex = d.log.length
  member : peer ∈ n.members
  other : peer ≠ n.self
  named : peer ≠ idNone
  slots : n.nextIndex.length = n.members.length
  next_eq : n.nextIndex.getD (memberIndex n peer) 0 = next

section Leader

variable {env : Env} {dl df : Disk} {n : Node} {term next prev p ct ci : Nat} {peer : Id}

theorem leaderSendTo_next (env : Env) (n : Node) (peer : Id) :
    (leaderSendTo env n peer).2.nextIndex = n.nextIndex ∧
      (leaderSendTo env n peer).2.members = n.members := by
  unfold leaderSendTo
  split
  · rcases actionBegin_cases n (.send ‹Message›) with heq | heq <;>
      · rw [emitSend, heq]
        exact ⟨rfl, rfl⟩
  · split <;> exact ⟨rfl, rfl⟩

/-- A leader handles a failure response of its term from a peer. -/
theorem recv_failure (h : Leads dl term peer next n) (hci : 0 < ci) :
    recv env n (failure peer n.self term ct ci) =
      handleAeFailure env n (memberIndex n peer) peer ct ci := by
  have henv : msgEnvelopeValid n (failure peer n.self term ct ci) = true := by
    simp [msgEnvelopeValid, failure, buildAeResponse, nodeHasMember, h.member, h.other, h.named,
      appendEntriesResponseValid, ne_of_gt hci]
  simp only [recv, h.running, h.noAction, henv]
  simp [failure, buildAeResponse, recvAeResponse, h.term_eq, h.leader]

theorem recv_failure_next (h : Leads dl term peer next n) (hci : 0 < ci) {c : Nat}
    (hc : failureNext env.store n (memberIndex n peer) ct ci = some c) :
    let n' := (recv env n (failure peer n.self term ct ci)).2
    n'.nextIndex.getD (memberIndex n' peer) 0 = clampNext n c := by
  have hlt : memberIndex n peer < n.nextIndex.length := h.slots ▸ memberIndex_lt h.member
  obtain ⟨hnext, hmembers⟩ := leaderSendTo_next env { n with
    nextIndex := n.nextIndex.set (memberIndex n peer) (clampNext n c) } peer
  simp only [recv_failure h hci, handleAeFailure, hc]
  unfold memberIndex at hnext hmembers hlt ⊢
  rw [hnext, hmembers]
  simp [getD_eq_getElem?_getD, hlt]

theorem clampNext_eq (hlast : n.lastLogIndex = dl.log.length) (hlen : dl.log.length < u64Max)
    {c : Nat} (hpos : 0 < c) (hle : c ≤ dl.log.length) : clampNext n c = c := by
  unfold clampNext
  simp only [hlast, u64Inc_of_lt hlen]
  rw [if_neg (by omega), if_neg (by omega)]

/-- The next index from the hints of a rejection: below the old one, and above
every index at which the two logs have one term. -/
theorem failureNext_ok (hlead : TermsOk dl.log) (hfollow : TermsOk df.log)
    (hlen : dl.log.length < u64Max) (h : Leads dl term peer (prev + 1) n) (hpos : 0 < prev)
    (hp : termAt dl.log prev = some p) (hh : Hints df.log prev p ct ci) :
    ∃ c, failureNext dl.store n (memberIndex n peer) ct ci = some c ∧ 0 < c ∧ c ≤ prev ∧
      ∀ j u, c ≤ j → j ≤ prev → termAt dl.log j = some u → termAt df.log j ≠ some u := by
  have hprev : u64Dec (prev + 1) = prev := u64Dec_of_pos (succ_pos prev)
  cases hh with
  | short hshort =>
    refine ⟨df.log.length + 1, if_pos rfl, succ_pos _, hshort, fun j u hj _ _ hu => ?_⟩
    exact not_succ_le_self _ (le_trans hj (termAt_le hu))
  | run hne hfpos hfle hrun =>
    have hu : termAt df.log prev = some ct := hrun prev hfle (Nat.le_refl _)
    have hzero : ct ≠ 0 := ne_of_gt (hfollow.term_pos hpos hu)
    simp only [failureNext, if_neg hzero, h.next_eq, hprev]
    rcases leaderFindTerm_ok dl hlen ct (termAt_le hp) with
      ⟨hnone, hno⟩ | ⟨k, hk, hkpos, hkle, hku, hno⟩
    · refine ⟨ci, by simp [hnone], hfpos, hfle, fun j v hj hjp hv hw => ?_⟩
      obtain rfl : ct = v := some.inj ((hrun j hj hjp).symm.trans hw)
      exact hno j (lt_of_lt_of_le hfpos hj) hjp hv
    · have hkp : k ≠ prev := by
        rintro rfl
        exact hne (some.inj (hku.symm.trans hp))
      refine ⟨k + 1, by simp [hk], succ_pos k, lt_of_le_of_ne hkle hkp,
        fun j v hj hjp hv hw => ?_⟩
      -- the follower's terms stop at the conflicting one, and the leader's start there
      have hle : v ≤ ct := hfollow.term_le hjp hw hu
      have hge : ct ≤ v := hlead.term_le (le_of_succ_le hj) hku hv
      obtain rfl : ct = v := Nat.le_antisymm hge hle
      exact hno j hj hjp hv

end Leader

/-! ## Rounds -/

/-- A follower with the log of `df` handles a request of its own term whose previous
entry is that of `dl`, and is left as `n'`. -/
def Handles (dl df : Disk) (term : Nat) (leader peer : Id) (prev seq : Nat) (n' : Node) : Prop :=
  ∃ env n p commit entries, env.store = df.store ∧ n.lastLogIndex = df.log.length ∧
    n.self = peer ∧ n.currentTerm = term ∧ n.actionSeq = seq ∧ termAt dl.log prev = some p ∧
    recv env n ⟨leader, peer, .appendEntries term prev p commit entries⟩ = (.ok, n')

/-- One round of conflict repair: a request at the index below `next` is rejected, and
the leader, whose next index is still `next`, handles the response and is left with
the next index `next'`. -/
def Round (dl df : Disk) (term : Nat) (peer : Id) (next next' : Nat) : Prop :=
  ∃ prev seq follower env n ct ci, next = prev + 1 ∧ env.store = dl.store ∧
    Leads dl term peer next n ∧ Handles dl df term n.self peer prev seq follower ∧
    Emits seq follower (.send (failure peer n.self term ct ci)) ∧
    let n' := (recv env n (failure peer n.self term ct ci)).2
    n'.nextIndex.getD (memberIndex n' peer) 0 = next'

/-- A request at the index `prev` is handled and not rejected. -/
def Accepted (dl df : Disk) (term : Nat) (peer : Id) (prev : Nat) : Prop :=
  ∃ leader seq n', Handles dl df term leader peer prev seq n' ∧ Content seq n'

/-- What one round achieves. -/
structure Progress (lead follow : List LogEntry) (next next' : Nat) : Prop where
  pos : 1 ≤ next'
  lt : next' < next
  /-- No index that is passed over has one term in both logs. -/
  skips : ∀ j u, next' ≤ j → j < next → termAt lead j = some u → termAt follow j ≠ some u
  /-- The next index stays above every common prefix. -/
  keeps : ∀ c, c ≤ lead.length → c ≤ follow.length → lead.take c = follow.take c → c < next'

section Rounds

variable {dl df : Disk} {term next next' prev seq : Nat} {leader peer : Id} {n' : Node}

theorem Handles.answered (h : Handles dl df term leader peer prev seq n')
    (hlen : dl.log.length < u64Max) :
    ∃ p, termAt dl.log prev = some p ∧ Answered df.log peer leader term prev p seq n' := by
  obtain ⟨env, n, p, commit, entries, hstore, hlast, rfl, rfl, rfl, hp, hrecv⟩ := h
  have hbound : df.log.length < prev → df.log.length < u64Max := fun hlt =>
    lt_trans hlt (lt_of_le_of_lt (termAt_le hp) hlen)
  exact ⟨p, hp, recv_answered hrecv hstore hlast hbound⟩

theorem Round.progress (hlead : TermsOk dl.log) (hfollow : TermsOk df.log)
    (hlen : dl.log.length < u64Max) (h : Round dl df term peer next next') :
    Progress dl.log df.log next next' := by
  obtain ⟨prev, seq, follower, env, n, ct, ci, rfl, hstore, hleads, hhandles, hemits, hnext⟩ := h
  obtain ⟨p, hp, ⟨-, hcontent⟩ | ⟨hpos, ct', ci', hhints, hemits'⟩⟩ := hhandles.answered hlen
  · exact absurd hemits (hcontent _ _ _ _ _)
  have hsame := hemits'.body_eq.symm.trans hemits.body_eq
  simp only [failure, buildAeResponse, ActionBody.send.injEq, Message.mk.injEq,
    MessageBody.appendEntriesResponse.injEq, true_and] at hsame
  obtain ⟨rfl, rfl⟩ := hsame
  obtain ⟨c, hc, hcpos, hcle, hskip⟩ :=
    failureNext_ok hlead hfollow hlen hleads hpos hp hhints
  have hci : 0 < ci' := by
    cases hhints with
    | short => exact succ_pos _
    | run _ hfpos => exact hfpos
  rw [← hstore] at hc
  have hclamp := clampNext_eq hleads.last hlen hcpos (le_trans hcle (termAt_le hp))
  obtain rfl : c = next' :=
    hclamp.symm.trans ((recv_failure_next hleads hci hc).symm.trans hnext)
  refine ⟨hcpos, lt_succ_of_le hcle,
    fun j u hj hjp => hskip j u hj (le_of_lt_succ hjp), fun k hkl hkf htake => ?_⟩
  -- the two logs agree up to `k`, so `k` is neither passed over nor at or above `prev`
  by_contra hlt
  have hck : c ≤ k := not_lt.1 hlt
  rcases lt_or_ge k prev with hkp | hkp
  · obtain ⟨u, hu⟩ := termAt_isSome hkl
    have heq := termAt_of_take_eq htake (lt_of_lt_of_le hcpos hck) (Nat.le_refl k)
    exact hskip k u hck (le_of_lt hkp) hu (heq.symm.trans hu)
  · have heq := termAt_of_take_eq htake hpos hkp
    exact hhints.differs (heq.symm.trans hp)

/-- A sequence of rounds is shorter than its first next index. -/
theorem Round.chain (hlead : TermsOk dl.log) (hfollow : TermsOk df.log)
    (hlen : dl.log.length < u64Max) : ∀ {next : Nat} {later : List Nat},
    (next :: later).IsChain (Round dl df term peer) → later.length ≤ next - 1
  | _, [], _ => zero_le _
  | next, next' :: later, h => by
    obtain ⟨hround, hchain⟩ := isChain_cons_cons.1 h
    have hprogress := hround.progress hlead hfollow hlen
    have hlater := Round.chain hlead hfollow hlen hchain
    have hpos := hprogress.pos
    have hlt := hprogress.lt
    simp only [length_cons]
    omega

theorem Accepted.take_eq (hmatch : LogMatching dl.log df.log) (hlen : dl.log.length < u64Max)
    (h : Accepted dl df term peer prev) : dl.log.take prev = df.log.take prev := by
  obtain ⟨leader, seq, n', hhandles, hcontent⟩ := h
  obtain ⟨p, hp, ⟨hzero | hsame, -⟩ | ⟨-, ct, ci, -, hemits⟩⟩ := hhandles.answered hlen
  · rw [hzero, take_zero, take_zero]
  · rcases Nat.eq_zero_or_pos prev with rfl | hpos
    · rw [take_zero, take_zero]
    · exact hmatch prev p hpos hp hsame
  · exact absurd hemits (hcontent _ _ _ _ _)

/-- Conflict repair between two logs that match.  Every round lowers the next index,
keeps it positive and above the common prefix, and passes over no index at which the
logs have one term.  So there are fewer rounds than the first next index, and when a
request is not rejected, its prefix matches. -/
theorem conflict_repair (hlead : TermsOk dl.log) (hfollow : TermsOk df.log)
    (hmatch : LogMatching dl.log df.log) (hlen : dl.log.length < u64Max) :
    (∀ next next', Round dl df term peer next next' → Progress dl.log df.log next next') ∧
      (∀ next later, (next :: later).IsChain (Round dl df term peer) →
        later.length ≤ next - 1) ∧
      ∀ prev, Accepted dl df term peer prev → dl.log.take prev = df.log.take prev :=
  ⟨fun _ _ h => h.progress hlead hfollow hlen, fun _ _ h => Round.chain hlead hfollow hlen h,
    fun _ h => h.take_eq hmatch hlen⟩

end Rounds

/-! ### Two nodes -/

theorem logMatching_iff {lead follow : List LogEntry} :
    LogMatching lead follow ↔ ∀ i < lead.length, termAt lead (i + 1) = termAt follow (i + 1) →
      lead.take (i + 1) = follow.take (i + 1) := by
  refine ⟨fun h i hi heq => ?_, fun h i u hpos hu hv => ?_⟩
  · obtain ⟨u, hu⟩ := termAt_isSome (succ_le_of_lt hi)
    exact h (i + 1) u (succ_pos i) hu (heq.symm.trans hu)
  · obtain ⟨i, rfl⟩ : ∃ k, i = k + 1 := ⟨i - 1, by omega⟩
    exact h i (lt_of_succ_le (termAt_le hu)) (hu.trans hv.symm)

/-- The durable state of a node in term 4 with entries of these terms. -/
def termsDisk (terms : List Nat) : Disk := ⟨⟨4, 0⟩, terms.map fun t => ⟨t, []⟩⟩

/-- Node 1 as the leader of term 4, about to send node 2 the entries from `next` on. -/
def leaderOf (terms : List Nat) (next : Nat) : Node :=
  { restored (termsDisk terms) pairConfig 2 with
    role := .leader
    nextIndex := [0, next] }

/-- Node 2 as a follower in term 4. -/
def followerOf (terms : List Nat) : Node :=
  restored (termsDisk terms) { pairConfig with self := 2 } 2

theorem leads_leaderOf (terms : List Nat) (next : Nat) :
    Leads (termsDisk terms) 4 2 next (leaderOf terms next) where
  running := rfl
  noAction := rfl
  leader := rfl
  term_eq := rfl
  last := rfl
  member := mem_cons_of_mem 1 mem_cons_self
  other := (by decide : (2 : Id) ≠ 1)
  named := (by decide : (2 : Id) ≠ 0)
  slots := rfl
  next_eq := rfl

/-- The round of two concrete nodes, from the two calls it is made of. -/
theorem round_of_calls {lead follow : List Nat} (prev p ct ci : Nat) {next' : Nat} {n' : Node}
    (hp : termAt (termsDisk lead).log prev = some p)
    (hrecv : recv (plenty.env (termsDisk follow)) (followerOf follow)
      ⟨1, 2, .appendEntries 4 prev p 0 (.arr [])⟩ = (.ok, n'))
    (hsend : Emits 0 n' (.send (failure 2 1 4 ct ci)))
    (hnext : (recv (plenty.env (termsDisk lead)) (leaderOf lead (prev + 1))
      (failure 2 1 4 ct ci)).2.nextIndex = [0, next'])
    (hmembers : (recv (plenty.env (termsDisk lead)) (leaderOf lead (prev + 1))
      (failure 2 1 4 ct ci)).2.members = [1, 2]) :
    Round (termsDisk lead) (termsDisk follow) 4 2 (prev + 1) next' := by
  refine ⟨prev, 0, n', plenty.env (termsDisk lead), leaderOf lead (prev + 1), ct, ci, rfl, rfl,
    leads_leaderOf lead (prev + 1),
    ⟨_, followerOf follow, p, 0, .arr [], rfl, rfl, rfl, rfl, rfl, hp, hrecv⟩, hsend, ?_⟩
  have hself : (leaderOf lead (prev + 1)).self = 1 := rfl
  simp only [hself, memberIndex, hnext, hmembers]
  rfl

/-- The leader has entries of the terms 1 and 3, the follower of 1 and 2: one round takes
the next index from 3 to 2. -/
theorem conflict_repair_pair :
    Round (termsDisk [1, 3]) (termsDisk [1, 2]) 4 2 3 2 ∧
      Progress (termsDisk [1, 3]).log (termsDisk [1, 2]).log 3 2 := by
  have hround : Round (termsDisk [1, 3]) (termsDisk [1, 2]) 4 2 3 2 :=
    round_of_calls 2 3 2 2 rfl rfl ⟨rfl, rfl⟩ rfl rfl
  have hrepair := @conflict_repair (termsDisk [1, 3]) (termsDisk [1, 2]) 4 2
    ⟨by decide, by decide⟩ ⟨by decide, by decide⟩ (logMatching_iff.2 (by decide)) (by decide)
  exact ⟨hround, hrepair.1 3 2 hround⟩

/-- The leader has entries of the terms 2, 1 and 3, the follower of 2, 1 and 2: the terms
go down once.  The logs match, and the round passes over their common entry of term 1. -/
theorem conflict_repair_unsorted :
    LogMatching (termsDisk [2, 1, 3]).log (termsDisk [2, 1, 2]).log ∧
      Round (termsDisk [2, 1, 3]) (termsDisk [2, 1, 2]) 4 2 4 2 ∧
      ¬Progress (termsDisk [2, 1, 3]).log (termsDisk [2, 1, 2]).log 4 2 := by
  refine ⟨logMatching_iff.2 (by decide), ?_, fun h => ?_⟩
  · exact round_of_calls 3 3 2 3 rfl rfl ⟨rfl, rfl⟩ rfl rfl
  · exact h.skips 2 1 (Nat.le_refl 2) (by decide) rfl rfl

end Raft89
