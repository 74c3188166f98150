import EightyNine.Raft89.Leader

/-!
# libraft89: AppendEntries on the follower

`src/raft89_replication.c`: the consistency check, conflict repair, commit
advancement and the reply.  A request with a higher term is stashed while its
hard state is persisted and processed on the acknowledgement.
-/

namespace Raft89

/-! ## Replies -/

/-- `send_ae_failure`. -/
def sendAeFailure (node : Node) (leader : Id) (term : Nat) : Ret :=
  emitSend node (buildAeResponse node.self leader term false 0 0 (u64Inc node.lastLogIndex))

/-- `raft89__ae_send_reply`. -/
def aeSendReply (node : Node) : Ret :=
  let node := { node with step := .none }
  emitSend node
    (buildAeResponse node.self node.aeLeaderId node.currentTerm node.aeReplySuccess
      node.aeMatchIndex node.aeConflictTerm node.aeConflictIndex)

/-! ## The stash and the consistency check -/

/-- `ae_stash`. -/
def aeStash (env : Env) (node : Node) (sender : Id)
    (prevLogIndex prevLogTerm leaderCommit : Nat) (entries : Ptr Entry) : Ret :=
  entriesStash env
    { node with
      aePrevIndex := prevLogIndex
      aePrevTerm := prevLogTerm
      aeLeaderCommit := leaderCommit
      aeLeaderId := sender
      aeMatchIndex := prevLogIndex
      aeTruncateFirst := 0
      aeConflictTerm := 0
      aeConflictIndex := 0
      aeAppendOffset := 0
      aeReplySuccess := false }
    entries.elems

/-- `ae_prefix_matches`; `none` is a failed callback. -/
def aePrefixMatches (store : Store) (node : Node) : Option Bool :=
  if node.aePrevIndex = 0 then some true
  else if node.aePrevIndex > node.lastLogIndex then some false
  else (store.logTerm node.aePrevIndex).map fun term => decide (term = node.aePrevTerm)

/-- `ae_update_last`, with `mark_empty_log`. -/
def aeUpdateLast (env : Env) (node : Node) (index : Nat) : Ret :=
  if index = 0 then (.ok, { node with lastLogIndex := 0, lastLogTerm := 0 })
  else
    match env.store.logTerm index with
    | none => storeFault node
    | some term => (.ok, { node with lastLogIndex := index, lastLogTerm := term })

/-! ## Finishing a request -/

/-- `ae_finish`. -/
def aeFinish (env : Env) (node : Node) : Ret :=
  let newCommit := min (min node.aeLeaderCommit node.lastLogIndex) node.aeMatchIndex
  (advanceCommit env (entriesClear node) newCommit .aeReply).andThen fun node =>
    if node.step = .apply then (.ok, node) else aeSendReply node

/-- `emit_log_truncate`. -/
def emitLogTruncate (node : Node) (first : Nat) : Ret := actionBegin node (.logTruncate first)

/-- `ae_emit_append`. -/
def aeEmitAppend (env : Env) (node : Node) : Ret :=
  if node.pendingCount - node.aeAppendOffset = 0 then aeFinish env node
  else
    (actionBegin node (.logAppend (node.pendingEntries.drop node.aeAppendOffset))).andThen
      fun node => (.ok, { node with step := .aeAppend })

/-! ## Scanning the entries -/

/-- The result of `ae_scan`: every entry is present, the log ends before entry
`offset`, or entry `offset` conflicts with the log at index `first`. -/
inductive Scan where
  | same
  | missing (offset : Nat)
  | conflict (first offset : Nat)

/-- `ae_scan` from position `i` on, with `ae_scan_one` as its body. -/
def aeScan (store : Store) (prevIndex lastLogIndex : Nat) : Nat → List Entry → Option Scan
  | _, [] => some .same
  | i, e :: es =>
    let index := u64Add (u64Add prevIndex 1) i
    if index > lastLogIndex then some (.missing i)
    else
      match store.logTerm index with
      | none => none
      | some term =>
        if term = e.term then aeScan store prevIndex lastLogIndex (i + 1) es
        else some (.conflict index i)

/-- `ae_apply_entries`. -/
def aeApplyEntries (env : Env) (node : Node) : Ret :=
  match aeScan env.store node.aePrevIndex node.lastLogIndex 0 node.pendingEntries with
  | none => storeFault node
  | some .same => aeFinish env node
  | some (.missing offset) =>
    aeEmitAppend env { node with aeTruncateFirst := 0, aeAppendOffset := offset }
  | some (.conflict first offset) =>
    let node := { node with aeTruncateFirst := first, aeAppendOffset := offset }
    if first = 0 then aeEmitAppend env node
    else if first ≤ node.commitIndex then (.errProtocol, node)
    else emitLogTruncate { node with step := .aeTruncate } first

/-! ## Conflict hints -/

/-- The loop of `conflict_hints`, with `conflict_search` and `conflict_walk`:
the first index of the run of entries of `term` that ends at the argument. -/
def conflictFirst (store : Store) (term : Nat) : Nat → Option Nat
  | 0 => some 0
  | 1 => some 1
  | first + 2 =>
    match store.logTerm (first + 1) with
    | none => none
    | some got => if got ≠ term then some (first + 2) else conflictFirst store term (first + 1)

/-- `conflict_hints`, with `conflict_short_log`. -/
def conflictHints (env : Env) (node : Node) : Ret :=
  if node.aePrevIndex > node.lastLogIndex then
    (.ok, { node with aeConflictTerm := 0, aeConflictIndex := u64Inc node.lastLogIndex })
  else
    match env.store.logTerm node.aePrevIndex with
    | none => storeFault node
    | some term =>
      let node := { node with aeConflictTerm := term }
      match conflictFirst env.store term node.aePrevIndex with
      | none => storeFault node
      | some first => (.ok, { node with aeConflictIndex := first })

/-- `reply_prefix_failure`. -/
def replyPrefixFailure (env : Env) (node : Node) : Ret :=
  (conflictHints env { node with aeReplySuccess := false, aeMatchIndex := 0 }).andThen
    aeSendReply

/-! ## Processing a request -/

/-- `ae_process`. -/
def aeProcess (env : Env) (node : Node) : Ret :=
  let node := { node with
    role := .follower
    leaderId := node.aeLeaderId
    electionElapsed := 0
    electionTimeout := pickTimeout env node }
  match aePrefixMatches env.store node with
  | none => storeFault node
  | some false => replyPrefixFailure env node
  | some true =>
    aeApplyEntries env { node with
      aeReplySuccess := true
      aeMatchIndex := u64Add node.aePrevIndex node.pendingCount }

/-- `raft89__ae_continue`. -/
def aeContinue (env : Env) (node : Node) : Ret := aeProcess env node

/-- `raft89__ae_after_truncate`. -/
def aeAfterTruncate (env : Env) (node : Node) : Ret :=
  (aeUpdateLast env node (u64Dec node.aeTruncateFirst)).andThen (aeEmitAppend env)

/-- `raft89__ae_after_append`. -/
def aeAfterAppend (env : Env) (node : Node) : Ret :=
  (aeUpdateLast env node (u64Add node.aePrevIndex node.pendingCount)).andThen (aeFinish env)

/-- `start_ae_hard_state`. -/
def startAeHardState (node : Node) (term : Nat) : Ret :=
  emitHardState { node with role := .follower, leaderId := idNone, step := .aeHardState }
    term idNone

/-- `raft89__recv_append_entries`. -/
def recvAppendEntries (env : Env) (node : Node) (sender : Id)
    (term prevLogIndex prevLogTerm leaderCommit : Nat) (entries : Ptr Entry) : Ret :=
  if term < node.currentTerm then sendAeFailure node sender node.currentTerm
  else if term = node.currentTerm && node.role = .leader then (.errProtocol, node)
  else
    (aeStash env node sender prevLogIndex prevLogTerm leaderCommit entries).andThen fun node =>
      if term > node.currentTerm then startAeHardState node term
      else aeProcess env node

end Raft89

/-!
## libraft89: continuations and the entry points

The acknowledgement half of `src/raft89_action.c` and the dispatch of
`raft89_recv`.  `raft89__resume` and `raft89__apply_ack` call each other: the
second clears `after_apply` before it resumes, so three levels reach the end of
every chain (`resumeFuel_eq_resume`).
-/

namespace Raft89

/-! ## Resuming a continuation -/

/-- `raft89__resume` with a bound on the nested calls through `raft89__apply_ack`. -/
def resumeFuel (env : Env) : Nat → Node → Ret
  | 0, node => (.ok, node)
  | fuel + 1, node =>
    match node.step with
    | .electionBroadcast => electionSendNext env node
    | .voteResponse => voteResponseSend node
    | .leaderBroadcast => leaderBroadcastNext env node
    | .leaderAppend => leaderAfterAppend env node
    | .aeHardState => aeContinue env node
    | .aeTruncate => aeAfterTruncate env node
    | .aeAppend => aeAfterAppend env node
    | .aeReply => aeSendReply node
    | .apply => applyAck env node (resumeFuel env fuel)
    | .none | .stepDown => (.ok, { node with step := .none })

/-- `raft89__resume`. -/
def resume (env : Env) (node : Node) : Ret := resumeFuel env 3 node

section ResumeStep

variable {env : Env} {node : Node}

theorem resume_eq : resume env node =
    match node.step with
    | .electionBroadcast => electionSendNext env node
    | .voteResponse => voteResponseSend node
    | .leaderBroadcast => leaderBroadcastNext env node
    | .leaderAppend => leaderAfterAppend env node
    | .aeHardState => aeContinue env node
    | .aeTruncate => aeAfterTruncate env node
    | .aeAppend => aeAfterAppend env node
    | .aeReply => aeSendReply node
    | .apply => applyAck env node (resumeFuel env 2)
    | .none | .stepDown => (.ok, { node with step := .none }) := rfl

theorem resume_electionBroadcast (h : node.step = .electionBroadcast) :
    resume env node = electionSendNext env node := by rw [resume_eq, h]

theorem resume_voteResponse (h : node.step = .voteResponse) :
    resume env node = voteResponseSend node := by rw [resume_eq, h]

theorem resume_leaderBroadcast (h : node.step = .leaderBroadcast) :
    resume env node = leaderBroadcastNext env node := by rw [resume_eq, h]

theorem resume_leaderAppend (h : node.step = .leaderAppend) :
    resume env node = leaderAfterAppend env node := by rw [resume_eq, h]

theorem resume_aeHardState (h : node.step = .aeHardState) :
    resume env node = aeContinue env node := by rw [resume_eq, h]

theorem resume_aeTruncate (h : node.step = .aeTruncate) :
    resume env node = aeAfterTruncate env node := by rw [resume_eq, h]

theorem resume_aeAppend (h : node.step = .aeAppend) :
    resume env node = aeAfterAppend env node := by rw [resume_eq, h]

theorem resume_apply (h : node.step = .apply) :
    resume env node = applyAck env node (resumeFuel env 2) := by rw [resume_eq, h]

theorem resume_none (h : node.step = .none) :
    resume env node = (.ok, { node with step := .none }) := by rw [resume_eq, h]

theorem resume_stepDown (h : node.step = .stepDown) :
    resume env node = (.ok, { node with step := .none }) := by rw [resume_eq, h]

end ResumeStep

/-! ## Entry points -/

/-- `raft89__action_result_valid`. -/
def actionResultValid (action : Action) (result : ActionResult) : Bool :=
  match result with
  | .ok => true
  | .fatal => true
  | .lost =>
    match action.body with
    | .send _ => true
    | _ => false
  | .unknown _ => false

/-- `raft89_action_done`. -/
def actionDone (env : Env) (node : Node) (id : Nat) (result : ActionResult) : Ret :=
  if node.faulted then (.errFaulted, node)
  else if node.hasAction = false then (.errState, node)
  else if id ≠ node.action.id then (.errState, node)
  else if actionResultValid node.action result = false then (.errState, node)
  else if result = .fatal then (.ok, { node with faulted := true })
  else resume env { applyHardState node with hasAction := false }

/-- `raft89_recv`. -/
def recv (env : Env) (node : Node) (message : Message) : Ret :=
  if node.faulted then (.errFaulted, node)
  else if node.hasAction then (.busy, node)
  else if msgEnvelopeValid node message = false then (.errProtocol, node)
  else
    match message.body with
    | .requestVote term lastLogIndex lastLogTerm =>
      recvRequestVote env node message.sender term lastLogIndex lastLogTerm
    | .requestVoteResponse term voteGranted =>
      recvVoteResponse env node message.sender term voteGranted
    | .appendEntries term prevLogIndex prevLogTerm leaderCommit entries =>
      recvAppendEntries env node message.sender term prevLogIndex prevLogTerm leaderCommit
        entries
    | .appendEntriesResponse term success matchIndex conflictTerm conflictIndex =>
      recvAeResponse env node message.sender term success matchIndex conflictTerm
        conflictIndex
    | .unknown _ => (.errState, node)

end Raft89
