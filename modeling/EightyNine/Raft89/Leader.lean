import EightyNine.Raft89.Types

/-!
# libraft89: leader replication, proposals and the commit rule

`src/raft89_leader.c`.  The loops that read the store return `none` when a
callback fails; their caller then faults the node, as every one of them does in
the source.
-/

namespace Raft89

/-! ## Members -/

/-- `raft89__quorum`. -/
def quorum (node : Node) : Nat := node.memberCount / 2 + 1

/-- `raft89__member_index`. -/
def memberIndex (node : Node) (id : Id) : Nat := node.members.idxOf id

/-! ## Building one batch -/

/-- `out_entry_fill`. -/
def outEntryFill (store : Store) (index : Nat) : Option Entry :=
  match logTermAt store index with
  | none => none
  | some term =>
    match store.logSize index with
    | none => none
    | some size =>
      if size ≠ 0 then
        match store.logRead index size with
        | none => none
        | some data => some ⟨term, index, .arr data⟩
      else some ⟨term, index, .arr []⟩

/-- The loop of `out_entries_build` over `count` entries from `first` on. -/
def outEntriesFill (store : Store) (first : Nat) : Nat → Option (List Entry)
  | 0 => some []
  | count + 1 =>
    match outEntriesFill store first count with
    | none => none
    | some entries =>
      match outEntryFill store (u64Add first count) with
      | none => none
      | some entry => some (entries ++ [entry])

/-- A read that fails sends `RAFT89_ERR_STORE` up. -/
def storeRead {α : Type} : Option α → Except Result α
  | none => .error .errStore
  | some a => .ok a

/-- `raft89__u64_to_size`; both its callers return `RAFT89_ERR_LIMIT` when it fails. -/
def u64ToSize (v : Nat) : Except Result Nat :=
  if v > ulongMax then .error .errLimit else .ok v

/-- `out_entries_build`. -/
def outEntriesBuild (env : Env) (first count total : Nat) : Except Result (List Entry) :=
  if count = 0 then .ok []
  else do
    let countSize ← u64ToSize count
    if entriesBufferAlloc env .out countSize total then
      storeRead (outEntriesFill env.store first count)
    else .error .errNomem

/-- `entry_sum`, with `sum_one` as its body. -/
def entrySum (store : Store) (first : Nat) : Nat → Option Nat
  | 0 => some 0
  | count + 1 =>
    match entrySum store first count with
    | none => none
    | some sum =>
      match store.logSize (u64Add first count) with
      | none => none
      | some size => some (satAdd sum size)

/-- `shrink_to_fit`, with `shrink_step` as its body: the count and the total.
The sum over no entries is zero and fits, so the count never passes zero. -/
def shrinkToFit (store : Store) (maxBytes first : Nat) : Nat → Option (Nat × Nat)
  | 0 => some (0, 0)
  | count + 1 =>
    match entrySum store first (count + 1) with
    | none => none
    | some total =>
      if total ≤ maxBytes then some (count + 1, total)
      else shrinkToFit store maxBytes first count

/-- `plan_batch`. -/
def planBatch (store : Store) (node : Node) (first : Nat) : Option (Nat × Nat) :=
  if first > node.lastLogIndex then some (0, 0)
  else
    let avail := u64Inc (node.lastLogIndex - first)
    shrinkToFit store node.maxAppendBytes first (min avail node.maxAppendEntries)

/-- `build_leader_ae`. -/
def buildLeaderAe (env : Env) (node : Node) (peer : Id) : Except Result Message := do
  let next := node.nextIndex.getD (memberIndex node peer) 0
  let prev := u64Dec next
  let prevTerm ← storeRead (logTermAt env.store prev)
  let (count, total) ← storeRead (planBatch env.store node next)
  let entries ← outEntriesBuild env next count total
  let _ ← u64ToSize count
  .ok ⟨node.self, peer,
    .appendEntries node.currentTerm prev prevTerm node.commitIndex (.arr entries)⟩

/-- `raft89__leader_send_to`. -/
def leaderSendTo (env : Env) (node : Node) (peer : Id) : Ret :=
  match buildLeaderAe env node peer with
  | .ok msg => emitSend node msg
  | .error rc => if rc = .errStore then storeFault node else (rc, node)

/-! ## The commit rule -/

/-- `peer_replicated` for the member `id` whose match index is `matched`. -/
def peerReplicated (self : Id) (index : Nat) (id : Id) (matched : Nat) : Bool :=
  if id = self then false else decide (index ≤ matched)

/-- `count_replicated`: this node counts as one. -/
def countReplicated (node : Node) (index : Nat) : Nat :=
  1 + (node.members.zip node.matchIndex).countP fun p => peerReplicated node.self index p.1 p.2

/-- `majority_search`, downwards from `index` to `stop`. -/
def majoritySearch (node : Node) (stop need : Nat) : Nat → Nat
  | 0 => stop
  | index + 1 =>
    if index + 1 > stop then
      if countReplicated node (index + 1) ≥ need then index + 1
      else majoritySearch node stop need index
    else stop

/-- `raft89__leader_maybe_commit`. -/
def leaderMaybeCommit (env : Env) (node : Node) : Ret :=
  let index := majoritySearch node node.commitIndex (quorum node) node.lastLogIndex
  if index ≤ node.commitIndex then (.ok, node)
  else
    match logTermAt env.store index with
    | none => storeFault node
    | some term =>
      if term ≠ node.currentTerm then (.ok, node)
      else advanceCommit env node index .none

/-! ## Broadcasting -/

/-- `broadcast_finish`. -/
def broadcastFinish (env : Env) (node : Node) : Ret :=
  leaderMaybeCommit env { node with step := .none }

/-- `raft89__leader_broadcast_next`. -/
def leaderBroadcastNext (env : Env) (node : Node) : Ret :=
  if node.peerCursor ≥ node.peerCount then broadcastFinish env node
  else
    let peer := node.peers.getD node.peerCursor idNone
    leaderSendTo env
      { node with peerCursor := node.peerCursor + 1, step := .leaderBroadcast } peer

/-- `raft89__leader_after_append`. -/
def leaderAfterAppend (env : Env) (node : Node) : Ret :=
  match node.pendingEntries.getLast? with
  | none => (.ok, { node with step := .none })
  | some entry =>
    let node := entriesClear
      { node with lastLogIndex := entry.index, lastLogTerm := entry.term }
    leaderBroadcastNext env { node with peerCursor := 0, step := .leaderBroadcast }

/-! ## Stepping down

`raft89__pick_timeout` is in `src/raft89_timer.c` and `raft89__step_down_new_term` in
`src/raft89_election.c`; responses need them here. -/

/-- `raft89__pick_timeout`. -/
def pickTimeout (env : Env) (node : Node) : Nat :=
  let span := (node.electionTimeoutMax - node.electionTimeoutMin + 1) % 2 ^ 64
  u64Add node.electionTimeoutMin (env.random span)

/-- `raft89__step_down_new_term`. -/
def stepDownNewTerm (env : Env) (node : Node) (term : Nat) : Ret :=
  emitHardState
    { node with
      role := .follower
      leaderId := idNone
      electionElapsed := 0
      electionTimeout := pickTimeout env node
      step := .stepDown }
    term idNone

/-! ## Append responses -/

/-- `advance_next`. -/
def advanceNext (node : Node) (idx matched : Nat) : Node :=
  { node with nextIndex := node.nextIndex.set idx (u64Inc matched) }

/-- `leader_find_term`, with `leader_term_step` as its body: one above the last
index carrying `term`, or zero when there is none. -/
def leaderFindTerm (store : Store) (term : Nat) : Nat → Option Nat
  | 0 => some 0
  | index + 1 =>
    match logTermAt store (index + 1) with
    | none => none
    | some got =>
      if got = term then some (u64Inc (index + 1))
      else leaderFindTerm store term index

/-- `clamp_next`. -/
def clampNext (node : Node) (next : Nat) : Nat :=
  let limit := u64Inc node.lastLogIndex
  if next < 1 then 1
  else if next > limit then limit
  else next

/-- The choice of the next index in `handle_ae_failure`, before the clamp. -/
def failureNext (store : Store) (node : Node) (idx conflictTerm conflictIndex : Nat) :
    Option Nat :=
  if conflictTerm = 0 then some conflictIndex
  else
    match leaderFindTerm store conflictTerm (u64Dec (node.nextIndex.getD idx 0)) with
    | none => none
    | some next => some (if next = 0 then conflictIndex else next)

/-- `handle_ae_failure`. -/
def handleAeFailure (env : Env) (node : Node) (idx : Nat) (sender : Id)
    (conflictTerm conflictIndex : Nat) : Ret :=
  match failureNext env.store node idx conflictTerm conflictIndex with
  | none => storeFault node
  | some next =>
    leaderSendTo env { node with nextIndex := node.nextIndex.set idx (clampNext node next) }
      sender

/-- `raft89__recv_ae_response`. -/
def recvAeResponse (env : Env) (node : Node) (sender : Id) (term : Nat) (success : Int)
    (matchIndex conflictTerm conflictIndex : Nat) : Ret :=
  if term < node.currentTerm then (.ok, node)
  else if term > node.currentTerm then stepDownNewTerm env node term
  else if node.role ≠ .leader then (.ok, node)
  else
    let idx := memberIndex node sender
    if success = 0 then handleAeFailure env node idx sender conflictTerm conflictIndex
    else if matchIndex ≤ node.matchIndex.getD idx 0 then (.ok, node)
    else if matchIndex > node.lastLogIndex then (.ok, node)
    else
      let node := { node with matchIndex := node.matchIndex.set idx matchIndex }
      let node := if matchIndex < u64Max then advanceNext node idx matchIndex else node
      leaderMaybeCommit env node

/-! ## Proposals -/

/-- `commands_bad`. -/
def commandsBad (commands : List Command) : Bool :=
  commands.any fun c => c.size ≠ 0 && c.data.isNull

/-- `commands_total`. -/
def commandsTotal (commands : List Command) : Nat :=
  commands.foldl (fun sum c => satAdd sum c.size) 0

/-- `command_fill` over the commands from index `index` on. -/
def commandFill (term : Nat) : Nat → List Command → List Entry
  | _, [] => []
  | index, c :: cs => ⟨term, index, c.data⟩ :: commandFill term (u64Inc index) cs

/-- `raft89_proposev`. -/
def proposev (env : Env) (node : Node) (commands : Ptr Command) : Ret :=
  if commands.isNull then (.errArg, node)
  else if commands.count = 0 then (.errArg, node)
  else if commandsBad commands.elems then (.errArg, node)
  else if node.faulted then (.errFaulted, node)
  else if node.hasAction then (.busy, node)
  else if node.role ≠ .leader then (.notLeader, node)
  else if commands.count > node.maxAppendEntries then (.errLimit, node)
  else if commands.count > ulongMax / sizeofEntry then (.errLimit, node)
  else if commandsTotal commands.elems > node.maxAppendBytes then (.errLimit, node)
  else if node.lastLogIndex > u64Max - commands.count then
    (.errLimit, { node with faulted := true })
  else if env.malloc .proposal then
    let entries := commandFill node.currentTerm (u64Inc node.lastLogIndex) commands.elems
    (entriesStash env node entries).andThen fun node =>
      match actionBegin node (.logAppend node.pendingEntries) with
      | (.ok, node) => (.ok, { node with step := .leaderAppend })
      | (rc, node) => (rc, entriesClear node)
  else (.errNomem, node)

/-- `raft89_propose`. -/
def propose (env : Env) (node : Node) (data : Ptr UInt8) : Ret :=
  proposev env node (.arr [⟨data⟩])

end Raft89

/-!
## libraft89: elections, vote requests and vote counting

`src/raft89_election.c` and the timer functions of `src/raft89_timer.c`.
-/

namespace Raft89

/-! ## Votes -/

/-- `raft89__log_is_fresh`. -/
def logIsFresh (candTerm candIndex ourTerm ourIndex : Nat) : Bool :=
  if candTerm ≠ ourTerm then decide (candTerm > ourTerm)
  else decide (candIndex ≥ ourIndex)

/-- `reset_votes`. -/
def resetVotes (node : Node) : Node :=
  { node with
    votes := (List.replicate node.memberCount false).set (memberIndex node node.self) true }

/-- `reply_vote`. -/
def replyVote (node : Node) (peer : Id) (term : Nat) (granted : Bool) : Ret :=
  emitSend node (buildVoteResponse node.self peer term granted)

/-- `persist_vote_then_reply`. -/
def persistVoteThenReply (node : Node) (peer : Id) (term : Nat) (vote : Id)
    (granted : Bool) : Ret :=
  (emitHardState { node with pendingMsg := buildVoteResponse node.self peer term granted }
    term vote).andThen fun node => (.ok, { node with step := .voteResponse })

/-- `vote_response_send`, the continuation of `persistVoteThenReply`. -/
def voteResponseSend (node : Node) : Ret :=
  emitSend { node with step := .none } node.pendingMsg

/-! ## Elections -/

/-- `raft89__start_election`. -/
def startElection (env : Env) (node : Node) : Ret :=
  if node.currentTerm = u64Max then (.errLimit, node)
  else
    let term := u64Inc node.currentTerm
    let node := resetVotes
      { node with
        role := .candidate
        leaderId := idNone
        electionElapsed := 0
        electionTimeout := pickTimeout env node }
    (emitHardState { node with votesGranted := 1 } term node.self).andThen fun node =>
      (.ok, { node with peerCursor := 0, step := .electionBroadcast })

/-- `raft89__become_leader`, with `init_peer_state` for every member. -/
def becomeLeader (env : Env) (node : Node) : Ret :=
  if node.lastLogIndex = u64Max then (.errLimit, { node with faulted := true })
  else
    leaderBroadcastNext env
      { node with
        role := .leader
        leaderId := node.self
        heartbeatElapsed := 0
        electionElapsed := 0
        nextIndex := List.replicate node.memberCount (u64Inc node.lastLogIndex)
        matchIndex := List.replicate node.memberCount 0
        peerCursor := 0
        step := .leaderBroadcast }

/-- `raft89__election_send_next`, with `become_leader_after_quorum`. -/
def electionSendNext (env : Env) (node : Node) : Ret :=
  if node.votesGranted ≥ quorum node then becomeLeader env { node with step := .none }
  else if node.peerCursor ≥ node.peerCount then (.ok, { node with step := .none })
  else
    let peer := node.peers.getD node.peerCursor idNone
    let node := { node with peerCursor := node.peerCursor + 1 }
    emitSend { node with step := .electionBroadcast } (buildRequestVote node peer)

/-! ## Vote requests and responses -/

/-- `vote_new_term`, with `fresh_vote`. -/
def voteNewTerm (env : Env) (node : Node) (sender : Id) (term : Nat) (fresh : Bool) : Ret :=
  persistVoteThenReply
    { node with
      role := .follower
      leaderId := idNone
      electionElapsed := 0
      electionTimeout := pickTimeout env node }
    sender term (if fresh then sender else idNone) fresh

/-- `raft89__recv_request_vote`. -/
def recvRequestVote (env : Env) (node : Node) (sender : Id)
    (term lastLogIndex lastLogTerm : Nat) : Ret :=
  if term < node.currentTerm then replyVote node sender node.currentTerm false
  else
    let fresh := logIsFresh lastLogTerm lastLogIndex node.lastLogTerm node.lastLogIndex
    if term > node.currentTerm then voteNewTerm env node sender term fresh
    else if node.votedFor = sender then replyVote node sender term true
    else if node.votedFor ≠ idNone then replyVote node sender term false
    else if node.role = .leader then replyVote node sender term false
    else if fresh = false then replyVote node sender term false
    else persistVoteThenReply node sender term sender true

/-- `raft89__recv_vote_response`. -/
def recvVoteResponse (env : Env) (node : Node) (sender : Id) (term : Nat)
    (voteGranted : Int) : Ret :=
  if term < node.currentTerm then (.ok, node)
  else if term > node.currentTerm then stepDownNewTerm env node term
  else if node.role ≠ .candidate then (.ok, node)
  else if voteGranted = 0 then (.ok, node)
  else
    let index := memberIndex node sender
    if node.votes.getD index false then (.ok, node)
    else
      let node := { node with
        votes := node.votes.set index true
        votesGranted := node.votesGranted + 1 }
      if node.votesGranted < quorum node then (.ok, node)
      else becomeLeader env node

/-! ## Timers -/

/-- `raft89__advance_clocks`. -/
def advanceClocks (node : Node) (elapsed : Nat) : Node :=
  { node with
    electionElapsed := satAdd node.electionElapsed elapsed
    heartbeatElapsed := satAdd node.heartbeatElapsed elapsed }

/-- `raft89__tick_leader`. -/
def tickLeader (env : Env) (node : Node) : Ret :=
  if node.heartbeatElapsed < node.heartbeatInterval then (.ok, node)
  else
    leaderBroadcastNext env
      { node with heartbeatElapsed := 0, peerCursor := 0, step := .leaderBroadcast }

/-- `raft89__tick_follower`. -/
def tickFollower (env : Env) (node : Node) : Ret :=
  if node.electionElapsed < node.electionTimeout then (.ok, node)
  else startElection env node

/-- `raft89_tick`. -/
def tick (env : Env) (node : Node) (elapsed : Nat) : Ret :=
  if node.faulted then (.errFaulted, node)
  else if node.hasAction then (.busy, node)
  else
    let node := advanceClocks node elapsed
    if node.role = .leader then tickLeader env node
    else tickFollower env node

end Raft89
