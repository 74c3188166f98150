import EightyNine.Library.Majority
import EightyNine.Raft89.Host

/-!
# libraft89: what holds of one node

`NodeOk V d n w` says which durable state `d` and which progress `w` of the
outstanding action a node state `n` may go with, one clause for each kind of
outstanding action.  It is an invariant of every run of one host.

A node also relies on the rest of the cluster: that a member voted for it, that
an entry is committed, that an `AppendEntries` request was sent by the leader of
its term.  A `View` collects those facts as predicates, with the laws by which a
node derives one from another.  In `View.trivial` every fact is true, so what is
proved of all views holds of a node whatever messages it receives.  In
`Cluster.lean` the facts are about the protocol state of a whole cluster.
-/

namespace Raft89

open Library (Majority)

/-! ## Facts about the rest of the cluster -/

/-- A request kept while its effects are made durable: the `ae_*` fields and
`pending_entries`. -/
structure Slice where
  leader : Id
  prevIndex : Nat
  prevTerm : Nat
  commit : Nat
  entries : List Entry

/-- The stash of a node. -/
def Node.slice (n : Node) : Slice :=
  ⟨n.aeLeaderId, n.aePrevIndex, n.aePrevTerm, n.aeLeaderCommit, n.pendingEntries⟩

/-- The facts a node may rely on.  `log` is its durable log, and the first
argument of a fact is a term. -/
structure View (me : Id) (members : List Id) (log : List LogEntry) where
  /-- This node is a candidate with its present log. -/
  candidate : Nat → Prop
  /-- This node has the votes of a majority. -/
  elected : Nat → Prop
  /-- The member voted for this node. -/
  voted : Nat → Id → Prop
  /-- The member holds this node's log up to an index. -/
  acked : Nat → Id → Nat → Prop
  /-- The log up to an index is committed. -/
  covered : Nat → Nat → Prop
  /-- The log agrees with the leader's up to an index. -/
  agrees : Nat → Nat → Prop
  /-- The log followed by these entries agrees with the leader's. -/
  continues : Nat → List Entry → Prop
  /-- The log and the leader's first differ at an index that both have. -/
  splits : Nat → Nat → Prop
  /-- The leader sent this slice of its log. -/
  slice : Nat → Slice → Prop
  /-- A candidate asked for votes with this last index and last term. -/
  request : Nat → Id → Nat → Nat → Prop
  /-- The candidate's log is at least as fresh as this one. -/
  mayVote : Nat → Id → Prop
  candidate_me : ∀ {t}, candidate t → voted t me
  elect : ∀ {t}, candidate t → Majority members (voted t) → elected t
  acked_le : ∀ {t v i k}, acked t v i → k ≤ i → acked t v k
  vote : ∀ {t c i u}, request t c i u → logIsFresh u i (lastTerm log) log.length = true →
    mayVote t c
  cover_lead : ∀ {t i}, elected t → 0 < i → termAt log i = some t →
    Majority members (fun v => v = me ∨ acked t v i) → covered t i
  cover_follow : ∀ {t s i k}, slice t s → agrees t i → k ≤ s.commit → k ≤ i → covered t k
  cover_term : ∀ {t t' k}, covered t k → t ≤ t' → covered t' k
  agree_start : ∀ {t s}, slice t s → termAt log s.prevIndex = some s.prevTerm →
    agrees t s.prevIndex
  agree_first : ∀ {t s}, slice t s → s.prevIndex = 0 → agrees t 0
  agree_next : ∀ {t s i e}, slice t s → agrees t (s.prevIndex + i) → s.entries[i]? = some e →
    termAt log (s.prevIndex + i + 1) = some e.term → agrees t (s.prevIndex + i + 1)
  continue_from : ∀ {t s i}, slice t s → agrees t (s.prevIndex + i) →
    log.length = s.prevIndex + i → i ≤ s.entries.length → continues t (s.entries.drop i)
  split_at : ∀ {t s i e u}, slice t s → agrees t (s.prevIndex + i) → s.entries[i]? = some e →
    termAt log (s.prevIndex + i + 1) = some u → u ≠ e.term →
    splits t (s.prevIndex + i + 1)
  agree_end : ∀ {t}, continues t [] → agrees t log.length

/-- The view of a node that knows nothing of the cluster. -/
def View.trivial (me : Id) (members : List Id) (log : List LogEntry) :
    View me members log where
  candidate _ := True
  elected _ := True
  voted _ _ := True
  acked _ _ _ := True
  covered _ _ := True
  agrees _ _ := True
  continues _ _ := True
  splits _ _ := True
  slice _ _ := True
  request _ _ _ _ := True
  mayVote _ _ := True
  candidate_me _ := True.intro
  elect _ _ := True.intro
  acked_le _ _ := True.intro
  vote _ _ := True.intro
  cover_lead _ _ _ _ := True.intro
  cover_follow _ _ _ _ := True.intro
  cover_term _ _ := True.intro
  agree_start _ _ := True.intro
  agree_first _ _ := True.intro
  agree_next _ _ _ _ := True.intro
  continue_from _ _ _ _ := True.intro
  split_at _ _ _ _ _ := True.intro
  agree_end _ := True.intro

/-- What a received message tells a node. -/
def View.Accepts {me : Id} {members : List Id} {log : List LogEntry}
    (V : View me members log) (m : Message) : Prop :=
  m.body.term ≤ u64Max ∧
  match m.body with
  | .requestVote t i u => V.request t m.sender i u
  | .requestVoteResponse t g => g ≠ 0 → V.voted t m.sender
  | .appendEntries t p q c es => V.slice t ⟨m.sender, p, q, c, es.elems.map entryStore⟩
  | .appendEntriesResponse t s i _ _ => s ≠ 0 → V.acked t m.sender i
  | .unknown _ => True

theorem View.trivial_accepts {me : Id} {members : List Id} {log : List LogEntry}
    {m : Message} (h : m.InRange) : (View.trivial me members log).Accepts m := by
  refine ⟨h.term_le, ?_⟩
  cases m.body <;> simp [View.trivial]

/-! ## The parts of the invariant -/

variable {me : Id} {members : List Id}

/-- The acknowledged hard state is the durable one. -/
structure HardSync (d : Disk) (n : Node) : Prop where
  term : n.currentTerm = d.hard.currentTerm
  vote : n.votedFor = d.hard.votedFor

/-- The acknowledged log metadata is that of the durable log. -/
structure LogSync (d : Disk) (n : Node) : Prop where
  index : n.lastLogIndex = d.log.length
  term : n.lastLogTerm = lastTerm d.log

/-- What holds in every phase. -/
structure Base {log : List LogEntry} (V : View me members log) (n : Node) : Prop where
  me_eq : n.self = me
  members_eq : n.members = members
  peers_eq : n.peers = members.filter (· ≠ me)
  me_mem : me ∈ members
  none_notMem : idNone ∉ members
  nodup : members.Nodup
  votes_length : n.votes.length = members.length
  next_length : n.nextIndex.length = members.length
  match_length : n.matchIndex.length = members.length
  term_le : n.currentTerm ≤ u64Max
  index_le : n.lastLogIndex ≤ u64Max
  applied_le : n.appliedIndex ≤ n.commitIndex
  commit_le : n.commitIndex ≤ n.lastLogIndex
  cover : V.covered n.currentTerm n.commitIndex
  elected : n.role = .leader → V.elected n.currentTerm
  acked : n.role = .leader → ∀ (i : Nat) id m, members[i]? = some id → n.matchIndex[i]? = some m →
    0 < m → V.acked n.currentTerm id m
  next : n.role = .leader → ∀ i ∈ n.nextIndex, i ≤ u64Max ∧ u64Dec i ≤ n.lastLogIndex

/-- A candidate counts only votes it received. -/
structure CandidateOk {log : List LogEntry} (V : View me members log) (n : Node) : Prop where
  stands : V.candidate n.currentTerm
  voted_me : n.votedFor = me
  granted : n.votesGranted = n.votes.count true
  votes : ∀ (i : Nat) id, members[i]? = some id → n.votes[i]? = some true → V.voted n.currentTerm id

/-- Processing the stash again would stop at a conflict at or below the commit
index, so the continuation can run any number of times without effect. -/
structure Stuck (d : Disk) (n : Node) : Prop where
  matched : aePrefixMatches d.store n = some true
  conflict : ∃ first offset,
    aeScan d.store n.aePrevIndex n.lastLogIndex 0 n.pendingEntries =
      some (.conflict first offset) ∧ 0 < first ∧ first ≤ n.commitIndex

/-- The continuation that is left when no storage action is outstanding. -/
def StepOk (d : Disk) (n : Node) : Prop :=
  match n.step with
  | .none => True
  | .electionBroadcast => n.hasAction = true ∧ n.role = .candidate
  | .leaderBroadcast => n.hasAction = true ∧ n.role = .leader
  | .aeHardState => Stuck d n
  | _ => False

/-- A successful reply names an index the durable log reaches. -/
structure ReplyOk {log : List LogEntry} (V : View me members log) (d : Disk) (n : Node) :
    Prop where
  le : n.aeReplySuccess = true → n.aeMatchIndex ≤ d.log.length
  agrees : n.aeReplySuccess = true → V.agrees n.currentTerm n.aeMatchIndex

/-- An outgoing message says only what the durable state bears out. -/
def SendOk {log : List LogEntry} (V : View me members log) (d : Disk) (n : Node)
    (m : Message) : Prop :=
  m.sender = me ∧
  match m.body with
  | .requestVote t i u =>
    t = d.hard.currentTerm ∧ i = d.log.length ∧ u = lastTerm d.log ∧ V.candidate t
  | .requestVoteResponse t g =>
    g ≠ 0 → t = d.hard.currentTerm ∧ d.hard.votedFor = m.receiver ∧ m.receiver ≠ idNone
  | .appendEntries t p q c es =>
    t = d.hard.currentTerm ∧ n.role = .leader ∧ termAt d.log p = some q ∧
      es.elems.map Entry.toLog <+: d.log.drop p ∧ c = n.commitIndex
  | .appendEntriesResponse t s i _ _ =>
    s ≠ 0 → t = d.hard.currentTerm ∧ i ≤ d.log.length ∧ V.agrees t i
  | .unknown _ => False

/-- The stash of a request of term `t` whose entries have representable indices. -/
structure StashOk {log : List LogEntry} (V : View me members log) (t : Nat) (n : Node) :
    Prop where
  slice : V.slice t n.slice
  range : n.pendingEntries ≠ [] → n.aePrevIndex + n.pendingEntries.length ≤ u64Max

/-! ## The phases -/

/-- A hard state is being persisted. -/
structure HardPhase {log : List LogEntry} (V : View me members log) (d : Disk) (n : Node)
    (w : Nat) (s : HardState) : Prop where
  hard : (w = 0 ∧ HardSync d n) ∨ (w = 1 ∧ d.hard = s)
  log : LogSync d n
  term_le : s.currentTerm ≤ u64Max
  advance : n.currentTerm < s.currentTerm ∨
    (n.currentTerm = s.currentTerm ∧ n.votedFor = idNone)
  drained : n.appliedIndex = n.commitIndex
  next :
    match n.step with
    | .electionBroadcast =>
      n.role = .candidate ∧ s.votedFor = me ∧ n.votesGranted = n.votes.count true ∧
        (∀ (i : Nat) id, members[i]? = some id → n.votes[i]? = some true → id = me) ∧
        n.currentTerm < s.currentTerm ∧ (w = 1 → V.candidate s.currentTerm)
    | .voteResponse =>
      n.role = .follower ∧ ∃ p g, p ∈ members ∧ p ≠ me ∧
        n.pendingMsg = buildVoteResponse me p s.currentTerm g ∧
        s.votedFor = (if g then p else idNone) ∧
        (g = true → w = 0 → V.mayVote s.currentTerm p)
    | .stepDown => n.role = .follower ∧ s.votedFor = idNone
    | .aeHardState =>
      n.role = .follower ∧ s.votedFor = idNone ∧ StashOk V s.currentTerm n
    | _ => False

/-- A batch of entries is being appended. -/
structure AppendPhase {log : List LogEntry} (V : View me members log) (d : Disk) (n : Node)
    (w : Nat) (entries : List Entry) : Prop where
  hard : HardSync d n
  written : w ≤ entries.length
  nonempty : entries ≠ []
  length : d.log.length = n.lastLogIndex + w
  tail : d.log.drop n.lastLogIndex = (entries.take w).map Entry.toLog
  range : n.lastLogIndex + entries.length ≤ u64Max
  drained : n.appliedIndex = n.commitIndex
  next :
    match n.step with
    | .leaderAppend =>
      n.role = .leader ∧ n.pendingEntries = entries ∧
        (∀ e ∈ entries, e.term = n.currentTerm) ∧
        (∀ e, entries.getLast? = some e → e.index = n.lastLogIndex + entries.length)
    | .aeAppend =>
      n.role = .follower ∧ entries = n.pendingEntries.drop n.aeAppendOffset ∧
        n.aeAppendOffset < n.pendingEntries.length ∧
        n.lastLogIndex = n.aePrevIndex + n.aeAppendOffset ∧
        n.aeMatchIndex = n.aePrevIndex + n.pendingEntries.length ∧
        n.aeReplySuccess = true ∧
        StashOk V n.currentTerm n ∧ V.continues n.currentTerm (entries.drop w)
    | _ => False

/-- A conflicting suffix is being removed. -/
structure TruncatePhase {log : List LogEntry} (V : View me members log) (d : Disk) (n : Node)
    (first : Nat) : Prop where
  hard : HardSync d n
  step : n.step = .aeTruncate
  role : n.role = .follower
  first_eq : n.aeTruncateFirst = first
  first_pos : 0 < first
  above : n.commitIndex < first
  first_le : first ≤ n.lastLogIndex
  lower : first ≤ d.log.length + 1
  upper : d.log.length ≤ n.lastLogIndex
  place : first = n.aePrevIndex + n.aeAppendOffset + 1
  offset : n.aeAppendOffset < n.pendingEntries.length
  matchIndex : n.aeMatchIndex = n.aePrevIndex + n.pendingEntries.length
  success : n.aeReplySuccess = true
  stash : StashOk V n.currentTerm n
  agrees : V.agrees n.currentTerm (first - 1)
  splits : first ≤ d.log.length → V.splits n.currentTerm first
  drained : n.appliedIndex = n.commitIndex

/-- An entry is being applied. -/
structure ApplyPhase {log : List LogEntry} (V : View me members log) (d : Disk) (n : Node)
    (e : Entry) : Prop where
  hard : HardSync d n
  log : LogSync d n
  candidate : n.role = .candidate → CandidateOk V n
  step : n.step = .apply
  lt : n.appliedIndex < n.commitIndex
  index : e.index = n.appliedIndex + 1
  entry : entryAt d.log e.index = some e.toLog
  after : n.afterApply = .none ∨ (n.afterApply = .aeReply ∧ ReplyOk V d n)

/-- A message is being sent. -/
structure SendPhase {log : List LogEntry} (V : View me members log) (d : Disk) (n : Node)
    (m : Message) : Prop where
  hard : HardSync d n
  log : LogSync d n
  candidate : n.role = .candidate → CandidateOk V n
  message : SendOk V d n m
  step : StepOk d n
  drained : n.appliedIndex = n.commitIndex

/-- The outstanding action is in one of its phases. -/
def Busy {log : List LogEntry} (V : View me members log) (d : Disk) (n : Node) (w : Nat) :
    Prop :=
  match n.action.body with
  | .send m => SendPhase V d n m
  | .hardState s => HardPhase V d n w s
  | .logAppend entries => AppendPhase V d n w entries
  | .logTruncate first => TruncatePhase V d n first
  | .apply e => ApplyPhase V d n e
  | .none => False

/-- No action is outstanding and the node is not faulted. -/
structure Idle {log : List LogEntry} (V : View me members log) (d : Disk) (n : Node) :
    Prop where
  log : LogSync d n
  candidate : n.role = .candidate → CandidateOk V n
  step : StepOk d n
  drained : n.appliedIndex = n.commitIndex

/-- The invariant of a node. -/
structure NodeOk {log : List LogEntry} (V : View me members log) (d : Disk) (n : Node)
    (w : Nat) : Prop where
  base : Base V n
  quiet : n.hasAction = false → HardSync d n
  idle : n.hasAction = false → n.faulted = false → Idle V d n
  busy : n.hasAction = true → Busy V d n w

end Raft89
