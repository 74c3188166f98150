import Mathlib.Algebra.Group.Nat.Defs
import Mathlib.Data.List.Basic

/-!
# libraft89: words, messages, actions and the node record

The types of `include/raft89.h` and `src/raft89_internal.h`.  A
`raft89_u64` crosses the public boundary as a `{hi, lo}` pair and is used
inside as one 64-bit word.  Here it is the natural number it stands for, and
the four operations that can leave the range are written with their modulus.
`unsigned long` is the 64-bit type of an LP64 host.

A C pointer with a length next to it is a `Ptr`: either `NULL` with the length
the caller declared, or the elements it points to.  A value whose length
disagrees with its pointer cannot be built.

The node record keeps every field of `struct raft89` that a function reads.
The buffers `apply_buffer` and `out_entries` only own the memory that the
outstanding action points into, so the action carries those values itself.
-/

namespace Raft89

/-! ## Words -/

/-- `RAFT89__U64_MAX`. -/
def u64Max : Nat := 2 ^ 64 - 1

/-- `ULONG_MAX`. -/
def ulongMax : Nat := 2 ^ 64 - 1

/-- `sizeof(raft89_entry)`: two pairs of 32-bit words, a pointer and a size. -/
def sizeofEntry : Nat := 32

/-- `raft89__u64_inc`. -/
def u64Inc (a : Nat) : Nat := if a = u64Max then 0 else a + 1

/-- `raft89__u64_dec`. -/
def u64Dec (a : Nat) : Nat := if a = 0 then u64Max else a - 1

/-- The built-in sum of two 64-bit words. -/
def u64Add (a b : Nat) : Nat := (a + b) % 2 ^ 64

/-- `raft89__sat_add`. -/
def satAdd (a b : Nat) : Nat := if ulongMax - a < b then ulongMax else a + b

theorem u64Max_eq : u64Max = 2 ^ 64 - 1 := rfl

theorem u64Inc_of_lt {a : Nat} (h : a < u64Max) : u64Inc a = a + 1 := by
  rw [u64Inc, if_neg (Nat.ne_of_lt h)]

theorem u64Inc_max : u64Inc u64Max = 0 := rfl

theorem u64Inc_le {a : Nat} (h : a ≤ u64Max) : u64Inc a ≤ u64Max := by
  unfold u64Inc
  split <;> omega

theorem u64Dec_of_pos {a : Nat} (h : 0 < a) : u64Dec a = a - 1 := by
  rw [u64Dec, if_neg (Nat.ne_of_gt h)]

theorem u64Dec_zero : u64Dec 0 = u64Max := rfl

theorem u64Add_of_le {a b : Nat} (h : a + b ≤ u64Max) : u64Add a b = a + b := by
  rw [u64Max_eq] at h
  rw [u64Add, Nat.mod_eq_of_lt (by omega)]

/-! ## Pointers with a length -/

/-- A pointer and the length declared for it. -/
inductive Ptr (α : Type) where
  /-- `NULL`, with the length next to it. -/
  | null (count : Nat)
  /-- A pointer to exactly these elements. -/
  | arr (elems : List α)
deriving DecidableEq

/-- The length next to the pointer. -/
def Ptr.count {α : Type} : Ptr α → Nat
  | .null n => n
  | .arr xs => xs.length

/-- The elements that can be read through the pointer. -/
def Ptr.elems {α : Type} : Ptr α → List α
  | .null _ => []
  | .arr xs => xs

/-- The pointer is `NULL`. -/
def Ptr.isNull {α : Type} : Ptr α → Bool
  | .null _ => true
  | .arr _ => false

theorem Ptr.count_eq {α : Type} {p : Ptr α} (h : p.isNull = false) :
    p.count = p.elems.length := by
  cases p with
  | null n => cases h
  | arr xs => rfl

/-! ## Results, roles and continuation steps -/

abbrev Id := Nat

/-- `RAFT89_ID_NONE`. -/
def idNone : Id := 0

/-- `enum raft89_result`. -/
inductive Result where
  | ok
  | empty
  | notLeader
  | busy
  | errArg
  | errNomem
  | errState
  | errStore
  | errCorrupt
  | errProtocol
  | errLimit
  | errFaulted
deriving DecidableEq

/-- `enum raft89_role`. -/
inductive Role where
  | follower
  | candidate
  | leader
deriving DecidableEq

/-- `enum raft89_step`: what to do once the outstanding action is acknowledged. -/
inductive Step where
  | none
  | electionBroadcast
  | voteResponse
  | stepDown
  | aeHardState
  | aeTruncate
  | aeAppend
  | aeReply
  | apply
  | leaderAppend
  | leaderBroadcast
deriving DecidableEq

/-! ## Hard state, entries and messages -/

/-- `raft89_hard_state`. -/
structure HardState where
  currentTerm : Nat
  votedFor : Id
deriving DecidableEq

/-- `raft89_entry`; `size` is the length next to `data`. -/
structure Entry where
  term : Nat
  index : Nat
  data : Ptr UInt8
deriving DecidableEq

/-- The field `size` of an entry. -/
def Entry.size (e : Entry) : Nat := e.data.count

/-- The union `u` of a message, with the message type as its constructor.
`unknown` is a type field outside `enum raft89_message_type`. -/
inductive MessageBody where
  | requestVote (term lastLogIndex lastLogTerm : Nat)
  | requestVoteResponse (term : Nat) (voteGranted : Int)
  | appendEntries (term prevLogIndex prevLogTerm leaderCommit : Nat) (entries : Ptr Entry)
  | appendEntriesResponse (term : Nat) (success : Int)
      (matchIndex conflictTerm conflictIndex : Nat)
  | unknown (type : Int)
deriving DecidableEq

/-- `raft89_message`; `sender` and `receiver` are its `from` and `to`. -/
structure Message where
  sender : Id
  receiver : Id
  body : MessageBody
deriving DecidableEq

/-- The term field of a message of one of the four known types. -/
def MessageBody.term : MessageBody → Nat
  | .requestVote t _ _ => t
  | .requestVoteResponse t _ => t
  | .appendEntries t _ _ _ _ => t
  | .appendEntriesResponse t _ _ _ _ => t
  | .unknown _ => 0

/-! ## Actions -/

/-- The union `u` of an action, with the action type as its constructor.
`none` is the zeroed record before the first action. -/
inductive ActionBody where
  | none
  | send (message : Message)
  | hardState (state : HardState)
  | logAppend (entries : List Entry)
  | logTruncate (firstIndex : Nat)
  | apply (entry : Entry)
deriving DecidableEq

/-- `raft89_action`. -/
structure Action where
  id : Nat
  body : ActionBody

/-- `enum raft89_action_result`; `unknown` is a value outside it. -/
inductive ActionResult where
  | ok
  | lost
  | fatal
  | unknown (value : Int)
deriving DecidableEq

/-! ## The host: store, random source and allocator -/

/-- `raft89_store`.  A callback that fails is `none`. -/
structure Store where
  hardState : Option HardState
  logLast : Option (Nat × Nat)
  logTerm : Nat → Option Nat
  logSize : Nat → Option Nat
  logRead : Nat → Nat → Option (List UInt8)

/-- The places where an allocation is made once the node exists. -/
inductive AllocSite where
  /-- The descriptor array of `raft89_proposev`. -/
  | proposal
  /-- The buffer of `raft89__entries_stash`. -/
  | stash
  /-- The buffer of `out_entries_build`. -/
  | out
  /-- The buffer of `load_entry_payload`. -/
  | payload
deriving DecidableEq

/-- What the host supplies during one call: the store callbacks, the random
source, and which allocations succeed.  No call visits an allocation site
twice, so one answer a site covers every pattern of failures. -/
structure Env where
  store : Store
  random : Nat → Nat
  malloc : AllocSite → Bool

/-- `raft89_command`. -/
structure Command where
  data : Ptr UInt8

/-- The field `size` of a command. -/
def Command.size (c : Command) : Nat := c.data.count

/-! ## Configuration and node -/

/-- `raft89_config` without the two callback records, which are an `Env`.
`members` is the pointer with `member_count`. -/
structure Config where
  self : Id
  members : Ptr Id
  heartbeatInterval : Nat
  electionTimeoutMin : Nat
  electionTimeoutMax : Nat
  maxAppendEntries : Nat
  maxAppendBytes : Nat
  appliedIndex : Nat

/-- `struct raft89`. -/
structure Node where
  self : Id
  role : Role
  currentTerm : Nat
  votedFor : Id
  leaderId : Id
  lastLogIndex : Nat
  lastLogTerm : Nat
  commitIndex : Nat
  appliedIndex : Nat
  members : List Id
  peers : List Id
  votes : List Bool
  votesGranted : Nat
  nextIndex : List Nat
  matchIndex : List Nat
  heartbeatInterval : Nat
  electionTimeoutMin : Nat
  electionTimeoutMax : Nat
  electionTimeout : Nat
  electionElapsed : Nat
  heartbeatElapsed : Nat
  maxAppendEntries : Nat
  maxAppendBytes : Nat
  faulted : Bool
  actionSeq : Nat
  hasAction : Bool
  action : Action
  step : Step
  peerCursor : Nat
  pendingMsg : Message
  pendingEntries : List Entry
  aePrevIndex : Nat
  aePrevTerm : Nat
  aeLeaderCommit : Nat
  aeLeaderId : Id
  aeMatchIndex : Nat
  aeTruncateFirst : Nat
  aeConflictTerm : Nat
  aeConflictIndex : Nat
  aeAppendOffset : Nat
  aeReplySuccess : Bool
  afterApply : Step

/-- `member_count`. -/
def Node.memberCount (node : Node) : Nat := node.members.length

/-- `peer_count`. -/
def Node.peerCount (node : Node) : Nat := node.peers.length

/-- `pending_count`. -/
def Node.pendingCount (node : Node) : Nat := node.pendingEntries.length

/-! ## Returning a status and a node -/

/-- A call returns its status and leaves the node in a new state. -/
abbrev Ret := Result × Node

/-- `rc = f(node); if (rc != RAFT89_OK) return rc;` and then the rest. -/
def Ret.andThen (r : Ret) (k : Node → Ret) : Ret :=
  if r.1 = .ok then k r.2 else r

@[simp] theorem Ret.andThen_ok (n : Node) (k : Node → Ret) :
    Ret.andThen (.ok, n) k = k n := rfl

theorem Ret.andThen_of_ne {r : Ret} (h : r.1 ≠ .ok) (k : Node → Ret) : r.andThen k = r := by
  simp [Ret.andThen, h]

/-- A store callback failed: the node is faulted and `RAFT89_ERR_STORE` goes up. -/
def storeFault (node : Node) : Ret := (.errStore, { node with faulted := true })

end Raft89

/-!
# libraft89: message validation and construction

`src/raft89_message.c` without the dispatch of `raft89_recv`, which is in
`Action.lean` with the other entry points.
-/

namespace Raft89

/-- `raft89__node_has_member`. -/
def nodeHasMember (node : Node) (id : Id) : Bool := node.members.contains id

/-! ## Validation -/

/-- `raft89__request_vote_valid`: the last index and the last term are both zero
or both nonzero. -/
def requestVoteValid (lastLogIndex lastLogTerm : Nat) : Bool :=
  if lastLogIndex = 0 && lastLogTerm ≠ 0 then false
  else if lastLogIndex ≠ 0 && lastLogTerm = 0 then false
  else true

/-- `raft89__vote_response_valid`. -/
def voteResponseValid (voteGranted : Int) : Bool :=
  if voteGranted ≠ 0 && voteGranted ≠ 1 then false else true

/-- `entry_shape_valid` for the entry at position `i`. -/
def entryShapeValid (prevLogIndex i : Nat) (entry : Entry) : Bool :=
  if entry.index = 0 then false
  else if entry.term = 0 then false
  else if entry.index ≠ u64Add (u64Add prevLogIndex 1) i then false
  else if entry.size ≠ 0 && entry.data.isNull then false
  else true

/-- `entries_shape_valid` from position `i` on. -/
def entriesShapeValid (prevLogIndex : Nat) : Nat → List Entry → Bool
  | _, [] => true
  | i, e :: es =>
    if entryShapeValid prevLogIndex i e then entriesShapeValid prevLogIndex (i + 1) es
    else false

/-- The saturating sum of payload sizes: the loop of
`raft89__append_entries_valid` and `payload_total`. -/
def payloadTotal (entries : List Entry) : Nat :=
  entries.foldl (fun total e => satAdd total e.size) 0

/-- `raft89__append_entries_valid`. -/
def appendEntriesValid (prevLogIndex : Nat) (entries : Ptr Entry)
    (maxEntries maxBytes : Nat) : Bool :=
  if entries.count > maxEntries then false
  else if entries.count = 0 then true
  else if entries.isNull then false
  else if prevLogIndex > u64Max - entries.count then false
  else if payloadTotal entries.elems > maxBytes then false
  else entriesShapeValid prevLogIndex 0 entries.elems

/-- `raft89__append_entries_response_valid`. -/
def appendEntriesResponseValid (success : Int) (matchIndex conflictTerm conflictIndex : Nat) :
    Bool :=
  if success ≠ 0 && success ≠ 1 then false
  else if success ≠ 0 then
    if conflictTerm ≠ 0 then false
    else if conflictIndex ≠ 0 then false
    else true
  else if matchIndex ≠ 0 then false
  else if conflictIndex = 0 then false
  else true

/-- `raft89__msg_envelope_valid`. -/
def msgEnvelopeValid (node : Node) (msg : Message) : Bool :=
  if msg.receiver ≠ node.self then false
  else if msg.sender = node.self then false
  else if msg.sender = idNone then false
  else if nodeHasMember node msg.sender = false then false
  else
    match msg.body with
    | .requestVote _ lastLogIndex lastLogTerm => requestVoteValid lastLogIndex lastLogTerm
    | .requestVoteResponse _ voteGranted => voteResponseValid voteGranted
    | .appendEntries _ prevLogIndex _ _ entries =>
      appendEntriesValid prevLogIndex entries node.maxAppendEntries node.maxAppendBytes
    | .appendEntriesResponse _ success matchIndex conflictTerm conflictIndex =>
      appendEntriesResponseValid success matchIndex conflictTerm conflictIndex
    | .unknown _ => false

/-! ## Construction -/

/-- `raft89__build_request_vote`. -/
def buildRequestVote (node : Node) (peer : Id) : Message :=
  ⟨node.self, peer, .requestVote node.currentTerm node.lastLogIndex node.lastLogTerm⟩

/-- `raft89__build_vote_response`. -/
def buildVoteResponse (self peer : Id) (term : Nat) (granted : Bool) : Message :=
  ⟨self, peer, .requestVoteResponse term (if granted then 1 else 0)⟩

/-- `raft89__build_ae_response`. -/
def buildAeResponse (self peer : Id) (term : Nat) (success : Bool)
    (matchIndex conflictTerm conflictIndex : Nat) : Message :=
  ⟨self, peer,
    .appendEntriesResponse term (if success then 1 else 0) matchIndex conflictTerm conflictIndex⟩

end Raft89

/-!
# libraft89: actions, log copies, commit advancement and application

The emission half of `src/raft89_action.c` and `src/raft89_log.c`.  One action
is outstanding at a time.  `advanceCommit` starts a chain of `APPLY` actions
and leaves in `afterApply` the continuation that runs when the chain ends.
-/

namespace Raft89

/-! ## Emitting actions -/

/-- `raft89__action_begin`, with the union the caller fills in when it returns
`RAFT89_OK`. -/
def actionBegin (node : Node) (body : ActionBody) : Ret :=
  if node.actionSeq = ulongMax then (.errLimit, { node with faulted := true })
  else
    (.ok, { node with
      actionSeq := node.actionSeq + 1
      action := ⟨node.actionSeq + 1, body⟩
      hasAction := true })

/-- `raft89__emit_send`. -/
def emitSend (node : Node) (msg : Message) : Ret := actionBegin node (.send msg)

/-- `raft89__emit_hard_state`. -/
def emitHardState (node : Node) (term : Nat) (votedFor : Id) : Ret :=
  actionBegin node (.hardState ⟨term, votedFor⟩)

/-- `raft89__apply_hard_state`. -/
def applyHardState (node : Node) : Node :=
  match node.action.body with
  | .hardState state =>
    { node with currentTerm := state.currentTerm, votedFor := state.votedFor }
  | _ => node

/-! ## Reading and copying entries -/

/-- `raft89__log_term_at`; `none` is a failed callback, for which the caller
faults the node. -/
def logTermAt (store : Store) (index : Nat) : Option Nat :=
  if index = 0 then some 0 else store.logTerm index

/-- `raft89__entries_buffer_alloc`: the two overflow checks and the allocation. -/
def entriesBufferAlloc (env : Env) (site : AllocSite) (count total : Nat) : Bool :=
  if count > ulongMax / sizeofEntry then false
  else if total > ulongMax - count * sizeofEntry then false
  else env.malloc site

/-- `entry_store`: the copy of an entry, with its payload in the new buffer. -/
def entryStore (e : Entry) : Entry := { e with data := .arr e.data.elems }

/-- `raft89__entries_clear`. -/
def entriesClear (node : Node) : Node := { node with pendingEntries := [] }

/-- `raft89__entries_stash`. -/
def entriesStash (env : Env) (node : Node) (src : List Entry) : Ret :=
  let node := entriesClear node
  if src.length = 0 then (.ok, node)
  else if entriesBufferAlloc env .stash src.length (payloadTotal src) then
    (.ok, { node with pendingEntries := src.map entryStore })
  else (.errNomem, node)

/-! ## Commit and application -/

/-- `emit_next_apply`, with `load_entry_meta` and `load_entry_payload`. -/
def emitNextApply (env : Env) (node : Node) : Ret :=
  let index := u64Inc node.appliedIndex
  match env.store.logTerm index with
  | none => storeFault node
  | some term =>
    match env.store.logSize index with
    | none => storeFault node
    | some size =>
      if size = 0 then actionBegin node (.apply ⟨term, index, .null 0⟩)
      else if env.malloc .payload then
        match env.store.logRead index size with
        | none => storeFault node
        | some data => actionBegin node (.apply ⟨term, index, .arr data⟩)
      else (.errNomem, node)

/-- `raft89__apply_next`. -/
def applyNext (env : Env) (node : Node) : Ret :=
  if node.appliedIndex ≥ node.commitIndex then (.ok, node)
  else (emitNextApply env node).andThen fun node => (.ok, { node with step := .apply })

/-- `raft89__apply_ack`.  `resume` is `raft89__resume`, which this function calls
when the chain of applications has ended. -/
def applyAck (env : Env) (node : Node) (resume : Node → Ret) : Ret :=
  let node := { node with appliedIndex := u64Inc node.appliedIndex }
  let after := node.afterApply
  (applyNext env { node with step := .none }).andThen fun node =>
    if node.step = .apply then (.ok, node)
    else resume { node with step := after, afterApply := .none }

/-- `raft89__advance_commit`. -/
def advanceCommit (env : Env) (node : Node) (newCommit : Nat) (after : Step) : Ret :=
  if newCommit ≤ node.commitIndex then (.ok, node)
  else applyNext env { node with commitIndex := newCommit, afterApply := after }

end Raft89
