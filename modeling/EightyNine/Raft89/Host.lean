import EightyNine.Raft89.Replication

/-!
# libraft89: configuration and restore

`src/raft89_config.c` and the life cycle half of `src/raft89_node.c`.
-/

namespace Raft89

open List

/-! ## Configuration checks -/

/-- `raft89__members_valid`, with `raft89__config_has_zero`,
`raft89__config_has_duplicate` and `raft89__config_count_id`. -/
def membersValid (self : Id) (members : List Id) : Bool :=
  if members.any (· = idNone) then false
  else if members.Nodup then decide (members.count self = 1)
  else false

/-- `raft89__timeouts_valid`. -/
def timeoutsValid (config : Config) : Bool :=
  if config.heartbeatInterval = 0 then false
  else if config.electionTimeoutMin ≤ config.heartbeatInterval then false
  else if config.electionTimeoutMax < config.electionTimeoutMin then false
  else true

/-- `raft89__limits_valid`. -/
def limitsValid (config : Config) : Bool :=
  if config.maxAppendEntries = 0 then false
  else if config.maxAppendBytes = 0 then false
  else true

/-- `raft89__config_validate`.  The callbacks of an `Env` are never null. -/
def configValidate (config : Config) : Bool :=
  if config.members.isNull then false
  else if config.members.count = 0 then false
  else if config.self = idNone then false
  else if membersValid config.self config.members.elems = false then false
  else if timeoutsValid config = false then false
  else limitsValid config

/-! ## Building and loading a node -/

/-- `state_alloc` and `raft89__node_init`: the node before the store is read.
`node_init` leaves the two conflict fields unset; `ae_stash` writes them before
anything reads them. -/
def nodeInit (config : Config) : Node where
  self := config.self
  role := .follower
  currentTerm := 0
  votedFor := idNone
  leaderId := idNone
  lastLogIndex := 0
  lastLogTerm := 0
  commitIndex := 0
  appliedIndex := 0
  members := config.members.elems
  peers := config.members.elems.filter (· ≠ config.self)
  votes := replicate config.members.count false
  votesGranted := 0
  nextIndex := replicate config.members.count 0
  matchIndex := replicate config.members.count 0
  heartbeatInterval := config.heartbeatInterval
  electionTimeoutMin := config.electionTimeoutMin
  electionTimeoutMax := config.electionTimeoutMax
  electionTimeout := config.electionTimeoutMin
  electionElapsed := 0
  heartbeatElapsed := 0
  maxAppendEntries := config.maxAppendEntries
  maxAppendBytes := config.maxAppendBytes
  faulted := false
  actionSeq := 0
  hasAction := false
  action := ⟨0, .none⟩
  step := .none
  peerCursor := 0
  pendingMsg := ⟨idNone, idNone, .unknown 0⟩
  pendingEntries := []
  aePrevIndex := 0
  aePrevTerm := 0
  aeLeaderCommit := 0
  aeLeaderId := idNone
  aeMatchIndex := 0
  aeTruncateFirst := 0
  aeConflictTerm := 0
  aeConflictIndex := 0
  aeAppendOffset := 0
  aeReplySuccess := false
  afterApply := .none

/-- `raft89__check_restored`. -/
def checkRestored (node : Node) : Result :=
  if node.lastLogIndex = 0 && node.lastLogTerm ≠ 0 then .errCorrupt
  else if node.lastLogIndex ≠ 0 && node.lastLogTerm = 0 then .errCorrupt
  else if node.votedFor ≠ idNone && nodeHasMember node node.votedFor = false then .errCorrupt
  else .ok

/-- `raft89__node_load`, with `raft89__store_read_hard_state` and
`raft89__store_read_log_last`. -/
def nodeLoad (store : Store) (node : Node) : Ret :=
  match store.hardState with
  | none => (.errStore, node)
  | some state =>
    let node := { node with currentTerm := state.currentTerm, votedFor := state.votedFor }
    match store.logLast with
    | none => (.errStore, node)
    | some (index, term) =>
      let node := { node with lastLogIndex := index, lastLogTerm := term }
      (checkRestored node, node)

/-- `raft89__recover_applied`. -/
def recoverApplied (store : Store) (node : Node) (applied : Nat) : Ret :=
  if applied > node.lastLogIndex then (.errCorrupt, node)
  else if applied = 0 then (.ok, node)
  else
    match store.logTerm applied with
    | none => (.errStore, node)
    | some _ => (.ok, { node with appliedIndex := applied, commitIndex := applied })

/-- `raft89_create`; `alloc` says whether `node_alloc` gets its memory. -/
def create (env : Env) (alloc : Bool) (config : Config) : Except Result Node :=
  if configValidate config = false then .error .errArg
  else if alloc = false then .error .errNomem
  else
    match nodeLoad env.store (nodeInit config) with
    | (.ok, node) =>
      match recoverApplied env.store node config.appliedIndex with
      | (.ok, node) => .ok { node with electionTimeout := pickTimeout env node }
      | (rc, _) => .error rc
    | (rc, _) => .error rc

end Raft89

/-!
# libraft89: one host

A host owns the durable state and drives one node.  The phases of an action are
those of the crash contract: a `write` performs one indivisible piece of the
outstanding action (the whole hard state, one appended entry, one removed
entry), `done` acknowledges it, and a crash may come between any two of them.
The store callbacks always read the durable state as it is.
-/

namespace Raft89

/-! ## Durable state -/

/-- A durable log entry; its index is its position, counted from one. -/
structure LogEntry where
  term : Nat
  payload : List UInt8
deriving DecidableEq

/-- What an appended entry leaves in the durable log. -/
def Entry.toLog (e : Entry) : LogEntry := ⟨e.term, e.data.elems⟩

@[simp] theorem Entry.toLog_term (e : Entry) : e.toLog.term = e.term := rfl

@[simp] theorem Entry.toLog_entryStore (e : Entry) : (entryStore e).toLog = e.toLog := rfl

/-- The entry at an index, counted from one. -/
def entryAt (log : List LogEntry) (index : Nat) : Option LogEntry :=
  if index = 0 then none else log[index - 1]?

/-- The term at an index; index zero has the implicit term zero. -/
def termAt (log : List LogEntry) (index : Nat) : Option Nat :=
  if index = 0 then some 0 else (log[index - 1]?).map LogEntry.term

/-- The term of the last entry, zero for the empty log. -/
def lastTerm (log : List LogEntry) : Nat := (termAt log log.length).getD 0

/-- The durable state of a host. -/
structure Disk where
  hard : HardState
  log : List LogEntry
deriving DecidableEq

/-- The durable state fits the 64-bit words it is reported in. -/
structure Disk.InRange (d : Disk) : Prop where
  term : d.hard.currentTerm ≤ u64Max
  length : d.log.length ≤ u64Max

/-- The callbacks of a store that returns what was durably written. -/
def Disk.store (d : Disk) : Store where
  hardState := some d.hard
  logLast := some (d.log.length, lastTerm d.log)
  logTerm := fun index => (entryAt d.log index).map LogEntry.term
  logSize := fun index => (entryAt d.log index).map fun e => e.payload.length
  logRead := fun index size =>
    match entryAt d.log index with
    | none => none
    | some e => if e.payload.length = size then some e.payload else none

theorem entryAt_succ (log : List LogEntry) (i : Nat) : entryAt log (i + 1) = log[i]? := rfl

theorem termAt_succ (log : List LogEntry) (i : Nat) :
    termAt log (i + 1) = (log[i]?).map LogEntry.term := rfl

@[simp] theorem logTermAt_store (d : Disk) (index : Nat) :
    logTermAt d.store index = termAt d.log index := by
  unfold logTermAt termAt Disk.store entryAt
  by_cases h : index = 0 <;> simp [h]

theorem store_logTerm_pos (d : Disk) {index : Nat} (h : 0 < index) :
    d.store.logTerm index = termAt d.log index := by
  have hne : index ≠ 0 := by omega
  simp [Disk.store, entryAt, termAt, hne]

theorem termAt_isSome {log : List LogEntry} {i : Nat} (h : i ≤ log.length) :
    ∃ t, termAt log i = some t := by
  cases i with
  | zero => exact ⟨0, rfl⟩
  | succ i =>
    have hlt : i < log.length := by omega
    exact ⟨log[i].term, by simp [termAt_succ, List.getElem?_eq_getElem hlt]⟩

theorem termAt_le {log : List LogEntry} {i t : Nat} (h : termAt log i = some t) :
    i ≤ log.length := by
  cases i with
  | zero => omega
  | succ i =>
    by_contra hlt
    rw [termAt_succ, List.getElem?_eq_none (by omega)] at h
    cases h

/-! ## Effects -/

/-- One indivisible piece of the effect of an action on the durable state, where
`written` pieces are already done; `none` when nothing is left to write. -/
def Disk.write (d : Disk) (body : ActionBody) (written : Nat) : Option Disk :=
  match body with
  | .hardState state => if written = 0 then some { d with hard := state } else none
  | .logAppend entries =>
    (entries[written]?).map fun e => { d with log := d.log ++ [e.toLog] }
  | .logTruncate first =>
    if first ≤ d.log.length then some { d with log := d.log.dropLast } else none
  | .send _ => some d
  | .apply _ | .none => none

/-- The storage effect of an action is complete, so that the host may
acknowledge it with `RAFT89_ACTION_OK`. -/
def Disk.complete (d : Disk) (body : ActionBody) (written : Nat) : Bool :=
  match body with
  | .hardState _ => written ≠ 0
  | .logAppend entries => written = entries.length
  | .logTruncate first => d.log.length < first
  | .send _ | .apply _ | .none => true

/-! ## Hosts and their events -/

/-- The durable state, the node while the process runs, and how many pieces of
the outstanding action have been written. -/
structure Host where
  disk : Disk
  node : Option Node
  written : Nat

/-- What the environment decides during one call. -/
structure Supply where
  random : Nat → Nat
  malloc : AllocSite → Bool
  nodeAlloc : Bool

/-- The environment of a call on a host. -/
def Supply.env (s : Supply) (d : Disk) : Env := ⟨d.store, s.random, s.malloc⟩

inductive Event where
  /-- `raft89_create` after a start or a crash. -/
  | start (config : Config)
  | tick (elapsed : Nat)
  | recv (message : Message)
  | proposev (commands : Ptr Command)
  /-- One piece of the effect of the outstanding action. -/
  | write
  | done (id : Nat) (result : ActionResult)
  | crash

/-- A call on the node; a new action starts with nothing written. -/
def Host.call (h : Host) (f : Node → Ret) : Option (Result × Host) :=
  match h.node with
  | none => none
  | some node =>
    let r := f node
    some (r.1, { h with
      node := some r.2
      written := if r.2.actionSeq = node.actionSeq then h.written else 0 })

/-- The host may acknowledge with this result: an action is reported complete
only when its storage effect is. -/
def Host.mayReport (h : Host) (id : Nat) (result : ActionResult) : Bool :=
  match h.node with
  | none => false
  | some node =>
    if result = .ok && node.hasAction && id = node.action.id then
      h.disk.complete node.action.body h.written
    else true

/-- One event on a host, with the status it returns; `none` when the event is
not possible. -/
def Host.step (s : Supply) (h : Host) : Event → Option (Result × Host)
  | .start config =>
    match h.node with
    | some _ => none
    | none =>
      match create (s.env h.disk) s.nodeAlloc config with
      | .ok node => some (.ok, { h with node := some node, written := 0 })
      | .error rc => some (rc, h)
  | .tick elapsed => h.call fun node => tick (s.env h.disk) node elapsed
  | .recv message => h.call fun node => recv (s.env h.disk) node message
  | .proposev commands => h.call fun node => proposev (s.env h.disk) node commands
  | .write =>
    match h.node with
    | none => none
    | some node =>
      if node.hasAction then
        match h.disk.write node.action.body h.written with
        | none => none
        | some disk => some (.ok, { h with disk := disk, written := h.written + 1 })
      else none
  | .done id result =>
    if h.mayReport id result then
      h.call fun node => actionDone (s.env h.disk) node id result
    else none
  | .crash =>
    match h.node with
    | none => none
    | some _ => some (.ok, { h with node := none, written := 0 })

/-- The action a step emitted: the outstanding action when its id is new. -/
def Host.emits (h h' : Host) : Option ActionBody :=
  match h.node, h'.node with
  | some node, some node' =>
    if node'.hasAction && node'.actionSeq ≠ node.actionSeq then some node'.action.body
    else none
  | _, _ => none

/-! ## Runs -/

/-- The 64-bit fields of an entry are words. -/
structure Entry.InRange (e : Entry) : Prop where
  term : e.term ≤ u64Max
  index : e.index ≤ u64Max

/-- The 64-bit fields of a message are words. -/
def Message.InRange (m : Message) : Prop :=
  match m.body with
  | .requestVote t i u => t ≤ u64Max ∧ i ≤ u64Max ∧ u ≤ u64Max
  | .requestVoteResponse t _ => t ≤ u64Max
  | .appendEntries t p q c es =>
    t ≤ u64Max ∧ p ≤ u64Max ∧ q ≤ u64Max ∧ c ≤ u64Max ∧ ∀ e ∈ es.elems, e.InRange
  | .appendEntriesResponse t _ m c i => t ≤ u64Max ∧ m ≤ u64Max ∧ c ≤ u64Max ∧ i ≤ u64Max
  | .unknown _ => True

/-- The words an event carries are in range. -/
def Event.InRange : Event → Prop
  | .recv m => m.InRange
  | _ => True

instance (e : Entry) : Decidable e.InRange :=
  decidable_of_iff (e.term ≤ u64Max ∧ e.index ≤ u64Max)
    ⟨fun h => ⟨h.1, h.2⟩, fun h => ⟨h.term, h.index⟩⟩

instance : (m : Message) → Decidable m.InRange
  | ⟨_, _, .requestVote t i u⟩ => inferInstanceAs (Decidable (t ≤ u64Max ∧ i ≤ u64Max ∧ u ≤ u64Max))
  | ⟨_, _, .requestVoteResponse t _⟩ => inferInstanceAs (Decidable (t ≤ u64Max))
  | ⟨_, _, .appendEntries t p q c es⟩ => inferInstanceAs (Decidable
      (t ≤ u64Max ∧ p ≤ u64Max ∧ q ≤ u64Max ∧ c ≤ u64Max ∧ ∀ e ∈ es.elems, e.InRange))
  | ⟨_, _, .appendEntriesResponse t _ m c i⟩ =>
    inferInstanceAs (Decidable (t ≤ u64Max ∧ m ≤ u64Max ∧ c ≤ u64Max ∧ i ≤ u64Max))
  | ⟨_, _, .unknown _⟩ => inferInstanceAs (Decidable True)

instance : (ev : Event) → Decidable ev.InRange
  | .recv m => inferInstanceAs (Decidable m.InRange)
  | .start _ | .tick _ | .proposev _ | .write | .done _ _ | .crash =>
    inferInstanceAs (Decidable True)

theorem Message.InRange.term_le {m : Message} (h : m.InRange) : m.body.term ≤ u64Max := by
  obtain ⟨s, r, body⟩ := m
  cases body with
  | requestVote => exact h.1
  | requestVoteResponse => exact h
  | appendEntries | appendEntriesResponse => exact h.1
  | unknown => exact Nat.zero_le _

end Raft89
