import EightyNine.Raft89.Run

/-!
# libraft89: message shapes and replication counters over every run

`NodeOk` describes runs without a failed allocation.  `Shaped` says less and
survives a failed allocation: the configuration is sound, the continuation that
is left has the data it needs, and an outstanding message is one the addressed
member accepts.  `Counters` is the part of a node that replication counts with,
and `Counters.Next` says how a call may move it.
-/

namespace Raft89

open List Option

/-! ## Accepted messages -/

/-- The body check of `raft89__msg_envelope_valid` under the limits of a node. -/
def Node.fits (n : Node) : MessageBody → Bool
  | .requestVote _ lastLogIndex lastLogTerm => requestVoteValid lastLogIndex lastLogTerm
  | .requestVoteResponse _ voteGranted => voteResponseValid voteGranted
  | .appendEntries _ prevLogIndex _ _ entries =>
    appendEntriesValid prevLogIndex entries n.maxAppendEntries n.maxAppendBytes
  | .appendEntriesResponse _ success matchIndex conflictTerm conflictIndex =>
    appendEntriesResponseValid success matchIndex conflictTerm conflictIndex
  | .unknown _ => false

/-- The message goes to a member, and a node of that member with the same
member list and limits finds its envelope and its body valid. -/
def Node.Agreed (n : Node) (m : Message) : Prop :=
  m.receiver ∈ n.members ∧
    ∀ peer : Node, peer.self = m.receiver → peer.members = n.members →
      peer.maxAppendEntries = n.maxAppendEntries → peer.maxAppendBytes = n.maxAppendBytes →
      msgEnvelopeValid peer m = true

/-- The message goes from this node to a peer and its body has the right shape. -/
def Node.Delivers (n : Node) (m : Message) : Prop :=
  m.sender = n.self ∧ m.receiver ∈ n.peers ∧ n.fits m.body = true

/-- What `raft89__config_validate` establishes of the members. -/
structure Configured (n : Node) : Prop where
  self_mem : n.self ∈ n.members
  none_notMem : idNone ∉ n.members
  peers_eq : n.peers = n.members.filter (· ≠ n.self)

section Accepted

variable {n : Node} {m : Message}

theorem Configured.mem_peers (h : Configured n) {id : Id} :
    id ∈ n.peers ↔ id ∈ n.members ∧ id ≠ n.self := by
  rw [h.peers_eq, mem_filter]
  simp

theorem Node.Delivers.agreed (h : n.Delivers m) (hc : Configured n) : n.Agreed m := by
  obtain ⟨hfrom, hto, hfits⟩ := h
  obtain ⟨hmem, hne⟩ := hc.mem_peers.1 hto
  refine ⟨hmem, fun peer hself hmembers hentries hbytes => ?_⟩
  have hsender : m.sender ∈ peer.members := by
    rw [hfrom, hmembers]
    exact hc.self_mem
  have hnone : m.sender ≠ idNone := by
    intro h0
    rw [h0, hmembers] at hsender
    exact hc.none_notMem hsender
  unfold msgEnvelopeValid
  rw [if_neg (by simp [hself]), if_neg (by rw [hfrom, hself]; exact hne.symm), if_neg hnone,
    if_neg (by simpa [nodeHasMember] using hsender), hentries, hbytes]
  exact hfits

theorem Configured.sender_peer (hc : Configured n) (h : msgEnvelopeValid n m = true) :
    m.sender ∈ n.peers := by
  rw [hc.mem_peers]
  unfold msgEnvelopeValid at h
  split_ifs at h with h1 h2 h3 h4
  refine ⟨?_, h2⟩
  rw [Bool.not_eq_false, nodeHasMember, contains_iff_mem] at h4
  exact h4

end Accepted

/-! ## Continuations and outstanding actions -/

/-- The stash of a request that was accepted: the reply it leads to names no conflict. -/
def Node.Acks (n : Node) : Prop :=
  n.aeLeaderId ∈ n.peers ∧ n.aeReplySuccess = true ∧ n.aeConflictTerm = 0 ∧
    n.aeConflictIndex = 0

/-- What a continuation finds when it runs.  Where `strict` fails nothing is said
of the replies. -/
def StepShape (strict : Prop) (n : Node) : Prop :=
  match n.step with
  | .none | .stepDown => True
  | .electionBroadcast => n.hasAction = true ∧ n.role = .candidate
  | .voteResponse => n.Delivers n.pendingMsg
  | .leaderBroadcast => n.role = .leader
  | .leaderAppend =>
    n.hasAction = true ∧ n.role = .leader ∧ ∀ e ∈ n.pendingEntries, n.lastLogIndex < e.index
  | .aeHardState =>
    n.role ≠ .leader ∧ n.aeLeaderId ∈ n.peers ∧ n.aeConflictTerm = 0 ∧ n.aeConflictIndex = 0
  | .aeTruncate =>
    n.hasAction = true ∧ n.role ≠ .leader ∧ n.aeAppendOffset < n.pendingCount ∧
      (strict → n.Acks)
  | .aeAppend => n.role ≠ .leader ∧ (strict → n.Acks)
  | .aeReply => False
  | .apply =>
    n.hasAction = true ∧
      (n.afterApply = .none ∨ (n.afterApply = .aeReply ∧ (strict → n.Acks)))

/-- What an outstanding action carries. -/
def ActionShape (strict : Prop) (n : Node) : ActionBody → Prop
  | .send m => strict → n.lastLogIndex < u64Max → n.Delivers m
  | .hardState _ => n.role ≠ .leader
  | .logAppend entries => ∀ e ∈ entries, e.term ≠ 0
  | .logTruncate _ | .apply _ | .none => True

/-- The part that does not depend on the outstanding action. -/
structure Steady (strict : Prop) (n : Node) : Prop extends Configured n where
  last : strict → (n.lastLogIndex = 0 ↔ n.lastLogTerm = 0)
  pending : ∀ e ∈ n.pendingEntries, e.term ≠ 0 ∧ e.index ≠ 0
  next_length : n.role = .leader → n.nextIndex.length = n.members.length
  match_length : n.role = .leader → n.matchIndex.length = n.members.length
  next : n.role = .leader → n.lastLogIndex < u64Max →
    ∀ i ∈ n.nextIndex, 0 < i ∧ i ≤ n.lastLogIndex + 1

/-- The current term once the outstanding action is acknowledged. -/
def Node.nextTerm (n : Node) : Nat :=
  if n.hasAction then (applyHardState n).currentTerm else n.currentTerm

/-- The invariant of a node over every run. -/
structure Shaped (strict : Prop) (n : Node) : Prop extends Steady strict n where
  term : n.faulted = false → n.role ≠ .follower → n.nextTerm ≠ 0
  step : n.faulted = false → StepShape strict n
  action : n.hasAction = true → ActionShape strict n n.action.body

/-- Nothing is outstanding while the library's own code runs. -/
structure Poised (strict : Prop) (n : Node) : Prop extends Steady strict n where
  noAction : n.hasAction = false
  running : n.faulted = false
  term : n.role ≠ .follower → n.currentTerm ≠ 0

/-! ## Replication counters -/

/-- The part of a node that replication counts with. -/
structure Counters where
  members : List Id
  role : Role
  term : Nat
  last : Nat
  matchIndex : List Nat
  nextIndex : List Nat

def Node.counters (n : Node) : Counters :=
  ⟨n.members, n.role, n.currentTerm, n.lastLogIndex, n.matchIndex, n.nextIndex⟩

/-- How a call may move the counters, responses apart: a leader keeps them and
its log grows, or it was elected in this call. -/
inductive Counters.Next (p p' : Counters) : Prop
  | other (role : p'.role ≠ .leader)
  | elected (role : p.role ≠ .leader) (count last : Nat) (le : last ≤ p'.last)
      (matchIndex : p'.matchIndex = replicate count 0)
      (nextIndex : p'.nextIndex = replicate count (last + 1))
  | kept (members : p'.members = p.members) (role : p'.role = p.role) (term : p'.term = p.term) (last : p.last ≤ p'.last)
      (matchIndex : p'.matchIndex = p.matchIndex) (nextIndex : p'.nextIndex = p.nextIndex)

theorem Counters.Next.refl (p : Counters) : p.Next p :=
  .kept rfl rfl rfl (Nat.le_refl _) rfl rfl

theorem Counters.Next.of_not_leader {p q p' : Counters} (h : q.Next p') (hq : q.role ≠ .leader)
    (hp : p.role ≠ .leader) : p.Next p' := by
  cases h with
  | other role => exact .other role
  | elected role count last le hm hx => exact .elected hp count last le hm hx
  | kept members role term last hm hx => exact .other (by rw [role]; exact hq)

theorem Counters.Next.of_grown {p q p' : Counters} (h : q.Next p') (hmembers : q.members = p.members)
    (hrole : q.role = p.role) (hterm : q.term = p.term) (hlast : p.last ≤ q.last) (hm : q.matchIndex = p.matchIndex)
    (hx : q.nextIndex = p.nextIndex) : p.Next p' := by
  cases h with
  | other role => exact .other role
  | elected role count last le hm' hx' =>
    exact .elected (by rwa [hrole] at role) count last le hm' hx'
  | kept members role term last hm' hx' =>
    exact .kept (members.trans hmembers) (role.trans hrole) (term.trans hterm) (Nat.le_trans hlast last)
      (hm'.trans hm) (hx'.trans hx)

/-- The node takes up a received message. -/
structure Node.Takes (n : Node) (m : Message) : Prop where
  running : n.faulted = false
  noAction : n.hasAction = false
  valid : msgEnvelopeValid n m = true

/-- What a response does to the counters of a leader before the call goes on. -/
inductive Node.Responds (store : Store) (n : Node) : Event → Counters → Prop
  | same (ev : Event) : Responds store n ev n.counters
  | refused {m : Message} {matched conflictTerm conflictIndex next : Nat} (takes : n.Takes m)
      (role : n.role = .leader)
      (body : m.body =
        .appendEntriesResponse n.currentTerm 0 matched conflictTerm conflictIndex)
      (hint : failureNext store n (memberIndex n m.sender) conflictTerm conflictIndex =
        some next) :
      Responds store n (.recv m)
        { n.counters with
          nextIndex := n.nextIndex.set (memberIndex n m.sender) (clampNext n next) }
  | accepted {m : Message} {success : Int} {matched conflictTerm conflictIndex : Nat}
      (takes : n.Takes m) (role : n.role = .leader)
      (body : m.body =
        .appendEntriesResponse n.currentTerm success matched conflictTerm conflictIndex)
      (hsuccess : success ≠ 0)
      (above : n.matchIndex.getD (memberIndex n m.sender) 0 < matched)
      (within : matched ≤ n.lastLogIndex) :
      Responds store n (.recv m)
        { n.counters with
          matchIndex := n.matchIndex.set (memberIndex n m.sender) matched
          nextIndex :=
            if matched < u64Max then n.nextIndex.set (memberIndex n m.sender) (matched + 1)
            else n.nextIndex }

/-- What a call leaves, given the counters before it. -/
structure Shapes (strict : Prop) (p : Counters) (r : Ret) : Prop where
  ok : Shaped strict r.2
  next : p.Next r.2.counters

/-! ## Batches -/

section Batches

variable {n : Node} {d : Disk} {s : Supply}

/-- The durable log holds no entry of term zero. -/
def Disk.Positive (d : Disk) : Prop := ∀ e ∈ d.log, e.term ≠ 0

theorem Disk.Positive.term_ne {i t : Nat} (h : d.Positive)
    (ht : d.store.logTerm i = some t) : t ≠ 0 := by
  unfold Disk.store entryAt at ht
  by_cases h0 : i = 0
  · simp [h0] at ht
  · simp only [h0, if_false, map_eq_some_iff] at ht
    obtain ⟨e, he, rfl⟩ := ht
    exact h e (mem_of_getElem? he)

/-- A filled entry carries its index, a positive term and a payload of the size the store
reports. -/
theorem outEntryFill_shape (hd : d.Positive) {i : Nat} {e : Entry} (hpos : 0 < i)
    (h : outEntryFill d.store i = some e) :
    e.index = i ∧ e.term ≠ 0 ∧ e.data.isNull = false ∧ d.store.logSize i = some e.size := by
  have hlog := outEntryFill_toLog hpos h
  have hterm : e.term ≠ 0 := hd.term_ne (i := i) (by simp [Disk.store, hlog])
  have hsize : d.store.logSize i = some e.data.elems.length := by
    simp [Disk.store, hlog, Entry.toLog]
  unfold outEntryFill at h
  rw [hsize] at h
  cases hl : logTermAt d.store i with
  | none => simp [hl] at h
  | some term =>
    simp only [hl] at h
    by_cases hz : e.data.elems.length ≠ 0
    · rw [if_pos hz] at h
      cases hr : d.store.logRead i e.data.elems.length with
      | none => simp [hr] at h
      | some data =>
        simp only [hr, some.injEq] at h
        subst h
        exact ⟨rfl, hterm, rfl, hsize⟩
    · rw [if_neg hz, some.injEq] at h
      subst h
      exact ⟨rfl, hterm, rfl, hsize⟩

theorem entriesShapeValid_append {prev : Nat} {e : Entry} : ∀ {i : Nat} {es : List Entry},
    entriesShapeValid prev i es = true → entryShapeValid prev (i + es.length) e = true →
      entriesShapeValid prev i (es ++ [e]) = true
  | i, [], _, he => by
    simp only [length_nil, Nat.add_zero] at he
    simp [entriesShapeValid, he]
  | i, f :: es, hes, he => by
    unfold entriesShapeValid at hes
    split_ifs at hes with hf
    rw [length_cons, Nat.add_comm es.length, ← Nat.add_assoc] at he
    rw [cons_append, entriesShapeValid, if_pos hf]
    exact entriesShapeValid_append hes he

theorem payloadTotal_append (es : List Entry) (e : Entry) :
    payloadTotal (es ++ [e]) = satAdd (payloadTotal es) e.size := by
  simp [payloadTotal, foldl_append]

/-- A batch numbers its entries from `first` on and its payloads add up to the planned sum. -/
theorem outEntriesFill_shape (hd : d.Positive) {first : Nat} (hpos : 0 < first) :
    ∀ {count : Nat} {entries : List Entry}, first + count ≤ u64Max + 1 →
      outEntriesFill d.store first count = some entries →
      entries.length = count ∧ entriesShapeValid (first - 1) 0 entries = true ∧
        entrySum d.store first count = some (payloadTotal entries)
  | 0, entries, _, h => by
    simp only [outEntriesFill, some.injEq] at h
    subst h
    exact ⟨rfl, rfl, rfl⟩
  | count + 1, entries, hle, h => by
    unfold outEntriesFill at h
    cases hrec : outEntriesFill d.store first count with
    | none => simp [hrec] at h
    | some es =>
      obtain ⟨hlen, hshape, hsum⟩ := outEntriesFill_shape hd hpos (by omega) hrec
      have hidx : u64Add first count = first + count := u64Add_of_le (by omega)
      cases hf : outEntryFill d.store (u64Add first count) with
      | none => simp [hrec, hf] at h
      | some e =>
        simp only [hrec, hf, some.injEq] at h
        subst h
        rw [hidx] at hf
        obtain ⟨hi, hterm, hdata, hsize⟩ := outEntryFill_shape hd (by omega) hf
        refine ⟨by simp [hlen], entriesShapeValid_append hshape ?_, ?_⟩
        · have hplace : u64Add (u64Add (first - 1) 1) (0 + es.length) = first + count := by
            rw [u64Add_of_le (a := first - 1) (by omega), u64Add_of_le (by omega)]
            omega
          unfold entryShapeValid
          rw [if_neg (by omega), if_neg hterm, if_neg (by rw [hplace, hi]; simp),
            if_neg (by simp [hdata])]
        · rw [entrySum, hsum, payloadTotal_append]
          simp only
          rw [hidx, hsize]

theorem shrinkToFit_sum {store : Store} {maxBytes first : Nat} :
    ∀ {count c t : Nat}, shrinkToFit store maxBytes first count = some (c, t) →
      c = 0 ∨ ∃ sum, entrySum store first c = some sum ∧ sum ≤ maxBytes
  | 0, c, t, h => by
    simp only [shrinkToFit, some.injEq, Prod.mk.injEq] at h
    exact .inl h.1.symm
  | count + 1, c, t, h => by
    unfold shrinkToFit at h
    cases hsum : entrySum store first (count + 1) with
    | none => simp [hsum] at h
    | some total =>
      simp only [hsum] at h
      by_cases hle : total ≤ maxBytes
      · rw [if_pos hle, some.injEq, Prod.mk.injEq] at h
        rw [← h.1]
        exact .inr ⟨total, hsum, hle⟩
      · rw [if_neg hle] at h
        exact shrinkToFit_sum h

/-- A planned batch respects both limits and ends at the last index. -/
theorem planBatch_shape {store : Store} {next c t : Nat} (hpos : 0 < next)
    (hlast : n.lastLogIndex < u64Max) (h : planBatch store n next = some (c, t)) :
    c = 0 ∨ (next + c ≤ n.lastLogIndex + 1 ∧ c ≤ n.maxAppendEntries ∧
      ∃ sum, entrySum store next c = some sum ∧ sum ≤ n.maxAppendBytes) := by
  unfold planBatch at h
  split at h
  next hgt =>
    simp only [some.injEq, Prod.mk.injEq] at h
    exact .inl h.1.symm
  next hle =>
    have hmin := shrinkToFit_le h
    rw [u64Inc_of_lt (by omega)] at hmin
    rcases shrinkToFit_sum h with h0 | hsum
    · exact .inl h0
    · exact .inr ⟨by omega, by omega, hsum⟩

theorem appendEntriesValid_arr {prev maxEntries maxBytes : Nat} {es : List Entry}
    (hcount : es.length ≤ maxEntries) (hprev : prev + es.length ≤ u64Max)
    (hbytes : payloadTotal es ≤ maxBytes) (hshape : entriesShapeValid prev 0 es = true) :
    appendEntriesValid prev (.arr es) maxEntries maxBytes = true := by
  have hprev' : prev ≤ u64Max - es.length := by omega
  simp [appendEntriesValid, Ptr.count, Ptr.elems, Ptr.isNull, Nat.not_lt_of_ge hcount,
    Nat.not_lt_of_ge hprev', Nat.not_lt_of_ge hbytes, hshape]

/-- A request a leader builds for a peer is accepted there. -/
theorem buildLeaderAe_delivers {strict : Prop} (h : Steady strict n) (hd : d.Positive) (hr : n.role = .leader)
    (hlast : n.lastLogIndex < u64Max) {peer : Id} (hp : peer ∈ n.peers) {m : Message}
    (hm : buildLeaderAe (s.env d) n peer = .ok m) : n.Delivers m := by
  have hidx : memberIndex n peer < n.nextIndex.length := by
    rw [h.next_length hr]
    exact memberIndex_lt (h.mem_peers.1 hp).1
  have hmem : n.nextIndex.getD (memberIndex n peer) 0 ∈ n.nextIndex := by
    rw [getD_eq_getElem?_getD, getElem?_eq_getElem hidx]
    exact getElem_mem hidx
  obtain ⟨hpos, hle⟩ := h.next hr hlast _ hmem
  obtain ⟨prevTerm, c, t, entries, -, hplan, hb, rfl⟩ := buildLeaderAe_ok rfl hm
  generalize n.nextIndex.getD (memberIndex n peer) 0 = next at *
  refine ⟨rfl, hp, ?_⟩
  simp only [Node.fits]
  rw [u64Dec_of_pos hpos]
  rcases outEntriesBuild_ok hb with ⟨-, rfl⟩ | ⟨hc, hfill⟩
  · simp [appendEntriesValid, Ptr.count]
  · obtain ⟨hend, hentries, sum, hsum, hbytes⟩ :=
      (planBatch_shape hpos hlast hplan).resolve_left hc
    have hstore : (s.env d).store = d.store := rfl
    rw [hstore] at hfill hsum
    obtain ⟨hlen, hshape, htotal⟩ := outEntriesFill_shape hd hpos (by omega) hfill
    rw [hsum, some.injEq] at htotal
    exact appendEntriesValid_arr (by omega) (by omega) (by omega) hshape

end Batches

end Raft89
