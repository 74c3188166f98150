import EightyNine.Raft89.Done

/-!
# libraft89: durable effects and restarts keep the invariant

The facts of a view only grow while other nodes run (`View.Same`), and the
facts about the part of the log that a write leaves alone survive the write
(`View.Moves`).  `NodeOk` follows both, one lemma for each kind of action, and
a node built from the durable state satisfies it.
-/

namespace Raft89

open List

variable {me : Id} {members : List Id}

/-! ## Facts that survive -/

/-- The log changes above index `k` only. -/
structure View.Moves {log log' : List LogEntry} (V : View me members log)
    (V' : View me members log') (k : Nat) : Prop where
  elected : ∀ {t}, V.elected t → V'.elected t
  acked : ∀ {t v i}, V.acked t v i → V'.acked t v i
  slice : ∀ {t r}, V.slice t r → V'.slice t r
  covered : ∀ {t i}, V.covered t i → i ≤ k → V'.covered t i
  agrees : ∀ {t i}, V.agrees t i → i ≤ k → V'.agrees t i
  splits : ∀ {t i}, V.splits t i → i ≤ k → V'.splits t i

/-- The log does not change. -/
structure View.Same {log : List LogEntry} (V V' : View me members log) : Prop where
  elected : ∀ {t}, V.elected t → V'.elected t
  acked : ∀ {t v i}, V.acked t v i → V'.acked t v i
  slice : ∀ {t r}, V.slice t r → V'.slice t r
  covered : ∀ {t i}, V.covered t i → V'.covered t i
  agrees : ∀ {t i}, V.agrees t i → V'.agrees t i
  splits : ∀ {t i}, V.splits t i → V'.splits t i
  candidate : ∀ {t}, V.candidate t → V'.candidate t
  voted : ∀ {t v}, V.voted t v → V'.voted t v
  continues : ∀ {t es}, V.continues t es → V'.continues t es
  mayVote : ∀ {t v}, V.mayVote t v → V'.mayVote t v

theorem View.Same.refl {log : List LogEntry} (V : View me members log) : V.Same V :=
  ⟨id, id, id, id, id, id, id, id, id, id⟩

theorem View.trivial_moves (log log' : List LogEntry) (k : Nat) :
    (View.trivial me members log).Moves (View.trivial me members log') k :=
  ⟨fun _ => ⟨⟩, fun _ => ⟨⟩, fun _ => ⟨⟩, fun _ _ => ⟨⟩, fun _ _ => ⟨⟩, fun _ _ => ⟨⟩⟩

section Parts

variable {log log' : List LogEntry} {V : View me members log} {V' : View me members log'}
  {k : Nat} {n : Node}

theorem Base.moves (h : Base V n) (hv : V.Moves V' k) (hk : n.commitIndex ≤ k) : Base V' n :=
  { h with
    cover := hv.covered h.cover hk
    elected := fun hr => hv.elected (h.elected hr)
    acked := fun hr i v m hi hm h0 => hv.acked (h.acked hr i v m hi hm h0) }

theorem StashOk.moves {t : Nat} (h : StashOk V t n) (hv : V.Moves V' k) : StashOk V' t n :=
  ⟨hv.slice h.slice, h.range⟩

end Parts

section Same

variable {d : Disk} {V V' : View me members d.log} {n : Node} {w : Nat}

theorem View.Same.moves (hv : V.Same V') (k : Nat) : V.Moves V' k :=
  ⟨hv.elected, hv.acked, hv.slice, fun h _ => hv.covered h, fun h _ => hv.agrees h,
    fun h _ => hv.splits h⟩

theorem CandidateOk.same (h : CandidateOk V n) (hv : V.Same V') : CandidateOk V' n :=
  { h with
    stands := hv.candidate h.stands
    votes := fun i id hi hvote => hv.voted (h.votes i id hi hvote) }

theorem SendOk.same {m : Message} (h : SendOk V d n m) (hv : V.Same V') : SendOk V' d n m := by
  refine ⟨h.1, ?_⟩
  have hbody := h.2
  cases hb : m.body with
  | requestVote t i u =>
    rw [hb] at hbody
    exact ⟨hbody.1, hbody.2.1, hbody.2.2.1, hv.candidate hbody.2.2.2⟩
  | requestVoteResponse t g | appendEntries t p q c es | unknown ty =>
    rw [hb] at hbody
    exact hbody
  | appendEntriesResponse t s i ct ci =>
    rw [hb] at hbody
    exact fun hs => ⟨(hbody hs).1, (hbody hs).2.1, hv.agrees (hbody hs).2.2⟩

/-- The invariant survives when the rest of the cluster makes progress. -/
theorem NodeOk.same (h : NodeOk V d n w) (hv : V.Same V') : NodeOk V' d n w where
  base := h.base.moves (hv.moves n.commitIndex) (Nat.le_refl _)
  quiet := h.quiet
  idle hq hf :=
    { h.idle hq hf with candidate := fun hr => ((h.idle hq hf).candidate hr).same hv }
  busy ha := by
    have hbusy := h.busy ha
    unfold Busy at hbusy ⊢
    obtain ⟨body, hb⟩ : ∃ body, n.action.body = body := ⟨_, rfl⟩
    rw [hb] at hbusy ⊢
    cases body with
    | none => exact hbusy
    | send m =>
      exact
        { hbusy with
          candidate := fun hr => (hbusy.candidate hr).same hv
          message := hbusy.message.same hv }
    | hardState st =>
      refine { hbusy with next := ?_ }
      have hnext := hbusy.next
      obtain ⟨step, hs⟩ : ∃ step, n.step = step := ⟨_, rfl⟩
      rw [hs] at hnext ⊢
      cases step with
      | electionBroadcast =>
        obtain ⟨h1, h2, h3, h4, h5, h6⟩ := hnext
        exact ⟨h1, h2, h3, h4, h5, fun hw => hv.candidate (h6 hw)⟩
      | voteResponse =>
        obtain ⟨h1, p, g, h2, h3, h4, h5, h6⟩ := hnext
        exact ⟨h1, p, g, h2, h3, h4, h5, fun hg hw => hv.mayVote (h6 hg hw)⟩
      | stepDown => exact hnext
      | aeHardState =>
        obtain ⟨h1, h2, h3⟩ := hnext
        exact ⟨h1, h2, h3.moves (hv.moves 0)⟩
      | _ => exact hnext
    | logAppend entries =>
      refine { hbusy with next := ?_ }
      have hnext := hbusy.next
      obtain ⟨step, hs⟩ : ∃ step, n.step = step := ⟨_, rfl⟩
      rw [hs] at hnext ⊢
      cases step with
      | aeAppend =>
        obtain ⟨h1, h2, h3, h4, h5, h6, h7, h8⟩ := hnext
        exact ⟨h1, h2, h3, h4, h5, h6, h7.moves (hv.moves 0), hv.continues h8⟩
      | _ => exact hnext
    | logTruncate first =>
      exact
        { hbusy with
          stash := hbusy.stash.moves (hv.moves 0)
          agrees := hv.agrees hbusy.agrees
          splits := fun hle => hv.splits (hbusy.splits hle) }
    | apply e =>
      exact
        { hbusy with
          candidate := fun hr => (hbusy.candidate hr).same hv
          after := hbusy.after.imp id fun ⟨h1, h2⟩ =>
            ⟨h1, ⟨h2.le, fun hs => hv.agrees (h2.agrees hs)⟩⟩ }

end Same

/-! ## Writing a piece of the outstanding action -/

section Write

variable {d : Disk} {V : View me members d.log} {n : Node} {w : Nat}

theorem NodeOk.write_send (h : NodeOk V d n w) {m : Message} (hb : n.action.body = .send m)
    (ha : n.hasAction = true) : NodeOk V d n (w + 1) where
  base := h.base
  quiet := h.quiet
  idle hq := by rw [ha] at hq; cases hq
  busy ha := by
    have hbusy := h.busy ha
    unfold Busy at hbusy ⊢
    rw [hb] at hbusy ⊢
    exact hbusy

theorem NodeOk.write_hardState (h : NodeOk V d n 0) {st : HardState}
    (hb : n.action.body = .hardState st) (ha : n.hasAction = true)
    {V' : View me members d.log} (hv : V.Same V')
    (hcand : n.step = .electionBroadcast → V'.candidate st.currentTerm) :
    NodeOk V' { d with hard := st } n 1 where
  base := h.base.moves (hv.moves n.commitIndex) (Nat.le_refl _)
  quiet hq := by rw [ha] at hq; cases hq
  idle hq := by rw [ha] at hq; cases hq
  busy ha := by
    have hbusy := h.busy ha
    unfold Busy at hbusy ⊢
    rw [hb] at hbusy ⊢
    refine
      { hard := .inr ⟨rfl, rfl⟩
        log := ⟨hbusy.log.index, hbusy.log.term⟩
        term_le := hbusy.term_le
        advance := hbusy.advance
        drained := hbusy.drained
        next := ?_ }
    have hnext := hbusy.next
    obtain ⟨step, hs⟩ : ∃ step, n.step = step := ⟨_, rfl⟩
    rw [hs] at hnext hcand ⊢
    cases step with
    | electionBroadcast =>
      obtain ⟨h1, h2, h3, h4, h5, -⟩ := hnext
      exact ⟨h1, h2, h3, h4, h5, fun _ => hcand rfl⟩
    | voteResponse =>
      obtain ⟨h1, p, g, h2, h3, h4, h5, -⟩ := hnext
      exact ⟨h1, p, g, h2, h3, h4, h5, nofun⟩
    | stepDown => exact hnext
    | aeHardState =>
      obtain ⟨h1, h2, h3⟩ := hnext
      exact ⟨h1, h2, h3.moves (hv.moves 0)⟩
    | _ => exact hnext

theorem NodeOk.write_logAppend (h : NodeOk V d n w) {entries : List Entry}
    (hb : n.action.body = .logAppend entries) (ha : n.hasAction = true) {e : Entry}
    (he : entries[w]? = some e) {V' : View me members (d.log ++ [e.toLog])}
    (hv : V.Moves V' d.log.length)
    (hcont : ∀ {t es}, V.continues t (e :: es) → V'.continues t es) :
    NodeOk V' { d with log := d.log ++ [e.toLog] } n (w + 1) where
  base := by
    refine h.base.moves hv ?_
    have hbusy := h.busy ha
    unfold Busy at hbusy
    rw [hb] at hbusy
    have := h.base.commit_le
    rw [hbusy.length]
    omega
  quiet hq := by rw [ha] at hq; cases hq
  idle hq := by rw [ha] at hq; cases hq
  busy ha := by
    have hbusy := h.busy ha
    unfold Busy at hbusy ⊢
    rw [hb] at hbusy ⊢
    have hlt : w < entries.length := by
      by_contra hge
      rw [getElem?_eq_none (by omega)] at he
      cases he
    have hdrop : entries.drop w = e :: entries.drop (w + 1) := by
      rw [drop_eq_getElem_cons hlt]
      rw [getElem?_eq_getElem hlt, Option.some.injEq] at he
      rw [he]
    refine
      { hard := ⟨hbusy.hard.term, hbusy.hard.vote⟩
        written := hlt
        nonempty := hbusy.nonempty
        length := ?_
        tail := ?_
        range := hbusy.range
        drained := hbusy.drained
        next := ?_ }
    · simp only [length_append, length_singleton]
      have := hbusy.length
      omega
    · have hle : n.lastLogIndex ≤ d.log.length := by
        have := hbusy.length
        omega
      simp only
      rw [drop_append_of_le_length hle, hbusy.tail, take_add_one, he]
      simp
    · have hnext := hbusy.next
      obtain ⟨step, hs⟩ : ∃ step, n.step = step := ⟨_, rfl⟩
      rw [hs] at hnext ⊢
      cases step with
      | leaderAppend => exact hnext
      | aeAppend =>
        obtain ⟨h1, h2, h3, h4, h5, h6, h7, h8⟩ := hnext
        rw [hdrop] at h8
        exact ⟨h1, h2, h3, h4, h5, h6, h7.moves hv, hcont h8⟩
      | _ => exact hnext

theorem NodeOk.write_logTruncate (h : NodeOk V d n w) {first : Nat}
    (hb : n.action.body = .logTruncate first) (ha : n.hasAction = true)
    (hle : first ≤ d.log.length) {V' : View me members d.log.dropLast}
    (hv : V.Moves V' (d.log.length - 1)) :
    NodeOk V' { d with log := d.log.dropLast } n (w + 1) where
  base := by
    refine h.base.moves hv ?_
    have hbusy := h.busy ha
    unfold Busy at hbusy
    rw [hb] at hbusy
    have := hbusy.above
    omega
  quiet hq := by rw [ha] at hq; cases hq
  idle hq := by rw [ha] at hq; cases hq
  busy ha := by
    have hbusy := h.busy ha
    unfold Busy at hbusy ⊢
    rw [hb] at hbusy ⊢
    have hlen : d.log.dropLast.length = d.log.length - 1 := length_dropLast
    exact
      { hard := ⟨hbusy.hard.term, hbusy.hard.vote⟩
        step := hbusy.step
        role := hbusy.role
        first_eq := hbusy.first_eq
        first_pos := hbusy.first_pos
        above := hbusy.above
        first_le := hbusy.first_le
        lower := by
          simp only [hlen]
          omega
        upper := by
          simp only [hlen]
          have := hbusy.upper
          omega
        place := hbusy.place
        offset := hbusy.offset
        matchIndex := hbusy.matchIndex
        success := hbusy.success
        stash := hbusy.stash.moves hv
        agrees := hv.agrees hbusy.agrees (by omega)
        splits := fun hfirst => hv.splits (hbusy.splits hle) (by simpa only [hlen] using hfirst)
        drained := hbusy.drained }

end Write

/-! ## Restarts -/

section Restart

variable {d : Disk} {V : View me members d.log} {s : Supply}

/-- The node `raft89_create` builds from a durable state. -/
def restored (d : Disk) (config : Config) (timeout : Nat) : Node :=
  { nodeInit config with
    currentTerm := d.hard.currentTerm
    votedFor := d.hard.votedFor
    lastLogIndex := d.log.length
    lastLogTerm := lastTerm d.log
    appliedIndex := config.appliedIndex
    commitIndex := config.appliedIndex
    electionTimeout := timeout }

/-- A node is created from what is durable. -/
theorem create_ok {alloc : Bool} {config : Config} {n : Node}
    (h : create (s.env d) alloc config = .ok n) :
    configValidate config = true ∧ config.appliedIndex ≤ d.log.length ∧
      ∃ timeout, n = restored d config timeout := by
  unfold create at h
  by_cases hv : configValidate config = false
  · rw [if_pos hv] at h
    cases h
  by_cases ha : alloc = false
  · rw [if_neg hv, if_pos ha] at h
    cases h
  rw [if_neg hv, if_neg ha] at h
  rw [Bool.not_eq_false] at hv
  refine ⟨hv, ?_⟩
  generalize hload : nodeLoad (s.env d).store (nodeInit config) = load at h
  obtain ⟨rc, node⟩ := load
  have hnode : node =
      { nodeInit config with
        currentTerm := d.hard.currentTerm
        votedFor := d.hard.votedFor
        lastLogIndex := d.log.length
        lastLogTerm := lastTerm d.log } := (congrArg Prod.snd hload).symm
  cases rc with
  | ok =>
    simp only at h
    unfold recoverApplied at h
    by_cases hgt : config.appliedIndex > node.lastLogIndex
    · rw [if_pos hgt] at h
      cases h
    rw [if_neg hgt] at h
    have hle : config.appliedIndex ≤ d.log.length := by
      rw [hnode] at hgt
      exact Nat.le_of_not_lt hgt
    refine ⟨hle, ?_⟩
    by_cases h0 : config.appliedIndex = 0
    · rw [if_pos h0] at h
      simp only [Except.ok.injEq] at h
      refine ⟨n.electionTimeout, ?_⟩
      rw [← h, hnode, restored, h0]
      rfl
    · rw [if_neg h0] at h
      obtain ⟨u, hu⟩ := termAt_isSome hle
      have hread : (s.env d).store.logTerm config.appliedIndex = some u := by
        rw [← hu]
        exact store_logTerm_pos d (by omega)
      rw [hread] at h
      simp only [Except.ok.injEq] at h
      refine ⟨n.electionTimeout, ?_⟩
      rw [← h, hnode, restored]
  | _ => cases h

theorem configValidate_members {config : Config} (h : configValidate config = true) :
    config.members.count = config.members.elems.length ∧ config.self ∈ config.members.elems ∧
      idNone ∉ config.members.elems ∧ config.members.elems.Nodup := by
  unfold configValidate at h
  by_cases hn : config.members.isNull = true
  · rw [if_pos hn] at h
    cases h
  rw [if_neg hn] at h
  by_cases hz : config.members.count = 0
  · rw [if_pos hz] at h
    cases h
  rw [if_neg hz] at h
  by_cases hs : config.self = idNone
  · rw [if_pos hs] at h
    cases h
  rw [if_neg hs] at h
  by_cases hm : membersValid config.self config.members.elems = false
  · rw [if_pos hm] at h
    cases h
  rw [Bool.not_eq_false] at hm
  refine ⟨Ptr.count_eq (by simpa using hn), ?_⟩
  unfold membersValid at hm
  by_cases hany : config.members.elems.any (· = idNone) = true
  · rw [if_pos hany] at hm
    cases hm
  rw [if_neg hany] at hm
  by_cases hnd : config.members.elems.Nodup
  · rw [if_pos hnd, decide_eq_true_iff] at hm
    refine ⟨count_pos_iff.1 (by omega), ?_, hnd⟩
    intro hmem
    exact hany (any_eq_true.2 ⟨_, hmem, by simp⟩)
  · rw [if_neg hnd] at hm
    cases hm

theorem NodeOk.restored {config : Config} {timeout w : Nat} (hd : d.InRange)
    (hv : configValidate config = true) (hle : config.appliedIndex ≤ d.log.length)
    (hme : config.self = me) (hmembers : config.members.elems = members)
    (hcov : V.covered d.hard.currentTerm config.appliedIndex) :
    NodeOk V d (restored d config timeout) w := by
  obtain ⟨hcount, hself, hnone, hnd⟩ := configValidate_members hv
  rw [hme, hmembers] at hself
  rw [hmembers] at hcount hnone hnd
  exact
    { base :=
        { me_eq := hme
          members_eq := hmembers
          peers_eq := by
            simp only [Raft89.restored, nodeInit]
            rw [hmembers, hme]
          me_mem := hself
          none_notMem := hnone
          nodup := hnd
          votes_length := by
            simp only [Raft89.restored, nodeInit, length_replicate]
            exact hcount
          next_length := by
            simp only [Raft89.restored, nodeInit, length_replicate]
            exact hcount
          match_length := by
            simp only [Raft89.restored, nodeInit, length_replicate]
            exact hcount
          term_le := hd.term
          index_le := hd.length
          applied_le := Nat.le_refl _
          commit_le := hle
          cover := hcov
          elected := nofun
          acked := nofun
          next := nofun }
      quiet := fun _ => ⟨rfl, rfl⟩
      idle := fun _ _ => ⟨⟨rfl, rfl⟩, nofun, ⟨⟩, rfl⟩
      busy := nofun }

end Restart

end Raft89
