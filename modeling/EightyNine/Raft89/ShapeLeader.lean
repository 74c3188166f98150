import EightyNine.Raft89.Shape

/-!
# libraft89: leaders, elections and timers keep the shapes

One lemma for each function of the source, from a state with nothing
outstanding to `Shapes`.  No allocation has to succeed: a function that stops
half way leaves a continuation that can still run.
-/

namespace Raft89

open List

variable {strict : Prop} {n : Node} {d : Disk} {s : Supply}

/-! ## Settling, faulting and emitting -/

theorem Poised.rest (h : Poised strict n) (hstep : StepShape strict n) (rc : Result) :
    Shapes strict n.counters (rc, n) where
  ok :=
    { h.toSteady with
      term := fun _ hr => by
        rw [Node.nextTerm, if_neg (by simp [h.noAction])]
        exact h.term hr
      step := fun _ => hstep
      action := fun ha => by rw [h.noAction] at ha; cases ha }
  next := .refl _

theorem Steady.fault (h : Steady strict n) (hq : n.hasAction = false) (rc : Result) :
    Shapes strict n.counters (rc, { n with faulted := true }) where
  ok :=
    { h with
      term := fun hf => by cases hf
      step := fun hf => by cases hf
      action := fun ha => by rw [hq] at ha; cases ha }
  next := .refl _

theorem Poised.fault (h : Poised strict n) (rc : Result) :
    Shapes strict n.counters (rc, { n with faulted := true }) :=
  h.toSteady.fault h.noAction rc

theorem Poised.storeFault (h : Poised strict n) : Shapes strict n.counters (storeFault n) := h.fault _

theorem Steady.act (h : Steady strict n) (body : ActionBody) (step : Step)
    (hterm : n.role ≠ .follower → ({ begun n body with step := step } : Node).nextTerm ≠ 0)
    (hstep : StepShape strict { begun n body with step := step })
    (haction : ActionShape strict n body) (rc : Result) :
    Shapes strict n.counters (rc, { begun n body with step := step }) where
  ok :=
    { h with
      term := fun _ => hterm
      step := fun _ => hstep
      action := fun _ => haction }
  next := .refl _

/-- A continuation that needs no outstanding action allows one. -/
theorem StepShape.begun (hstep : StepShape strict n) (hq : n.hasAction = false)
    (body : ActionBody) : StepShape strict (begun n body) := by
  unfold StepShape at hstep ⊢
  cases hs : n.step with
  | electionBroadcast | leaderAppend | aeTruncate | apply =>
    rw [hs] at hstep
    exact absurd hstep.1 (by simp [hq])
  | aeReply =>
    rw [hs] at hstep
    exact hstep.elim
  | none | stepDown => simp only [Raft89.begun, hs]
  | _ =>
    rw [hs] at hstep
    simp only [Raft89.begun, hs]
    exact hstep

/-- Sending a message with the continuation that is left. -/
theorem emitSend_shapes (h : Poised strict n) {m : Message}
    (hm : strict → n.lastLogIndex < u64Max → n.Delivers m)
    (hstep : StepShape strict (begun n (.send m))) :
    Shapes strict n.counters (emitSend n m) := by
  unfold emitSend
  rcases actionBegin_cases n (.send m) with hf | hok
  · rw [hf]
    exact h.fault _
  · rw [hok]
    exact h.toSteady.act (.send m) n.step h.term hstep hm _

theorem emitHardState_shapes (h : Steady strict n) (hq : n.hasAction = false) {t : Nat} (v : Id)
    (step : Step) (hrole : n.role ≠ .leader) (hterm : n.role ≠ .follower → t ≠ 0)
    (hstep : StepShape strict { begun n (.hardState ⟨t, v⟩) with step := step })
    {p : Counters} :
    Shapes strict p ((emitHardState n t v).andThen fun node =>
      (.ok, { node with step := step })) := by
  unfold emitHardState
  rcases actionBegin_cases n (.hardState ⟨t, v⟩) with hf | hok
  · rw [hf, Ret.andThen_of_ne (by simp)]
    exact ⟨(h.fault hq _).ok, .other hrole⟩
  · rw [hok, Ret.andThen_ok]
    exact ⟨(h.act (.hardState ⟨t, v⟩) step hterm hstep hrole _).ok, .other hrole⟩

/-! ## Applying entries -/

/-- `emitNextApply` emits an application, fails without a trace or faults. -/
theorem emitNextApply_shape (env : Env) (n : Node) :
    (∃ e, emitNextApply env n = (.ok, begun n (.apply e))) ∨
      emitNextApply env n = (.errNomem, n) ∨
      ∃ rc, rc ≠ .ok ∧ emitNextApply env n = (rc, { n with faulted := true }) := by
  have hbegin : ∀ e, (∃ e', actionBegin n (.apply e) = (.ok, begun n (.apply e'))) ∨
      actionBegin n (.apply e) = (.errNomem, n) ∨
      ∃ rc, rc ≠ .ok ∧ actionBegin n (.apply e) = (rc, { n with faulted := true }) := by
    intro e
    rcases actionBegin_cases n (.apply e) with hf | hok
    · exact .inr (.inr ⟨_, by simp, hf⟩)
    · exact .inl ⟨e, hok⟩
  unfold emitNextApply
  simp only
  cases env.store.logTerm (u64Inc n.appliedIndex) with
  | none => exact .inr (.inr ⟨.errStore, by simp, rfl⟩)
  | some term =>
    cases env.store.logSize (u64Inc n.appliedIndex) with
    | none => exact .inr (.inr ⟨.errStore, by simp, rfl⟩)
    | some size =>
      simp only
      by_cases hz : size = 0
      · rw [if_pos hz]
        exact hbegin _
      rw [if_neg hz]
      by_cases hm : env.malloc .payload = true
      · rw [if_pos hm]
        cases env.store.logRead (u64Inc n.appliedIndex) size with
        | none => exact .inr (.inr ⟨.errStore, by simp, rfl⟩)
        | some data => exact hbegin _
      · rw [if_neg hm]
        exact .inr (.inl rfl)

/-- What `applyNext` leaves. -/
inductive Applied (n : Node) : Ret → Prop
  | idle : Applied n (.ok, n)
  | starved : Applied n (.errNomem, n)
  | fault (rc : Result) (hrc : rc ≠ .ok) : Applied n (rc, { n with faulted := true })
  | started (e : Entry) : Applied n (.ok, { begun n (.apply e) with step := .apply })

theorem applyNext_applied (env : Env) (n : Node) : Applied n (applyNext env n) := by
  unfold applyNext
  by_cases hge : n.appliedIndex ≥ n.commitIndex
  · rw [if_pos hge]
    exact .idle
  · rw [if_neg hge]
    rcases emitNextApply_shape env n with ⟨e, hok⟩ | hm | ⟨rc, hrc, hf⟩
    · rw [hok, Ret.andThen_ok]
      exact .started e
    · rw [hm, Ret.andThen_of_ne (by simp)]
      exact .starved
    · rw [hf, Ret.andThen_of_ne (by simpa using hrc)]
      exact .fault rc hrc

/-- `advanceCommit` leaves the node alone, or applies from the new commit index. -/
theorem advanceCommit_applied (env : Env) (n : Node) (k : Nat) (after : Step) :
    advanceCommit env n k after = (.ok, n) ∨
      Applied { n with commitIndex := k, afterApply := after } (advanceCommit env n k after) := by
  unfold advanceCommit
  by_cases hle : k ≤ n.commitIndex
  · rw [if_pos hle]
    exact .inl rfl
  · rw [if_neg hle]
    exact .inr (applyNext_applied env _)

/-- The commit index and the end of the chain are free while nothing is outstanding. -/
theorem Poised.commitTo (h : Poised strict n) (k : Nat) (after : Step) :
    Poised strict { n with commitIndex := k, afterApply := after } :=
  { h with }

theorem StepShape.commitTo (hstep : StepShape strict n) (hq : n.hasAction = false) (k : Nat)
    (after : Step) : StepShape strict { n with commitIndex := k, afterApply := after } := by
  unfold StepShape at hstep ⊢
  cases hs : n.step with
  | apply =>
    rw [hs] at hstep
    exact absurd hstep.1 (by simp [hq])
  | _ =>
    rw [hs] at hstep
    exact hstep

/-! ## The leader -/

theorem leaderSendTo_shapes (h : Poised strict n) (hd : strict → d.Positive) (hr : n.role = .leader)
    (hstep : StepShape strict n) {peer : Id} (hp : peer ∈ n.peers) :
    Shapes strict n.counters (leaderSendTo (s.env d) n peer) := by
  unfold leaderSendTo
  cases hb : buildLeaderAe (s.env d) n peer with
  | ok m =>
    exact emitSend_shapes h (fun hk hlast => buildLeaderAe_delivers h.toSteady (hd hk) hr hlast hp hb)
      (hstep.begun h.noAction _)
  | error rc =>
    simp only
    by_cases hs : rc = .errStore
    · rw [if_pos hs]
      exact h.storeFault
    · rw [if_neg hs]
      exact h.rest hstep _

theorem leaderMaybeCommit_shapes (h : Poised strict n) (hstep : StepShape strict n) :
    Shapes strict n.counters (leaderMaybeCommit (s.env d) n) := by
  unfold leaderMaybeCommit
  simp only
  generalize majoritySearch n n.commitIndex (quorum n) n.lastLogIndex = index
  by_cases hle : index ≤ n.commitIndex
  · rw [if_pos hle]
    exact h.rest hstep _
  rw [if_neg hle]
  cases logTermAt (s.env d).store index with
  | none => exact h.storeFault
  | some term =>
    simp only
    by_cases ht : term ≠ n.currentTerm
    · rw [if_pos ht]
      exact h.rest hstep _
    rw [if_neg ht]
    have hc := h.commitTo index .none
    rcases advanceCommit_applied (s.env d) n index .none with hsame | happlied
    · rw [hsame]
      exact h.rest hstep _
    · generalize advanceCommit (s.env d) n index .none = r at happlied
      cases happlied with
      | idle | starved => exact hc.rest (hstep.commitTo h.noAction _ _) _
      | fault rc => exact hc.fault rc
      | started e => exact hc.toSteady.act (.apply e) .apply hc.term ⟨rfl, .inl rfl⟩ trivial _

theorem peers_getD_peer {i : Nat} (hi : i < n.peerCount) : n.peers.getD i idNone ∈ n.peers := by
  rw [getD_eq_getElem?_getD, getElem?_eq_getElem hi]
  exact getElem_mem hi

/-- The next request of a broadcast, or the commit rule at its end. -/
theorem leaderBroadcastNext_shapes (h : Poised strict n) (hd : strict → d.Positive) (hr : n.role = .leader) :
    Shapes strict n.counters (leaderBroadcastNext (s.env d) n) := by
  unfold leaderBroadcastNext
  by_cases hge : n.peerCursor ≥ n.peerCount
  · rw [if_pos hge]
    have hc : Poised strict { n with step := .none } := { h with }
    exact leaderMaybeCommit_shapes hc trivial
  · rw [if_neg hge]
    have hc : Poised strict { n with peerCursor := n.peerCursor + 1, step := .leaderBroadcast } :=
      { h with }
    exact leaderSendTo_shapes hc hd hr hr (peers_getD_peer (Nat.lt_of_not_ge hge))

theorem leaderAfterAppend_shapes (h : Poised strict n) (hd : strict → d.Positive) (hr : n.role = .leader)
    (hgrows : ∀ e ∈ n.pendingEntries, n.lastLogIndex < e.index) :
    Shapes strict n.counters (leaderAfterAppend (s.env d) n) := by
  unfold leaderAfterAppend
  cases he : n.pendingEntries.getLast? with
  | none =>
    have hc : Poised strict { n with step := .none } := { h with }
    exact hc.rest trivial _
  | some e =>
    have hmem := mem_of_getLast? he
    obtain ⟨hterm, hindex⟩ := h.pending e hmem
    have hlt := hgrows e hmem
    have hc : Poised strict
        { n with
          lastLogIndex := e.index
          lastLogTerm := e.term
          pendingEntries := []
          peerCursor := 0
          step := .leaderBroadcast } :=
      { h with
        last := fun _ => ⟨fun h0 => absurd h0 hindex, fun h0 => absurd h0 hterm⟩
        pending := nofun
        next := fun hl hmax i hi => by
          obtain ⟨h1, h2⟩ := h.next hl (Nat.lt_trans hlt hmax) i hi
          exact ⟨h1, Nat.le_trans h2 (Nat.succ_le_succ (Nat.le_of_lt hlt))⟩ }
    have hs : Shapes strict _ _ := leaderBroadcastNext_shapes (s := s) hc hd hr
    exact ⟨hs.ok, hs.next.of_grown rfl rfl rfl (Nat.le_of_lt hlt) rfl rfl⟩

theorem Steady.demote (h : Steady strict n) (step : Step) (elapsed timeout : Nat) (leader : Id) :
    Steady strict { n with
      role := .follower
      leaderId := leader
      electionElapsed := elapsed
      electionTimeout := timeout
      step := step } :=
  { h with next_length := nofun, match_length := nofun, next := nofun }

theorem followHardState_shapes (h : Steady strict n) (hq : n.hasAction = false)
    (hr : n.role = .follower) {t : Nat} {v : Id}
    (hstep : StepShape strict (begun n (.hardState ⟨t, v⟩))) {p : Counters} :
    Shapes strict p (emitHardState n t v) := by
  have hr' : n.counters.role ≠ .leader := by simp [Node.counters, hr]
  unfold emitHardState
  rcases actionBegin_cases n (.hardState ⟨t, v⟩) with hf | hok
  · rw [hf]
    exact ⟨(h.fault hq _).ok, .other hr'⟩
  · rw [hok]
    exact ⟨(h.act (.hardState ⟨t, v⟩) n.step (fun hne => absurd hr hne) hstep
      (by simp [ActionShape, hr]) _).ok, .other hr'⟩

theorem stepDownNewTerm_shapes (h : Poised strict n) {env : Env} (t : Nat) :
    Shapes strict n.counters (stepDownNewTerm env n t) :=
  followHardState_shapes (h.toSteady.demote .stepDown 0 (pickTimeout env n) idNone) h.noAction rfl
    trivial

/-! ## Responses -/

theorem clampNext_range (hlast : n.lastLogIndex < u64Max) (next : Nat) :
    0 < clampNext n next ∧ clampNext n next ≤ n.lastLogIndex + 1 := by
  unfold clampNext
  rw [u64Inc_of_lt hlast]
  simp only
  split
  · omega
  · split <;> omega

theorem Poised.setNext (h : Poised strict n) (idx : Nat) {i : Nat}
    (hi : n.lastLogIndex < u64Max → 0 < i ∧ i ≤ n.lastLogIndex + 1) :
    Poised strict { n with nextIndex := n.nextIndex.set idx i } :=
  { h with
    next_length := fun hr => by
      rw [length_set]
      exact h.next_length hr
    next := fun hr hlast j hj => by
      rcases mem_or_eq_of_mem_set hj with hj | rfl
      · exact h.next hr hlast j hj
      · exact hi hlast }

theorem Poised.setMatch (h : Poised strict n) (idx i : Nat) :
    Poised strict { n with matchIndex := n.matchIndex.set idx i } :=
  { h with
    match_length := fun hr => by
      rw [length_set]
      exact h.match_length hr }

theorem handleAeFailure_shapes (h : Poised strict n) (hd : strict → d.Positive) (hr : n.role = .leader)
    (hstep : StepShape strict n) {idx : Nat} {sender : Id} (hp : sender ∈ n.peers) {ct ci : Nat} :
    Shapes strict n.counters (handleAeFailure (s.env d) n idx sender ct ci) ∨
      ∃ next, failureNext d.store n idx ct ci = some next ∧
        Shapes strict { n.counters with nextIndex := n.nextIndex.set idx (clampNext n next) }
          (handleAeFailure (s.env d) n idx sender ct ci) := by
  unfold handleAeFailure
  cases hf : failureNext (s.env d).store n idx ct ci with
  | none => exact .inl h.storeFault
  | some next =>
    have hc := h.setNext idx fun hlast => clampNext_range hlast next
    exact .inr ⟨next, hf, leaderSendTo_shapes hc hd hr hstep hp⟩

/-- An `AppendEntries` response. -/
theorem recvAeResponse_shapes (hd : strict → d.Positive) (hstep : StepShape strict n) (h : Poised strict n)
    {m : Message} (ht : n.Takes m) {t : Nat} {success : Int} {matched ct ci : Nat}
    (hbody : m.body = .appendEntriesResponse t success matched ct ci) :
    ∃ p, n.Responds d.store (.recv m) p ∧
      Shapes strict p (recvAeResponse (s.env d) n m.sender t success matched ct ci) := by
  have hp := h.toConfigured.sender_peer ht.valid
  unfold recvAeResponse
  by_cases hlt : t < n.currentTerm
  · rw [if_pos hlt]
    exact ⟨_, .same _, h.rest hstep _⟩
  rw [if_neg hlt]
  by_cases hgt : t > n.currentTerm
  · rw [if_pos hgt]
    exact ⟨_, .same _, stepDownNewTerm_shapes h _⟩
  rw [if_neg hgt]
  obtain rfl : t = n.currentTerm := by omega
  by_cases hr : n.role = .leader
  swap
  · rw [if_pos hr]
    exact ⟨_, .same _, h.rest hstep _⟩
  rw [if_neg (by simpa using hr)]
  simp only
  by_cases hok : success = 0
  · rw [if_pos hok]
    subst hok
    rcases handleAeFailure_shapes (s := s) h hd hr hstep hp with hs | ⟨next, hnext, hs⟩
    · exact ⟨_, .same _, hs⟩
    · exact ⟨_, .refused ht hr hbody hnext, hs⟩
  rw [if_neg hok]
  by_cases hle : matched ≤ n.matchIndex.getD (memberIndex n m.sender) 0
  · rw [if_pos hle]
    exact ⟨_, .same _, h.rest hstep _⟩
  rw [if_neg hle]
  by_cases hlast : matched > n.lastLogIndex
  · rw [if_pos hlast]
    exact ⟨_, .same _, h.rest hstep _⟩
  rw [if_neg hlast]
  refine ⟨_, .accepted ht hr hbody hok (Nat.lt_of_not_le hle) (Nat.le_of_not_lt hlast), ?_⟩
  have hc := h.setMatch (memberIndex n m.sender) matched
  by_cases hmax : matched < u64Max
  · rw [if_pos hmax, if_pos hmax]
    unfold advanceNext
    rw [u64Inc_of_lt hmax]
    have hc' := hc.setNext (memberIndex n m.sender) (i := matched + 1) fun _ =>
      ⟨Nat.succ_pos _, Nat.succ_le_succ (Nat.le_of_not_lt hlast)⟩
    exact leaderMaybeCommit_shapes hc' hstep
  · rw [if_neg hmax, if_neg hmax]
    exact leaderMaybeCommit_shapes hc hstep

/-! ## Proposals -/

theorem commandFill_index {t : Nat} : ∀ {i : Nat} {cs : List Command} {e : Entry},
    i + cs.length ≤ u64Max + 1 → e ∈ commandFill t i cs → i ≤ e.index
  | _, [], e, _, h => by cases h
  | i, c :: cs, e, hle, h => by
    rw [length_cons] at hle
    rcases mem_cons.1 h with rfl | h
    · exact Nat.le_refl i
    · cases cs with
      | nil => cases h
      | cons c' cs =>
        rw [length_cons] at hle
        rw [u64Inc_of_lt (by omega)] at h
        have := commandFill_index (by rw [length_cons]; omega) h
        omega

/-- The stash is replaced, or emptied when the copy cannot be made. -/
theorem entriesStash_shape (env : Env) (n : Node) (src : List Entry) :
    entriesStash env n src = (.ok, { n with pendingEntries := src.map entryStore }) ∨
      (entriesStash env n src = (.errNomem, { n with pendingEntries := [] }) ∧ src ≠ [] ∧
        entriesBufferAlloc env .stash src.length (payloadTotal src) = false) := by
  unfold entriesStash entriesClear
  simp only
  by_cases hz : src.length = 0
  · rw [if_pos hz]
    rw [length_eq_zero_iff] at hz
    subst hz
    exact .inl rfl
  · rw [if_neg hz]
    cases ha : entriesBufferAlloc env .stash src.length (payloadTotal src) with
    | true => exact .inl rfl
    | false => exact .inr ⟨rfl, fun h0 => hz (by rw [h0]; rfl), rfl⟩

/-- The stash may hold any entries with positive terms and indices. -/
theorem Poised.stash (h : Poised strict n) {entries : List Entry}
    (hentries : ∀ e ∈ entries, e.term ≠ 0 ∧ e.index ≠ 0) :
    Poised strict { n with pendingEntries := entries } :=
  { h with pending := hentries }

/-- The shape of what a proposal leaves. -/
theorem proposev_shapes (h : Poised strict n) (hstep : StepShape strict n) (cs : Ptr Command) :
    Shapes strict n.counters (proposev (s.env d) n cs) := by
  have hsame : ∀ rc, Shapes strict n.counters (rc, n) := h.rest hstep
  unfold proposev
  by_cases hnull : cs.isNull = true
  · rw [if_pos hnull]
    exact hsame _
  rw [if_neg hnull]
  have hcount : cs.count = cs.elems.length := Ptr.count_eq (by simpa using hnull)
  by_cases hz : cs.count = 0
  · rw [if_pos hz]
    exact hsame _
  rw [if_neg hz]
  by_cases hbad : commandsBad cs.elems = true
  · rw [if_pos hbad]
    exact hsame _
  rw [if_neg hbad, if_neg (by simp [h.running]), if_neg (by simp [h.noAction])]
  by_cases hr : n.role = .leader
  swap
  · rw [if_pos hr]
    exact hsame _
  rw [if_neg (by simpa using hr)]
  by_cases hmax : cs.count > n.maxAppendEntries
  · rw [if_pos hmax]
    exact hsame _
  rw [if_neg hmax]
  by_cases hbytes : cs.count > ulongMax / sizeofEntry
  · rw [if_pos hbytes]
    exact hsame _
  rw [if_neg hbytes]
  by_cases htotal : commandsTotal cs.elems > n.maxAppendBytes
  · rw [if_pos htotal]
    exact hsame _
  rw [if_neg htotal]
  by_cases hindex : n.lastLogIndex > u64Max - cs.count
  · rw [if_pos hindex]
    exact h.fault _
  rw [if_neg hindex]
  by_cases halloc : (s.env d).malloc .proposal = true
  swap
  · rw [if_neg halloc]
    exact hsame _
  rw [if_pos halloc]
  have hlen : n.lastLogIndex + cs.elems.length ≤ u64Max := by
    have : cs.count ≤ ulongMax / sizeofEntry := by omega
    have : ulongMax / sizeofEntry ≤ u64Max := Nat.div_le_self _ _
    omega
  rw [u64Inc_of_lt (by omega)]
  simp only
  have hterm : ∀ e ∈ commandFill n.currentTerm (n.lastLogIndex + 1) cs.elems,
      e.term = n.currentTerm := fun e => commandFill_term
  have habove : ∀ e ∈ commandFill n.currentTerm (n.lastLogIndex + 1) cs.elems,
      n.lastLogIndex < e.index := fun e => commandFill_index (by omega)
  generalize commandFill n.currentTerm (n.lastLogIndex + 1) cs.elems = src at hterm habove ⊢
  have hpos := h.term (by simp [hr])
  -- No continuation of an idle leader looks at the stash.
  have hempty : StepShape strict { n with pendingEntries := [] } := by
    unfold StepShape at hstep ⊢
    cases hs : n.step with
    | aeAppend =>
      rw [hs] at hstep
      exact absurd hr hstep.1
    | aeTruncate =>
      rw [hs] at hstep
      exact absurd hr hstep.2.1
    | leaderAppend | apply =>
      rw [hs] at hstep
      exact absurd hstep.1 (by simp [h.noAction])
    | _ =>
      rw [hs] at hstep
      exact hstep
  have hc : Poised strict { n with pendingEntries := [] } := h.stash nofun
  rcases entriesStash_shape (s.env d) n src with hok | ⟨hno, -, -⟩
  · rw [hok, Ret.andThen_ok]
    have hentries : ∀ e ∈ src.map entryStore,
        e.term ≠ 0 ∧ e.index ≠ 0 ∧ n.lastLogIndex < e.index := by
      intro e he
      obtain ⟨e', he', rfl⟩ := mem_map.1 he
      have hlt := habove e' he'
      have ht := hterm e' he'
      exact ⟨by simpa [entryStore, ht] using hpos, by simp only [entryStore]; omega, hlt⟩
    have hc' := h.stash fun e he => ⟨(hentries e he).1, (hentries e he).2.1⟩
    rcases actionBegin_cases { n with pendingEntries := src.map entryStore }
      (.logAppend (src.map entryStore)) with hf | hbegin
    · rw [hf]
      exact hc.fault _
    · rw [hbegin]
      exact hc'.toSteady.act (.logAppend (src.map entryStore)) .leaderAppend hc'.term
        ⟨rfl, hr, fun e he => (hentries e he).2.2⟩ (fun e he => (hentries e he).1) _
  · rw [hno, Ret.andThen_of_ne (by simp)]
    exact hc.rest hempty _

/-! ## Elections -/

theorem Poised.relabel (h : Poised strict n) (step : Step) (cursor elapsed timeout beat : Nat) :
    Poised strict { n with
      step := step
      peerCursor := cursor
      electionElapsed := elapsed
      electionTimeout := timeout
      heartbeatElapsed := beat } :=
  { h with }

theorem voteResponse_delivers {peer : Id} (hp : peer ∈ n.peers) (t : Nat) (granted : Bool) :
    n.Delivers (buildVoteResponse n.self peer t granted) :=
  ⟨rfl, hp, by cases granted <;> rfl⟩

theorem replyVote_shapes (h : Poised strict n) (hstep : StepShape strict n) {peer : Id}
    (hp : peer ∈ n.peers) (t : Nat) (granted : Bool) :
    Shapes strict n.counters (replyVote n peer t granted) :=
  emitSend_shapes h (fun _ _ => voteResponse_delivers hp t granted) (hstep.begun h.noAction _)

theorem persistVoteThenReply_shapes (h : Steady strict n) (hq : n.hasAction = false)
    (hrole : n.role ≠ .leader) {peer : Id} (hp : peer ∈ n.peers) {t : Nat} (vote : Id)
    (granted : Bool) (hterm : n.role ≠ .follower → t ≠ 0) {p : Counters} :
    Shapes strict p (persistVoteThenReply n peer t vote granted) := by
  have hc : Steady strict { n with pendingMsg := buildVoteResponse n.self peer t granted } := { h with }
  have hm := voteResponse_delivers hp t granted
  exact emitHardState_shapes hc hq vote .voteResponse hrole hterm hm

theorem voteResponseSend_shapes (h : Poised strict n) (hm : n.Delivers n.pendingMsg) :
    Shapes strict n.counters (voteResponseSend n) := by
  have hc := h.relabel .none n.peerCursor n.electionElapsed n.electionTimeout n.heartbeatElapsed
  exact emitSend_shapes hc (fun _ _ => hm) trivial

theorem recvRequestVote_shapes (h : Poised strict n) (hstep : StepShape strict n) {sender : Id}
    (hp : sender ∈ n.peers) {env : Env} (t i u : Nat) :
    Shapes strict n.counters (recvRequestVote env n sender t i u) := by
  unfold recvRequestVote
  by_cases hlt : t < n.currentTerm
  · rw [if_pos hlt]
    exact replyVote_shapes h hstep hp _ _
  rw [if_neg hlt]
  simp only
  by_cases hgt : t > n.currentTerm
  · rw [if_pos hgt]
    have hc := h.toSteady.demote n.step 0 (pickTimeout env n) idNone
    exact persistVoteThenReply_shapes hc h.noAction nofun hp _ _ fun hr => absurd rfl hr
  rw [if_neg hgt]
  by_cases hsame : n.votedFor = sender
  · rw [if_pos hsame]
    exact replyVote_shapes h hstep hp _ _
  rw [if_neg hsame]
  by_cases hvoted : n.votedFor ≠ idNone
  · rw [if_pos hvoted]
    exact replyVote_shapes h hstep hp _ _
  rw [if_neg hvoted]
  by_cases hr : n.role = .leader
  · rw [if_pos hr]
    exact replyVote_shapes h hstep hp _ _
  rw [if_neg hr]
  split
  · exact replyVote_shapes h hstep hp _ _
  · refine persistVoteThenReply_shapes h.toSteady h.noAction hr hp _ _ fun hf => ?_
    have := h.term hf
    omega

theorem startElection_shapes (h : Poised strict n) (hstep : StepShape strict n) {env : Env} :
    Shapes strict n.counters (startElection env n) := by
  unfold startElection
  by_cases hmax : n.currentTerm = u64Max
  · rw [if_pos hmax]
    exact h.rest hstep _
  rw [if_neg hmax]
  simp only
  have hpos : u64Inc n.currentTerm ≠ 0 := by
    rw [u64Inc, if_neg hmax]
    omega
  have stands : ∀ m : Node, Steady strict m → m.hasAction = false → m.role = .candidate →
      Shapes strict n.counters
        ((emitHardState m (u64Inc n.currentTerm) m.self).andThen fun node =>
          (.ok, { node with peerCursor := 0, step := .electionBroadcast })) := by
    intro m hc hq hm
    have hnot : m.counters.role ≠ .leader := by simp [Node.counters, hm]
    unfold emitHardState
    rcases actionBegin_cases m (.hardState ⟨u64Inc n.currentTerm, m.self⟩) with hf | hok
    · rw [hf, Ret.andThen_of_ne (by simp)]
      exact ⟨(hc.fault hq _).ok, .other hnot⟩
    · rw [hok, Ret.andThen_ok]
      refine ⟨?_, .other hnot⟩
      exact
        { hc with
          term := fun _ _ => hpos
          step := fun _ => ⟨rfl, hm⟩
          action := fun _ => hnot }
  refine stands _ ?_ h.noAction rfl
  exact
    { h with
      next_length := fun hl => Role.noConfusion hl
      match_length := fun hl => Role.noConfusion hl
      next := fun hl => Role.noConfusion hl }

theorem becomeLeader_shapes (h : Poised strict n) (hd : strict → d.Positive) (hr : n.role = .candidate) :
    Shapes strict n.counters (becomeLeader (s.env d) n) := by
  unfold becomeLeader
  by_cases hmax : n.lastLogIndex = u64Max
  · rw [if_pos hmax]
    exact h.fault _
  rw [if_neg hmax]
  have hinc : u64Inc n.lastLogIndex = n.lastLogIndex + 1 := by rw [u64Inc, if_neg hmax]
  have hterm := h.term (by simp [hr])
  have hc : Poised strict
      { n with
        role := .leader
        leaderId := n.self
        heartbeatElapsed := 0
        electionElapsed := 0
        nextIndex := replicate n.memberCount (u64Inc n.lastLogIndex)
        matchIndex := replicate n.memberCount 0
        peerCursor := 0
        step := .leaderBroadcast } :=
    { h with
      next_length := fun _ => length_replicate
      match_length := fun _ => length_replicate
      next := fun _ _ i hi => by
        rw [(mem_replicate.1 hi).2, hinc]
        exact ⟨Nat.succ_pos _, Nat.le_refl _⟩
      term := fun _ => hterm }
  have hs : Shapes strict _ _ := leaderBroadcastNext_shapes (s := s) hc hd rfl
  refine ⟨hs.ok, ?_⟩
  have hnot : n.counters.role ≠ .leader := by simp [Node.counters, hr]
  cases hs.next with
  | other role => exact .other role
  | elected role => exact absurd rfl role
  | kept members role term last hm hx =>
    refine .elected hnot n.memberCount n.lastLogIndex last hm ?_
    rw [hx, ← hinc]
    rfl

/-- The next request for a vote, or leadership once a quorum granted it. -/
theorem electionSendNext_shapes (h : Poised strict n) (hd : strict → d.Positive) (hr : n.role = .candidate) :
    Shapes strict n.counters (electionSendNext (s.env d) n) := by
  unfold electionSendNext
  have hc : ∀ step cursor, Poised strict { n with step := step, peerCursor := cursor } :=
    fun _ _ => { h with }
  by_cases hq : n.votesGranted ≥ quorum n
  · rw [if_pos hq]
    exact becomeLeader_shapes (hc .none n.peerCursor) hd hr
  rw [if_neg hq]
  by_cases hge : n.peerCursor ≥ n.peerCount
  · rw [if_pos hge]
    exact (hc .none n.peerCursor).rest trivial _
  rw [if_neg hge]
  refine emitSend_shapes (hc .electionBroadcast (n.peerCursor + 1)) (fun hk _ => ?_) ⟨rfl, hr⟩
  refine ⟨rfl, peers_getD_peer (Nat.lt_of_not_ge hge), ?_⟩
  have hlast := h.last hk
  simp only [buildRequestVote, Node.fits, requestVoteValid]
  by_cases h0 : n.lastLogIndex = 0
  · simp [h0, hlast.1 h0]
  · have hne : n.lastLogTerm ≠ 0 := fun ht => h0 (hlast.2 ht)
    simp [h0, hne]

theorem recvVoteResponse_shapes (h : Poised strict n) (hd : strict → d.Positive) (hstep : StepShape strict n)
    (sender : Id) (t : Nat) (granted : Int) :
    Shapes strict n.counters (recvVoteResponse (s.env d) n sender t granted) := by
  unfold recvVoteResponse
  by_cases hlt : t < n.currentTerm
  · rw [if_pos hlt]
    exact h.rest hstep _
  rw [if_neg hlt]
  by_cases hgt : t > n.currentTerm
  · rw [if_pos hgt]
    exact stepDownNewTerm_shapes h _
  rw [if_neg hgt]
  by_cases hr : n.role = .candidate
  swap
  · rw [if_pos hr]
    exact h.rest hstep _
  rw [if_neg (by simpa using hr)]
  by_cases hg : granted = 0
  · rw [if_pos hg]
    exact h.rest hstep _
  rw [if_neg hg]
  simp only
  by_cases hv : n.votes.getD (memberIndex n sender) false = true
  · rw [if_pos hv]
    exact h.rest hstep _
  rw [if_neg hv]
  have hc : Poised strict
      { n with
        votes := n.votes.set (memberIndex n sender) true
        votesGranted := n.votesGranted + 1 } := { h with }
  split
  · exact hc.rest hstep _
  · exact becomeLeader_shapes hc hd hr

/-! ## Timers -/

theorem tick_shapes (h : Poised strict n) (hd : strict → d.Positive) (hstep : StepShape strict n)
    (elapsed : Nat) : Shapes strict n.counters (tick (s.env d) n elapsed) := by
  unfold tick
  rw [if_neg (by simp [h.running]), if_neg (by simp [h.noAction])]
  simp only
  have hc : Poised strict (advanceClocks n elapsed) := { h with }
  by_cases hr : n.role = .leader
  · rw [if_pos (by exact hr)]
    unfold tickLeader
    by_cases hbeat : (advanceClocks n elapsed).heartbeatElapsed <
        (advanceClocks n elapsed).heartbeatInterval
    · rw [if_pos hbeat]
      exact hc.rest hstep _
    · rw [if_neg hbeat]
      have hc' := hc.relabel .leaderBroadcast 0 (advanceClocks n elapsed).electionElapsed
        (advanceClocks n elapsed).electionTimeout 0
      exact leaderBroadcastNext_shapes hc' hd hr
  · rw [if_neg (by exact hr)]
    unfold tickFollower
    split
    · exact hc.rest hstep _
    · exact startElection_shapes hc hstep

end Raft89
