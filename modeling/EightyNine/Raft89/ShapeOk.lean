import EightyNine.Raft89.ShapeLeader

/-!
# libraft89: AppendEntries and the entry points keep the shapes

A request that is processed leaves a continuation whose reply names no conflict
(`Node.Acks`).  The one way to lose that is a request whose stash cannot be
copied while the reply of an earlier one is still to be sent (`Node.Stashes`).
-/

namespace Raft89

open List

variable {strict : Prop} {n : Node} {d : Disk} {s : Supply}

/-! ## AppendEntries -/

theorem Poised.request (h : Poised strict n) {entries : List Entry}
    (hentries : ∀ e ∈ entries, e.term ≠ 0 ∧ e.index ≠ 0) (leader : Id)
    (prevIndex prevTerm commit matched first ct ci offset : Nat) (success : Bool) :
    Poised strict { n with
      pendingEntries := entries
      aeLeaderId := leader
      aePrevIndex := prevIndex
      aePrevTerm := prevTerm
      aeLeaderCommit := commit
      aeMatchIndex := matched
      aeTruncateFirst := first
      aeConflictTerm := ct
      aeConflictIndex := ci
      aeAppendOffset := offset
      aeReplySuccess := success } :=
  { h with pending := hentries }

theorem aeSendReply_shapes (h : Poised strict n)
    (hm : strict → n.lastLogIndex < u64Max → n.aeLeaderId ∈ n.peers ∧
      appendEntriesResponseValid (if n.aeReplySuccess then 1 else 0) n.aeMatchIndex
        n.aeConflictTerm n.aeConflictIndex = true) :
    Shapes strict n.counters (aeSendReply n) := by
  have hc := h.relabel .none n.peerCursor n.electionElapsed n.electionTimeout n.heartbeatElapsed
  exact emitSend_shapes hc (fun hk hlast => ⟨rfl, hm hk hlast⟩) trivial

theorem Node.Acks.reply (h : n.Acks) : n.aeLeaderId ∈ n.peers ∧
    appendEntriesResponseValid (if n.aeReplySuccess then 1 else 0) n.aeMatchIndex
      n.aeConflictTerm n.aeConflictIndex = true := by
  obtain ⟨hleader, hsuccess, hct, hci⟩ := h
  refine ⟨hleader, ?_⟩
  simp [appendEntriesResponseValid, hsuccess, hct, hci]

theorem sendAeFailure_shapes (h : Poised strict n) (hstep : StepShape strict n) {leader : Id}
    (hp : leader ∈ n.peers) (t : Nat) : Shapes strict n.counters (sendAeFailure n leader t) := by
  refine emitSend_shapes h (fun _ hlast => ⟨rfl, hp, ?_⟩) (hstep.begun h.noAction _)
  simp [buildAeResponse, Node.fits, appendEntriesResponseValid, u64Inc_of_lt hlast]

/-- Clearing the stash disturbs no continuation of an idle node. -/
theorem StepShape.clear (hstep : StepShape strict n) (hq : n.hasAction = false) :
    StepShape strict (entriesClear n) := by
  unfold StepShape at hstep ⊢
  cases hs : n.step with
  | leaderAppend | aeTruncate =>
    rw [hs] at hstep
    exact absurd hstep.1 (by simp [hq])
  | none | stepDown => simp only [entriesClear, hs]
  | _ =>
    rw [hs] at hstep
    simp only [entriesClear, hs]
    exact hstep

theorem StepShape.not_apply (hstep : StepShape strict n) (hq : n.hasAction = false) :
    n.step ≠ .apply := by
  intro hs
  unfold StepShape at hstep
  rw [hs] at hstep
  exact absurd hstep.1 (by simp [hq])

/-- The end of a request: the commit index moves and the reply follows. -/
theorem aeFinish_shapes (h : Poised strict n) (env : Env) (hstep : StepShape strict n)
    (hacks : strict → n.Acks) : Shapes strict n.counters (aeFinish env n) := by
  unfold aeFinish
  simp only
  generalize min (min n.aeLeaderCommit n.lastLogIndex) n.aeMatchIndex = k
  have hc : Poised strict (entriesClear n) := h.stash nofun
  have hclear := hstep.clear h.noAction
  have hne := hstep.not_apply h.noAction
  have hc' := hc.commitTo k .aeReply
  have hclear' := hclear.commitTo hc.noAction k .aeReply
  rcases advanceCommit_applied env (entriesClear n) k .aeReply with hsame | happlied
  · rw [hsame, Ret.andThen_ok, if_neg (by exact hne)]
    exact aeSendReply_shapes hc fun hk _ => (hacks hk).reply
  · generalize advanceCommit env (entriesClear n) k .aeReply = r at happlied
    cases happlied with
    | idle =>
      rw [Ret.andThen_ok, if_neg (by exact hne)]
      exact aeSendReply_shapes hc' fun hk _ => (hacks hk).reply
    | starved =>
      rw [Ret.andThen_of_ne (by simp)]
      exact hc'.rest hclear' _
    | fault rc hrc =>
      rw [Ret.andThen_of_ne (by simpa using hrc)]
      exact hc'.fault rc
    | started e =>
      rw [Ret.andThen_ok, if_pos rfl]
      exact hc'.toSteady.act (.apply e) .apply hc'.term ⟨rfl, .inr ⟨rfl, hacks⟩⟩ trivial _

theorem aeEmitAppend_shapes (h : Poised strict n) (env : Env) (hr : n.role ≠ .leader)
    (hstep : n.pendingCount - n.aeAppendOffset = 0 → StepShape strict n)
    (hacks : strict → n.Acks) : Shapes strict n.counters (aeEmitAppend env n) := by
  unfold aeEmitAppend
  by_cases hz : n.pendingCount - n.aeAppendOffset = 0
  · rw [if_pos hz]
    exact aeFinish_shapes h env (hstep hz) hacks
  rw [if_neg hz]
  rcases actionBegin_cases n (.logAppend (n.pendingEntries.drop n.aeAppendOffset)) with hf | hok
  · rw [hf, Ret.andThen_of_ne (by simp)]
    exact h.fault _
  · rw [hok, Ret.andThen_ok]
    exact h.toSteady.act (.logAppend (n.pendingEntries.drop n.aeAppendOffset)) .aeAppend h.term
      ⟨hr, hacks⟩ (fun e he => (h.pending e (mem_of_mem_drop he)).1) _

variable {store : Store} {prev : Nat}

theorem aeScan_conflict_lt {last first offset : Nat} :
    ∀ {i : Nat} {es : List Entry}, aeScan store prev last i es = some (.conflict first offset) →
      offset < i + es.length
  | i, [], h => by cases h
  | i, e :: es, h => by
    unfold aeScan at h
    simp only at h
    rw [length_cons]
    split at h
    · cases h
    · split at h
      · cases h
      · split at h
        · have := aeScan_conflict_lt h
          omega
        · simp only [Option.some.injEq, Scan.conflict.injEq] at h
          omega

variable {env : Env}

theorem aeApplyEntries_shapes (h : Poised strict n) (hr : n.role ≠ .leader)
    (hstep : StepShape strict n) (hacks : strict → n.Acks) :
    Shapes strict n.counters (aeApplyEntries env n) := by
  have hidle : ∀ first offset, StepShape strict
      { n with aeTruncateFirst := first, aeAppendOffset := offset } := by
    intro first offset
    have hq := h.noAction
    unfold StepShape at hstep ⊢
    cases hs : n.step with
    | aeTruncate =>
      rw [hs] at hstep
      exact absurd hstep.1 (by simp [hq])
    | _ =>
      rw [hs] at hstep
      exact hstep
  have hc : ∀ first offset, Poised strict { n with aeTruncateFirst := first, aeAppendOffset := offset } :=
    fun _ _ => { h with }
  unfold aeApplyEntries
  cases hscan : aeScan env.store n.aePrevIndex n.lastLogIndex 0 n.pendingEntries with
  | none => exact h.storeFault
  | some scan =>
    cases scan with
    | same => exact aeFinish_shapes h env hstep hacks
    | missing offset => exact aeEmitAppend_shapes (hc 0 offset) env hr (fun _ => hidle _ _) hacks
    | conflict first offset =>
      simp only
      by_cases h0 : first = 0
      · rw [if_pos h0]
        exact aeEmitAppend_shapes (hc first offset) env hr (fun _ => hidle _ _) hacks
      rw [if_neg h0]
      by_cases hle : first ≤ n.commitIndex
      · rw [if_pos (by exact hle)]
        exact (hc first offset).rest (hidle _ _) _
      rw [if_neg (by exact hle)]
      have hlt := aeScan_conflict_lt hscan
      rw [Nat.zero_add] at hlt
      have hc' : Poised strict
          { n with
            aeTruncateFirst := first
            aeAppendOffset := offset
            step := .aeTruncate } := { h with }
      unfold emitLogTruncate
      rcases actionBegin_cases
        { n with
          aeTruncateFirst := first
          aeAppendOffset := offset
          step := .aeTruncate } (.logTruncate first) with hf | hok
      · rw [hf]
        exact hc'.fault _
      · rw [hok]
        exact hc'.toSteady.act (.logTruncate first) .aeTruncate hc'.term
          ⟨rfl, hr, hlt, hacks⟩ trivial _

variable {t : Nat}

theorem conflictFirst_ne : ∀ {i first : Nat},
    conflictFirst store t i = some first → i ≠ 0 → first ≠ 0
  | 0, first, _, h0 => absurd rfl h0
  | 1, first, h, _ => by
    simp only [conflictFirst, Option.some.injEq] at h
    omega
  | i + 2, first, h, _ => by
    unfold conflictFirst at h
    split at h
    · cases h
    · split at h
      · simp only [Option.some.injEq] at h
        omega
      · exact conflictFirst_ne h (Nat.succ_ne_zero i)

/-- The rejection of a request whose previous entry is missing. -/
theorem replyPrefixFailure_shapes (h : Poised strict n) (hp : n.aeLeaderId ∈ n.peers)
    (h0 : n.aePrevIndex ≠ 0) : Shapes strict n.counters (replyPrefixFailure env n) := by
  unfold replyPrefixFailure conflictHints
  simp only
  have hc : ∀ ct ci, Poised strict
      { n with
        aeReplySuccess := false
        aeMatchIndex := 0
        aeConflictTerm := ct
        aeConflictIndex := ci } := fun _ _ => { h with }
  have hreply : ∀ ct ci, (n.lastLogIndex < u64Max → ci ≠ 0) → Shapes strict n.counters
      (aeSendReply
        { n with
          aeReplySuccess := false
          aeMatchIndex := 0
          aeConflictTerm := ct
          aeConflictIndex := ci }) := by
    intro ct ci hci
    refine aeSendReply_shapes (hc ct ci) fun _ hlast => ⟨hp, ?_⟩
    simp [appendEntriesResponseValid, hci hlast]
  by_cases hgt : n.aePrevIndex > n.lastLogIndex
  · rw [if_pos hgt, Ret.andThen_ok]
    exact hreply _ _ fun hlast => by rw [u64Inc_of_lt hlast]; omega
  rw [if_neg hgt]
  cases env.store.logTerm n.aePrevIndex with
  | none =>
    simp only
    rw [Ret.andThen_of_ne (by simp [storeFault])]
    exact (hc n.aeConflictTerm n.aeConflictIndex).storeFault
  | some term =>
    simp only
    cases hfirst : conflictFirst env.store term n.aePrevIndex with
    | none =>
      simp only
      rw [Ret.andThen_of_ne (by simp [storeFault])]
      exact (hc term n.aeConflictIndex).storeFault
    | some first =>
      simp only
      rw [Ret.andThen_ok]
      exact hreply _ _ fun _ => conflictFirst_ne hfirst h0

/-- Where a request is processed, the continuation of the request before it is
the only other one that reads the reply. -/
theorem StepShape.processed (hstep : StepShape False n) (hq : n.hasAction = false)
    (hr : n.role ≠ .leader) (hacks : n.Acks) : StepShape strict n := by
  unfold StepShape at hstep ⊢
  cases hs : n.step with
  | aeAppend => exact ⟨hr, fun _ => hacks⟩
  | aeTruncate | apply =>
    rw [hs] at hstep
    exact absurd hstep.1 (by simp [hq])
  | _ =>
    rw [hs] at hstep
    exact hstep

theorem StepShape.loose (hstep : StepShape strict n) : StepShape False n := by
  unfold StepShape at hstep ⊢
  cases hs : n.step with
  | aeAppend =>
    rw [hs] at hstep
    exact ⟨hstep.1, nofun⟩
  | aeTruncate =>
    rw [hs] at hstep
    exact ⟨hstep.1, hstep.2.1, hstep.2.2.1, nofun⟩
  | apply =>
    rw [hs] at hstep
    exact ⟨hstep.1, hstep.2.imp id fun h => ⟨h.1, nofun⟩⟩
  | _ =>
    rw [hs] at hstep
    exact hstep

/-- Where nothing is said of the replies, the reply fields are free. -/
theorem StepShape.reply (hstep : StepShape False n) (hq : n.hasAction = false)
    (hr : n.role ≠ .leader) (matched ct ci : Nat) (success : Bool)
    (hhints : n.step = .aeHardState → ct = 0 ∧ ci = 0) :
    StepShape False { n with
      aeMatchIndex := matched
      aeConflictTerm := ct
      aeConflictIndex := ci
      aeReplySuccess := success } := by
  unfold StepShape at hstep ⊢
  cases hs : n.step with
  | aeAppend => exact ⟨hr, nofun⟩
  | aeHardState =>
    rw [hs] at hstep
    exact ⟨hstep.1, hstep.2.1, hhints hs⟩
  | aeTruncate | apply =>
    rw [hs] at hstep
    exact absurd hstep.1 (by simp [hq])
  | _ =>
    rw [hs] at hstep
    exact hstep

theorem StepShape.follow (hstep : StepShape strict n) (hq : n.hasAction = false)
    (hr : n.role ≠ .leader) (leader : Id) (elapsed timeout : Nat) :
    StepShape strict { n with
      role := .follower
      leaderId := leader
      electionElapsed := elapsed
      electionTimeout := timeout } := by
  unfold StepShape at hstep ⊢
  cases hs : n.step with
  | electionBroadcast | leaderAppend | aeTruncate =>
    rw [hs] at hstep
    exact absurd hstep.1 (by simp [hq])
  | leaderBroadcast =>
    rw [hs] at hstep
    exact absurd hstep hr
  | aeHardState | aeAppend =>
    rw [hs] at hstep
    exact ⟨nofun, hstep.2⟩
  | _ =>
    rw [hs] at hstep
    exact hstep

theorem aeProcess_shapes (h : Poised strict n) (hr : n.role ≠ .leader)
    (hstep : StepShape False n) (hp : n.aeLeaderId ∈ n.peers) (hct : n.aeConflictTerm = 0)
    (hci : n.aeConflictIndex = 0) : Shapes strict n.counters (aeProcess env n) := by
  have hc : ∀ matched success, Poised strict
      { n with
        role := .follower
        leaderId := n.aeLeaderId
        electionElapsed := 0
        electionTimeout := pickTimeout env n
        aeReplySuccess := success
        aeMatchIndex := matched } := fun _ _ =>
    { h with
      next_length := fun hl => Role.noConfusion hl
      match_length := fun hl => Role.noConfusion hl
      next := fun hl => Role.noConfusion hl
      term := fun hf => absurd rfl hf }
  have hfollow := hstep.follow h.noAction hr n.aeLeaderId 0 (pickTimeout env n)
  suffices hs : Shapes strict ({ n with
      role := .follower
      leaderId := n.aeLeaderId
      electionElapsed := 0
      electionTimeout := pickTimeout env n } : Node).counters (aeProcess env n) from
    ⟨hs.ok, hs.next.of_not_leader (fun hl => Role.noConfusion hl) hr⟩
  unfold aeProcess
  simp only
  generalize hnode : ({ n with
    role := .follower
    leaderId := n.aeLeaderId
    electionElapsed := 0
    electionTimeout := pickTimeout env n } : Node) = m
  cases hmatch : aePrefixMatches env.store m with
  | none =>
    subst hnode
    exact (hc n.aeMatchIndex n.aeReplySuccess).storeFault
  | some matched =>
    cases matched with
    | false =>
      have h0 : m.aePrevIndex ≠ 0 := by
        intro h0
        rw [aePrefixMatches, if_pos h0] at hmatch
        cases hmatch
      subst hnode
      exact replyPrefixFailure_shapes (hc n.aeMatchIndex n.aeReplySuccess) hp h0
    | true =>
      subst hnode
      have hready := hfollow.reply h.noAction (fun hl => Role.noConfusion hl) (u64Add n.aePrevIndex n.pendingCount)
        n.aeConflictTerm n.aeConflictIndex true fun _ => ⟨hct, hci⟩
      have hstep' : StepShape strict _ := hready.processed h.noAction (fun hl => Role.noConfusion hl) ⟨hp, rfl, hct, hci⟩
      exact aeApplyEntries_shapes (hc _ true) (fun hl => Role.noConfusion hl) hstep' fun _ => ⟨hp, rfl, hct, hci⟩

/-! ### After a storage action -/

theorem aeUpdateLast_shape (hd : strict → d.Positive) (index : Nat) :
    aeUpdateLast (s.env d) n index = (.errStore, { n with faulted := true }) ∨
      ∃ i t, (strict → (i = 0 ↔ t = 0)) ∧
        aeUpdateLast (s.env d) n index = (.ok, { n with lastLogIndex := i, lastLogTerm := t }) := by
  unfold aeUpdateLast
  by_cases h0 : index = 0
  · rw [if_pos h0]
    exact .inr ⟨0, 0, fun _ => Iff.rfl, rfl⟩
  rw [if_neg h0]
  cases ht : (s.env d).store.logTerm index with
  | none => exact .inl rfl
  | some term => exact .inr ⟨index, term, fun hk => by simp [h0, (hd hk).term_ne ht], rfl⟩

theorem Poised.setLast (h : Poised strict n) (hr : n.role ≠ .leader) {i : Nat}
    (hit : strict → (i = 0 ↔ t = 0)) :
    Poised strict { n with lastLogIndex := i, lastLogTerm := t } :=
  { h with last := hit, next := fun hl => absurd hl hr }

theorem aeAfterTruncate_shapes (h : Poised strict n) (hd : strict → d.Positive) (hr : n.role ≠ .leader)
    (hlt : n.aeAppendOffset < n.pendingCount) (hacks : strict → n.Acks) :
    Shapes strict n.counters (aeAfterTruncate (s.env d) n) := by
  unfold aeAfterTruncate
  rcases aeUpdateLast_shape (n := n) (s := s) hd (u64Dec n.aeTruncateFirst)
    with hf | ⟨i, t, hit, hok⟩
  · rw [hf, Ret.andThen_of_ne (by simp)]
    exact h.fault _
  · rw [hok, Ret.andThen_ok]
    have hc := h.setLast hr hit
    have hs : Shapes strict _ _ := aeEmitAppend_shapes hc (s.env d) hr (fun hz => by
      have : n.pendingCount - n.aeAppendOffset = 0 := hz
      omega) hacks
    exact ⟨hs.ok, hs.next.of_not_leader hr hr⟩

theorem aeAfterAppend_shapes (h : Poised strict n) (hd : strict → d.Positive) (hr : n.role ≠ .leader)
    (hs : n.step = .aeAppend) (hacks : strict → n.Acks) :
    Shapes strict n.counters (aeAfterAppend (s.env d) n) := by
  unfold aeAfterAppend
  rcases aeUpdateLast_shape (n := n) (s := s) hd (u64Add n.aePrevIndex n.pendingCount)
    with hf | ⟨i, t, hit, hok⟩
  · rw [hf, Ret.andThen_of_ne (by simp)]
    exact h.fault _
  · rw [hok, Ret.andThen_ok]
    have hc := h.setLast hr hit
    have hstep : StepShape strict { n with lastLogIndex := i, lastLogTerm := t } := by
      unfold StepShape
      simp only [hs]
      exact ⟨hr, hacks⟩
    have hs : Shapes strict _ _ := aeFinish_shapes hc (s.env d) hstep hacks
    exact ⟨hs.ok, hs.next.of_not_leader hr hr⟩

/-! ### Receiving a request -/

theorem entriesShapeValid_mem : ∀ {i : Nat} {es : List Entry} {e : Entry},
    entriesShapeValid prev i es = true → e ∈ es → e.term ≠ 0 ∧ e.index ≠ 0
  | _, [], e, _, he => by cases he
  | i, f :: es, e, h, he => by
    unfold entriesShapeValid at h
    split_ifs at h with hf
    rcases mem_cons.1 he with rfl | he
    · unfold entryShapeValid at hf
      split_ifs at hf with h1 h2
      exact ⟨h2, h1⟩
    · exact entriesShapeValid_mem h he

variable {es : Ptr Entry}

theorem appendEntriesValid_mem {maxEntries maxBytes : Nat} {e : Entry}
    (h : appendEntriesValid prev es maxEntries maxBytes = true) (he : e ∈ es.elems) :
    e.term ≠ 0 ∧ e.index ≠ 0 := by
  cases es with
  | null count => cases he
  | arr xs =>
    have hne : (Ptr.arr xs).count ≠ 0 := by
      intro h0
      rw [Ptr.count, length_eq_zero_iff] at h0
      rw [h0] at he
      cases he
    unfold appendEntriesValid at h
    split_ifs at h
    exact entriesShapeValid_mem h he

/-- The request finds room for its stash wherever the reply of an earlier one is
still to be sent. -/
def Node.Stashes (n : Node) (env : Env) (t : Nat) (es : Ptr Entry) : Prop :=
  n.currentTerm ≤ t → n.step = .aeAppend → es.elems ≠ [] →
    entriesBufferAlloc env .stash es.elems.length (payloadTotal es.elems) = true

/-- An `AppendEntries` request. -/
theorem recvAppendEntries_shapes (h : Poised strict n) (hstep : StepShape strict n)
    {sender : Id} (hp : sender ∈ n.peers) {p q c : Nat}
    (hvalid : appendEntriesValid p es n.maxAppendEntries n.maxAppendBytes = true)
    (hroom : strict → n.Stashes env t es) :
    Shapes strict n.counters (recvAppendEntries env n sender t p q c es) := by
  unfold recvAppendEntries
  by_cases hlt : t < n.currentTerm
  · rw [if_pos hlt]
    exact sendAeFailure_shapes h hstep hp _
  rw [if_neg hlt]
  by_cases hlead : (decide (t = n.currentTerm) && decide (n.role = .leader)) = true
  · rw [if_pos hlead]
    exact h.rest hstep _
  rw [if_neg hlead]
  have hq := h.noAction
  have hstash : ∀ entries, StepShape False
      { n with
        aePrevIndex := p
        aePrevTerm := q
        aeLeaderCommit := c
        aeLeaderId := sender
        aeMatchIndex := p
        aeTruncateFirst := 0
        aeConflictTerm := 0
        aeConflictIndex := 0
        aeAppendOffset := 0
        aeReplySuccess := false
        pendingEntries := entries } := by
    intro entries
    have hloose := hstep.loose
    unfold StepShape at hloose ⊢
    cases hs : n.step with
    | leaderAppend | aeTruncate | apply =>
      rw [hs] at hloose
      exact absurd hloose.1 (by simp [hq])
    | aeHardState =>
      rw [hs] at hloose
      exact ⟨hloose.1, hp, rfl, rfl⟩
    | aeAppend =>
      rw [hs] at hloose
      exact ⟨hloose.1, nofun⟩
    | _ =>
      rw [hs] at hloose
      exact hloose
  have hentries : ∀ e ∈ es.elems.map entryStore, e.term ≠ 0 ∧ e.index ≠ 0 := by
    intro e he
    obtain ⟨e', he', rfl⟩ := mem_map.1 he
    have hpos := appendEntriesValid_mem hvalid he'
    exact hpos
  unfold aeStash
  rcases entriesStash_shape env
    { n with
      aePrevIndex := p
      aePrevTerm := q
      aeLeaderCommit := c
      aeLeaderId := sender
      aeMatchIndex := p
      aeTruncateFirst := 0
      aeConflictTerm := 0
      aeConflictIndex := 0
      aeAppendOffset := 0
      aeReplySuccess := false } es.elems with hok | ⟨hno, hne, hfull⟩
  · rw [hok, Ret.andThen_ok]
    have hc := h.request hentries sender p q c p 0 0 0 0 false
    simp only
    by_cases hgt : t > n.currentTerm
    · rw [if_pos hgt]
      have hc' := hc.toSteady.demote .aeHardState n.electionElapsed n.electionTimeout idNone
      exact followHardState_shapes hc' hq rfl ⟨nofun, hp, rfl, rfl⟩
    · rw [if_neg hgt]
      have hr : n.role ≠ .leader := by
        intro hr
        have heq : t = n.currentTerm := by omega
        simp [hr, heq] at hlead
      exact aeProcess_shapes hc hr (hstash _) hp rfl rfl
  · rw [hno, Ret.andThen_of_ne (by simp)]
    have hnil : ∀ e ∈ ([] : List Entry), e.term ≠ 0 ∧ e.index ≠ 0 := nofun
    have hc := h.request hnil sender p q c p 0 0 0 0 false
    refine hc.rest ?_ _
    unfold StepShape at hstep ⊢
    cases hs : n.step with
    | leaderAppend | aeTruncate | apply =>
      rw [hs] at hstep
      exact absurd hstep.1 (by simp [hq])
    | aeAppend =>
      rw [hs] at hstep
      refine ⟨hstep.1, fun hk => ?_⟩
      rw [hroom hk (Nat.le_of_not_lt hlt) hs hne] at hfull
      cases hfull
    | aeHardState =>
      rw [hs] at hstep
      exact ⟨hstep.1, hp, rfl, rfl⟩
    | _ =>
      rw [hs] at hstep
      exact hstep

/-! ## Acknowledgements -/

theorem acked_eq (n : Node) : ∃ t v, acked n =
      { n with hasAction := false, currentTerm := t, votedFor := v } ∧
    (t = n.nextTerm ∨ n.hasAction = false) ∧
    (n.action.body = .hardState ⟨t, v⟩ ∨ (t = n.currentTerm ∧ v = n.votedFor)) := by
  unfold acked applyHardState Node.nextTerm
  cases hb : n.action.body with
  | hardState st => exact ⟨st.currentTerm, st.votedFor, rfl, by
      cases n.hasAction <;> simp [applyHardState, hb], .inl rfl⟩
  | _ => exact ⟨n.currentTerm, n.votedFor, rfl, by
      cases n.hasAction <;> simp [applyHardState, hb], .inr ⟨rfl, rfl⟩⟩

theorem Shaped.poised (h : Shaped strict n) (ha : n.hasAction = true) (hf : n.faulted = false)
    (v : Id) (ht : t = n.nextTerm ∨ n.hasAction = false) :
    Poised strict { n with hasAction := false, currentTerm := t, votedFor := v } :=
  { h.toSteady with
    noAction := rfl
    running := hf
    term := fun hr => by
      rcases ht with rfl | hq
      · exact h.term hf hr
      · rw [ha] at hq
        cases hq }

theorem applyAck_shapes (h : Poised strict n)
    (hafter : n.afterApply = .none ∨ (n.afterApply = .aeReply ∧ (strict → n.Acks))) :
    Shapes strict n.counters (applyAck env n (resumeFuel env 2)) := by
  unfold applyAck
  simp only
  have hc : ∀ step after, Poised strict
      { n with
        appliedIndex := u64Inc n.appliedIndex
        step := step
        afterApply := after } := fun _ _ => { h with }
  have happlied := applyNext_applied env
    { n with
      appliedIndex := u64Inc n.appliedIndex
      step := .none }
  generalize applyNext env
    { n with
      appliedIndex := u64Inc n.appliedIndex
      step := .none } = r at happlied
  cases happlied with
  | idle =>
    rw [Ret.andThen_ok, if_neg (by simp)]
    rcases hafter with hnone | ⟨hreply, hacks⟩
    · rw [hnone]
      exact (hc .none .none).rest trivial _
    · rw [hreply]
      exact aeSendReply_shapes (hc .aeReply .none) fun hk _ => (hacks hk).reply
  | starved =>
    rw [Ret.andThen_of_ne (by simp)]
    exact (hc .none n.afterApply).rest trivial _
  | fault rc hrc =>
    rw [Ret.andThen_of_ne (by simpa using hrc)]
    exact (hc .none n.afterApply).fault rc
  | started e =>
    rw [Ret.andThen_ok, if_pos rfl]
    have hc' := hc .none n.afterApply
    exact hc'.toSteady.act (.apply e) .apply hc'.term ⟨rfl, hafter⟩ trivial _

/-- The shape of what goes on once the term and the vote are durable. -/
theorem resume_shapes (hstep : StepShape strict n) (hd : strict → d.Positive) {v : Id}
    (h : Poised strict { n with hasAction := false, currentTerm := t, votedFor := v }) :
    Shapes strict { n.counters with term := t }
      (resume (s.env d) { n with hasAction := false, currentTerm := t, votedFor := v }) := by
  obtain ⟨m, hm⟩ : ∃ m : Node, m = { n with hasAction := false, currentTerm := t, votedFor := v } :=
    ⟨_, rfl⟩
  have hstay : m.step = n.step := by rw [hm]
  rw [← hm] at h ⊢
  unfold StepShape at hstep
  cases hs : n.step with
  | none =>
    rw [resume_none (hstay.trans hs)]
    subst hm
    exact (h.relabel .none n.peerCursor n.electionElapsed n.electionTimeout
      n.heartbeatElapsed).rest trivial _
  | stepDown =>
    rw [resume_stepDown (hstay.trans hs)]
    subst hm
    exact (h.relabel .none n.peerCursor n.electionElapsed n.electionTimeout
      n.heartbeatElapsed).rest trivial _
  | electionBroadcast =>
    rw [hs] at hstep
    rw [resume_electionBroadcast (hstay.trans hs)]
    subst hm
    exact electionSendNext_shapes h hd hstep.2
  | voteResponse =>
    rw [hs] at hstep
    rw [resume_voteResponse (hstay.trans hs)]
    subst hm
    exact voteResponseSend_shapes h hstep
  | leaderBroadcast =>
    rw [hs] at hstep
    rw [resume_leaderBroadcast (hstay.trans hs)]
    subst hm
    exact leaderBroadcastNext_shapes h hd hstep
  | leaderAppend =>
    rw [hs] at hstep
    rw [resume_leaderAppend (hstay.trans hs)]
    subst hm
    exact leaderAfterAppend_shapes h hd hstep.2.1 hstep.2.2
  | aeHardState =>
    rw [hs] at hstep
    rw [resume_aeHardState (hstay.trans hs)]
    subst hm
    obtain ⟨hr, hp, hct, hci⟩ := hstep
    refine aeProcess_shapes h hr ?_ hp hct hci
    unfold StepShape
    simp only [hs]
    exact ⟨hr, hp, hct, hci⟩
  | aeTruncate =>
    rw [hs] at hstep
    rw [resume_aeTruncate (hstay.trans hs)]
    subst hm
    exact aeAfterTruncate_shapes h hd hstep.2.1 hstep.2.2.1 hstep.2.2.2
  | aeAppend =>
    rw [hs] at hstep
    have hstay' := hstay.trans hs
    rw [resume_aeAppend hstay']
    subst hm
    exact aeAfterAppend_shapes h hd hstep.1 hstay' hstep.2
  | aeReply =>
    rw [hs] at hstep
    exact hstep.elim
  | apply =>
    rw [hs] at hstep
    rw [resume_apply (hstay.trans hs)]
    subst hm
    exact applyAck_shapes h hstep.2

theorem actionDone_shapes (h : Shaped strict n) (hd : strict → d.Positive) (id : Nat)
    (result : ActionResult) : Shapes strict n.counters (actionDone (s.env d) n id result) := by
  have hsame : ∀ rc, Shapes strict n.counters (rc, n) := fun _ => ⟨h, .refl _⟩
  unfold actionDone
  by_cases hf : n.faulted = true
  · rw [if_pos hf]
    exact hsame _
  rw [if_neg hf]
  by_cases hq : n.hasAction = false
  · rw [if_pos hq]
    exact hsame _
  rw [if_neg hq]
  by_cases hid : id ≠ n.action.id
  · rw [if_pos hid]
    exact hsame _
  rw [if_neg hid]
  by_cases hvalid : actionResultValid n.action result = false
  · rw [if_pos hvalid]
    exact hsame _
  rw [if_neg hvalid]
  by_cases hfatal : result = .fatal
  · rw [if_pos hfatal]
    refine ⟨?_, .refl _⟩
    exact
      { h.toSteady with
        term := fun hf => by cases hf
        step := fun hf => by cases hf
        action := h.action }
  rw [if_neg hfatal]
  rw [Bool.not_eq_true] at hf
  rw [Bool.not_eq_false] at hq
  obtain ⟨t, v, hacked, ht, hbody⟩ := acked_eq n
  unfold acked at hacked
  rw [hacked]
  have hs : Shapes strict _ _ := resume_shapes (s := s) (h.step hf) hd (h.poised hq hf v ht)
  refine ⟨hs.ok, ?_⟩
  -- A leader never waits for a hard state, so its term stays.
  rcases hbody with hhard | ⟨rfl, -⟩
  · have hr := h.action hq
    rw [hhard] at hr
    exact hs.next.of_not_leader hr hr
  · exact hs.next

/-! ## Received messages -/

/-- The events whose `AppendEntries` requests find room for their stash. -/
def Node.Holds (n : Node) (s : Supply) (d : Disk) : Event → Prop
  | .recv ⟨sender, receiver, .appendEntries t p q c es⟩ =>
    n.Takes ⟨sender, receiver, .appendEntries t p q c es⟩ → n.Stashes (s.env d) t es
  | _ => True

theorem recv_shapes (h : Shaped strict n) (hd : strict → d.Positive) {m : Message}
    (hroom : strict → n.Holds s d (.recv m)) :
    ∃ p, n.Responds d.store (.recv m) p ∧ Shapes strict p (recv (s.env d) n m) := by
  have hsame : ∀ rc, ∃ p, n.Responds d.store (.recv m) p ∧ Shapes strict p (rc, n) :=
    fun _ => ⟨_, .same _, h, .refl _⟩
  unfold recv
  by_cases hf : n.faulted = true
  · rw [if_pos hf]
    exact hsame _
  rw [if_neg hf]
  by_cases hq : n.hasAction = true
  · rw [if_pos hq]
    exact hsame _
  rw [if_neg hq]
  by_cases hv : msgEnvelopeValid n m = false
  · rw [if_pos hv]
    exact hsame _
  rw [if_neg hv]
  rw [Bool.not_eq_true] at hf hq
  rw [Bool.not_eq_false] at hv
  have hc : Poised strict n :=
    { h.toSteady with
      noAction := hq
      running := hf
      term := fun hr => by
        have := h.term hf hr
        rwa [Node.nextTerm, if_neg (by simp [hq])] at this }
  have hstep := h.step hf
  have hp := h.toConfigured.sender_peer hv
  have hbody := msgEnvelopeValid_body hv
  cases hb : m.body with
  | requestVote t i u => exact ⟨_, .same _, recvRequestVote_shapes hc hstep hp t i u⟩
  | requestVoteResponse t g => exact ⟨_, .same _, recvVoteResponse_shapes hc hd hstep _ t g⟩
  | appendEntries t p q c es =>
    rw [hb] at hbody
    refine ⟨_, .same _, recvAppendEntries_shapes hc hstep hp hbody fun hk => ?_⟩
    obtain ⟨sender, receiver, body⟩ := m
    simp only at hb
    subst hb
    exact hroom hk ⟨hf, hq, hv⟩
  | appendEntriesResponse t success matched ct ci =>
    exact recvAeResponse_shapes hd hstep hc ⟨hf, hq, hv⟩ hb
  | unknown ty =>
    rw [hb] at hbody
    cases hbody

end Raft89
