import EightyNine.Raft89.LeaderOk

/-!
# libraft89: AppendEntries keeps the invariant

A scan of the stash finds how far the durable log agrees with it (`ScanOk`).
The log is cut there, the rest of the stash is appended, and the commit index
moves no further than the agreement reaches.
-/

namespace Raft89

open List Nat

variable {me : Id} {members : List Id} {d : Disk} {V : View me members d.log} {n : Node}
  {s : Supply}

/-! ## Replies -/

theorem Calm.request (h : Calm V n) (r : Slice)
    (matchIndex truncateFirst conflictTerm conflictIndex offset : Nat) (success : Bool) :
    Calm V { n with
      aeLeaderId := r.leader
      aePrevIndex := r.prevIndex
      aePrevTerm := r.prevTerm
      aeLeaderCommit := r.commit
      pendingEntries := r.entries
      aeMatchIndex := matchIndex
      aeTruncateFirst := truncateFirst
      aeConflictTerm := conflictTerm
      aeConflictIndex := conflictIndex
      aeAppendOffset := offset
      aeReplySuccess := success } where
  base := { h.base with }
  noAction := h.noAction
  running := h.running
  hard := { h.hard with }
  log := { h.log with }
  candidate hr := { h.candidate hr with }

theorem aeSendReply_after (h : Calm V n) (hd : n.appliedIndex = n.commitIndex)
    (hr : ReplyOk V d n) : After V n.mark (aeSendReply n) := by
  have hc := h.unstep
  refine emitSend_none_after hc hd ⟨h.base.me_eq, fun hne => ?_⟩ rfl
  cases hs : n.aeReplySuccess with
  | false =>
    simp only [hs] at hne
    exact absurd rfl hne
  | true => exact ⟨h.hard.term, hr.le hs, hr.agrees hs⟩

theorem sendAeFailure_after (h : Calm V n) (hd : n.appliedIndex = n.commitIndex)
    (hstep : StepOk d n) (leader : Id) (t : Nat) :
    After V n.mark (sendAeFailure n leader t) :=
  emitSend_after h hd ⟨h.base.me_eq, fun hne => absurd rfl hne⟩ (hstep.begun h _)

/-! ## Finishing a request -/

/-- The commit index follows the leader's as far as the logs agree. -/
theorem aeFinish_after (h : Calm V n) (hd : n.appliedIndex = n.commitIndex)
    (hslice : V.slice n.currentTerm n.slice) (hstep : n.step ≠ .apply)
    (hr : ReplyOk V d n) (hok : n.aeReplySuccess = true)
    (hm : (aeFinish (s.env d) n).1 ≠ .errNomem) : After V n.mark (aeFinish (s.env d) n) := by
  unfold aeFinish at hm ⊢
  simp only at hm ⊢
  have hc : Calm V (entriesClear n) := h.stash []
  have hr' : ReplyOk V d (entriesClear n) := ⟨hr.le, hr.agrees⟩
  have hcov : V.covered n.currentTerm
      (min (min n.aeLeaderCommit n.lastLogIndex) n.aeMatchIndex) :=
    V.cover_follow hslice (hr.agrees hok)
      (Nat.le_trans (min_le_left _ _) (min_le_left _ _)) (min_le_right _ _)
  rcases advanceCommit_cases (s := s) hc
    (k := min (min n.aeLeaderCommit n.lastLogIndex) n.aeMatchIndex)
    (Nat.le_trans (min_le_left _ _) (min_le_right _ _)) hcov
    .aeReply (.inr ⟨rfl, hr'⟩) with hno | ⟨-, hsame⟩ | ⟨hs, ha⟩
  · rw [Ret.andThen_of_ne (by rw [hno]; decide)] at hm
    exact absurd hno hm
  · rw [hsame, Ret.andThen_ok, if_neg (show (entriesClear n).step ≠ .apply from hstep)]
    exact aeSendReply_after hc hd hr'
  · by_cases hrc : (advanceCommit (s.env d) (entriesClear n)
      (min (min n.aeLeaderCommit n.lastLogIndex) n.aeMatchIndex) .aeReply).1 = .ok
    · rw [Ret.andThen, if_pos hrc, if_pos (hs.resolve_right (fun hne => hne hrc))]
      exact ⟨ha.ok, ha.fresh, ha.applied, ha.commit⟩
    · rw [Ret.andThen_of_ne hrc]
      exact ha

/-! ## Appending the rest of the stash -/

/-- The part of a request that is left once the log agrees with the leader's up
to entry `offset` of the stash. -/
structure Rest (V : View me members d.log) (n : Node) : Prop where
  stash : StashOk V n.currentTerm n
  offset : n.aeAppendOffset ≤ n.pendingEntries.length
  last : n.lastLogIndex = n.aePrevIndex + n.aeAppendOffset
  agrees : V.agrees n.currentTerm (n.aePrevIndex + n.aeAppendOffset)
  matched : n.aeMatchIndex = n.aePrevIndex + n.pendingEntries.length
  success : n.aeReplySuccess = true

theorem aeEmitAppend_after (h : Calm V n) (hd : n.appliedIndex = n.commitIndex)
    (hrole : n.role = .follower) (hr : Rest V n) (hstep : n.step ≠ .apply)
    (hm : (aeEmitAppend (s.env d) n).1 ≠ .errNomem) :
    After V n.mark (aeEmitAppend (s.env d) n) := by
  unfold aeEmitAppend at hm ⊢
  rw [Node.pendingCount] at hm ⊢
  have hoff := hr.offset
  have hlen : d.log.length = n.aePrevIndex + n.aeAppendOffset := by
    rw [← h.log.index, hr.last]
  by_cases hz : n.pendingEntries.length - n.aeAppendOffset = 0
  · rw [if_pos hz] at hm ⊢
    have hmatch : n.aeMatchIndex = n.aePrevIndex + n.aeAppendOffset := by
      rw [hr.matched]
      omega
    exact aeFinish_after h hd hr.stash.slice hstep
      ⟨fun _ => by omega, fun _ => by rw [hmatch]; exact hr.agrees⟩ hr.success hm
  · rw [if_neg hz] at hm ⊢
    have hlt : n.aeAppendOffset < n.pendingEntries.length := by omega
    have hcont : V.continues n.currentTerm (n.pendingEntries.drop n.aeAppendOffset) :=
      V.continue_from hr.stash.slice hr.agrees hlen hoff
    have hrange := hr.stash.range (fun h0 => by rw [h0] at hlt; simp at hlt)
    have hlast := hr.last
    rcases actionBegin_cases n (.logAppend (n.pendingEntries.drop n.aeAppendOffset))
      with hf | hok
    · rw [hf, Ret.andThen_of_ne (by simp)]
      exact h.fault _
    · rw [hok, Ret.andThen_ok]
      refine after_busy ?_ rfl ?_ (lt_succ_self _) rfl (le_refl _) _
      · exact { h.base with }
      exact
        { hard := ⟨h.hard.term, h.hard.vote⟩
          written := zero_le _
          nonempty := by
            rw [Ne, drop_eq_nil_iff]
            omega
          length := h.log.index.symm
          tail := by
            simp only [begun, take_zero, map_nil, drop_eq_nil_iff]
            exact le_of_eq h.log.index.symm
          range := by
            simp only [begun]
            rw [length_drop]
            omega
          drained := hd
          next := ⟨hrole, rfl, hlt, hr.last, hr.matched, hr.success,
            ⟨hr.stash.slice, hr.stash.range⟩, hcont⟩ }

/-! ## Scanning the stash -/

/-- What a scan from entry `i` on finds in a log of length `len`. -/
def ScanOk (V : View me members d.log) (t prev : Nat) (entries : List Entry) : Scan → Prop
  | .same =>
    prev + entries.length ≤ d.log.length ∧ V.agrees t (prev + entries.length)
  | .missing offset =>
    offset < entries.length ∧ d.log.length = prev + offset ∧ V.agrees t (prev + offset)
  | .conflict first offset =>
    offset < entries.length ∧ first = prev + offset + 1 ∧ first ≤ d.log.length ∧
      V.agrees t (prev + offset) ∧ V.splits t first

theorem aeScan_ok {t : Nat} {r : Slice} (hslice : V.slice t r)
    (hrange : r.entries ≠ [] → r.prevIndex + r.entries.length ≤ u64Max) :
    ∀ (es : List Entry) (i : Nat), r.entries.drop i = es → i ≤ r.entries.length →
      r.prevIndex + i ≤ d.log.length → V.agrees t (r.prevIndex + i) → ∀ {scan : Scan},
      aeScan d.store r.prevIndex d.log.length i es = some scan →
      ScanOk V t r.prevIndex r.entries scan
  | [], i, hdrop, hi, hle, hag, scan, h => by
    have heq : i = r.entries.length := by
      have := drop_eq_nil_iff.1 hdrop
      omega
    simp only [aeScan, Option.some.injEq] at h
    subst h
    exact ⟨by rw [← heq]; exact hle, by rw [← heq]; exact hag⟩
  | e :: es, i, hdrop, hi, hle, hag, scan, h => by
    have hlt : i < r.entries.length := by
      by_contra hge
      rw [drop_eq_nil_of_le (by omega)] at hdrop
      cases hdrop
    have hget : r.entries[i]? = some e := by
      rw [← head?_drop, hdrop]
      rfl
    have hmax := hrange (fun h0 => by rw [h0] at hlt; simp at hlt)
    unfold aeScan at h
    have hidx : u64Add (u64Add r.prevIndex 1) i = r.prevIndex + i + 1 := by
      rw [u64Add_of_le (a := r.prevIndex) (by omega), u64Add_of_le (by omega)]
      omega
    simp only [hidx] at h
    by_cases hgt : r.prevIndex + i + 1 > d.log.length
    · rw [if_pos hgt, Option.some.injEq] at h
      subst h
      exact ⟨hlt, by omega, hag⟩
    · rw [if_neg hgt, store_logTerm_pos d (succ_pos _)] at h
      obtain ⟨u, hu⟩ := @termAt_isSome d.log (r.prevIndex + i + 1) (by omega)
      rw [hu] at h
      simp only at h
      by_cases hterm : u = e.term
      · rw [if_pos hterm] at h
        have hnext := V.agree_next hslice hag hget (hterm ▸ hu)
        refine aeScan_ok hslice hrange es (i + 1) ?_ hlt (by omega) hnext h
        rw [← drop_drop, hdrop]
        rfl
      · rw [if_neg hterm, Option.some.injEq] at h
        subst h
        exact ⟨hlt, rfl, by omega, hag, V.split_at hslice hag hget hu hterm⟩

/-! ## Processing a request -/

theorem aePrefixMatches_ok (hslice : V.slice n.currentTerm n.slice)
    (hm : aePrefixMatches d.store n = some true) :
    n.aePrevIndex ≤ d.log.length ∧ V.agrees n.currentTerm n.aePrevIndex := by
  unfold aePrefixMatches at hm
  by_cases h0 : n.aePrevIndex = 0
  · refine ⟨by omega, ?_⟩
    have := V.agree_first hslice h0
    rw [h0]
    exact this
  rw [if_neg h0] at hm
  by_cases hgt : n.aePrevIndex > n.lastLogIndex
  · rw [if_pos hgt] at hm
    cases hm
  rw [if_neg hgt, store_logTerm_pos d (by omega), Option.map_eq_some_iff] at hm
  obtain ⟨u, hu, hterm⟩ := hm
  rw [of_decide_eq_true hterm] at hu
  exact ⟨termAt_le hu, V.agree_start hslice hu⟩

/-- Repairing the log from a request whose previous entry is present. -/
theorem aeApplyEntries_after (h : Calm V n) (hd : n.appliedIndex = n.commitIndex)
    (hrole : n.role = .follower) (hstash : StashOk V n.currentTerm n)
    (hprev : aePrefixMatches d.store n = some true)
    (hmatch : n.aeMatchIndex = n.aePrevIndex + n.pendingEntries.length)
    (hsucc : n.aeReplySuccess = true) (hstep : n.step = .none ∨ n.step = .aeHardState)
    (hm : (aeApplyEntries (s.env d) n).1 ≠ .errNomem) :
    After V n.mark (aeApplyEntries (s.env d) n) := by
  have hne : n.step ≠ .apply := by
    rcases hstep with hstep | hstep <;> rw [hstep] <;> decide
  obtain ⟨hle, hag⟩ := aePrefixMatches_ok hstash.slice hprev
  have hscan := @aeScan_ok me members d V n.currentTerm n.slice hstash.slice hstash.range
    n.pendingEntries 0 rfl (zero_le _) hle hag
  unfold aeApplyEntries at hm ⊢
  have hstore : (s.env d).store = d.store := rfl
  rw [hstore] at hm ⊢
  cases hres : aeScan d.store n.aePrevIndex n.lastLogIndex 0 n.pendingEntries with
  | none => exact h.storeFault
  | some scan =>
    have hok := hscan (by rw [← h.log.index]; exact hres)
    rw [hres] at hm
    cases scan with
    | same =>
      exact aeFinish_after h hd hstash.slice hne
        ⟨fun _ => by rw [hmatch]; exact hok.1, fun _ => by rw [hmatch]; exact hok.2⟩ hsucc hm
    | missing offset =>
      obtain ⟨hlt, hlen, hagree⟩ := hok
      have hc := h.request n.slice n.aeMatchIndex 0 n.aeConflictTerm n.aeConflictIndex offset
        n.aeReplySuccess
      exact aeEmitAppend_after hc hd hrole
        { stash := ⟨hstash.slice, hstash.range⟩
          offset := le_of_lt hlt
          last := h.log.index.trans hlen
          agrees := hagree
          matched := hmatch
          success := hsucc } hne hm
    | conflict first offset =>
      obtain ⟨hlt, hfirst, hlen, hagree, hsplit⟩ := hok
      have hc := h.request n.slice n.aeMatchIndex first n.aeConflictTerm n.aeConflictIndex
        offset n.aeReplySuccess
      simp only at hm ⊢
      rw [if_neg (by omega)] at hm ⊢
      by_cases hcommit : first ≤ n.commitIndex
      · rw [if_pos (by exact hcommit)]
        refine hc.after ?_ hd rfl (le_refl _) _
        rcases hstep with hnone | hhard
        · simp [StepOk, hnone]
        · simp only [StepOk, hhard]
          exact ⟨hprev, first, offset, hres, by omega, hcommit⟩
      · rw [if_neg (by exact hcommit)]
        unfold emitLogTruncate
        have hc' := hc.relabel .aeTruncate n.peerCursor n.electionElapsed n.electionTimeout
          n.heartbeatElapsed n.leaderId
        rcases actionBegin_cases
          { n with
            aeTruncateFirst := first
            aeAppendOffset := offset
            step := .aeTruncate } (.logTruncate first) with hf | hbegin
        · rw [hf]
          exact hc'.fault _
        · rw [hbegin]
          refine after_busy ?_ rfl ?_ (lt_succ_self _) rfl (le_refl _) _
          · exact { hc'.base with }
          exact
            { hard := ⟨h.hard.term, h.hard.vote⟩
              step := rfl
              role := hrole
              first_eq := rfl
              first_pos := by omega
              above := Nat.lt_of_not_le hcommit
              first_le := by
                simp only [begun]
                rw [h.log.index]
                exact hlen
              lower := by omega
              upper := le_of_eq h.log.index.symm
              place := hfirst
              offset := hlt
              matchIndex := hmatch
              success := hsucc
              stash := ⟨hstash.slice, hstash.range⟩
              agrees := by
                rw [hfirst]
                exact hagree
              splits := fun _ => hsplit
              drained := hd }

/-- The rejection of a request whose previous entry is missing. -/
theorem replyPrefixFailure_after (h : Calm V n) (hd : n.appliedIndex = n.commitIndex) :
    After V n.mark (replyPrefixFailure (s.env d) n) := by
  unfold replyPrefixFailure conflictHints
  simp only
  have hreply : ∀ ct ci, After V n.mark (aeSendReply
      { n with
        aeReplySuccess := false
        aeMatchIndex := 0
        aeConflictTerm := ct
        aeConflictIndex := ci }) := fun ct ci =>
    aeSendReply_after (h.request n.slice 0 n.aeTruncateFirst ct ci n.aeAppendOffset false) hd
      ⟨nofun, nofun⟩
  have hfault : ∀ ct, After V n.mark (storeFault
      { n with
        aeReplySuccess := false
        aeMatchIndex := 0
        aeConflictTerm := ct }) := fun ct =>
    (h.request n.slice 0 n.aeTruncateFirst ct n.aeConflictIndex n.aeAppendOffset
      false).storeFault
  by_cases hgt : n.aePrevIndex > n.lastLogIndex
  · rw [if_pos hgt, Ret.andThen_ok]
    exact hreply _ _
  rw [if_neg hgt]
  cases hterm : (s.env d).store.logTerm n.aePrevIndex with
  | none =>
    simp only
    rw [Ret.andThen_of_ne (by simp [storeFault])]
    exact hfault _
  | some term =>
    simp only
    cases hfirst : conflictFirst (s.env d).store term n.aePrevIndex with
    | none =>
      simp only
      rw [Ret.andThen_of_ne (by simp [storeFault])]
      exact hfault _
    | some first =>
      simp only
      rw [Ret.andThen_ok]
      exact hreply _ _

/-- A follower checks the previous entry and repairs its log or rejects. -/
theorem aeChecked_after (h : Calm V n) (hd : n.appliedIndex = n.commitIndex)
    (hrole : n.role = .follower) (hstash : StashOk V n.currentTerm n)
    (hstep : n.step = .none ∨ n.step = .aeHardState) {r : Ret}
    (hr : r = match aePrefixMatches d.store n with
      | none => storeFault n
      | some false => replyPrefixFailure (s.env d) n
      | some true =>
        aeApplyEntries (s.env d) { n with
          aeReplySuccess := true
          aeMatchIndex := u64Add n.aePrevIndex n.pendingCount })
    (hm : r.1 ≠ .errNomem) : After V n.mark r := by
  cases hp : aePrefixMatches d.store n with
  | none =>
    rw [hr, hp]
    exact h.storeFault
  | some b =>
    cases b with
    | false =>
      rw [hr, hp]
      exact replyPrefixFailure_after h hd
    | true =>
      rw [hr, hp] at hm
      rw [hr, hp]
      have hle := (aePrefixMatches_ok hstash.slice hp).1
      have hmatch : u64Add n.aePrevIndex n.pendingCount =
          n.aePrevIndex + n.pendingEntries.length := by
        apply u64Add_of_le
        by_cases hnil : n.pendingEntries = []
        · have := h.base.index_le
          rw [h.log.index] at this
          rw [Node.pendingCount, hnil, length_nil]
          omega
        · exact hstash.range hnil
      have hc := h.request n.slice (u64Add n.aePrevIndex n.pendingCount) n.aeTruncateFirst
        n.aeConflictTerm n.aeConflictIndex n.aeAppendOffset true
      exact aeApplyEntries_after hc hd hrole ⟨hstash.slice, hstash.range⟩ hp hmatch rfl hstep hm

theorem aeProcess_after (h : Calm V n) (hd : n.appliedIndex = n.commitIndex)
    (hstash : StashOk V n.currentTerm n) (hstep : n.step = .none ∨ n.step = .aeHardState)
    (hm : (aeProcess (s.env d) n).1 ≠ .errNomem) : After V n.mark (aeProcess (s.env d) n) :=
  aeChecked_after (s := s) (h.demote 0 (pickTimeout (s.env d) n) n.aeLeaderId) hd rfl
    ⟨hstash.slice, hstash.range⟩ hstep rfl hm

/-! ## After a storage action -/

theorem aeUpdateLast_ok {n : Node} (i : Nat) (hi : i = d.log.length) :
    aeUpdateLast (s.env d) n i = (.ok,
      { n with
        lastLogIndex := d.log.length
        lastLogTerm := lastTerm d.log }) := by
  unfold aeUpdateLast
  subst hi
  by_cases h0 : d.log.length = 0
  · rw [if_pos h0]
    simp [lastTerm, termAt, h0]
  · rw [if_neg h0]
    obtain ⟨u, hu⟩ := termAt_isSome (le_refl d.log.length)
    have hload : (s.env d).store.logTerm d.log.length = some u := by
      rw [← hu]
      exact store_logTerm_pos d (by omega)
    rw [hload, lastTerm, hu]
    rfl

theorem aeAfterTruncate_after (hb : Base V n) (hq : n.hasAction = false)
    (hf : n.faulted = false) {first : Nat} (hp : TruncatePhase V d n first)
    (hdone : d.log.length < first)
    (hm : (aeAfterTruncate (s.env d) n).1 ≠ .errNomem) :
    After V n.mark (aeAfterTruncate (s.env d) n) := by
  have hpos := hp.first_pos
  have hlower := hp.lower
  have hlen : d.log.length = n.aePrevIndex + n.aeAppendOffset := by
    have := hp.place
    omega
  unfold aeAfterTruncate at hm ⊢
  have hdec : u64Dec n.aeTruncateFirst = d.log.length := by
    rw [hp.first_eq, u64Dec_of_pos hpos]
    omega
  rw [hdec, aeUpdateLast_ok _ rfl, Ret.andThen_ok] at hm ⊢
  have hc : Calm V
      { n with
        lastLogIndex := d.log.length
        lastLogTerm := lastTerm d.log } :=
    { base :=
        { hb with
          index_le := Nat.le_trans hp.upper hb.index_le
          commit_le := by
            have := hp.above
            simp only
            omega
          next := fun hr => by cases hp.role.symm.trans hr }
      noAction := hq
      running := hf
      hard := ⟨hp.hard.term, hp.hard.vote⟩
      log := ⟨rfl, rfl⟩
      candidate := fun hr => by cases hp.role.symm.trans hr }
  exact aeEmitAppend_after hc hp.drained hp.role
    { stash := ⟨hp.stash.slice, hp.stash.range⟩
      offset := le_of_lt hp.offset
      last := hlen
      agrees := by
        have hag := hp.agrees
        rw [hp.place] at hag
        exact hag
      matched := hp.matchIndex
      success := hp.success } (by simp [hp.step]) hm

/-- The whole stash is in the log; the request is finished. -/
theorem aeAfterAppend_after (hb : Base V n) (hq : n.hasAction = false)
    (hf : n.faulted = false) (entries : List Entry)
    (hp : AppendPhase V d n entries.length entries) (hstep : n.step = .aeAppend)
    (hm : (aeAfterAppend (s.env d) n).1 ≠ .errNomem) :
    After V n.mark (aeAfterAppend (s.env d) n) := by
  have hnext := hp.next
  rw [hstep] at hnext
  obtain ⟨hrole, hentries, hoff, hlast, hmatch, hsucc, hstash, hcont⟩ := hnext
  have hlen : d.log.length = n.aePrevIndex + n.pendingEntries.length := by
    have := hp.length
    rw [this, hlast, hentries, length_drop]
    omega
  have hrange := hstash.range (fun h0 => by rw [h0] at hoff; simp at hoff)
  have hag : V.agrees n.currentTerm d.log.length := by
    rw [drop_length] at hcont
    exact V.agree_end hcont
  unfold aeAfterAppend at hm ⊢
  have hidx : u64Add n.aePrevIndex n.pendingCount = d.log.length := by
    rw [hlen]
    exact u64Add_of_le hrange
  rw [hidx, aeUpdateLast_ok _ rfl, Ret.andThen_ok] at hm ⊢
  have hc : Calm V
      { n with
        lastLogIndex := d.log.length
        lastLogTerm := lastTerm d.log } :=
    { base :=
        { hb with
          index_le := by
            simp only
            omega
          commit_le := by
            have := hb.commit_le
            have := hp.length
            simp only
            omega
          next := fun hr => by cases hrole.symm.trans hr }
      noAction := hq
      running := hf
      hard := ⟨hp.hard.term, hp.hard.vote⟩
      log := ⟨rfl, rfl⟩
      candidate := fun hr => by cases hrole.symm.trans hr }
  exact aeFinish_after hc hp.drained hstash.slice (by simp [hstep])
    ⟨fun _ => le_of_eq (hmatch.trans hlen.symm),
      fun _ => by rw [hmatch, ← hlen]; exact hag⟩ hsucc hm

/-! ## Receiving a request -/

/-- Copying a request succeeds only when its size is representable. -/
theorem entriesStash_ok {env : Env} {src : List Entry} {r : Node}
    (h : entriesStash env n src = (.ok, r)) : src.length ≤ ulongMax := by
  unfold entriesStash at h
  simp only at h
  by_cases hz : src.length = 0
  · omega
  · rw [if_neg hz] at h
    unfold entriesBufferAlloc at h
    by_cases hbig : src.length > ulongMax / sizeofEntry
    · rw [if_pos hbig] at h
      cases h
    · exact Nat.le_trans (Nat.le_of_not_lt hbig) (Nat.div_le_self _ _)

theorem appendEntriesValid_range {p maxEntries maxBytes : Nat} {es : Ptr Entry}
    (h : appendEntriesValid p es maxEntries maxBytes = true) (hlen : es.elems.length ≤ ulongMax)
    (hne : es.elems ≠ []) : p + es.elems.length ≤ u64Max := by
  unfold appendEntriesValid at h
  have hpos : es.elems.length ≠ 0 := by
    rw [Ne, length_eq_zero_iff]
    exact hne
  cases es with
  | null n => exact absurd rfl hne
  | arr xs =>
    simp only [Ptr.elems] at hlen hpos ⊢
    by_cases h1 : (Ptr.arr xs).count > maxEntries
    · rw [if_pos h1] at h
      cases h
    by_cases h3 : p > u64Max - (Ptr.arr xs).count
    · rw [if_neg h1, if_neg (by exact hpos), if_neg (by simp [Ptr.isNull]), if_pos h3] at h
      cases h
    · simp only [Ptr.count] at h3
      have : ulongMax = u64Max := rfl
      omega

/-- An `AppendEntries` request. -/
theorem recvAppendEntries_after (h : Calm V n) (hd : n.appliedIndex = n.commitIndex)
    (hstep : StepOk d n) {sender : Id} {t p q c : Nat} {es : Ptr Entry} (hmax : t ≤ u64Max)
    (hvalid : appendEntriesValid p es n.maxAppendEntries n.maxAppendBytes = true)
    (hslice : V.slice t ⟨sender, p, q, c, es.elems.map entryStore⟩)
    (hm : (recvAppendEntries (s.env d) n sender t p q c es).1 ≠ .errNomem) :
    After V n.mark (recvAppendEntries (s.env d) n sender t p q c es) := by
  have hrest : n.step = .none ∨ n.step = .aeHardState := by
    unfold StepOk at hstep
    cases hs : n.step with
    | none => exact .inl rfl
    | aeHardState => exact .inr rfl
    | electionBroadcast | leaderBroadcast =>
      rw [hs] at hstep
      exact absurd hstep.1 (by simp [h.noAction])
    | _ => rw [hs] at hstep; exact hstep.elim
  unfold recvAppendEntries at hm ⊢
  by_cases hlt : t < n.currentTerm
  · rw [if_pos hlt]
    exact sendAeFailure_after h hd hstep _ _
  rw [if_neg hlt] at hm ⊢
  by_cases hlead : (decide (t = n.currentTerm) && decide (n.role = .leader)) = true
  · rw [if_pos hlead]
    exact h.after hstep hd rfl (le_refl _) _
  rw [if_neg hlead] at hm ⊢
  unfold aeStash at hm ⊢
  rcases entriesStash_cases (s.env d)
    { n with
      aePrevIndex := p
      aePrevTerm := q
      aeLeaderCommit := c
      aeLeaderId := sender
      aeMatchIndex := p
      aeTruncateFirst := 0
      aeConflictTerm := 0
      aeConflictIndex := 0
      aeAppendOffset := 0
      aeReplySuccess := false } es.elems with hno | hok
  · rw [Ret.andThen_of_ne (by rw [hno]; decide)] at hm
    exact absurd hno hm
  have hsize := entriesStash_ok hok
  rw [hok, Ret.andThen_ok] at hm ⊢
  have hc := h.request ⟨sender, p, q, c, es.elems.map entryStore⟩ p 0 0 0 0 false
  have hrange : es.elems.map entryStore ≠ [] →
      p + (es.elems.map entryStore).length ≤ u64Max := by
    intro hne
    rw [length_map]
    exact appendEntriesValid_range hvalid hsize fun h0 => hne (by rw [h0]; rfl)
  simp only at hm ⊢
  by_cases hgt : t > n.currentTerm
  · rw [if_pos hgt]
    unfold startAeHardState
    have hc' := (hc.demote n.electionElapsed n.electionTimeout idNone).relabel .aeHardState
      n.peerCursor n.electionElapsed n.electionTimeout n.heartbeatElapsed idNone
    exact emitHardState_after hc'
      { hard := .inl ⟨rfl, ⟨h.hard.term, h.hard.vote⟩⟩
        log := ⟨h.log.index, h.log.term⟩
        term_le := hmax
        advance := .inl hgt
        drained := hd
        next := ⟨rfl, rfl, hslice, hrange⟩ }
  · rw [if_neg hgt] at hm ⊢
    obtain rfl : t = n.currentTerm := by omega
    exact aeProcess_after hc hd ⟨hslice, hrange⟩ hrest hm

end Raft89
