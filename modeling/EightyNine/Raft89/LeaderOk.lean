import EightyNine.Library.Outcome
import EightyNine.Raft89.Calm

/-!
# libraft89: the leader's functions keep the invariant

A batch built for a peer is a segment of the durable log
(`buildLeaderAe_sendOk`), and an index found by the commit rule is held by a
majority (`countReplicated_majority`), so the log up to it is committed.
-/

namespace Raft89

open List Option

open Library (Majority bind_ok)

variable {me : Id} {members : List Id} {d : Disk} {V : View me members d.log} {n : Node}
  {s : Supply}

/-! ## Member positions -/

variable {id : Id}

theorem memberIndex_lt (h : id ∈ n.members) : memberIndex n id < n.members.length :=
  idxOf_lt_length_iff.2 h

theorem getElem?_memberIndex (h : id ∈ n.members) :
    n.members[memberIndex n id]? = some id := by
  rw [getElem?_eq_getElem (memberIndex_lt h)]
  simp [memberIndex]

/-! ## Batches -/

variable {i : Nat}

theorem logSize_store {size : Nat} (h : d.store.logSize i = some size) :
    ∃ e, entryAt d.log i = some e ∧ size = e.payload.length := by
  unfold Disk.store at h
  cases he : entryAt d.log i with
  | none => simp [he] at h
  | some e =>
    simp only [he, map_some, some.injEq] at h
    exact ⟨e, rfl, h.symm⟩

theorem outEntryFill_toLog {e : Entry} (hpos : 0 < i)
    (h : outEntryFill d.store i = some e) : entryAt d.log i = some e.toLog := by
  unfold outEntryFill at h
  cases hs : d.store.logSize i with
  | none =>
    rw [hs] at h
    cases hl : logTermAt d.store i <;> simp [hl] at h
  | some size =>
    obtain ⟨f, hf, rfl⟩ := logSize_store hs
    obtain ⟨hterm, -, hread⟩ := store_entry hf
    have hne : i ≠ 0 := by omega
    rw [show logTermAt d.store i = some f.term by simp [logTermAt, hne, hterm], hs] at h
    by_cases hz : f.payload.length = 0
    · simp only [hz, ne_eq, not_true_eq_false, if_false, some.injEq] at h
      rw [hf, ← h]
      obtain ⟨t, p⟩ := f
      simp only [length_eq_zero_iff] at hz
      subst hz
      rfl
    · simp only [ne_eq, hz, not_false_eq_true, if_true, hread, some.injEq] at h
      rw [hf, ← h]
      rfl

variable {first : Nat}

/-- The batch from index `first` on is a segment of the durable log. -/
theorem outEntriesFill_toLog (hpos : 0 < first) :
    ∀ {count : Nat} {entries : List Entry}, first + count ≤ u64Max + 1 →
      outEntriesFill d.store first count = some entries →
      entries.map Entry.toLog = (d.log.drop (first - 1)).take count ∧ entries.length = count
  | 0, entries, _, h => by
    simp only [outEntriesFill, some.injEq] at h
    subst h
    simp
  | count + 1, entries, hle, h => by
    unfold outEntriesFill at h
    cases hrec : outEntriesFill d.store first count with
    | none => simp [hrec] at h
    | some es =>
      obtain ⟨ih, hlen⟩ := outEntriesFill_toLog hpos (by omega) hrec
      rw [u64Add_of_le (by omega)] at h
      cases hf : outEntryFill d.store (first + count) with
      | none => simp [hrec, hf] at h
      | some e =>
        simp only [hrec, hf, some.injEq] at h
        subst h
        have he := outEntryFill_toLog (by omega) hf
        rw [show first + count = (first - 1 + count) + 1 by omega, entryAt_succ] at he
        refine ⟨?_, by simp [hlen]⟩
        rw [map_append, ih, take_add_one, getElem?_drop, he]
        rfl

variable {store : Store}

theorem shrinkToFit_le {maxBytes : Nat} :
    ∀ {count c t : Nat}, shrinkToFit store maxBytes first count = some (c, t) → c ≤ count
  | 0, c, t, h => by
    simp only [shrinkToFit, some.injEq, Prod.mk.injEq] at h
    omega
  | count + 1, c, t, h => by
    unfold shrinkToFit at h
    cases hsum : entrySum store first (count + 1) with
    | none => simp [hsum] at h
    | some total =>
      simp only [hsum] at h
      split at h
      · simp only [some.injEq, Prod.mk.injEq] at h
        omega
      · have := shrinkToFit_le h
        omega

variable {next c t : Nat}

theorem planBatch_count_le (hlast : n.lastLogIndex ≤ u64Max)
    (h : planBatch store n next = some (c, t)) : c ≤ u64Max := by
  unfold planBatch at h
  split at h
  · simp only [some.injEq, Prod.mk.injEq] at h
    omega
  · have hmin := shrinkToFit_le h
    have := u64Inc_le (a := n.lastLogIndex - next) (by omega)
    omega

theorem planBatch_le (hnext : next ≤ u64Max)
    (hdec : u64Dec next ≤ n.lastLogIndex) (hlast : n.lastLogIndex ≤ u64Max)
    (h : planBatch store n next = some (c, t)) (hc : c ≠ 0) :
    0 < next ∧ next + c ≤ n.lastLogIndex + 1 := by
  unfold planBatch at h
  split at h
  · simp only [some.injEq, Prod.mk.injEq] at h
    omega
  · rename_i hle
    have hmin := shrinkToFit_le h
    rcases Nat.eq_zero_or_pos next with rfl | hpos
    · rw [u64Dec_zero] at hdec
      have hmax : n.lastLogIndex = u64Max := by omega
      rw [hmax] at hmin
      rw [Nat.sub_zero, u64Inc_max] at hmin
      omega
    · have hlt : n.lastLogIndex - next < u64Max := by omega
      rw [u64Inc_of_lt hlt] at hmin
      omega

variable {α : Type} {rc : Result}

/-- A computation that fails did so in one of its parts. -/
theorem except_bind_error {β : Type} {x : Except Result α} {f : α → Except Result β}
    (h : x >>= f = .error rc) :
    x = .error rc ∨ ∃ a, x = .ok a ∧ f a = .error rc := by
  cases x with
  | error rc' => cases h; exact .inl rfl
  | ok a => exact .inr ⟨a, rfl, h⟩

variable {x : Option α}

theorem storeRead_ok {a : α} (h : storeRead x = .ok a) :
    x = some a := by
  cases x with
  | none => cases h
  | some b => cases h; rfl

theorem storeRead_error (h : storeRead x = .error rc) : rc = .errStore := by
  cases x with
  | none => cases h; rfl
  | some b => cases h

theorem u64ToSize_ok {v : Nat} (h : v ≤ u64Max) : u64ToSize v = .ok v := by
  rw [u64ToSize, if_neg (show ¬ v > ulongMax from not_lt_of_ge h)]

variable {env : Env} {count total : Nat}

theorem outEntriesBuild_ok {entries : List Entry}
    (h : outEntriesBuild env first count total = .ok entries) :
    (count = 0 ∧ entries = []) ∨
      (count ≠ 0 ∧ outEntriesFill env.store first count = some entries) := by
  unfold outEntriesBuild at h
  by_cases hc : count = 0
  · rw [if_pos hc, Except.ok.injEq] at h
    exact .inl ⟨hc, h.symm⟩
  · rw [if_neg hc] at h
    obtain ⟨size, -, h⟩ := bind_ok h
    by_cases ha : entriesBufferAlloc env .out size total = true
    · rw [if_pos ha] at h
      exact .inr ⟨hc, storeRead_ok h⟩
    · rw [if_neg ha] at h
      cases h

theorem outEntriesBuild_error
    (hcount : count ≤ u64Max) (h : outEntriesBuild env first count total = .error rc) :
    rc = .errStore ∨ rc = .errNomem := by
  unfold outEntriesBuild at h
  by_cases hc : count = 0
  · rw [if_pos hc] at h
    cases h
  · rw [if_neg hc, u64ToSize_ok hcount] at h
    rcases except_bind_error h with h | ⟨size, -, h⟩
    · cases h
    · by_cases ha : entriesBufferAlloc env .out size total = true
      · rw [if_pos ha] at h
        exact .inl (storeRead_error h)
      · rw [if_neg ha] at h
        cases h
        exact .inr rfl

variable {peer : Id} {m : Message}

theorem buildLeaderAe_ok (hnext : n.nextIndex.getD (memberIndex n peer) 0 = next)
    (h : buildLeaderAe env n peer = .ok m) :
    ∃ prevTerm c t entries, logTermAt env.store (u64Dec next) = some prevTerm ∧
      planBatch env.store n next = some (c, t) ∧
      outEntriesBuild env next c t = .ok entries ∧
      m = ⟨n.self, peer, .appendEntries n.currentTerm (u64Dec next) prevTerm n.commitIndex
        (.arr entries)⟩ := by
  unfold buildLeaderAe at h
  rw [hnext] at h
  obtain ⟨prevTerm, hterm, h⟩ := bind_ok h
  obtain ⟨⟨c, t⟩, hplan, h⟩ := bind_ok h
  obtain ⟨entries, hb, h⟩ := bind_ok h
  obtain ⟨size, -, h⟩ := bind_ok h
  cases h
  exact ⟨prevTerm, c, t, entries, storeRead_ok hterm, storeRead_ok hplan, hb, rfl⟩

theorem buildLeaderAe_error
    (hlast : n.lastLogIndex ≤ u64Max) (h : buildLeaderAe env n peer = .error rc) :
    rc = .errStore ∨ rc = .errNomem := by
  unfold buildLeaderAe at h
  rcases except_bind_error h with h | ⟨prevTerm, -, h⟩
  · exact .inl (storeRead_error h)
  rcases except_bind_error h with h | ⟨⟨c, t⟩, hplan, h⟩
  · exact .inl (storeRead_error h)
  have hc := planBatch_count_le hlast (storeRead_ok hplan)
  rcases except_bind_error h with h | ⟨entries, -, h⟩
  · exact outEntriesBuild_error hc h
  rcases except_bind_error h with h | ⟨size, -, h⟩
  · rw [u64ToSize_ok hc] at h
    cases h
  · cases h

/-- A built request says only what the durable log bears out. -/
theorem buildLeaderAe_sendOk (h : Calm V n) (hr : n.role = .leader)
    (hp : peer ∈ members) (hm : buildLeaderAe (s.env d) n peer = .ok m) :
    SendOk V d n m := by
  have hidx : memberIndex n peer < n.nextIndex.length := by
    rw [h.base.next_length, ← h.base.members_eq]
    exact memberIndex_lt (by rw [h.base.members_eq]; exact hp)
  have hmem : n.nextIndex.getD (memberIndex n peer) 0 ∈ n.nextIndex := by
    rw [getD_eq_getElem?_getD, getElem?_eq_getElem hidx]
    exact getElem_mem hidx
  obtain ⟨hmax, hdec⟩ := h.base.next hr _ hmem
  have hlast := h.base.index_le
  obtain ⟨prevTerm, c, t, entries, hterm, hplan, hb, rfl⟩ := buildLeaderAe_ok rfl hm
  generalize n.nextIndex.getD (memberIndex n peer) 0 = next at *
  have hseg : entries.map Entry.toLog <+: d.log.drop (u64Dec next) := by
    rcases outEntriesBuild_ok hb with ⟨-, rfl⟩ | ⟨hc, hfill⟩
    · exact nil_prefix
    · obtain ⟨hpos, hend⟩ := planBatch_le hmax hdec hlast hplan hc
      obtain ⟨hseg, -⟩ := outEntriesFill_toLog hpos (by omega) hfill
      rw [hseg, u64Dec_of_pos hpos]
      exact take_prefix _ _
  rw [show (s.env d).store = d.store from rfl, logTermAt_store] at hterm
  exact ⟨h.base.me_eq, h.hard.term, hr, hterm, hseg, rfl⟩

/-- `leaderSendTo` sends to a member. -/
theorem leaderSendTo_after (h : Calm V n) (hr : n.role = .leader)
    (hd : n.appliedIndex = n.commitIndex) (hstep : ∀ m, StepOk d (begun n (.send m)))
    (hp : peer ∈ members) (hm : (leaderSendTo (s.env d) n peer).1 ≠ .errNomem) :
    After V n.mark (leaderSendTo (s.env d) n peer) := by
  unfold leaderSendTo at hm ⊢
  cases hb : buildLeaderAe (s.env d) n peer with
  | ok m =>
    simp only
    exact emitSend_after h hd (buildLeaderAe_sendOk h hr hp hb) (hstep m)
  | error rc =>
    simp only [hb] at hm ⊢
    by_cases hs : rc = .errStore
    · rw [if_pos hs]
      exact h.storeFault
    · rw [if_neg hs] at hm ⊢
      rcases buildLeaderAe_error h.base.index_le hb with rfl | rfl
      · exact absurd rfl hs
      · exact absurd rfl hm

/-! ## The commit rule -/

/-- The search returns `stop`, or an index above it that a majority holds. -/
theorem majoritySearch_cases (n : Node) (stop need : Nat) :
    ∀ index, majoritySearch n stop need index = stop ∨
      (stop < majoritySearch n stop need index ∧ majoritySearch n stop need index ≤ index ∧
        need ≤ countReplicated n (majoritySearch n stop need index))
  | 0 => .inl rfl
  | index + 1 => by
    unfold majoritySearch
    by_cases hgt : index + 1 > stop
    · rw [if_pos hgt]
      by_cases hc : countReplicated n (index + 1) ≥ need
      · rw [if_pos hc]
        exact .inr ⟨hgt, le_refl _, hc⟩
      · rw [if_neg hc]
        rcases majoritySearch_cases n stop need index with h | ⟨h1, h2, h3⟩
        · exact .inl h
        · exact .inr ⟨h1, by omega, h3⟩
    · rw [if_neg hgt]
      exact .inl rfl

theorem countP_self {flags : List Nat} (hmem : me ∈ members) (hnd : members.Nodup)
    (hlen : flags.length = members.length) :
    (members.zip flags).countP (fun p => decide (p.1 = me)) = 1 := by
  have hmap : (members.zip flags).countP (fun p => decide (p.1 = me)) =
      ((members.zip flags).map Prod.fst).countP (fun v => decide (v = me)) := by
    rw [countP_map]
    rfl
  rw [hmap, map_fst_zip (by omega)]
  rw [← count_eq_one_of_mem hnd hmem, count]
  congr 1

theorem countReplicated_eq (hb : Base V n) (index : Nat) :
    countReplicated n index =
      (members.zip n.matchIndex).countP fun p =>
        decide (p.1 = me) || peerReplicated me index p.1 p.2 := by
  rw [countReplicated, hb.members_eq, hb.me_eq,
    ← countP_self hb.me_mem hb.nodup hb.match_length]
  generalize members.zip n.matchIndex = zs
  induction zs with
  | nil => rfl
  | cons p ps ih =>
    rw [countP_cons, countP_cons, countP_cons, ← ih]
    by_cases hp : p.1 = me
    · simp only [hp, peerReplicated, decide_true, Bool.true_or, if_true, if_false,
        Bool.false_eq_true]
      omega
    · simp only [hp, decide_false, Bool.false_or, Bool.false_eq_true, if_false]
      omega

/-- An index the commit rule finds is held by a majority. -/
theorem countReplicated_majority (hb : Base V n) (hr : n.role = .leader) {index : Nat}
    (h0 : 0 < index) (hc : quorum n ≤ countReplicated n index) :
    Majority members fun v => v = me ∨ V.acked n.currentTerm v index := by
  rw [countReplicated_eq hb, quorum, Node.memberCount, hb.members_eq] at hc
  refine Majority.of_countP_zip hb.nodup (le_of_eq hb.match_length.symm) _ hc ?_
  intro v m hvm hp
  obtain ⟨i, hi, hget⟩ := getElem_of_mem hvm
  rw [length_zip] at hi
  rw [getElem_zip, Prod.mk.injEq] at hget
  by_cases hv : v = me
  · exact .inl hv
  · right
    have hle : index ≤ m := by
      simpa [hv, peerReplicated] using hp
    refine V.acked_le (hb.acked hr i v m ?_ ?_ (by omega)) hle
    · rw [getElem?_eq_getElem (by omega), hget.1]
    · rw [getElem?_eq_getElem (by omega), hget.2]

variable {k : Nat}

theorem Calm.commitTo (h : Calm V n) (hk : n.commitIndex ≤ k)
    (hlast : k ≤ n.lastLogIndex) (hcov : V.covered n.currentTerm k) (after : Step) :
    Calm V { n with commitIndex := k, afterApply := after } where
  base := { h.base with
    applied_le := le_trans h.base.applied_le hk
    commit_le := hlast
    cover := hcov }
  noAction := h.noAction
  running := h.running
  hard := { h.hard with }
  log := { h.log with }
  candidate hr := { h.candidate hr with }

/-- `advanceCommit` with nothing left to apply does nothing; otherwise it starts
the chain of applications. -/
theorem advanceCommit_cases (h : Calm V n) (hlast : k ≤ n.lastLogIndex)
    (hcov : V.covered n.currentTerm k) (after : Step)
    (hafter : after = .none ∨ (after = .aeReply ∧ ReplyOk V d n)) :
    (advanceCommit (s.env d) n k after).1 = .errNomem ∨
      (k ≤ n.commitIndex ∧ advanceCommit (s.env d) n k after = (.ok, n)) ∨
      (((advanceCommit (s.env d) n k after).2.step = .apply ∨
        (advanceCommit (s.env d) n k after).1 ≠ .ok) ∧
        After V n.mark (advanceCommit (s.env d) n k after)) := by
  unfold advanceCommit
  by_cases hle : k ≤ n.commitIndex
  · rw [if_pos hle]
    exact .inr (.inl ⟨hle, rfl⟩)
  · rw [if_neg hle]
    have hc := h.commitTo (by omega) hlast hcov after
    rcases applyNext_cases (s := s) hc (hafter.imp id fun ⟨h1, h2⟩ => ⟨h1, { h2 with }⟩)
      with hm | ⟨heq, -⟩ | ⟨hs, ha⟩
    · exact .inl hm
    · have := h.base.applied_le
      simp only at heq
      omega
    · exact .inr (.inr ⟨hs, ⟨ha.ok, ha.fresh, ha.applied,
        le_trans (by simp only [Node.mark]; omega) ha.commit⟩⟩)

theorem leaderMaybeCommit_after (h : Calm V n) (hr : n.role = .leader)
    (hd : n.appliedIndex = n.commitIndex) (hstep : StepOk d n)
    (hm : (leaderMaybeCommit (s.env d) n).1 ≠ .errNomem) :
    After V n.mark (leaderMaybeCommit (s.env d) n) := by
  unfold leaderMaybeCommit at hm ⊢
  have hcases := majoritySearch_cases n n.commitIndex (quorum n) n.lastLogIndex
  generalize majoritySearch n n.commitIndex (quorum n) n.lastLogIndex = index at hm hcases ⊢
  simp only at hm ⊢
  by_cases hle : index ≤ n.commitIndex
  · rw [if_pos hle]
    exact h.after hstep hd rfl (le_refl _) _
  · rw [if_neg hle] at hm ⊢
    obtain rfl | ⟨hlt, hlast, hcount⟩ := hcases
    · omega
    obtain ⟨term, hterm⟩ : ∃ t, termAt d.log index = some t :=
      termAt_isSome (by rw [← h.log.index]; exact hlast)
    have hload : logTermAt (s.env d).store index = some term := by
      rw [← hterm]
      exact logTermAt_store d index
    rw [hload] at hm ⊢
    simp only at hm ⊢
    by_cases ht : term = n.currentTerm
    · have hcov : V.covered n.currentTerm index :=
        V.cover_lead (h.base.elected hr) (by omega) (ht ▸ hterm)
          (countReplicated_majority h.base hr (by omega) hcount)
      rw [if_neg (by simpa using ht)] at hm ⊢
      rcases advanceCommit_cases (s := s) h hlast hcov .none (.inl rfl)
        with hno | ⟨hk, -⟩ | ⟨-, ha⟩
      · exact absurd hno hm
      · omega
      · exact ha
    · rw [if_pos (by simpa using ht)]
      exact h.after hstep hd rfl (le_refl _) _

/-! ## Broadcasting -/

theorem peers_getD_mem (hb : Base V n) (hi : i < n.peerCount) :
    n.peers.getD i idNone ∈ members ∧ n.peers.getD i idNone ≠ me := by
  have hmem : n.peers.getD i idNone ∈ n.peers := by
    rw [getD_eq_getElem?_getD, getElem?_eq_getElem hi]
    exact getElem_mem hi
  generalize n.peers.getD i idNone = peer at hmem ⊢
  rw [hb.peers_eq, mem_filter] at hmem
  exact ⟨hmem.1, by simpa using hmem.2⟩

/-- The next request of a broadcast, or the commit rule at its end. -/
theorem leaderBroadcastNext_after (h : Calm V n) (hr : n.role = .leader)
    (hd : n.appliedIndex = n.commitIndex)
    (hm : (leaderBroadcastNext (s.env d) n).1 ≠ .errNomem) :
    After V n.mark (leaderBroadcastNext (s.env d) n) := by
  unfold leaderBroadcastNext at hm ⊢
  by_cases hge : n.peerCursor ≥ n.peerCount
  · rw [if_pos hge] at hm ⊢
    have hc := h.unstep
    exact leaderMaybeCommit_after hc hr hd (by simp [StepOk]) hm
  · rw [if_neg hge] at hm ⊢
    have hc := h.relabel .leaderBroadcast (n.peerCursor + 1) n.electionElapsed
      n.electionTimeout n.heartbeatElapsed n.leaderId
    exact leaderSendTo_after hc hr hd (fun m => ⟨rfl, hr⟩)
      (peers_getD_mem h.base (by omega)).1 hm

theorem lastTerm_append {log : List LogEntry} {e : LogEntry} (h : log.getLast? = some e) :
    lastTerm log = e.term := by
  rw [getLast?_eq_getElem?] at h
  have hpos : log.length ≠ 0 := by
    intro h0
    rw [length_eq_zero_iff] at h0
    simp [h0] at h
  unfold lastTerm termAt
  rw [if_neg hpos, h]
  rfl

/-- The leader takes up its appended entries and broadcasts them. -/
theorem leaderAfterAppend_after (hb : Base V n) (hq : n.hasAction = false)
    (hf : n.faulted = false) (hh : HardSync d n) (hr : n.role = .leader)
    (hd : n.appliedIndex = n.commitIndex) (hne : n.pendingEntries ≠ [])
    (hlen : d.log.length = n.lastLogIndex + n.pendingEntries.length)
    (htail : d.log.drop n.lastLogIndex = n.pendingEntries.map Entry.toLog)
    (hidx : ∀ e, n.pendingEntries.getLast? = some e →
      e.index = n.lastLogIndex + n.pendingEntries.length)
    (hrange : n.lastLogIndex + n.pendingEntries.length ≤ u64Max)
    (hm : (leaderAfterAppend (s.env d) n).1 ≠ .errNomem) :
    After V n.mark (leaderAfterAppend (s.env d) n) := by
  unfold leaderAfterAppend at hm ⊢
  obtain ⟨e, he⟩ : ∃ e, n.pendingEntries.getLast? = some e :=
    ⟨_, getLast?_eq_some_getLast hne⟩
  rw [he] at hm ⊢
  have hindex := hidx e he
  have hlast : lastTerm d.log = e.term := by
    apply lastTerm_append (e := e.toLog)
    rw [← take_append_drop n.lastLogIndex d.log, htail, getLast?_append, getLast?_map, he]
    rfl
  have hcalm : Calm V
      { n with
        lastLogIndex := e.index
        lastLogTerm := e.term
        pendingEntries := []
        peerCursor := 0
        step := .leaderBroadcast } :=
    { base :=
        { hb with
          index_le := by rw [hindex]; exact hrange
          commit_le := by
            have := hb.commit_le
            simp only
            omega
          next := fun hr i hi => by
            obtain ⟨h1, h2⟩ := hb.next hr i hi
            refine ⟨h1, ?_⟩
            simp only
            omega }
      noAction := hq
      running := hf
      hard := { hh with }
      log := ⟨by simp only; omega, hlast.symm⟩
      candidate := fun hc => by simp only [hr] at hc; cases hc }
  exact leaderBroadcastNext_after hcalm hr hd hm

/-! ## Responses -/

theorem emitHardState_after (h : Calm V n) {v : Id}
    (hp : HardPhase V d (begun n (.hardState ⟨t, v⟩)) 0 ⟨t, v⟩) :
    After V n.mark (emitHardState n t v) := by
  unfold emitHardState
  rcases actionBegin_cases n (.hardState ⟨t, v⟩) with hf | hok
  · rw [hf]
    exact h.fault _
  · rw [hok]
    exact after_busy (h.base.begun (.hardState ⟨t, v⟩)) rfl hp (Nat.lt_succ_self _) rfl
      (le_refl _) _

theorem stepDownNewTerm_after (h : Calm V n) (hd : n.appliedIndex = n.commitIndex)
    (ht : n.currentTerm < t) (hmax : t ≤ u64Max) :
    After V n.mark (stepDownNewTerm (s.env d) n t) := by
  have hc := (h.demote 0 (pickTimeout (s.env d) n) idNone).relabel .stepDown n.peerCursor 0
    (pickTimeout (s.env d) n) n.heartbeatElapsed idNone
  exact emitHardState_after hc
    { hard := .inl ⟨rfl, ⟨h.hard.term, h.hard.vote⟩⟩
      log := ⟨h.log.index, h.log.term⟩
      term_le := hmax
      advance := .inl ht
      drained := hd
      next := ⟨rfl, rfl⟩ }

/-- The next indices may move anywhere up to one above the last index. -/
theorem Calm.setNext (h : Calm V n) (hr : n.role = .leader) (idx : Nat) (h1 : i ≤ u64Max)
    (h2 : u64Dec i ≤ n.lastLogIndex) :
    Calm V { n with nextIndex := n.nextIndex.set idx i } where
  base := { h.base with
    next_length := by
      rw [length_set]
      exact h.base.next_length
    next := fun _ j hj => by
      rcases mem_or_eq_of_mem_set hj with hj | rfl
      · exact h.base.next hr j hj
      · exact ⟨h1, h2⟩ }
  noAction := h.noAction
  running := h.running
  hard := { h.hard with }
  log := { h.log with }
  candidate hc := { h.candidate hc with }

/-- A match index may move to one that the member acknowledged. -/
theorem Calm.setMatch (h : Calm V n) (hid : id ∈ members)
    (hack : V.acked n.currentTerm id i) :
    Calm V { n with matchIndex := n.matchIndex.set (memberIndex n id) i } where
  base := { h.base with
    match_length := by
      rw [length_set]
      exact h.base.match_length
    acked := fun hr j v m hv hj h0 => by
      by_cases hidx : memberIndex n id = j
      · have hlt : j < n.matchIndex.length := by
          rw [h.base.match_length, ← hidx, ← h.base.members_eq]
          exact memberIndex_lt (by rw [h.base.members_eq]; exact hid)
        have hget : members[memberIndex n id]? = some id := by
          rw [← h.base.members_eq]
          exact getElem?_memberIndex (by rw [h.base.members_eq]; exact hid)
        subst hidx
        rw [getElem?_set_self hlt, some.injEq] at hj
        rw [hget, some.injEq] at hv
        rw [← hj, ← hv]
        exact hack
      · rw [getElem?_set_ne hidx] at hj
        exact h.base.acked hr j v m hv hj h0 }
  noAction := h.noAction
  running := h.running
  hard := { h.hard with }
  log := { h.log with }
  candidate hc := { h.candidate hc with }

theorem clampNext_ok (hlast : n.lastLogIndex ≤ u64Max) (next : Nat) :
    clampNext n next ≤ u64Max ∧ u64Dec (clampNext n next) ≤ n.lastLogIndex := by
  have hone : u64Dec 1 = 0 := u64Dec_of_pos (by omega)
  have hmax := u64Max_eq
  unfold clampNext
  simp only
  by_cases h1 : next < 1
  · rw [if_pos h1, hone]
    omega
  · rw [if_neg h1]
    rcases lt_or_eq_of_le hlast with hlt | heq
    · rw [u64Inc_of_lt hlt]
      split
      · rw [u64Dec_of_pos (by omega)]
        omega
      · rw [u64Dec_of_pos (by omega)]
        omega
    · rw [heq, u64Inc_max, if_pos (by omega), u64Dec_zero]
      omega

variable {sender : Id} {ct ci : Nat}

theorem handleAeFailure_after (h : Calm V n) (hr : n.role = .leader)
    (hd : n.appliedIndex = n.commitIndex) (hstep : StepOk d n) {idx : Nat}
    (hsender : sender ∈ members)
    (hm : (handleAeFailure (s.env d) n idx sender ct ci).1 ≠ .errNomem) :
    After V n.mark (handleAeFailure (s.env d) n idx sender ct ci) := by
  unfold handleAeFailure at hm ⊢
  cases hf : failureNext (s.env d).store n idx ct ci with
  | none =>
    simp only
    exact h.storeFault
  | some next =>
    simp only [hf] at hm ⊢
    obtain ⟨h1, h2⟩ := clampNext_ok h.base.index_le next
    have hc := h.setNext hr idx h1 h2
    have hs := hstep.recount n.votes n.votesGranted (n.nextIndex.set idx (clampNext n next))
      n.matchIndex n.electionElapsed n.heartbeatElapsed
    exact leaderSendTo_after hc hr hd (fun m => hs.begun hc (.send m)) hsender hm

/-- An `AppendEntries` response. -/
theorem recvAeResponse_after (h : Calm V n) (hd : n.appliedIndex = n.commitIndex)
    (hstep : StepOk d n) (hsender : sender ∈ members) {ok : Int}
    (hmax : t ≤ u64Max) (hack : ok ≠ 0 → V.acked t sender i)
    (hm : (recvAeResponse (s.env d) n sender t ok i ct ci).1 ≠ .errNomem) :
    After V n.mark (recvAeResponse (s.env d) n sender t ok i ct ci) := by
  have hsame : ∀ rc, After V n.mark (rc, n) := h.after hstep hd rfl (le_refl _)
  unfold recvAeResponse at hm ⊢
  by_cases hlt : t < n.currentTerm
  · rw [if_pos hlt]
    exact hsame _
  rw [if_neg hlt] at hm ⊢
  by_cases hgt : t > n.currentTerm
  · rw [if_pos hgt]
    exact stepDownNewTerm_after h hd hgt hmax
  rw [if_neg hgt] at hm ⊢
  by_cases hr : n.role = .leader
  swap
  · rw [if_pos hr]
    exact hsame _
  rw [if_neg (by simpa using hr)] at hm ⊢
  simp only at hm ⊢
  by_cases hok : ok = 0
  · rw [if_pos hok] at hm ⊢
    exact handleAeFailure_after h hr hd hstep hsender hm
  rw [if_neg hok] at hm ⊢
  by_cases hle : i ≤ n.matchIndex.getD (memberIndex n sender) 0
  · rw [if_pos hle]
    exact hsame _
  rw [if_neg hle] at hm ⊢
  by_cases hlast : i > n.lastLogIndex
  · rw [if_pos hlast]
    exact hsame _
  rw [if_neg hlast] at hm ⊢
  obtain rfl : t = n.currentTerm := by omega
  have hc := h.setMatch hsender (hack hok)
  by_cases himax : i < u64Max
  · rw [if_pos himax] at hm ⊢
    have hc' := hc.setNext hr (memberIndex n sender) (i := u64Inc i)
      (u64Inc_le (le_of_lt himax)) (by
        rw [u64Inc_of_lt himax, u64Dec_of_pos (Nat.succ_pos _)]
        simp only
        omega)
    exact leaderMaybeCommit_after hc' hr hd (hstep.recount _ _ _ _ _ _) hm
  · rw [if_neg himax] at hm ⊢
    exact leaderMaybeCommit_after hc hr hd (hstep.recount _ _ _ _ _ _) hm

/-! ## Proposals -/

theorem commandFill_length (t : Nat) : ∀ (i : Nat) (cs : List Command),
    (commandFill t i cs).length = cs.length
  | _, [] => rfl
  | i, _ :: cs => by
    rw [commandFill, length_cons, commandFill_length, length_cons]

theorem commandFill_term : ∀ {i : Nat} {cs : List Command} {e : Entry},
    e ∈ commandFill t i cs → e.term = t
  | _, [], e, h => by cases h
  | i, c :: cs, e, h => by
    rcases mem_cons.1 h with rfl | h
    · rfl
    · exact commandFill_term h

theorem commandFill_last : ∀ {i : Nat} {cs : List Command} {e : Entry},
    i + cs.length ≤ u64Max + 1 → (commandFill t i cs).getLast? = some e →
      e.index + 1 = i + cs.length
  | _, [], e, _, h => by cases h
  | i, [c], e, _, h => by
    simp only [commandFill, getLast?_singleton, some.injEq] at h
    subst h
    rfl
  | i, c :: c' :: cs, e, hle, h => by
    simp only [length_cons] at hle ⊢
    have hinc : u64Inc i = i + 1 := u64Inc_of_lt (by omega)
    rw [commandFill, hinc, commandFill, getLast?_cons_cons, ← commandFill] at h
    have := commandFill_last (by rw [length_cons]; omega) h
    rw [length_cons] at this
    omega

theorem entriesStash_cases (env : Env) (n : Node) (src : List Entry) :
    (entriesStash env n src).1 = .errNomem ∨
      entriesStash env n src = (.ok, { n with pendingEntries := src.map entryStore }) := by
  unfold entriesStash
  simp only
  by_cases hz : src.length = 0
  · rw [if_pos hz]
    rw [length_eq_zero_iff] at hz
    subst hz
    exact .inr rfl
  · rw [if_neg hz]
    by_cases ha : entriesBufferAlloc env .stash src.length (payloadTotal src) = true
    · rw [if_pos ha]
      exact .inr rfl
    · rw [if_neg ha]
      exact .inl rfl

/-- Copies of the stash do not touch the rest of the node. -/
theorem Calm.stash (h : Calm V n) (entries : List Entry) :
    Calm V { n with pendingEntries := entries } where
  base := { h.base with }
  noAction := h.noAction
  running := h.running
  hard := { h.hard with }
  log := { h.log with }
  candidate hr := { h.candidate hr with }

/-- What a proposal leaves. -/
theorem proposev_after (h : Calm V n) (hd : n.appliedIndex = n.commitIndex)
    (hstep : StepOk d n) {cs : Ptr Command}
    (hm : (proposev (s.env d) n cs).1 ≠ .errNomem) :
    After V n.mark (proposev (s.env d) n cs) := by
  have hsame : ∀ rc, After V n.mark (rc, n) := h.after hstep hd rfl (le_refl _)
  unfold proposev at hm ⊢
  by_cases hnull : cs.isNull = true
  · rw [if_pos hnull]
    exact hsame _
  rw [if_neg hnull] at hm ⊢
  have hcount : cs.count = cs.elems.length := Ptr.count_eq (by simpa using hnull)
  by_cases hz : cs.count = 0
  · rw [if_pos hz]
    exact hsame _
  rw [if_neg hz] at hm ⊢
  by_cases hbad : commandsBad cs.elems = true
  · rw [if_pos hbad]
    exact hsame _
  rw [if_neg hbad, if_neg (by simp [h.running]), if_neg (by simp [h.noAction])] at hm ⊢
  by_cases hr : n.role = .leader
  swap
  · rw [if_pos hr]
    exact hsame _
  rw [if_neg (by simpa using hr)] at hm ⊢
  by_cases hmax : cs.count > n.maxAppendEntries
  · rw [if_pos hmax]
    exact hsame _
  rw [if_neg hmax] at hm ⊢
  by_cases hbytes : cs.count > ulongMax / sizeofEntry
  · rw [if_pos hbytes]
    exact hsame _
  rw [if_neg hbytes] at hm ⊢
  by_cases htotal : commandsTotal cs.elems > n.maxAppendBytes
  · rw [if_pos htotal]
    exact hsame _
  rw [if_neg htotal] at hm ⊢
  by_cases hindex : n.lastLogIndex > u64Max - cs.count
  · rw [if_pos hindex]
    exact h.fault _
  rw [if_neg hindex] at hm ⊢
  by_cases halloc : (s.env d).malloc .proposal = true
  swap
  · rw [if_neg halloc] at hm
    exact absurd rfl hm
  rw [if_pos halloc] at hm ⊢
  have hlen : n.lastLogIndex + cs.count ≤ u64Max := by
    have : cs.count ≤ ulongMax / sizeofEntry := by omega
    have : ulongMax / sizeofEntry ≤ u64Max := Nat.div_le_self _ _
    omega
  rw [u64Inc_of_lt (by omega)] at hm ⊢
  simp only at hm ⊢
  rcases entriesStash_cases (s.env d) n (commandFill n.currentTerm (n.lastLogIndex + 1) cs.elems)
    with hno | hok
  · rw [Ret.andThen_of_ne (by rw [hno]; decide)] at hm
    exact absurd hno hm
  rw [hok, Ret.andThen_ok] at hm ⊢
  have hfill := commandFill_length n.currentTerm (n.lastLogIndex + 1) cs.elems
  have hterm : ∀ e ∈ commandFill n.currentTerm (n.lastLogIndex + 1) cs.elems,
      e.term = n.currentTerm := fun e => commandFill_term
  have hlast : ∀ e, (commandFill n.currentTerm (n.lastLogIndex + 1) cs.elems).getLast? = some e →
      e.index = n.lastLogIndex + cs.count := by
    intro e he
    have := commandFill_last (by omega) he
    omega
  generalize commandFill n.currentTerm (n.lastLogIndex + 1) cs.elems = src at hm hok hfill hterm hlast ⊢
  have hc := h.stash (src.map entryStore)
  rcases actionBegin_cases { n with pendingEntries := src.map entryStore }
    (.logAppend (src.map entryStore)) with hf | hbegin
  · rw [hf]
    exact (hc.stash []).fault _
  · rw [hbegin]
    have hlen' : (src.map entryStore).length = cs.count := by
      rw [length_map, hfill, hcount]
    refine after_busy ?_ rfl ?_ (Nat.lt_succ_self _) rfl (le_refl _) _
    · exact { hc.base with }
    exact
      { hard := ⟨h.hard.term, h.hard.vote⟩
        written := Nat.zero_le _
        nonempty := by
          intro hnil
          rw [hnil] at hlen'
          exact hz hlen'.symm
        length := h.log.index.symm
        tail := by
          simp only [begun, take_zero, map_nil, drop_eq_nil_iff]
          exact le_of_eq h.log.index.symm
        range := by
          rw [hlen']
          exact hlen
        drained := hd
        next := by
          refine ⟨hr, rfl, ?_, ?_⟩
          · intro e he
            obtain ⟨e', he', rfl⟩ := mem_map.1 he
            exact hterm e' he'
          · intro e he
            rw [getLast?_map, map_eq_some_iff] at he
            obtain ⟨e', he', rfl⟩ := he
            rw [hlen']
            exact hlast e' he' }

end Raft89
