import EightyNine.Raft89.Agreed

/-!
# libraft89: replication counters of a leader

A leader that hears no rejection hinting at or below what the peer has already
acknowledged keeps every match index within its log and below the next index,
and no match index ever goes back (`counters_track`).  A rejection that arrives
a second time after the retry succeeded breaks the bound (`next_regresses`).
-/

namespace Raft89

open List Option

open Library (Run)

/-! ## The counters of a peer -/

/-- The match index a leader keeps for a member. -/
def Node.matchOf (n : Node) (id : Id) : Nat := n.matchIndex.getD (memberIndex n id) 0

/-- The next index a leader keeps for a member. -/
def Node.nextOf (n : Node) (id : Id) : Nat := n.nextIndex.getD (memberIndex n id) 0

/-- The counters of one peer fit the leader's log and each other. -/
structure Node.Tracks (n : Node) (peer : Id) : Prop where
  match_le : n.matchOf peer ≤ n.lastLogIndex
  match_lt : n.matchOf peer < n.nextOf peer
  next_le : n.nextOf peer ≤ n.lastLogIndex + 1

/-- A rejection points above what the peer acknowledged: nothing yet, or the
leader has an entry of the hinted term at or above it and below the next index,
or it has none there and the hinted index is above it. -/
def Node.HintsAbove (n : Node) (store : Store) (peer : Id) (conflictTerm conflictIndex : Nat) :
    Prop :=
  n.matchOf peer = 0 ∨
    (conflictTerm ≠ 0 ∧ ∃ k, 0 < k ∧ k < n.nextOf peer ∧ n.matchOf peer ≤ k ∧
      logTermAt store k = some conflictTerm) ∨
    ((conflictTerm = 0 ∨
        ∀ k, 0 < k → k < n.nextOf peer → logTermAt store k ≠ some conflictTerm) ∧
      n.matchOf peer < conflictIndex)

/-- A response of the leader's term is not behind the counters, and the indices
it moves stay below the largest word. -/
def Node.Fresh (n : Node) (store : Store) : Event → Prop
  | .recv ⟨sender, receiver, .appendEntriesResponse t success matched conflictTerm conflictIndex⟩ =>
    n.Takes ⟨sender, receiver,
      .appendEntriesResponse t success matched conflictTerm conflictIndex⟩ →
    n.role = .leader → t = n.currentTerm →
      if success = 0 then
        n.lastLogIndex < u64Max ∧ n.HintsAbove store sender conflictTerm conflictIndex
      else n.matchOf sender < matched → matched ≤ n.lastLogIndex → matched < u64Max
  | _ => True

/-- The condition on one event of a host. -/
def Host.Fresh (_ : Supply) (h : Host) (ev : Event) : Prop :=
  ∀ n, h.node = some n → n.Fresh h.disk.store ev

/-- The host runs a leader of this term. -/
def Host.Leads (h : Host) (t : Nat) : Prop :=
  ∃ n, h.node = some n ∧ n.role = .leader ∧ n.currentTerm = t

/-! ## One response -/

variable {store : Store} {t : Nat}

theorem leaderFindTerm_above {k : Nat} (h0 : 0 < k)
    (hk : logTermAt store k = some t) : ∀ {i next : Nat},
    leaderFindTerm store t i = some next → i < u64Max → k ≤ i → k < next
  | 0, _, _, _, hki => by omega
  | i + 1, next, h, hi, hki => by
    unfold leaderFindTerm at h
    cases hl : logTermAt store (i + 1) with
    | none => simp [hl] at h
    | some got =>
      simp only [hl] at h
      by_cases heq : got = t
      · rw [if_pos heq, u64Inc_of_lt hi, some.injEq] at h
        omega
      · rw [if_neg heq] at h
        rcases Nat.lt_or_eq_of_le hki with hlt | rfl
        · exact leaderFindTerm_above h0 hk h (by omega) (by omega)
        · rw [hk, some.injEq] at hl
          exact absurd hl.symm heq

theorem leaderFindTerm_found : ∀ {i next : Nat},
    leaderFindTerm store t i = some next → next ≠ 0 → i < u64Max →
      ∃ k, 0 < k ∧ k ≤ i ∧ next = k + 1 ∧ logTermAt store k = some t
  | 0, next, h, hne, _ => by
    simp only [leaderFindTerm, some.injEq] at h
    exact absurd h.symm hne
  | i + 1, next, h, hne, hi => by
    unfold leaderFindTerm at h
    cases hl : logTermAt store (i + 1) with
    | none => simp [hl] at h
    | some got =>
      simp only [hl] at h
      by_cases heq : got = t
      · rw [if_pos heq, u64Inc_of_lt hi, some.injEq] at h
        exact ⟨i + 1, Nat.succ_pos i, Nat.le_refl _, h.symm, by rw [hl, heq]⟩
      · rw [if_neg heq] at h
        obtain ⟨k, h1, h2, h3, h4⟩ := leaderFindTerm_found h hne (by omega)
        exact ⟨k, h1, by omega, h3, h4⟩

variable {peer : Id}

/-- A hint above the match index is followed to a next index above it. -/
theorem Node.HintsAbove.next {n : Node} {ct ci next : Nat}
    (hint : n.HintsAbove store peer ct ci) (ht : n.Tracks peer) (hlast : n.lastLogIndex < u64Max)
    (hnext : failureNext store n (memberIndex n peer) ct ci = some next) :
    n.matchOf peer < clampNext n next := by
  have hrange := clampNext_range hlast next
  have hclamp : n.matchOf peer < next → n.matchOf peer < clampNext n next := by
    intro hlt
    have := ht.match_le
    unfold clampNext
    rw [u64Inc_of_lt hlast]
    simp only
    split
    · omega
    · split <;> omega
  have hlt := ht.match_lt
  have hle := ht.next_le
  have hnextOf : n.nextIndex.getD (memberIndex n peer) 0 = n.nextOf peer := rfl
  unfold Node.HintsAbove at hint
  unfold failureNext at hnext
  rw [hnextOf] at hnext
  generalize n.nextOf peer = x at *
  by_cases hct : ct = 0
  · rw [if_pos hct, some.injEq] at hnext
    subst hnext
    rcases hint with h0 | ⟨hne, -⟩ | ⟨-, habove⟩
    · omega
    · exact absurd hct hne
    · exact hclamp habove
  rw [if_neg hct, u64Dec_of_pos (by omega)] at hnext
  cases hfind : leaderFindTerm store ct (x - 1) with
  | none => simp [hfind] at hnext
  | some found =>
    simp only [hfind, some.injEq] at hnext
    rcases hint with h0 | ⟨-, k, hk0, hkx, hmk, hterm⟩ | ⟨hnone, habove⟩
    · omega
    · have hkf := leaderFindTerm_above hk0 hterm hfind (by omega) (by omega)
      rw [if_neg (by omega)] at hnext
      subst hnext
      exact hclamp (by omega)
    · have hzero : found = 0 := by
        by_contra hne
        obtain ⟨k, h1, h2, -, h4⟩ := leaderFindTerm_found hfind hne (by omega)
        exact hnone.resolve_left hct k h1 (by omega) h4
      rw [if_pos hzero] at hnext
      subst hnext
      exact hclamp habove

/-! ## The counters along a run -/

/-- The match and next indices of a leader at every position. -/
def Counters.Ahead (p : Counters) : Prop :=
  p.role = .leader → p.nextIndex.length = p.members.length →
    p.matchIndex.length = p.members.length → ∀ i, i < p.members.length →
      p.matchIndex.getD i 0 ≤ p.last ∧ p.matchIndex.getD i 0 < p.nextIndex.getD i 0 ∧
        p.nextIndex.getD i 0 ≤ p.last + 1

theorem Counters.Next.ahead {p p' : Counters} (h : p.Next p') (hp : p.Ahead) : p'.Ahead := by
  intro hr hx hm i hi
  cases h with
  | other role => exact absurd hr role
  | elected role count last le hmatch hnext =>
    rw [hmatch, hnext]
    rw [hmatch, length_replicate] at hm
    rw [getD_eq_getElem?_getD, getD_eq_getElem?_getD,
      getElem?_replicate_of_lt (by omega), getElem?_replicate_of_lt (by omega)]
    simp only [getD_some]
    omega
  | kept members role term last hmatch hnext =>
    rw [hmatch, hnext]
    rw [hnext, members] at hx
    rw [hmatch, members] at hm
    rw [members] at hi
    obtain ⟨h1, h2, h3⟩ := hp (role.symm.trans hr) hx hm i hi
    omega

variable {xs : List Nat} {i x : Nat}

theorem getD_set_self (h : i < xs.length) :
    (xs.set i x).getD i 0 = x := by
  rw [getD_eq_getElem?_getD, getElem?_set_self h, getD_some]

theorem getD_set_ne {j : Nat} (h : i ≠ j) :
    (xs.set i x).getD j 0 = xs.getD j 0 := by
  rw [getD_eq_getElem?_getD, getElem?_set_ne h, getD_eq_getElem?_getD]

section Step

variable {n : Node} {h h' : Host} {s : Supply} {ev : Event} {rc : Result} {p : Counters}

theorem Counters.Ahead.tracks (hp : n.counters.Ahead) (hn : Steady False n)
    (hr : n.role = .leader) (hpeer : peer ∈ n.peers) : n.Tracks peer := by
  have hmem := (hn.mem_peers.1 hpeer).1
  obtain ⟨h1, h2, h3⟩ := hp hr (hn.next_length hr) (hn.match_length hr) _ (memberIndex_lt hmem)
  exact ⟨h1, h2, h3⟩

theorem Node.Responds.ahead (hresp : n.Responds store ev p)
    (hn : Steady False n) (hfresh : n.Fresh store ev) (hp : n.counters.Ahead) : p.Ahead := by
  cases hresp with
  | same => exact hp
  | @refused m matched ct ci next takes role body hint =>
    have hpeer := hn.toConfigured.sender_peer takes.valid
    have hidx := memberIndex_lt (hn.mem_peers.1 hpeer).1
    obtain ⟨sender, receiver, b⟩ := m
    simp only at body hpeer hidx hint
    subst body
    have hf := hfresh takes role rfl
    rw [if_pos rfl] at hf
    obtain ⟨hlast, habove⟩ := hf
    have hlt := habove.next (hp.tracks hn role hpeer) hlast hint
    have hrange := clampNext_range hlast next
    intro hr hx hm i hi
    simp only [length_set] at hx
    by_cases heq : memberIndex n sender = i
    · subst heq
      simp only
      rw [getD_set_self (by rw [hx]; exact hidx)]
      have hle := (hp hr hx hm _ hi).1
      exact ⟨hle, hlt, hrange.2⟩
    · simp only
      rw [getD_set_ne heq]
      exact hp hr hx hm i hi
  | @accepted m success matched ct ci takes role body hsuccess above within =>
    have hpeer := hn.toConfigured.sender_peer takes.valid
    have hidx := memberIndex_lt (hn.mem_peers.1 hpeer).1
    obtain ⟨sender, receiver, b⟩ := m
    simp only at body hpeer hidx above
    subst body
    have hf := hfresh takes role rfl
    rw [if_neg hsuccess] at hf
    have hmax := hf above within
    intro hr hx hm i hi
    simp only [if_pos hmax, length_set] at hx hm
    simp only [if_pos hmax]
    by_cases heq : memberIndex n sender = i
    · subst heq
      rw [getD_set_self (by rw [hm]; exact hidx), getD_set_self (by rw [hx]; exact hidx)]
      exact ⟨within, Nat.lt_succ_self _, Nat.succ_le_succ within⟩
    · rw [getD_set_ne heq, getD_set_ne heq]
      exact hp hr hx hm i hi

theorem Node.Responds.match_le (hresp : n.Responds store ev p) :
    p.role = n.role ∧ p.members = n.members ∧
      ∀ i, n.matchIndex.getD i 0 ≤ p.matchIndex.getD i 0 := by
  cases hresp with
  | same | refused => exact ⟨rfl, rfl, fun i => Nat.le_refl _⟩
  | @accepted m success matched ct ci takes role body hsuccess above within =>
    refine ⟨rfl, rfl, fun i => ?_⟩
    by_cases heq : memberIndex n m.sender = i
    · subst heq
      by_cases hlt : memberIndex n m.sender < n.matchIndex.length
      · rw [getD_set_self hlt]
        exact Nat.le_of_lt above
      · exact Nat.le_of_eq (by rw [set_eq_of_length_le (by omega)])
    · exact Nat.le_of_eq (getD_set_ne heq).symm

/-- The host's leader, if it runs one, has its counters ahead. -/
structure HostAhead (h : Host) : Prop where
  shaped : HostShaped False h
  ahead : ∀ n, h.node = some n → n.counters.Ahead

theorem HostAhead.step (hok : HostAhead h) (hfresh : h.Fresh s ev)
    (hstep : h.step s ev = some (rc, h')) : HostAhead h' := by
  obtain ⟨hshaped, hmoved⟩ := hok.shaped.moved nofun hstep
  refine ⟨hshaped, fun n' hn' => ?_⟩
  by_cases hr : n'.role = .leader
  · obtain ⟨n, p, hn, hresp, hnext⟩ := hmoved n' hn' hr
    have hsteady := (hok.shaped.node n hn).toSteady
    exact hnext.ahead (hresp.ahead hsteady (hfresh n hn) (hok.ahead n hn))
  · exact fun hl => absurd hl hr

/-- From one state of a leadership to the next no match index goes back. -/
theorem HostShaped.match_le {n' : Node} (hok : HostShaped False h)
    (hstep : h.step s ev = some (rc, h')) (hn : h.node = some n) (hr : n.role = .leader)
    (hn' : h'.node = some n') (hr' : n'.role = .leader) :
    n'.members = n.members ∧ ∀ i, n.matchIndex.getD i 0 ≤ n'.matchIndex.getD i 0 := by
  obtain ⟨-, hmoved⟩ := hok.moved nofun hstep
  obtain ⟨m, p, hm, hresp, hnext⟩ := hmoved n' hn' hr'
  rw [hn, some.injEq] at hm
  subst hm
  obtain ⟨hrole, hmembers, hle⟩ := hresp.match_le
  cases hnext with
  | other role => exact absurd hr' role
  | elected role => exact absurd (hrole.trans hr) role
  | kept members role term last hmatch hx =>
    refine ⟨members.trans hmembers, fun i => ?_⟩
    have hi := hle i
    rw [← hmatch] at hi
    exact hi

end Step

/-- While every response a leader takes up is fresh, the counters of every peer
fit its log, and no match index goes back as long as it leads. -/
theorem counters_track {d : Disk} {out : List ActionBody} {h : Host}
    (hrun : Run (Host.NextIf Host.Fresh) ⟨d, none, 0⟩ out h) {n : Node} (hn : h.node = some n)
    (hr : n.role = .leader) :
    (∀ peer ∈ n.peers, n.Tracks peer) ∧
      ∀ out' h', Run (fun a o b => Host.NextIf Host.Fresh a o b ∧ b.Leads n.currentTerm)
          h out' h' →
        ∃ n', h'.node = some n' ∧ ∀ peer ∈ n.peers, n.matchOf peer ≤ n'.matchOf peer := by
  have hstart : HostAhead ⟨d, none, 0⟩ :=
    ⟨⟨nofun, fun n hn => by cases hn⟩, fun n hn => by cases hn⟩
  have hok : HostAhead h := by
    refine hrun.inv hstart fun b o c hb hstep => ?_
    obtain ⟨s, ev, rc, -, hfresh, hst, -⟩ := hstep
    exact hb.step hfresh hst
  refine ⟨fun peer hpeer => ?_, fun out' h' hrun' => ?_⟩
  · exact (hok.ahead n hn).tracks (hok.shaped.node n hn).toSteady hr hpeer
  · have hkept : HostAhead h' ∧ ∃ n', h'.node = some n' ∧ n'.role = .leader ∧
        n'.members = n.members ∧ ∀ i, n.matchIndex.getD i 0 ≤ n'.matchIndex.getD i 0 := by
      refine hrun'.inv
        (I := fun b => HostAhead b ∧ ∃ m, b.node = some m ∧ m.role = .leader ∧
          m.members = n.members ∧ ∀ i, n.matchIndex.getD i 0 ≤ m.matchIndex.getD i 0)
        ⟨hok, n, hn, hr, rfl, fun i => Nat.le_refl _⟩ fun b o c hb hstep => ?_
      obtain ⟨hbok, m, hm, hmr, hmembers, hmatch⟩ := hb
      obtain ⟨⟨s, ev, rc, -, hfresh, hst, -⟩, m', hm', hmr', -⟩ := hstep
      obtain ⟨hmembers', hle⟩ := hbok.shaped.match_le hst hm hmr hm' hmr'
      exact ⟨hbok.step hfresh hst, m', hm', hmr', hmembers'.trans hmembers,
        fun i => Nat.le_trans (hmatch i) (hle i)⟩
    obtain ⟨-, n', hn', -, hmembers, hle⟩ := hkept
    refine ⟨n', hn', fun peer _ => ?_⟩
    have hidx : memberIndex n' peer = memberIndex n peer := by
      rw [memberIndex, hmembers, memberIndex]
    rw [Node.matchOf, Node.matchOf, hidx]
    exact hle _

/-- Node 1 of two members, with one entry in its log, is elected and sends its
first heartbeat. -/
def takeOver : List (Supply × Event) :=
  [(plenty, .start pairConfig), (plenty, .tick 2), (plenty, .write), (plenty, .done 1 .ok),
    (plenty, .done 2 .ok), (plenty, .recv ⟨2, 1, .requestVoteResponse 2 1⟩),
    (plenty, .done 3 .ok)]

/-- The follower's log is empty: the entry before the heartbeat is missing. -/
def missingEntry : Message := ⟨2, 1, .appendEntriesResponse 2 0 0 0 1⟩

/-- The follower has appended the entry. -/
def entryAppended : Message := ⟨2, 1, .appendEntriesResponse 2 1 1 0 0⟩

/-- A new leader learns that the follower has its entry. -/
theorem counters_track_pair : ∃ (h : Host) (n : Node), h.node = some n ∧ n.role = .leader ∧
    n.matchOf 2 = 1 ∧ n.Tracks 2 := by
  have hdrive : (Host.drive ⟨oneEntry, none, 0⟩
      (takeOver ++ [(plenty, .recv entryAppended)])).map
        (fun r => r.2.node.map fun n => (n.role, n.peers, n.matchOf 2)) =
      some (some (.leader, [2], 1)) := by
    decide +kernel
  rw [map_eq_some_iff] at hdrive
  obtain ⟨⟨out, h⟩, hdrive, hh⟩ := hdrive
  have hrun : Run (Host.NextIf Host.Fresh) ⟨oneEntry, none, 0⟩ out h := by
    refine Host.drive_run hdrive (by decide +kernel) ?_
    intro p hp h n hn
    simp only [takeOver, cons_append, nil_append, mem_cons, not_mem_nil, or_false] at hp
    rcases hp with rfl | rfl | rfl | rfl | rfl | rfl | rfl | rfl
    on_goal 8 =>
      intro _ _ _ _ _
      decide
    all_goals trivial
  rw [map_eq_some_iff] at hh
  obtain ⟨n, hn, hh⟩ := hh
  simp only [Prod.mk.injEq] at hh
  obtain ⟨hr, hpeers, hmatch⟩ := hh
  exact ⟨h, n, hn, hr, hmatch, (counters_track hrun hn hr).1 2 (by rw [hpeers]; decide)⟩

/-- The rejection arrives a second time after the retry succeeded, and the next
index falls to the match index. -/
theorem next_regresses : ∃ (out : List ActionBody) (h : Host) (n : Node),
    Run (Host.NextIf fun _ _ _ => True) ⟨oneEntry, none, 0⟩ out h ∧ h.node = some n ∧
      n.role = .leader ∧ 2 ∈ n.peers ∧ n.matchOf 2 = 1 ∧ n.nextOf 2 = 1 := by
  have hdrive : (Host.drive ⟨oneEntry, none, 0⟩
      (takeOver ++ [(plenty, .recv missingEntry), (plenty, .done 4 .ok),
        (plenty, .recv entryAppended), (plenty, .recv missingEntry)])).map
        (fun r => r.2.node.map fun n => ((n.role, n.peers), (n.matchOf 2, n.nextOf 2))) =
      some (some ((.leader, [2]), (1, 1))) := by
    decide +kernel
  rw [map_eq_some_iff] at hdrive
  obtain ⟨⟨out, h⟩, hdrive, hh⟩ := hdrive
  rw [map_eq_some_iff] at hh
  obtain ⟨n, hn, hh⟩ := hh
  simp only [Prod.mk.injEq] at hh
  obtain ⟨⟨hr, hpeers⟩, hmatch, hnext⟩ := hh
  exact ⟨out, h, n, Host.drive_run hdrive (by decide +kernel) (fun _ _ _ => trivial), hn, hr,
    by rw [hpeers]; decide, hmatch, hnext⟩

end Raft89
