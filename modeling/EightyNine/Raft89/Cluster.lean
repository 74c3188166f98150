import EightyNine.Library.Consensus
import EightyNine.Raft89.Run

/-!
# libraft89: a cluster

Hosts with one member list exchange the messages they emit.  A message may arrive any number
of times, late, or never; a host may stop at any point and start again from its durable
state.  A history of elected leaders (`Library.Consensus`) explains every state that a run
reaches: durable writes are its steps, and it gives each node a view of the cluster
(`view`).  From it follow the guarantees of the protocol, for all runs.
-/

namespace Raft89

open Function Option Nat List

open Library (Run Majority Stamped)
open Library.Consensus (lastStamp UpToDate Traced Sound Settled Grows Within Covered Committed)

instance : Stamped LogEntry := ⟨LogEntry.term⟩

/-- The history of a cluster. -/
abbrev History := Library.Consensus.State Id LogEntry

/-! ## Logs -/

theorem lastTerm_eq (log : List LogEntry) : lastTerm log = lastStamp log := by
  unfold lastTerm lastStamp termAt
  split
  · rename_i h
    rw [length_eq_zero_iff] at h
    rw [h]
    rfl
  · rw [← List.getLast?_eq_getElem?]
    rfl

theorem logIsFresh_upToDate {log log' : List LogEntry}
    (h : logIsFresh (lastTerm log) log.length (lastTerm log') log'.length = true) :
    UpToDate log log' := by
  rw [lastTerm_eq, lastTerm_eq] at h
  unfold logIsFresh at h
  split at h
  · exact .inl (of_decide_eq_true h)
  · rename_i heq
    rw [ne_eq, Decidable.not_not] at heq
    exact .inr ⟨heq.symm, of_decide_eq_true h⟩

theorem getElem?_of_prefix {α : Type} {xs ys : List α} {i : Nat} {x : α} (h : xs <+: ys)
    (hx : xs[i]? = some x) : ys[i]? = some x := by
  obtain ⟨hi, rfl⟩ := List.getElem?_eq_some_iff.mp hx
  exact prefix_iff_getElem?.mp h i hi

theorem termAt_of_prefix {log log' : List LogEntry} {i t : Nat} (h : termAt log i = some t)
    (hp : log <+: log') : termAt log' i = some t := by
  cases i with
  | zero => exact h
  | succ i =>
    rw [termAt_succ, map_eq_some_iff] at h ⊢
    obtain ⟨e, he, ht⟩ := h
    exact ⟨e, getElem?_of_prefix hp he, ht⟩

theorem take_snoc {log : List LogEntry} {i : Nat} {e : LogEntry} (h : log[i]? = some e) :
    log.take (i + 1) = log.take i ++ [e] := by
  rw [take_add_one, h]
  rfl

/-- Two logs with an entry of one term at one place are the same up to it. -/
theorem take_matching {G : History} {log log' : List LogEntry} {i t : Nat}
    (h : Traced G.lead log) (h' : Traced G.lead log') (ht : termAt log i = some t)
    (ht' : termAt log' i = some t) : log.take i = log'.take i := by
  cases i with
  | zero => rfl
  | succ i =>
    rw [termAt_succ, map_eq_some_iff] at ht ht'
    obtain ⟨e, he, hterm⟩ := ht
    obtain ⟨e', he', hterm'⟩ := ht'
    have hlen : ∀ {l : List LogEntry} {x}, l[i]? = some x → (l.take i).length = i := by
      intro l x hx
      rw [length_take, min_eq_left (List.getElem?_eq_some_iff.mp hx).1.le]
    rw [take_snoc he, take_snoc he']
    exact h.matching h' (take_snoc he ▸ List.take_prefix _ _)
      (take_snoc he' ▸ List.take_prefix _ _) ((hlen he).trans (hlen he').symm)
      (hterm.trans hterm'.symm)

/-! ## Facts of a history -/

section Facts

variable (members : List Id) (G : History) (me : Id) (log : List LogEntry)

/-- The leader's log has this log up to an index. -/
def Agrees (t i : Nat) : Prop :=
  ∃ l, G.lead t = some l ∧ i ≤ log.length ∧ log.take i <+: l.log

/-- The leader's log has this log and then the entries. -/
def Continues (t : Nat) (es : List Entry) : Prop :=
  ∃ l, G.lead t = some l ∧ l.node ≠ me ∧ log ++ es.map Entry.toLog <+: l.log

/-- The leader's log first differs from this log at an index. -/
def Splits (t i : Nat) : Prop :=
  ∃ l p e f, G.lead t = some l ∧ l.node ≠ me ∧ p.length + 1 = i ∧ p ++ [e] <+: log ∧
    p ++ [f] <+: l.log ∧ e ≠ f

/-- The slice is of the leader's log. -/
def Sliced (t : Nat) (s : Slice) : Prop :=
  ∃ l, G.lead t = some l ∧ l.node = s.leader ∧ termAt l.log s.prevIndex = some s.prevTerm ∧
    s.entries.map Entry.toLog <+: l.log.drop s.prevIndex ∧ Covered members G l.log t s.commit

/-- The member acknowledged the leader's log up to an index. -/
def Held (t : Nat) (v : Id) (i : Nat) : Prop :=
  ∃ l, G.lead t = some l ∧ i ≤ l.log.length ∧ ∀ q, q <+: l.log.take i → G.acked t v q

/-- The member stood for election with a log of this length and last term. -/
def Asked (t : Nat) (c : Id) (i u : Nat) : Prop :=
  ∃ log, G.stood t c = some log ∧ log.length = i ∧ lastTerm log = u

end Facts

section Laws

variable {members : List Id} {G G' : History} {me : Id} {log log' : List LogEntry}
  {t i k : Nat} {s : Slice} {es : List Entry} {e : Entry}

theorem Sliced.entry (h : Sliced members G t s) (he : s.entries[i]? = some e) :
    ∃ l, G.lead t = some l ∧ l.log[s.prevIndex + i]? = some e.toLog := by
  obtain ⟨l, hl, -, -, hes, -⟩ := h
  refine ⟨l, hl, ?_⟩
  rw [← List.getElem?_drop]
  refine getElem?_of_prefix hes ?_
  rw [List.getElem?_map, he]
  rfl

/-! ### How a node derives one fact from another -/

theorem Held.le (h : Held G t me i) (hk : k ≤ i) : Held G t me k := by
  obtain ⟨l, hl, hlen, hq⟩ := h
  exact ⟨l, hl, hk.trans hlen, fun q hpre => hq q (hpre.trans (take_prefix_take_left hk))⟩

/-- An entry of the leader's own term that a majority acknowledged is committed. -/
theorem cover_lead (hG : Settled members G) (htr : Traced G.lead log)
    (hlead : ∃ l, G.lead t = some l ∧ l.node = me) (h0 : 0 < i) (ht : termAt log i = some t)
    (hm : Majority members fun v => v = me ∨ Held G t v i) : Covered members G log t i := by
  obtain ⟨i, rfl⟩ : ∃ j, i = j + 1 := ⟨i - 1, by omega⟩
  rw [termAt_succ, map_eq_some_iff] at ht
  obtain ⟨e, he, hterm⟩ := ht
  obtain ⟨l, hl, hnode⟩ := hlead
  have hlen : (log.take (i + 1)).length = i + 1 := by
    rw [length_take, min_eq_left (List.getElem?_eq_some_iff.mp he).1]
  have hpre : log.take (i + 1) <+: l.log := by
    obtain ⟨l', hl', hpre⟩ := htr (log.take i) e (take_snoc he ▸ List.take_prefix _ _)
    rw [show Stamped.stamp e = t from hterm, hl, some.injEq] at hl'
    rw [take_snoc he, hl']
    exact hpre
  have hends : Library.Consensus.Ends (log.take (i + 1)) t := ⟨_, e, take_snoc he, hterm⟩
  refine .inr ⟨t, log.take (i + 1), le_refl _, ⟨hends, ⟨l, hl, hpre⟩, ?_⟩, hlen.ge, ?_⟩
  · refine hm.mono fun v _ hv => ?_
    rcases hv with rfl | ⟨l', hl', -, hq⟩
    · exact hnode ▸ (hG.lead t l hl).acked _ hpre hends
    · rw [hl, some.injEq] at hl'
      refine hq _ (prefix_of_prefix_length_le (hl' ▸ hpre) (List.take_prefix _ _) ?_)
      have := hpre.length_le
      rw [hlen] at this
      rw [hlen, length_take, ← hl', min_eq_left this]
  · exact (List.take_prefix _ _).trans (List.take_prefix _ _)

theorem Sliced.cover (h : Sliced members G t s) (ha : Agrees G log t i) (hc : k ≤ s.commit)
    (hi : k ≤ i) : Covered members G log t k := by
  obtain ⟨l, hl, -, -, -, hcov⟩ := h
  obtain ⟨l', hl', hlen, hpre⟩ := ha
  rw [hl, some.injEq] at hl'
  subst hl'
  refine (hcov.le hc).moves fun pre hk hp => ?_
  refine (prefix_of_prefix_length_le hp hpre ?_).trans (List.take_prefix _ _)
  rw [length_take]
  omega

theorem Sliced.start (hG : Settled members G) (htr : Traced G.lead log)
    (h : Sliced members G t s) (ht : termAt log s.prevIndex = some s.prevTerm) :
    Agrees G log t s.prevIndex := by
  obtain ⟨l, hl, -, hterm, -⟩ := h
  refine ⟨l, hl, termAt_le ht, ?_⟩
  rw [take_matching htr (hG.lead t l hl).traced ht hterm]
  exact List.take_prefix _ _

theorem Sliced.next (hG : Settled members G) (htr : Traced G.lead log)
    (h : Sliced members G t s) (he : s.entries[i]? = some e)
    (ht : termAt log (s.prevIndex + i + 1) = some e.term) :
    Agrees G log t (s.prevIndex + i + 1) := by
  obtain ⟨l, hl, hle⟩ := h.entry he
  refine ⟨l, hl, termAt_le ht, ?_⟩
  have hterm : termAt l.log (s.prevIndex + i + 1) = some e.term := by
    rw [termAt_succ, hle]
    rfl
  rw [take_matching htr (hG.lead t l hl).traced ht hterm]
  exact List.take_prefix _ _

theorem Sliced.continues (h : Sliced members G t s) (hother : s.leader ≠ me)
    (ha : Agrees G log t (s.prevIndex + i)) (hlen : log.length = s.prevIndex + i) :
    Continues G me log t (s.entries.drop i) := by
  obtain ⟨l, hl, hnode, -, hes, -⟩ := h
  obtain ⟨l', hl', -, hpre⟩ := ha
  rw [hl, some.injEq] at hl'
  subst hl'
  refine ⟨l, hl, hnode ▸ hother, ?_⟩
  rw [← hlen, take_length] at hpre
  obtain ⟨rest, hrest⟩ := hpre
  rw [← hrest]
  refine prefix_append_right_inj _ |>.mpr ?_
  have hdrop : l.log.drop (s.prevIndex + i) = rest := by
    rw [← hrest, ← hlen, drop_left]
  rw [← hdrop, map_drop, ← drop_drop]
  exact hes.drop i

variable {u : Nat}

theorem Sliced.splits (h : Sliced members G t s) (hother : s.leader ≠ me)
    (ha : Agrees G log t (s.prevIndex + i)) (he : s.entries[i]? = some e)
    (ht : termAt log (s.prevIndex + i + 1) = some u) (hne : u ≠ e.term) :
    Splits G me log t (s.prevIndex + i + 1) := by
  obtain ⟨l, hl, hle⟩ := h.entry he
  obtain ⟨l₁, hl₁, hnode, -⟩ := h
  obtain ⟨l₂, hl₂, hlen, hpre⟩ := ha
  rw [hl, some.injEq] at hl₁ hl₂
  subst hl₁ hl₂
  rw [termAt_succ, map_eq_some_iff] at ht
  obtain ⟨f, hf, hterm⟩ := ht
  have htake : (log.take (s.prevIndex + i)).length = s.prevIndex + i := by
    rw [length_take, min_eq_left hlen]
  have heq : l.log.take (s.prevIndex + i) = log.take (s.prevIndex + i) := by
    have := prefix_iff_eq_take.mp hpre
    rw [htake] at this
    exact this.symm
  refine ⟨l, log.take (s.prevIndex + i), f, e.toLog, hl, hnode ▸ hother, by rw [htake], ?_, ?_, ?_⟩
  · rw [← take_snoc hf]
    exact List.take_prefix _ _
  · rw [← heq, ← take_snoc hle]
    exact List.take_prefix _ _
  · rintro rfl
    exact hne hterm.symm

/-! ### How facts survive -/

theorem Agrees.moves (h : Agrees G log t i) (hg : Grows G G')
    (hp : ∀ pre, pre.length ≤ k → pre <+: log → pre <+: log') (hi : i ≤ k) :
    Agrees G' log' t i := by
  obtain ⟨l, hl, hlen, hpre⟩ := h
  obtain ⟨l', hl', -, -, hlog⟩ := hg.lead t l hl
  have htake : (log.take i).length = i := by rw [length_take, min_eq_left hlen]
  have hin := hp (log.take i) (htake.le.trans hi) (List.take_prefix _ _)
  have heq : log'.take i = log.take i := by
    have := prefix_iff_eq_take.mp hin
    rw [htake] at this
    exact this.symm
  exact ⟨l', hl', htake ▸ hin.length_le, heq ▸ hpre.trans hlog⟩

theorem Splits.moves (h : Splits G me log t i) (hg : Grows G G')
    (hp : ∀ pre, pre.length ≤ k → pre <+: log → pre <+: log') (hi : i ≤ k) :
    Splits G' me log' t i := by
  obtain ⟨l, p, e, f, hl, hnode, hlen, hmine, hits, hne⟩ := h
  obtain ⟨l', hl', hnode', -, hlog⟩ := hg.lead t l hl
  refine ⟨l', p, e, f, hl', hnode' ▸ hnode, hlen, hp _ ?_ hmine, hits.trans hlog, hne⟩
  rw [length_append, length_singleton, hlen]
  exact hi

theorem Continues.grows (h : Continues G me log t es) (hg : Grows G G') :
    Continues G' me log t es := by
  obtain ⟨l, hl, hnode, hpre⟩ := h
  obtain ⟨l', hl', hnode', -, hlog⟩ := hg.lead t l hl
  exact ⟨l', hl', hnode' ▸ hnode, hpre.trans hlog⟩

theorem Sliced.grows (h : Sliced members G t s) (hg : Grows G G') : Sliced members G' t s := by
  obtain ⟨l, hl, hnode, hterm, hes, hcov⟩ := h
  obtain ⟨l', hl', hnode', -, hlog⟩ := hg.lead t l hl
  exact ⟨l', hl', hnode'.trans hnode, termAt_of_prefix hterm hlog, hes.trans (hlog.drop _),
    (hcov.grows hg).moves fun _ _ hp => hp.trans hlog⟩

theorem Held.grows (h : Held G t me i) (hg : Grows G G') : Held G' t me i := by
  obtain ⟨l, hl, hlen, hq⟩ := h
  obtain ⟨l', hl', -, -, hlog⟩ := hg.lead t l hl
  refine ⟨l', hl', hlen.trans hlog.length_le, fun q hpre => hg.acked t me q (hq q ?_)⟩
  obtain ⟨rest, hrest⟩ := hlog
  rwa [← hrest, take_append_of_le_length hlen] at hpre

theorem Asked.grows (h : Asked G t me i u) (hg : Grows G G') : Asked G' t me i u := by
  obtain ⟨log, hs, hfacts⟩ := h
  exact ⟨log, hg.stood t me log hs, hfacts⟩

end Laws

/-! ## The view of a node -/

section View

variable {members : List Id} {G G' : History} {me : Id} {log log' : List LogEntry}

/-- What a history says to a node. -/
def view (hG : Settled members G) (hlog : G.log me = log) : View me members log where
  candidate t := G.stood t me = some log ∧ G.cast t me me
  elected t := ∃ l, G.lead t = some l ∧ l.node = me
  voted t v := G.cast t v me
  acked t v i := Held G t v i
  covered t i := Covered members G log t i
  agrees t i := Agrees G log t i
  continues t es := Continues G me log t es
  splits t i := Splits G me log t i
  slice t s := Sliced members G t s ∧ s.leader ≠ me
  request t c i u := Asked G t c i u
  mayVote t c := ∃ log', G.stood t c = some log' ∧ UpToDate log' log
  candidate_me h := h.2
  elect _ hm := hG.elected _ me hm
  acked_le h hk := h.le hk
  vote := by
    rintro t c i u ⟨log', hs, rfl, rfl⟩ hfresh
    exact ⟨log', hs, logIsFresh_upToDate hfresh⟩
  cover_lead hl h0 ht hm := Raft89.cover_lead hG (hlog ▸ hG.log_traced me) hl h0 ht hm
  cover_follow h ha hc hi := h.1.cover ha hc hi
  cover_term h ht := h.later ht
  agree_start h ht := h.1.start hG (hlog ▸ hG.log_traced me) ht
  agree_first := by
    rintro t s ⟨⟨l, hl, -⟩, -⟩ -
    exact ⟨l, hl, zero_le _, List.nil_prefix⟩
  agree_next h _ he ht := h.1.next hG (hlog ▸ hG.log_traced me) he ht
  continue_from h ha hlen _ := h.1.continues h.2 ha hlen
  split_at h ha he ht hne := h.1.splits h.2 ha he ht hne
  agree_end := by
    rintro t ⟨l, hl, -, hpre⟩
    rw [map_nil, append_nil] at hpre
    exact ⟨l, hl, le_refl _, (take_length (l := log)).symm ▸ hpre⟩

theorem view_moves (hG : Settled members G) (hlog : G.log me = log)
    (hG' : Settled members G') (hlog' : G'.log me = log') (hg : Grows G G') {k : Nat}
    (hp : ∀ pre, pre.length ≤ k → pre <+: log → pre <+: log') :
    (view hG hlog).Moves (view hG' hlog') k where
  elected := by
    rintro t ⟨l, hl, hnode⟩
    obtain ⟨l', hl', hnode', -⟩ := hg.lead t l hl
    exact ⟨l', hl', hnode'.trans hnode⟩
  acked h := h.grows hg
  slice h := ⟨h.1.grows hg, h.2⟩
  covered h hi := (h.grows hg).moves fun pre hlen => hp pre (hlen.trans hi)
  agrees h hi := h.moves hg hp hi
  splits h hi := h.moves hg hp hi

theorem view_same (hG : Settled members G) (hlog : G.log me = log)
    (hG' : Settled members G') (hlog' : G'.log me = log) (hg : Grows G G') :
    (view hG hlog).Same (view hG' hlog') where
  elected := (view_moves hG hlog hG' hlog' hg (k := 0) fun _ _ => id).elected
  acked h := h.grows hg
  slice h := ⟨h.1.grows hg, h.2⟩
  covered h := h.grows hg
  agrees h := h.moves hg (fun _ _ => id) (le_refl _)
  splits h := h.moves hg (fun _ _ => id) (le_refl _)
  candidate h := ⟨hg.stood _ _ _ h.1, hg.cast _ _ _ h.2⟩
  voted h := hg.cast _ _ _ h
  continues h := h.grows hg
  mayVote := by
    rintro t c ⟨log', hs, hfresh⟩
    exact ⟨log', hg.stood t c log' hs, hfresh⟩

end View

/-! ## Clusters -/

/-- The hosts, the messages emitted so far, and how far each host applied its log. -/
structure Cluster where
  host : Id → Host
  sent : List Message
  applied : Id → Nat

/-- No host has started. -/
def Cluster.init : Cluster where
  host _ := ⟨⟨⟨0, idNone⟩, []⟩, none, 0⟩
  sent := []
  applied _ := 0

/-- A host starts as itself, with the members of the cluster and an index up to which it
applied its log; it receives what was emitted. -/
def Cluster.allows (C : Cluster) (members : List Id) (v : Id) : Event → Prop
  | .start config =>
    config.self = v ∧ config.members.elems = members ∧ config.appliedIndex ≤ C.applied v
  | .recv m => m ∈ C.sent
  | _ => True

instance (C : Cluster) (members : List Id) (v : Id) :
    (ev : Event) → Decidable (C.allows members v ev)
  | .start config => inferInstanceAs (Decidable
      (config.self = v ∧ config.members.elems = members ∧ config.appliedIndex ≤ C.applied v))
  | .recv m => inferInstanceAs (Decidable (m ∈ C.sent))
  | .tick _ | .proposev _ | .write | .done _ _ | .crash => inferInstanceAs (Decidable True)

/-- A host is given an action: from now on the message may arrive, and the entry may have
been applied. -/
def Cluster.emit (C : Cluster) (v : Id) : ActionBody → Cluster
  | .send m => { C with sent := m :: C.sent }
  | .apply e => { C with applied := update C.applied v (max (C.applied v) e.index) }
  | _ => C

/-- The cluster after a host has come to a new state. -/
def Cluster.after (C : Cluster) (v : Id) (h' : Host) : Cluster :=
  match (C.host v).emits h' with
  | some body => { C with host := update C.host v h' }.emit v body
  | none => { C with host := update C.host v h' }

/-- One event of one host, without a failed allocation, and the action it emits. -/
def Cluster.Next (members : List Id) (C : Cluster) (out : List (Id × ActionBody))
    (C' : Cluster) : Prop :=
  ∃ v s ev rc h', ev.InRange ∧ C.allows members v ev ∧ (C.host v).step s ev = some (rc, h') ∧
    rc ≠ .errNomem ∧ C' = C.after v h' ∧ out = ((C.host v).emits h').toList.map (Prod.mk v)

/-! ## What explains a cluster -/

section Explained

variable {members : List Id} {G G' : History} {hG : Settled members G} {v : Id} {h : Host}
  {n : Node}

/-- What a message says is so. -/
def Vouched (members : List Id) (G : History) (m : Message) : Prop :=
  match m.body with
  | .requestVote t i u => Asked G t m.sender i u
  | .requestVoteResponse t g => g ≠ 0 → G.cast t m.sender m.receiver
  | .appendEntries t p q c es =>
    Sliced members G t ⟨m.sender, p, q, c, es.elems.map entryStore⟩
  | .appendEntriesResponse t s i _ _ => s ≠ 0 → Held G t m.sender i
  | .unknown _ => True

variable {m : Message}

theorem Vouched.grows (h : Vouched members G m) (hg : Grows G G') :
    Vouched members G' m := by
  unfold Vouched at h ⊢
  cases hb : m.body with
  | requestVote t i u =>
    rw [hb] at h
    exact Asked.grows h hg
  | requestVoteResponse t g =>
    rw [hb] at h
    exact fun hne => hg.cast _ _ _ (h hne)
  | appendEntries t p q c es =>
    rw [hb] at h
    exact Sliced.grows h hg
  | appendEntriesResponse t s i ct ci =>
    rw [hb] at h
    exact fun hne => Held.grows (h hne) hg
  | unknown => trivial

theorem Vouched.accepts {log : List LogEntry} (h : Vouched members G m)
    (hG : Settled members G) (hlog : G.log v = log) (hm : m.InRange) (hto : m.receiver = v)
    (hfrom : m.sender ≠ v) : (view hG hlog).Accepts m := by
  refine ⟨hm.term_le, ?_⟩
  unfold Vouched at h
  cases hb : m.body with
  | requestVote t i u | appendEntriesResponse t s i ct ci =>
    rw [hb] at h
    exact h
  | requestVoteResponse t g =>
    rw [hb, hto] at h
    exact h
  | appendEntries t p q c es =>
    rw [hb] at h
    exact ⟨h, hfrom⟩
  | unknown => trivial

/-- An entry that is committed at its index. -/
def Chosen (members : List Id) (G : History) (e : Entry) : Prop :=
  ∃ t pre, Committed members G t pre ∧ entryAt pre e.index = some e.toLog

/-- A history explains the durable state and the node of a host. -/
structure Explained (hG : Settled members G) (v : Id) (h : Host) : Prop where
  term : G.term v = h.disk.hard.currentTerm
  log : G.log v = h.disk.log
  vote : ∀ c, G.cast (G.term v) v c ↔ c ≠ idNone ∧ h.disk.hard.votedFor = c
  range : h.disk.InRange
  node : ∀ n, h.node = some n → NodeOk (view hG log) h.disk n h.written

theorem Explained.grows (hex : Explained hG v h) (hG' : Settled members G') (hg : Grows G G')
    (hterm : G'.term v = G.term v) (hlog : G'.log v = G.log v)
    (hcast : ∀ t c, G'.cast t v c → G.cast t v c) : Explained hG' v h where
  term := hterm.trans hex.term
  log := hlog.trans hex.log
  vote c := by
    rw [hterm, ← hex.vote c]
    exact ⟨hcast _ c, hg.cast _ v c⟩
  range := hex.range
  node n hn := (hex.node n hn).same (view_same hG hex.log hG' (hlog.trans hex.log) hg)

/-! ### Durable writes -/

/-- A durable hard state is a vote, a candidacy or a later term. -/
theorem Explained.hardState (hex : Explained hG v h) (hn : h.node = some n)
    (ha : n.hasAction = true) {st : HardState} (hb : n.action.body = .hardState st)
    (hw : h.written = 0) :
    ∃ G', Settled members G' ∧ Within members v G G' ∧ G'.term v = st.currentTerm ∧
      G'.log v = G.log v ∧
      (∀ c, G'.cast st.currentTerm v c ↔ c ≠ idNone ∧ st.votedFor = c) ∧
      (n.step = .electionBroadcast →
        G'.stood st.currentTerm v = some (G.log v) ∧ G'.cast st.currentTerm v v) := by
  have hnode := hex.node n hn
  have hbusy := hnode.busy ha
  unfold Busy at hbusy
  rw [hb] at hbusy
  have hsync : HardSync h.disk n := by
    rcases hbusy.hard with h0 | h1
    · exact h0.2
    · rw [hw] at h1
      cases h1.1
  have hcur : n.currentTerm = G.term v := hsync.term.trans hex.term.symm
  have hadvance : G.term v < st.currentTerm ∨
      (G.term v = st.currentTerm ∧ ∀ c, ¬ G.cast st.currentTerm v c) := by
    rw [← hcur]
    refine hbusy.advance.imp id fun ⟨hterm, hvote⟩ => ⟨hterm, fun c hc => ?_⟩
    rw [← hterm, hcur, hex.vote c, ← hsync.vote, hvote] at hc
    exact hc.1 hc.2.symm
  have hle : G.term v ≤ st.currentTerm := by
    rcases hadvance with hlt | heq
    · exact hlt.le
    · exact heq.1.le
  have hfree : ∀ c, ¬ G.cast st.currentTerm v c := by
    rcases hadvance with hlt | heq
    · exact fun c hc => absurd (hG.cast _ v c hc).1 (Nat.not_le_of_lt hlt)
    · exact heq.2
  have hquiet : n.step ≠ .electionBroadcast → st.votedFor = idNone →
      ∃ G', Settled members G' ∧ Within members v G G' ∧ G'.term v = st.currentTerm ∧
        G'.log v = G.log v ∧
        (∀ c, G'.cast st.currentTerm v c ↔ c ≠ idNone ∧ st.votedFor = c) ∧
        (n.step = .electionBroadcast →
          G'.stood st.currentTerm v = some (G.log v) ∧ G'.cast st.currentTerm v v) := by
    intro hstep hvote
    have hnobody : ∀ c, ¬ (c ≠ idNone ∧ st.votedFor = c) := fun c hc => hc.1 (hc.2 ▸ hvote)
    rcases hadvance with hlt | heq
    · obtain ⟨G', hG', hwithin, hterm, hlog, hcast⟩ := hG.advance hlt
      exact ⟨G', hG', hwithin, hterm, hlog,
        fun c => ⟨fun hc => absurd hc (hcast c), fun hc => absurd hc (hnobody c)⟩,
        fun hs => absurd hs hstep⟩
    · exact ⟨G, hG, .refl v G, heq.1, rfl,
        fun c => ⟨fun hc => absurd hc (heq.2 c), fun hc => absurd hc (hnobody c)⟩,
        fun hs => absurd hs hstep⟩
  have hmember : ∀ {p}, p ∈ members → p ≠ idNone := by
    rintro p hp rfl
    exact hnode.base.none_notMem hp
  have hnext := hbusy.next
  obtain ⟨step, hs⟩ : ∃ step, n.step = step := ⟨_, rfl⟩
  rw [hs] at hnext hquiet ⊢
  cases step with
  | electionBroadcast =>
    obtain ⟨-, hvote, -, -, hlt, -⟩ := hnext
    rw [hcur] at hlt
    obtain ⟨G', hG', hwithin, hterm, hlog, hstood, hcast⟩ := hG.stand hlt
    refine ⟨G', hG', hwithin, hterm, hlog, fun c => ?_, fun _ => ⟨hstood, (hcast v).mpr rfl⟩⟩
    rw [hcast, hvote]
    exact ⟨fun hc => ⟨hc ▸ hmember hnode.base.me_mem, hc.symm⟩, fun hc => hc.2.symm⟩
  | voteResponse =>
    obtain ⟨-, p, g, hp, -, -, hvote, hmay⟩ := hnext
    cases g with
    | false => exact hquiet nofun hvote
    | true =>
      obtain ⟨log, hstood, hfresh⟩ := hmay rfl hw
      rw [← hex.log] at hfresh
      obtain ⟨G', hG', hwithin, hterm, hlog, hcast⟩ := hG.grant hle hfree hstood hfresh
      refine ⟨G', hG', hwithin, hterm, hlog, fun c => ?_, nofun⟩
      rw [hcast, hvote]
      exact ⟨fun hc => ⟨hc ▸ hmember hp, hc.symm⟩, fun hc => hc.2.symm⟩
  | stepDown => exact hquiet nofun hnext.2
  | aeHardState => exact hquiet nofun hnext.2.1
  | _ => exact hnext.elim

/-- A durable entry is one that the leader made or one of its log. -/
theorem Explained.logAppend (hex : Explained hG v h) (hn : h.node = some n)
    (ha : n.hasAction = true) {entries : List Entry} (hb : n.action.body = .logAppend entries)
    {e : Entry} (he : entries[h.written]? = some e) :
    ∃ G', Settled members G' ∧ Within members v G G' ∧ G'.term = G.term ∧ G'.cast = G.cast ∧
      G'.log v = G.log v ++ [e.toLog] := by
  have hnode := hex.node n hn
  have hbusy := hnode.busy ha
  unfold Busy at hbusy
  rw [hb] at hbusy
  have hcur : n.currentTerm = G.term v := hbusy.hard.term.trans hex.term.symm
  have hnext := hbusy.next
  obtain ⟨step, hs⟩ : ∃ step, n.step = step := ⟨_, rfl⟩
  rw [hs] at hnext
  cases step with
  | leaderAppend =>
    obtain ⟨hrole, -, hterms, -⟩ := hnext
    obtain ⟨l, hl, hown⟩ := hnode.base.elected hrole
    rw [hcur] at hl
    have hnew : Stamped.stamp e.toLog = G.term v :=
      (hterms e (mem_of_getElem? he)).trans hcur
    obtain ⟨hset, hwithin, hlog⟩ := hG.write (.extend hl hown hnew) rfl rfl rfl
    exact ⟨_, hset, hwithin, rfl, rfl, hlog⟩
  | aeAppend =>
    obtain ⟨l, hl, hother, hpre⟩ := hnext.2.2.2.2.2.2.2
    have hlt : h.written < entries.length := (List.getElem?_eq_some_iff.mp he).1
    rw [drop_eq_getElem_cons hlt, (List.getElem?_eq_some_iff.mp he).2, map_cons,
      append_cons, ← hex.log] at hpre
    rw [hcur] at hl
    obtain ⟨hset, hwithin, hlog⟩ :=
      hG.write (.append hl hother ((prefix_append _ _).trans hpre)) rfl rfl rfl
    exact ⟨_, hset, hwithin, rfl, rfl, hlog⟩
  | _ => exact hnext.elim

/-- A removed entry is not in the leader's log, or follows one that is not. -/
theorem Explained.logTruncate (hex : Explained hG v h) (hn : h.node = some n)
    (ha : n.hasAction = true) {first : Nat} (hb : n.action.body = .logTruncate first)
    (hle : first ≤ h.disk.log.length) :
    ∃ G', Settled members G' ∧ Within members v G G' ∧ G'.term = G.term ∧ G'.cast = G.cast ∧
      G'.log v = (G.log v).dropLast := by
  have hbusy := (hex.node n hn).busy ha
  unfold Busy at hbusy
  rw [hb] at hbusy
  obtain ⟨l, p, e, f, hl, hother, -, hmine, hits, hne⟩ := hbusy.splits hle
  rw [hbusy.hard.term, ← hex.term] at hl
  rw [← hex.log] at hmine
  obtain ⟨hset, hwithin, hlog⟩ := hG.write (.cut hl hother hmine hits hne) rfl rfl rfl
  exact ⟨_, hset, hwithin, rfl, rfl, hlog⟩

variable {d : Disk}

theorem Explained.write (hex : Explained hG v h) (hn : h.node = some n)
    (ha : n.hasAction = true)
    (hd : h.disk.write n.action.body h.written = some d) :
    ∃ G', ∃ hG' : Settled members G', Within members v G G' ∧
      Explained hG' v ⟨d, some n, h.written + 1⟩ := by
  have hnode := hex.node n hn
  have hrange := hnode.write_inRange ha hex.range hd
  rcases Disk.write_cases hd with ⟨m, hb, rfl⟩ | ⟨st, hb, hw, rfl⟩ | ⟨entries, e, hb, he, rfl⟩ |
    ⟨first, hb, hle, rfl⟩
  · refine ⟨G, hG, .refl v G, { hex with node := fun k hk => ?_ }⟩
    obtain rfl := some.inj hk
    exact hnode.write_send hb ha
  · obtain ⟨G', hG', hwithin, hterm, hlog, hvote, hcand⟩ := hex.hardState hn ha hb hw
    refine ⟨G', hG', hwithin, hterm, hlog.trans hex.log, fun c => hterm ▸ hvote c, hrange,
      fun k hk => ?_⟩
    obtain rfl := some.inj hk
    rw [hw] at hnode ⊢
    exact hnode.write_hardState hb ha
      (view_same hG hex.log hG' (hlog.trans hex.log) hwithin.grows)
      fun hs => ⟨(hcand hs).1.trans (congrArg some hex.log), (hcand hs).2⟩
  · obtain ⟨G', hG', hwithin, hterm, hcast, hlog⟩ := hex.logAppend hn ha hb he
    rw [hex.log] at hlog
    refine ⟨G', hG', hwithin, (congrFun hterm v).trans hex.term, hlog,
      fun c => by rw [hterm, hcast]; exact hex.vote c, hrange, fun k hk => ?_⟩
    obtain rfl := some.inj hk
    refine hnode.write_logAppend hb ha he (view_moves hG hex.log hG' hlog hwithin.grows
      fun pre _ hp => hp.trans (prefix_append _ _)) ?_
    rintro t es ⟨l, hl, hother, hpre⟩
    obtain ⟨l', hl', hnode', -, hgrown⟩ := hwithin.grows.lead t l hl
    rw [map_cons, append_cons] at hpre
    exact ⟨l', hl', hnode' ▸ hother, hpre.trans hgrown⟩
  · obtain ⟨G', hG', hwithin, hterm, hcast, hlog⟩ := hex.logTruncate hn ha hb hle
    rw [hex.log] at hlog
    refine ⟨G', hG', hwithin, (congrFun hterm v).trans hex.term, hlog,
      fun c => by rw [hterm, hcast]; exact hex.vote c, hrange, fun k hk => ?_⟩
    obtain rfl := some.inj hk
    refine hnode.write_logTruncate hb ha hle (view_moves hG hex.log hG' hlog hwithin.grows
      fun pre hlen hp => ?_)
    refine prefix_of_prefix_length_le hp (List.dropLast_prefix _) ?_
    rw [length_dropLast]
    exact hlen

/-! ### Calls -/

/-- A message that is not for the node leaves it as it was. -/
theorem recv_invalid {env : Env} (h : msgEnvelopeValid n m = false) :
    (recv env n m).2 = n := by
  unfold recv
  rw [if_pos h]
  split
  · rfl
  split <;> rfl

theorem msgEnvelopeValid_receiver (h : msgEnvelopeValid n m = true) :
    m.receiver = n.self := by
  unfold msgEnvelopeValid at h
  by_contra hne
  rw [if_pos hne] at h
  cases h

variable {ev : Event} {rc : Result} {h' : Host}

theorem Explained.call (hex : Explained hG v h) {s : Supply}
    (hcall : ev.isCall = true) (hev : ev.InRange)
    (hsent : ∀ m, ev = .recv m → Vouched members G m) (hstep : h.step s ev = some (rc, h'))
    (hrc : rc ≠ .errNomem) : Explained hG v h' := by
  cases hn : h.node with
  | none =>
    rw [Host.step_none hn hcall] at hstep
    cases hstep
  | some n =>
    have hnode := hex.node n hn
    have hdone : (∀ m, ev = .recv m → (view hG hex.log).Accepts m) → Explained hG v h' := by
      intro hacc
      obtain ⟨n', rfl, hn', -⟩ := Host.step_call hn hnode hcall hacc hstep hrc
      refine { hex with node := fun k hk => ?_ }
      obtain rfl := some.inj hk
      exact hn'
    cases ev with
    | recv m =>
      cases hvalid : msgEnvelopeValid n m with
      | false =>
        obtain ⟨-, rfl⟩ := Host.call_eq hn hstep
        refine { hex with node := fun k hk => ?_ }
        obtain rfl := some.inj hk
        rw [recv_invalid hvalid, writtenAfter, if_pos rfl]
        exact hnode
      | true =>
        refine hdone fun m' hm' => ?_
        obtain rfl := Event.recv.inj hm'
        refine (hsent m rfl).accepts hG hex.log hev ?_
          (msgEnvelopeValid_sender hnode.base hvalid).2
        rw [msgEnvelopeValid_receiver hvalid, hnode.base.me_eq]
    | _ => exact hdone fun m hm => by cases hm

/-! ### Emitted actions -/

/-- What a node says is so, when it has acknowledged what it says it holds. -/
theorem Explained.vouched (hex : Explained hG v h) (hn : h.node = some n)
    (ha : n.hasAction = true) (hb : n.action.body = .send m) :
    ∃ G', Settled members G' ∧ Grows G G' ∧ G'.term = G.term ∧ G'.log = G.log ∧
      G'.cast = G.cast ∧
      (∀ w k, Covered members G (G.log w) (G.term w) k →
        Covered members G' (G'.log w) (G'.term w) k) ∧ Vouched members G' m := by
  have hnode := hex.node n hn
  have hbusy := hnode.busy ha
  unfold Busy at hbusy
  rw [hb] at hbusy
  have hcur : n.currentTerm = G.term v := hbusy.hard.term.trans hex.term.symm
  have hstays : Vouched members G m → ∃ G', Settled members G' ∧ Grows G G' ∧
      G'.term = G.term ∧ G'.log = G.log ∧ G'.cast = G.cast ∧
      (∀ w k, Covered members G (G.log w) (G.term w) k →
        Covered members G' (G'.log w) (G'.term w) k) ∧ Vouched members G' m :=
    fun hm => ⟨G, hG, .refl G, rfl, rfl, rfl, fun _ _ => id, hm⟩
  obtain ⟨hsender, hbody⟩ := hbusy.message
  unfold Vouched at hstays ⊢
  rw [hsender] at hstays ⊢
  cases hmb : m.body with
  | requestVote t i u =>
    rw [hmb] at hbody hstays
    obtain ⟨-, rfl, rfl, hstood, -⟩ := hbody
    exact hstays ⟨_, hstood, rfl, rfl⟩
  | requestVoteResponse t g =>
    rw [hmb] at hbody hstays
    refine hstays fun hg => ?_
    obtain ⟨rfl, hvote, hne⟩ := hbody hg
    rw [← hex.term]
    exact (hex.vote _).mpr ⟨hne, hvote⟩
  | appendEntries t p q c es =>
    rw [hmb] at hbody hstays
    obtain ⟨rfl, hrole, hterm, hes, rfl⟩ := hbody
    obtain ⟨l, hl, hown⟩ := hnode.base.elected hrole
    have hcov := hnode.base.cover
    rw [hcur] at hl hcov
    rw [← hex.log, hG.own v l hl hown] at hterm hes
    refine hstays ⟨l, hex.term ▸ hl, hown, hterm, ?_, ?_⟩
    · rw [List.map_map]
      exact hes
    · rw [← hG.own v l hl hown, hex.log, ← hex.term]
      exact hcov
  | appendEntriesResponse t s i ct ci =>
    rw [hmb] at hbody hstays
    by_cases hs : s = 0
    · exact hstays fun hne => absurd hs hne
    · obtain ⟨rfl, hle, l, hl, -, hpre⟩ := hbody hs
      rw [← hex.term] at hl
      obtain ⟨G', hG', hg, hterm, hlog, hcast, hlead, hcov, hack⟩ :=
        hG.ack hl hpre (hex.log ▸ List.take_prefix _ _)
      refine ⟨G', hG', hg, hterm, hlog, hcast, hcov, fun _ => ?_⟩
      have htake : (h.disk.log.take i).length = i := by
        rw [length_take, min_eq_left hle]
      have heq : l.log.take i = h.disk.log.take i := by
        have := prefix_iff_eq_take.mp hpre
        rw [htake] at this
        exact this.symm
      rw [← hex.term]
      refine ⟨l, hlead ▸ hl, htake ▸ hpre.length_le, fun q hq => hack q ?_⟩
      rwa [heq] at hq
  | unknown ty =>
    rw [hmb] at hbody
    exact hbody.elim

/-- The entry a node applies is chosen, and so is its log up to it. -/
theorem Explained.apply (hex : Explained hG v h) (hn : h.node = some n)
    (ha : n.hasAction = true) {e : Entry} (hb : n.action.body = .apply e) :
    Chosen members G e ∧ Covered members G (G.log v) (G.term v) e.index := by
  have hnode := hex.node n hn
  have hbusy := hnode.busy ha
  unfold Busy at hbusy
  rw [hb] at hbusy
  have hindex := hbusy.index
  have hlt := hbusy.lt
  have hcov : Covered members G (G.log v) (G.term v) e.index := by
    rw [hex.log, hex.term, ← hbusy.hard.term]
    exact Covered.le hnode.base.cover (by omega)
  refine ⟨?_, hcov⟩
  have hentry := hbusy.entry
  rw [← hex.log] at hentry
  obtain ⟨j, hj⟩ : ∃ j, e.index = j + 1 := ⟨_, hindex⟩
  rw [hj] at hcov hentry
  rcases hcov with h0 | ⟨u, pre, -, hc, hlen, hpre⟩
  · cases h0
  · refine ⟨u, pre, hc, ?_⟩
    rw [hj, entryAt_succ, List.getElem?_eq_getElem hlen]
    rw [entryAt_succ] at hentry
    have htake : (pre.take (j + 1))[j]? = some pre[j] := by
      rw [List.getElem?_take_of_lt (lt_succ_self j), List.getElem?_eq_getElem hlen]
    rw [← hentry, getElem?_of_prefix hpre htake]

end Explained

/-! ## Every run is explained -/

section Explains

variable {members : List Id} {C C' : Cluster} {G G' : History} {v : Id}

/-- A history explains a cluster. -/
structure Explains (members : List Id) (C : Cluster) (G : History) : Prop where
  settled : Settled members G
  host : ∀ v, Explained settled v (C.host v)
  sent : ∀ m ∈ C.sent, Vouched members G m
  applied : ∀ v, Covered members G (G.log v) (G.term v) (C.applied v)

theorem Explains.init (members : List Id) : Explains members .init Library.Consensus.State.init where
  settled := .init members
  host v :=
    { term := rfl
      log := rfl
      vote := fun c => ⟨False.elim, fun hc => hc.1 hc.2.symm⟩
      range := ⟨zero_le _, zero_le _⟩
      node := fun n hn => by cases hn }
  sent _ hm := by cases hm
  applied _ := .inl rfl

theorem Explains.move (h : Explains members C G) (hG' : Settled members G')
    (hw : Within members v G G') (hex : Explained hG' v h') :
    Explains members { C with host := update C.host v h' } G' where
  settled := hG'
  host u := by
    by_cases hu : u = v
    · subst hu
      show Explained hG' u (update C.host u h' u)
      rwa [update_self]
    · show Explained hG' u (update C.host v h' u)
      rw [update_of_ne hu]
      exact (h.host u).grows hG' hw.grows (hw.term u hu) (hw.log u hu) (hw.cast u hu)
  sent m hm := (h.sent m hm).grows hw.grows
  applied u := hw.covered u _ (h.applied u)

theorem Explains.emit (h : Explains members C G) {n : Node} (hn : (C.host v).node = some n)
    (ha : n.hasAction = true) :
    ∃ G', Explains members (C.emit v n.action.body) G' ∧ Grows G G' ∧
      ∀ e, n.action.body = .apply e → Chosen members G' e := by
  cases hb : n.action.body with
  | send m =>
    obtain ⟨G', hG', hg, hterm, hlog, hcast, hcov, hm⟩ := (h.host v).vouched hn ha hb
    refine ⟨G', ⟨hG', fun u => ?_, fun m' hm' => ?_, fun u => hcov u _ (h.applied u)⟩, hg,
      nofun⟩
    · exact (h.host u).grows hG' hg (congrFun hterm u) (congrFun hlog u)
        fun t c hc => by rwa [hcast] at hc
    · rcases mem_cons.mp hm' with rfl | hm'
      · exact hm
      · exact (h.sent m' hm').grows hg
  | apply e =>
    obtain ⟨hchosen, hcov⟩ := (h.host v).apply hn ha hb
    refine ⟨G, { h with applied := fun u => ?_ }, .refl G, fun e' he' => ?_⟩
    · show Covered members G (G.log u) (G.term u)
        (update C.applied v (max (C.applied v) e.index) u)
      rw [update_apply]
      split
      · rename_i hu
        subst hu
        rcases le_total (C.applied u) e.index with hle | hle
        · rwa [max_eq_right hle]
        · rw [max_eq_left hle]
          exact h.applied u
      · exact h.applied u
    · obtain rfl := ActionBody.apply.inj he'
      exact hchosen
  | _ => exact ⟨G, { h with }, .refl G, nofun⟩

theorem Explains.event (h : Explains members C G) {s : Supply}
    (hev : ev.InRange) (hal : C.allows members v ev)
    (hstep : (C.host v).step s ev = some (rc, h')) (hrc : rc ≠ .errNomem) :
    ∃ G', Explains members { C with host := update C.host v h' } G' ∧ Grows G G' := by
  have hex := h.host v
  by_cases hcall : ev.isCall = true
  · refine ⟨G, h.move h.settled (.refl v G) (hex.call hcall hev (fun m hm => ?_) hstep hrc),
      .refl G⟩
    subst hm
    exact h.sent m hal
  · cases ev with
    | start config =>
      refine ⟨G, h.move h.settled (.refl v G) ?_, .refl G⟩
      obtain ⟨-, rfl | ⟨hv, hle, timeout, rfl⟩⟩ := Host.step_start hstep
      · exact hex
      · refine { hex with node := fun k hk => ?_ }
        obtain rfl := some.inj hk
        refine NodeOk.restored hex.range hv hle hal.1 hal.2.1 ?_
        have hcov := (h.applied v).le hal.2.2
        rwa [hex.log, hex.term] at hcov
    | write =>
      obtain ⟨n, d, hn, ha, hd, rfl⟩ := Host.step_write hstep
      obtain ⟨G', hG', hwithin, hex'⟩ := hex.write hn ha hd
      exact ⟨G', h.move hG' hwithin hex', hwithin.grows⟩
    | crash =>
      obtain rfl := Host.step_crash hstep
      exact ⟨G, h.move h.settled (.refl v G) { hex with node := fun n hn => by cases hn },
        .refl G⟩
    | _ => exact absurd rfl hcall

theorem Host.emits_eq {h : Host} {body : ActionBody} (he : h.emits h' = some body) :
    ∃ n', h'.node = some n' ∧ n'.hasAction = true ∧ n'.action.body = body := by
  unfold Host.emits at he
  split at he
  · rename_i n n' hn hn'
    split at he
    · rename_i hcond
      rw [Bool.and_eq_true] at hcond
      exact ⟨n', hn', hcond.1, some.inj he⟩
    · cases he
  · cases he

/-- A step of the cluster goes on with the history, and what it applies is chosen. -/
theorem Explains.next (h : Explains members C G) {out : List (Id × ActionBody)}
    (hnext : C.Next members out C') :
    ∃ G', Explains members C' G' ∧ Grows G G' ∧
      ∀ u e, (u, .apply e) ∈ out → Chosen members G' e := by
  obtain ⟨v, s, ev, rc, h', hev, hal, hstep, hrc, rfl, rfl⟩ := hnext
  obtain ⟨G₁, h₁, hg₁⟩ := h.event hev hal hstep hrc
  unfold Cluster.after
  cases hemits : (C.host v).emits h' with
  | none => exact ⟨G₁, h₁, hg₁, fun u e he => by cases he⟩
  | some body =>
    obtain ⟨n, hn, ha, rfl⟩ := Host.emits_eq hemits
    have hn₁ : (update C.host v h' v).node = some n := by
      rwa [update_self]
    obtain ⟨G₂, h₂, hg₂, hchosen⟩ := h₁.emit hn₁ ha
    refine ⟨G₂, h₂, hg₁.trans hg₂, fun u e he => hchosen e ?_⟩
    rw [toList_some, map_singleton, mem_singleton, Prod.mk.injEq] at he
    exact he.2.symm

theorem Chosen.grows {e : Entry} (h : Chosen members G e) (hg : Grows G G') :
    Chosen members G' e := by
  obtain ⟨t, pre, hc, he⟩ := h
  exact ⟨t, pre, hc.grows hg, he⟩

/-- Every run goes on with the history, and what it applies is chosen. -/
theorem Explains.run (h : Explains members C G) {out : List (Id × ActionBody)}
    (hrun : Run (Cluster.Next members) C out C') :
    ∃ G', Explains members C' G' ∧ Grows G G' ∧
      ∀ u e, (u, .apply e) ∈ out → Chosen members G' e := by
  refine hrun.invOut (I := fun out C' => ∃ G', Explains members C' G' ∧ Grows G G' ∧
    ∀ u e, (u, .apply e) ∈ out → Chosen members G' e)
    ⟨G, h, .refl G, fun u e he => by cases he⟩ ?_
  rintro out C₁ o C₂ ⟨G₁, h₁, hg₁, hchosen⟩ hnext
  obtain ⟨G₂, h₂, hg₂, hnew⟩ := h₁.next hnext
  refine ⟨G₂, h₂, hg₁.trans hg₂, fun u e he => ?_⟩
  rcases mem_append.mp he with he | he
  · exact (hchosen u e he).grows hg₂
  · exact hnew u e he

theorem Chosen.unique (h : Settled members G) {e e' : Entry} (hc : Chosen members G e)
    (hc' : Chosen members G e') (hi : e.index = e'.index) : e.toLog = e'.toLog := by
  obtain ⟨t, pre, hcom, he⟩ := hc
  obtain ⟨t', pre', hcom', he'⟩ := hc'
  have hlonger : ∀ {p q : List LogEntry} {i : Nat} {x : LogEntry}, p <+: q →
      entryAt p i = some x → entryAt q i = some x := by
    intro p q i x hpq hx
    cases i with
    | zero => cases hx
    | succ i =>
      rw [entryAt_succ] at hx ⊢
      exact getElem?_of_prefix hpq hx
  rw [← hi] at he'
  rcases h.committed_total hcom hcom' with hpre | hpre
  · exact some.inj ((hlonger hpre he).symm.trans he')
  · exact some.inj (he.symm.trans (hlonger hpre he'))

end Explains

/-! ## Runs of fixed events -/

/-- The events of a list in order, with the actions they emit; `none` when one is not
possible. -/
def Cluster.play (members : List Id) (s : Supply) :
    Cluster → List (Id × Event) → Option (List (Id × ActionBody) × Cluster) :=
  Library.play fun C x =>
    if C.allows members x.1 x.2 then
      ((C.host x.1).step s x.2).bind fun r =>
        if r.1 = .errNomem then none
        else some (((C.host x.1).emits r.2).toList.map (Prod.mk x.1), C.after x.1 r.2)
    else none

theorem Cluster.play_run {members : List Id} {s : Supply} {evs : List (Id × Event)}
    {C C' : Cluster} {out : List (Id × ActionBody)}
    (hplay : C.play members s evs = some (out, C')) (hev : ∀ x ∈ evs, x.2.InRange) :
    Run (Cluster.Next members) C out C' :=
  .of_play hplay fun x hmem C o C' hmove => by
    split at hmove
    · rename_i hal
      obtain ⟨⟨rc, h'⟩, hstep, hrc⟩ := bind_eq_some_iff.mp hmove
      split at hrc
      · cases hrc
      · rename_i hok
        cases hrc
        exact ⟨x.1, s, x.2, rc, h', hev x hmem, hal, hstep, hok, rfl, rfl⟩
    · cases hmove

/-- Host 1 comes to lead by the vote of host 2, makes an entry that host 2 copies, and both
apply it. -/
def pairEvents : List (Id × Event) :=
  [(1, .start pairConfig), (2, .start { pairConfig with self := 2 }),
    (1, .tick 2), (1, .write), (1, .done 1 .ok), (1, .done 2 .ok),
    (2, .recv ⟨1, 2, .requestVote 1 0 0⟩), (2, .write), (2, .done 1 .ok), (2, .done 2 .ok),
    (1, .recv ⟨2, 1, .requestVoteResponse 1 1⟩), (1, .done 3 .ok),
    (1, .proposev (.arr [⟨.arr [7]⟩])), (1, .write), (1, .done 4 .ok), (1, .done 5 .ok),
    (2, .recv ⟨1, 2, .appendEntries 1 0 0 0 (.arr [⟨1, 1, .arr [7]⟩])⟩),
    (2, .write), (2, .done 3 .ok), (2, .done 4 .ok),
    (1, .recv ⟨2, 1, .appendEntriesResponse 1 1 1 0 0⟩), (1, .done 6 .ok), (1, .tick 1),
    (1, .done 7 .ok), (2, .recv ⟨1, 2, .appendEntries 1 1 1 1 (.arr [])⟩)]

/-- What both hosts of the pair apply, and their durable state then. -/
def pairEntry : Entry := ⟨1, 1, .arr [7]⟩

def pairRequest : Message := ⟨1, 2, .appendEntries 1 0 0 0 (.arr [pairEntry])⟩

def pairDisk : Disk := ⟨⟨1, 1⟩, [pairEntry.toLog]⟩

theorem pair_run :
    ∃ out C n n', Run (Cluster.Next [1, 2]) .init out C ∧
      ((C.host 1).node = some n ∧ (C.host 2).node = some n') ∧
      ((1, .apply pairEntry) ∈ out ∧ (2, .apply pairEntry) ∈ out) ∧
      ((C.host 1).disk = pairDisk ∧ (C.host 2).disk = pairDisk) ∧
      (n.role = .leader ∧ n.currentTerm = 1) ∧ (n.commitIndex = 1 ∧ pairRequest ∈ C.sent) ∧
      (n'.currentTerm = 1 ∧ n'.commitIndex = 1) := by
  have hplay : (Cluster.play [1, 2] plenty .init pairEvents).map (fun r =>
      (((r.2.host 1).node.map fun n =>
          decide ((n.role = .leader ∧ n.currentTerm = 1) ∧ n.commitIndex = 1),
        (r.2.host 2).node.map fun n => (n.currentTerm, n.commitIndex)),
        (decide ((1, .apply pairEntry) ∈ r.1),
          decide ((2, .apply pairEntry) ∈ r.1 ∧ pairRequest ∈ r.2.sent)),
        (r.2.host 1).disk, (r.2.host 2).disk)) =
      some ((some true, some (1, 1)), (true, true), pairDisk, pairDisk) := by
    decide +kernel
  rw [map_eq_some_iff] at hplay
  obtain ⟨⟨out, C⟩, hplay, heq⟩ := hplay
  simp only [Prod.mk.injEq, map_eq_some_iff, decide_eq_true_iff] at heq
  obtain ⟨⟨⟨n, hn, hrole, hindex⟩, n', hn', hcommit⟩, ⟨hout, hout', hsent⟩, hdisk⟩ := heq
  exact ⟨out, C, n, n', Cluster.play_run hplay (by decide +kernel), ⟨hn, hn'⟩, ⟨hout, hout'⟩, hdisk,
    hrole, ⟨hindex, hsent⟩, hcommit⟩

/-! ## The guarantees of the protocol -/

section Guarantees

variable {members : List Id} {C C' : Cluster} {out out' : List (Id × ActionBody)}

/-- A leader has acknowledged its durable hard state. -/
theorem NodeOk.leader_sync {me : Id} {V : View me members d.log} {n : Node} {w : Nat}
    (h : NodeOk V d n w) (hr : n.role = .leader) : HardSync d n := by
  cases ha : n.hasAction with
  | false => exact h.quiet ha
  | true =>
    have hbusy := h.busy ha
    unfold Busy at hbusy
    cases hb : n.action.body with
    | none =>
      rw [hb] at hbusy
      exact hbusy.elim
    | hardState st =>
      rw [hb] at hbusy
      have hnext := hbusy.next
      obtain ⟨step, hs⟩ : ∃ step, n.step = step := ⟨_, rfl⟩
      rw [hs, hr] at hnext
      cases step with
      | electionBroadcast | voteResponse | stepDown | aeHardState => cases hnext.1
      | _ => exact hnext.elim
    | _ =>
      rw [hb] at hbusy
      exact hbusy.hard

/-- A leader's durable log is its log in the history. -/
theorem Explains.leads {G : History} (h : Explains members C G) {v : Id} {n : Node}
    (hn : (C.host v).node = some n) (hr : n.role = .leader) :
    ∃ l, G.lead n.currentTerm = some l ∧ l.node = v ∧ (C.host v).disk.log = l.log := by
  have hnode := (h.host v).node n hn
  obtain ⟨l, hl, hown⟩ := hnode.base.elected hr
  refine ⟨l, hl, hown, ?_⟩
  rw [(hnode.leader_sync hr).term, ← (h.host v).term] at hl
  rw [← (h.host v).log]
  exact h.settled.own v l hl hown

theorem Explains.covers {G : History} (h : Explains members C G) {v : Id} {n : Node}
    (hn : (C.host v).node = some n) :
    Covered members G (C.host v).disk.log n.currentTerm n.commitIndex :=
  ((h.host v).node n hn).base.cover

/-- No two hosts apply different entries at one index, in any run. -/
theorem state_machine_safety (hrun : Run (Cluster.Next members) .init out C) {v w : Id}
    {e e' : Entry} (he : (v, .apply e) ∈ out) (he' : (w, .apply e') ∈ out)
    (hi : e.index = e'.index) : e.term = e'.term ∧ e.data.elems = e'.data.elems := by
  obtain ⟨G, h, -, hchosen⟩ := (Explains.init members).run hrun
  have := (hchosen v e he).unique h.settled (hchosen w e' he') hi
  rw [Entry.toLog, Entry.toLog, LogEntry.mk.injEq] at this
  exact this

theorem state_machine_safety_pair :
    ∃ out C e e', Run (Cluster.Next [1, 2]) .init out C ∧ (1, .apply e) ∈ out ∧
      (2, .apply e') ∈ out ∧ e.term = e'.term ∧ e.data.elems = e'.data.elems := by
  obtain ⟨out, C, -, -, hrun, -, ⟨he, he'⟩, -⟩ := pair_run
  exact ⟨out, C, _, _, hrun, he, he', state_machine_safety hrun he he' rfl⟩

/-- Two leaders of one term, at any two moments of a run, are the same host.  The durable
term of a host never goes down, and its durable vote in a term stays. -/
theorem election_safety (hrun : Run (Cluster.Next members) .init out C)
    (hrun' : Run (Cluster.Next members) C out' C') :
    (∀ v w n n', (C.host v).node = some n → (C'.host w).node = some n' → n.role = .leader →
      n'.role = .leader → n.currentTerm = n'.currentTerm → v = w) ∧
    ∀ v, (C.host v).disk.hard.currentTerm ≤ (C'.host v).disk.hard.currentTerm ∧
      ((C.host v).disk.hard.currentTerm = (C'.host v).disk.hard.currentTerm →
        (C.host v).disk.hard.votedFor ≠ idNone →
        (C'.host v).disk.hard.votedFor = (C.host v).disk.hard.votedFor) := by
  obtain ⟨G, h, -, -⟩ := (Explains.init members).run hrun
  obtain ⟨G', h', hg, -⟩ := h.run hrun'
  refine ⟨fun v w n n' hn hn' hr hr' hterm => ?_, fun v => ⟨?_, fun hterm hvote => ?_⟩⟩
  · obtain ⟨l, hl, hv⟩ := ((h.host v).node n hn).base.elected hr
    obtain ⟨k, hk, hw⟩ := ((h'.host w).node n' hn').base.elected hr'
    obtain ⟨l', hl', hnode, -⟩ := hg.lead _ l hl
    rw [hterm, hk, some.injEq] at hl'
    rw [← hv, ← hw, hl', hnode]
  · rw [← (h.host v).term, ← (h'.host v).term]
    exact hg.term v
  · have hcast := hg.cast _ v _ (((h.host v).vote _).mpr ⟨hvote, rfl⟩)
    rw [(h.host v).term, hterm, ← (h'.host v).term] at hcast
    exact (((h'.host v).vote _).mp hcast).2

theorem election_safety_pair :
    ∃ (C : Cluster) (n : Node), (C.host 1).node = some n ∧ n.role = .leader ∧
      ∀ w n', (C.host w).node = some n' → n'.role = .leader → n.currentTerm = n'.currentTerm →
        1 = w := by
  obtain ⟨out, C, n, -, hrun, ⟨hn, -⟩, -, -, ⟨hr, -⟩, -⟩ := pair_run
  exact ⟨C, n, hn, hr, fun w n' hn' hr' => (election_safety hrun .refl).1 1 w n n' hn hn' hr hr'⟩

/-- Two durable logs, at any two moments of a run, that have an entry of one term at one
index are the same up to it. -/
theorem log_matching (hrun : Run (Cluster.Next members) .init out C)
    (hrun' : Run (Cluster.Next members) C out' C') {v w : Id} {i : Nat} {e e' : LogEntry}
    (he : entryAt (C.host v).disk.log i = some e) (he' : entryAt (C'.host w).disk.log i = some e')
    (hterm : e.term = e'.term) : (C.host v).disk.log.take i = (C'.host w).disk.log.take i := by
  obtain ⟨G, h, -, -⟩ := (Explains.init members).run hrun
  obtain ⟨G', h', hg, -⟩ := h.run hrun'
  have htr := (h.settled.log_traced v).longer hg.lead
  have htr' := h'.settled.log_traced w
  rw [(h.host v).log] at htr
  rw [(h'.host w).log] at htr'
  have hat : ∀ {log : List LogEntry} {x}, entryAt log i = some x → termAt log i = some x.term := by
    intro log x hx
    cases i with
    | zero => cases hx
    | succ i =>
      rw [entryAt_succ] at hx
      rw [termAt_succ, hx]
      rfl
  exact take_matching htr htr' (hat he) (hterm ▸ hat he')

theorem log_matching_pair :
    ∃ C : Cluster, (C.host 1).disk.log ≠ [] ∧
      (C.host 1).disk.log.take 1 = (C.host 2).disk.log.take 1 := by
  obtain ⟨out, C, -, -, hrun, -, -, ⟨hd, hd'⟩, -⟩ := pair_run
  have he : entryAt (C.host 1).disk.log 1 = some pairEntry.toLog := by
    rw [hd]
    rfl
  have he' : entryAt (C.host 2).disk.log 1 = some pairEntry.toLog := by
    rw [hd']
    rfl
  exact ⟨C, by rw [hd]; decide, log_matching hrun .refl he he' rfl⟩

/-- What a host knows to be committed is in its durable log, and in that of every leader of
its term and of later terms, from then on. -/
theorem leader_completeness (hrun : Run (Cluster.Next members) .init out C)
    (hrun' : Run (Cluster.Next members) C out' C') {v w : Id} {n n' : Node}
    (hn : (C.host v).node = some n) (hn' : (C'.host w).node = some n') (hr : n'.role = .leader)
    (hterm : n.currentTerm ≤ n'.currentTerm) :
    n.commitIndex ≤ (C.host v).disk.log.length ∧
      (C.host v).disk.log.take n.commitIndex <+: (C'.host w).disk.log := by
  obtain ⟨G, h, -, -⟩ := (Explains.init members).run hrun
  obtain ⟨G', h', hg, -⟩ := h.run hrun'
  have hcov := h.covers hn
  obtain ⟨l, hl, -, hlog⟩ := h'.leads hn' hr
  rw [hlog]
  exact ⟨hcov.length_le, h'.settled.covered_lead (hcov.grows hg) hl hterm⟩

theorem leader_completeness_pair :
    ∃ (C : Cluster) (n' : Node), (C.host 2).node = some n' ∧ n'.commitIndex = 1 ∧
      (C.host 2).disk.log.take n'.commitIndex <+: (C.host 1).disk.log := by
  obtain ⟨out, C, n, n', hrun, ⟨hn, hn'⟩, -, -, ⟨hr, hterm⟩, -, hterm', hcommit⟩ := pair_run
  exact ⟨C, n', hn', hcommit,
    (leader_completeness hrun .refl hn' hn hr (by rw [hterm, hterm'])).2⟩

/-- The durable log of a leader only grows while it leads. -/
theorem leader_append_only (hrun : Run (Cluster.Next members) .init out C)
    (hrun' : Run (Cluster.Next members) C out' C') {v : Id} {n n' : Node}
    (hn : (C.host v).node = some n) (hn' : (C'.host v).node = some n') (hr : n.role = .leader)
    (hr' : n'.role = .leader) (hterm : n'.currentTerm = n.currentTerm) :
    (C.host v).disk.log <+: (C'.host v).disk.log := by
  obtain ⟨G, h, -, -⟩ := (Explains.init members).run hrun
  obtain ⟨G', h', hg, -⟩ := h.run hrun'
  obtain ⟨l, hl, -, hlog⟩ := h.leads hn hr
  obtain ⟨k, hk, -, hlog'⟩ := h'.leads hn' hr'
  obtain ⟨l', hl', -, -, hpre⟩ := hg.lead _ l hl
  rw [hterm, hl', some.injEq] at hk
  rw [hlog, hlog', ← hk]
  exact hpre

/-- A leader with an empty log, and again when its entry is applied. -/
theorem leader_append_only_pair :
    ∃ (C C' : Cluster) (n n' : Node), (C.host 1).node = some n ∧ n.role = .leader ∧ (C.host 1).disk.log = [] ∧
      (C'.host 1).node = some n' ∧ n'.role = .leader ∧ (C'.host 1).disk.log = [pairEntry.toLog] ∧
      (C.host 1).disk.log <+: (C'.host 1).disk.log := by
  have hplay : ((Cluster.play [1, 2] plenty .init (pairEvents.take 12)).bind fun r =>
      (Cluster.play [1, 2] plenty r.2 (pairEvents.drop 12)).map fun r' =>
        (((r.2.host 1).node.map fun n => decide (n.role = .leader ∧ n.currentTerm = 1),
          (r'.2.host 1).node.map fun n => decide (n.role = .leader ∧ n.currentTerm = 1)),
        (r.2.host 1).disk.log, (r'.2.host 1).disk.log)) =
      some ((some true, some true), [], [pairEntry.toLog]) := by
    decide +kernel
  obtain ⟨r, hr, hplay⟩ := bind_eq_some_iff.mp hplay
  obtain ⟨r', hr', heq⟩ := map_eq_some_iff.mp hplay
  simp only [Prod.mk.injEq, map_eq_some_iff, decide_eq_true_iff] at heq
  obtain ⟨⟨⟨n, hn, hrole, hterm⟩, n', hn', hrole', hterm'⟩, hlog, hlog'⟩ := heq
  exact ⟨r.2, r'.2, n, n', hn, hrole, hlog, hn', hrole', hlog', leader_append_only
    (Cluster.play_run hr (by decide +kernel)) (Cluster.play_run hr' (by decide +kernel)) hn hn'
    hrole hrole' (hterm'.trans hterm.symm)⟩
/-- Two hosts, at any two moments of a run, agree on what both know to be committed. -/
theorem committed_agree (hrun : Run (Cluster.Next members) .init out C)
    (hrun' : Run (Cluster.Next members) C out' C') {v w : Id} {n n' : Node}
    (hn : (C.host v).node = some n) (hn' : (C'.host w).node = some n') {i : Nat}
    (hi : i ≤ n.commitIndex) (hi' : i ≤ n'.commitIndex) :
    (C.host v).disk.log.take i = (C'.host w).disk.log.take i := by
  obtain ⟨G, h, -, -⟩ := (Explains.init members).run hrun
  obtain ⟨G', h', hg, -⟩ := h.run hrun'
  exact h'.settled.covered_agree (((h.covers hn).le hi).grows hg) ((h'.covers hn').le hi')

theorem committed_agree_pair :
    ∃ (C : Cluster) (n n' : Node), (C.host 1).node = some n ∧ (C.host 2).node = some n' ∧
      1 ≤ n.commitIndex ∧ 1 ≤ n'.commitIndex ∧
      (C.host 1).disk.log.take 1 = (C.host 2).disk.log.take 1 := by
  obtain ⟨out, C, n, n', hrun, ⟨hn, hn'⟩, -, -, -, ⟨hi, -⟩, -, hi'⟩ := pair_run
  exact ⟨C, n, n', hn, hn', hi.ge, hi'.ge, committed_agree hrun .refl hn hn' hi.ge hi'.ge⟩

/-- What a host knows to be committed is in the durable logs of a majority, from then on. -/
theorem committed_durable (hrun : Run (Cluster.Next members) .init out C)
    (hrun' : Run (Cluster.Next members) C out' C') {v : Id} {n : Node}
    (hn : (C.host v).node = some n) (h0 : 0 < n.commitIndex) :
    Majority members fun w =>
      (C.host v).disk.log.take n.commitIndex <+: (C'.host w).disk.log := by
  obtain ⟨G, h, -, -⟩ := (Explains.init members).run hrun
  obtain ⟨G', h', hg, -⟩ := h.run hrun'
  obtain ⟨u, pre, -, hc, hpre⟩ := ((h.covers hn).grows hg).committed h0
  refine (h'.settled.committed_held hc).mono fun w _ hw => ?_
  rw [(h'.host w).log] at hw
  exact hpre.trans hw

theorem committed_durable_pair :
    ∃ (C : Cluster) (n : Node), (C.host 1).node = some n ∧ n.commitIndex = 1 ∧
      Majority [1, 2] fun w =>
        (C.host 1).disk.log.take n.commitIndex <+: (C.host w).disk.log := by
  obtain ⟨out, C, n, -, hrun, ⟨hn, -⟩, -, -, -, ⟨hi, -⟩, -⟩ := pair_run
  exact ⟨C, n, hn, hi, committed_durable hrun .refl hn (by omega)⟩

/-- A leader has the durable votes of a majority, whose members are in its term or past it. -/
theorem leader_quorum (hrun : Run (Cluster.Next members) .init out C)
    (hrun' : Run (Cluster.Next members) C out' C') {v : Id} {n : Node}
    (hn : (C.host v).node = some n) (hr : n.role = .leader) :
    Majority members fun w => n.currentTerm ≤ (C'.host w).disk.hard.currentTerm ∧
      ((C'.host w).disk.hard.currentTerm = n.currentTerm →
        (C'.host w).disk.hard.votedFor = v) := by
  obtain ⟨G, h, -, -⟩ := (Explains.init members).run hrun
  obtain ⟨G', h', hg, -⟩ := h.run hrun'
  obtain ⟨l, hl, rfl⟩ := ((h.host v).node n hn).base.elected hr
  refine (h.settled.lead _ l hl).votes.mono fun w _ hw => ?_
  have hcast := hg.cast _ _ _ hw.1
  rw [← (h'.host w).term]
  refine ⟨(h'.settled.cast _ _ _ hcast).1, fun hterm => ?_⟩
  rw [← hterm] at hcast
  exact (((h'.host w).vote _).mp hcast).2

theorem leader_quorum_pair :
    ∃ (C : Cluster) (n : Node), (C.host 1).node = some n ∧ n.role = .leader ∧
      Majority [1, 2] fun w => n.currentTerm ≤ (C.host w).disk.hard.currentTerm ∧
        ((C.host w).disk.hard.currentTerm = n.currentTerm →
          (C.host w).disk.hard.votedFor = 1) := by
  obtain ⟨out, C, n, -, hrun, ⟨hn, -⟩, -, -, ⟨hr, -⟩, -⟩ := pair_run
  exact ⟨C, n, hn, hr, leader_quorum hrun .refl hn hr⟩

/-- Two requests of one term, whenever they were emitted, are from one leader, and carry the
same entry where both carry one. -/
theorem append_entries_agree (hrun : Run (Cluster.Next members) .init out C) {m m' : Message}
    (hm : m ∈ C.sent) (hm' : m' ∈ C.sent) {t p q c p' q' c' : Nat} {es es' : Ptr Entry}
    (hb : m.body = .appendEntries t p q c es) (hb' : m'.body = .appendEntries t p' q' c' es') :
    m.sender = m'.sender ∧ ∀ i j e e', es.elems[i]? = some e → es'.elems[j]? = some e' →
      p + i = p' + j → e.term = e'.term ∧ e.data.elems = e'.data.elems := by
  obtain ⟨G, h, -, -⟩ := (Explains.init members).run hrun
  have hs := h.sent m hm
  have hs' := h.sent m' hm'
  unfold Vouched at hs hs'
  rw [hb] at hs
  rw [hb'] at hs'
  refine ⟨?_, fun i j e e' he he' hij => ?_⟩
  · obtain ⟨l, hl, hnode, -⟩ := hs
    obtain ⟨l', hl', hnode', -⟩ := hs'
    rw [hl, some.injEq] at hl'
    exact hnode.symm.trans ((congrArg _ hl').trans hnode')
  · have hentry : ∀ {es : Ptr Entry} {i : Nat} {e : Entry}, es.elems[i]? = some e →
        (es.elems.map entryStore)[i]? = some (entryStore e) := by
      intro es i e he
      rw [List.getElem?_map, he]
      rfl
    obtain ⟨l, hl, hle⟩ := Sliced.entry hs (hentry he)
    obtain ⟨l', hl', hle'⟩ := Sliced.entry hs' (hentry he')
    rw [hl, some.injEq] at hl'
    subst hl'
    rw [show p' + j = p + i from hij.symm, hle, some.injEq] at hle'
    rw [Entry.toLog_entryStore, Entry.toLog_entryStore, Entry.toLog, Entry.toLog,
      LogEntry.mk.injEq] at hle'
    exact hle'

theorem append_entries_agree_pair :
    ∃ C : Cluster, pairRequest ∈ C.sent ∧ ∀ m ∈ C.sent, ∀ c es,
      m.body = .appendEntries 1 0 0 c es → m.sender = 1 := by
  obtain ⟨out, C, -, -, hrun, -, -, -, -, ⟨-, hm⟩, -⟩ := pair_run
  exact ⟨C, hm, fun m hm' c es hb => (append_entries_agree hrun hm' hm hb rfl).1⟩

end Guarantees

end Raft89
