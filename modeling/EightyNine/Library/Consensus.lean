import EightyNine.Library.Majority
import Mathlib.Logic.Function.Basic
import Mathlib.Data.List.Infix

/-!
# Replicated logs with elected leaders

Nodes hold a term and a log.  In each term at most one of them comes to lead, by the votes
of a majority; the others copy its log and cut off what is in its way.  The state keeps with
the terms and logs what happened before: who stood for election with which log, who voted
for whom, the log of each leader as far as it got, and which parts of it were acknowledged.

Every log is, up to any of its entries, the log of the leader of that entry's term
(`Traced`), so logs with an entry of one term at one place are equal up to it.  What a
majority acknowledged of an entry of the leader's own term is *committed*: every later
leader starts with it (`Sound.complete`).  The reason is the promise of a voter: what it
acknowledged in an earlier term the candidate has, unless a leader between the two terms
already lacked it (`Keeps`).
-/

namespace Library

open Option

/-- Entries of a log carry the term of the leader that made them. -/
class Stamped (ε : Type) where
  stamp : ε → Nat

open Stamped List Function Nat

namespace Consensus

variable {ν ε : Type} [Stamped ε]

/-! ## States -/

/-- A leader: the log it was elected with, and how far it got. -/
structure Reign (ν ε : Type) where
  node : ν
  start : List ε
  log : List ε

/-- The terms and logs of the nodes, and what happened in each term. -/
structure State (ν ε : Type) where
  term : ν → Nat
  log : ν → List ε
  /-- The log with which a node stood for election. -/
  stood : Nat → ν → Option (List ε)
  /-- The first node voted for the second. -/
  cast : Nat → ν → ν → Prop
  lead : Nat → Option (Reign ν ε)
  /-- The node had this part of the leader's log. -/
  acked : Nat → ν → List ε → Prop

/-- The term of the last entry, zero for the empty log. -/
def lastStamp (log : List ε) : Nat := (log.getLast?.map stamp).getD 0

/-- The first log is as new as the second. -/
def UpToDate (log log' : List ε) : Prop :=
  lastStamp log' < lastStamp log ∨ (lastStamp log' = lastStamp log ∧ log'.length ≤ log.length)

/-- Up to any of its entries a log is that of the leader of the entry's term. -/
def Traced (lead : Nat → Option (Reign ν ε)) (log : List ε) : Prop :=
  ∀ p e, p ++ [e] <+: log → ∃ l, lead (stamp e) = some l ∧ p ++ [e] <+: l.log

/-- The log has this part of an earlier leader's log, or a leader between the two terms
started without it. -/
def Keeps (lead : Nat → Option (Reign ν ε)) (pre : List ε) (t u : Nat) (log : List ε) : Prop :=
  pre <+: log ∨ ∃ v l, t < v ∧ v < u ∧ lead v = some l ∧ ¬ pre <+: l.start

/-- The last entry of this part is of the term. -/
def Ends (pre : List ε) (t : Nat) : Prop := ∃ p e, pre = p ++ [e] ∧ stamp e = t

/-- The log of a candidate keeps what the voter acknowledged in earlier terms. -/
def Pledged (P : State ν ε) (u : Nat) (v : ν) (log : List ε) : Prop :=
  u ≤ P.term v ∧ ∀ t pre, P.acked t v pre → Ends pre t → t < u → Keeps P.lead pre t u log

/-! ## Steps -/

section

variable [DecidableEq ν] (members : List ν)

/-- What a node may do. -/
inductive Step (P : State ν ε) : State ν ε → Prop
  | advance {v : ν} {t : Nat} (later : P.term v < t) :
      Step P { P with term := update P.term v t }
  | stand {v : ν} {t : Nat} (later : P.term v < t) :
      Step P { P with
        term := update P.term v t
        stood := fun u c => if u = t ∧ c = v then some (P.log v) else P.stood u c
        cast := fun u w c => P.cast u w c ∨ (u = t ∧ w = v ∧ c = v) }
  | grant {v c : ν} {t : Nat} {log : List ε} (later : P.term v ≤ t)
      (free : ∀ c, ¬ P.cast t v c) (candidate : P.stood t c = some log)
      (fresh : UpToDate log (P.log v)) :
      Step P { P with
        term := update P.term v t
        cast := fun u w d => P.cast u w d ∨ (u = t ∧ w = v ∧ d = c) }
  | win {c : ν} {t : Nat} {log : List ε} (candidate : P.stood t c = some log)
      (votes : Majority members fun v => P.cast t v c) (free : P.lead t = none) :
      Step P { P with lead := update P.lead t (some ⟨c, log, log⟩) }
  | extend {v : ν} {l : Reign ν ε} {e : ε} (leader : P.lead (P.term v) = some l)
      (own : l.node = v) (new : stamp e = P.term v) :
      Step P { P with
        log := update P.log v (P.log v ++ [e])
        lead := update P.lead (P.term v) (some { l with log := l.log ++ [e] })
        acked := fun u w pre => P.acked u w pre ∨
          (u = P.term v ∧ w = v ∧ pre = P.log v ++ [e]) }
  | append {v : ν} {l : Reign ν ε} {e : ε} (leader : P.lead (P.term v) = some l)
      (other : l.node ≠ v) (next : P.log v ++ [e] <+: l.log) :
      Step P { P with log := update P.log v (P.log v ++ [e]) }
  | cut {v : ν} {l : Reign ν ε} {p : List ε} {e f : ε} (leader : P.lead (P.term v) = some l)
      (other : l.node ≠ v) (mine : p ++ [e] <+: P.log v) (its : p ++ [f] <+: l.log)
      (differ : e ≠ f) :
      Step P { P with log := update P.log v (P.log v).dropLast }
  | ack {v : ν} {l : Reign ν ε} {pre : List ε} (leader : P.lead (P.term v) = some l)
      (its : pre <+: l.log) (mine : pre <+: P.log v) :
      Step P { P with acked := fun u w q => P.acked u w q ∨
        (u = P.term v ∧ w = v ∧ q <+: pre) }

/-! ## The invariant -/

/-- What holds of a candidate. -/
structure Standing (P : State ν ε) (t : Nat) (v : ν) (log : List ε) : Prop where
  le : t ≤ P.term v
  traced : Traced P.lead log
  lt : ∀ e ∈ log, stamp e < t

/-- What holds of a leader.  It acknowledges its own entries. -/
structure Reign.Ok (P : State ν ε) (t : Nat) (l : Reign ν ε) : Prop where
  votes : Majority members fun v => P.cast t v l.node ∧ Pledged P t v l.start
  le : t ≤ P.term l.node
  start : l.start <+: l.log
  start_lt : ∀ e ∈ l.start, stamp e < t
  stamp_le : ∀ e ∈ l.log, stamp e ≤ t
  traced : Traced P.lead l.log
  acked : ∀ pre, pre <+: l.log → Ends pre t → P.acked t l.node pre

/-- What holds of an acknowledgement. -/
structure Acked (P : State ν ε) (t : Nat) (v : ν) (pre : List ε) : Prop where
  le : t ≤ P.term v
  lead : ∃ l, P.lead t = some l ∧ pre <+: l.log
  keeps : Keeps P.lead pre t (P.term v + 1) (P.log v)

/-- What holds in every reachable state. -/
structure Sound (P : State ν ε) : Prop where
  stood : ∀ t v log, P.stood t v = some log → Standing P t v log
  /-- A candidate keeps its log until somebody leads. -/
  stood_log : ∀ v log, P.stood (P.term v) v = some log → P.lead (P.term v) = none →
    P.log v = log
  cast : ∀ t v c, P.cast t v c → t ≤ P.term v ∧ ∃ log, P.stood t c = some log
  cast_unique : ∀ t v c c', P.cast t v c → P.cast t v c' → c = c'
  promise : ∀ t v c log, P.lead t = none → P.cast t v c → P.stood t c = some log →
    Pledged P t v log
  lead : ∀ t l, P.lead t = some l → l.Ok members P t
  own : ∀ v l, P.lead (P.term v) = some l → l.node = v → P.log v = l.log
  log_le : ∀ v, ∀ e ∈ P.log v, stamp e ≤ P.term v
  log_traced : ∀ v, Traced P.lead (P.log v)
  acked : ∀ t v pre, P.acked t v pre → Acked P t v pre

end

/-! ## Histories -/

/-- Leaders stay, with what they started from, and their logs grow. -/
def Longer (lead lead' : Nat → Option (Reign ν ε)) : Prop :=
  ∀ t l, lead t = some l →
    ∃ l', lead' t = some l' ∧ l'.node = l.node ∧ l'.start = l.start ∧ l.log <+: l'.log

/-- What happened stays, and what is new is of the present terms. -/
structure Grows (P P' : State ν ε) : Prop where
  term : ∀ v, P.term v ≤ P'.term v
  stood : ∀ t v log, P.stood t v = some log → P'.stood t v = some log
  cast : ∀ t v c, P.cast t v c → P'.cast t v c
  lead : Longer P.lead P'.lead
  acked : ∀ t v pre, P.acked t v pre → P'.acked t v pre
  fresh : ∀ t v pre, P'.acked t v pre → P.acked t v pre ∨ P.term v ≤ t

variable {lead lead' : Nat → Option (Reign ν ε)} {log log' pre : List ε} {t u u' : Nat}

omit [Stamped ε] in
theorem Longer.refl (lead : Nat → Option (Reign ν ε)) : Longer lead lead :=
  fun _ l h => ⟨l, h, rfl, rfl, prefix_refl _⟩

omit [Stamped ε] in
theorem Grows.refl (P : State ν ε) : Grows P P :=
  ⟨fun _ => le_refl _, fun _ _ _ => id, fun _ _ _ => id, .refl _, fun _ _ _ => id,
    fun _ _ _ => .inl⟩

variable {P'' : State ν ε}

omit [Stamped ε] in
theorem Grows.trans {P P' : State ν ε} (h : Grows P P') (h' : Grows P' P'') :
    Grows P P'' where
  term v := (h.term v).trans (h'.term v)
  stood t v log hs := h'.stood t v log (h.stood t v log hs)
  cast t v c hc := h'.cast t v c (h.cast t v c hc)
  lead t l hl := by
    obtain ⟨l₁, h₁, hn₁, hs₁, hp₁⟩ := h.lead t l hl
    obtain ⟨l₂, h₂, hn₂, hs₂, hp₂⟩ := h'.lead t l₁ h₁
    exact ⟨l₂, h₂, hn₂.trans hn₁, hs₂.trans hs₁, hp₁.trans hp₂⟩
  acked t v pre ha := h'.acked t v pre (h.acked t v pre ha)
  fresh t v pre ha := by
    rcases h'.fresh t v pre ha with ha | hle
    · exact h.fresh t v pre ha
    · exact .inr ((h.term v).trans hle)

theorem Traced.longer (h : Traced lead log) (hl : Longer lead lead') : Traced lead' log := by
  intro p e hpe
  obtain ⟨l, hlead, hpre⟩ := h p e hpe
  obtain ⟨l', hlead', -, -, hlog⟩ := hl _ l hlead
  exact ⟨l', hlead', hpre.trans hlog⟩

theorem Traced.shorter (h : Traced lead log) (hp : log' <+: log) : Traced lead log' :=
  fun p e hpe => h p e (hpe.trans hp)

omit [Stamped ε] in
theorem Keeps.longer (h : Keeps lead pre t u log) (hl : Longer lead lead') :
    Keeps lead' pre t u log := by
  refine h.imp id ?_
  rintro ⟨v, l, htv, hvu, hlead, hno⟩
  obtain ⟨l', hlead', -, hstart, -⟩ := hl _ l hlead
  exact ⟨v, l', htv, hvu, hlead', by rwa [hstart]⟩

omit [Stamped ε] in
theorem Keeps.later (h : Keeps lead pre t u log) (hu : u ≤ u') : Keeps lead pre t u' log := by
  refine h.imp id ?_
  rintro ⟨v, l, htv, hvu, hlead, hno⟩
  exact ⟨v, l, htv, by omega, hlead, hno⟩

omit [Stamped ε] in
theorem Keeps.lengthen (h : Keeps lead pre t u log) (hp : log <+: log') :
    Keeps lead pre t u log' := h.imp (fun hpre => hpre.trans hp) id

/-! ## Logs -/

variable {p : List ε} {e : ε}

/-- Two logs have the same entries up to one of one term. -/
theorem Traced.matching {p' : List ε} {e' : ε} (h : Traced lead log)
    (h' : Traced lead log') (hp : p ++ [e] <+: log) (hp' : p' ++ [e'] <+: log')
    (hlen : p.length = p'.length) (hstamp : stamp e = stamp e') : p ++ [e] = p' ++ [e'] := by
  obtain ⟨l, hl, hpl⟩ := h p e hp
  obtain ⟨l', hl', hpl'⟩ := h' p' e' hp'
  rw [← hstamp, hl, some.injEq] at hl'
  subst hl'
  have hlen' : (p ++ [e]).length = (p' ++ [e']).length := by
    rw [length_append, length_append, hlen]
    rfl
  exact (prefix_of_prefix_length_le hpl hpl' hlen'.le).eq_of_length hlen'

theorem lastStamp_snoc (p : List ε) (e : ε) : lastStamp (p ++ [e]) = stamp e := by
  rw [lastStamp, getLast?_concat]
  rfl

theorem UpToDate.refl (log : List ε) : UpToDate log log := .inr ⟨rfl, le_refl _⟩

section

variable {members : List ν} {P P' : State ν ε} {v c : ν}

theorem Sound.stamp_le_last (h : Sound members P) (ht : Traced P.lead log)
    {x : ε} (hlog : log = p ++ [x]) (he : e ∈ log) : stamp e ≤ stamp x := by
  obtain ⟨l, hl, hpre⟩ := ht p x (hlog ▸ prefix_refl _)
  exact (h.lead _ l hl).stamp_le e (hpre.subset (hlog ▸ he))

/-! ## Votes -/

/-- A candidate with a log as new as the voter's keeps what the voter acknowledged. -/
theorem Sound.pledged (h : Sound members P) (hle : P.term v ≤ t) (hnone : P.lead t = none)
    (htr : Traced P.lead log) (hlt : ∀ e ∈ log, stamp e < t) (hfresh : UpToDate log (P.log v))
    (hack : P.acked u v pre) (hends : Ends pre u) (hut : u < t) :
    Keeps P.lead pre u t log := by
  rcases (h.acked u v pre hack).keeps with hpre | ⟨w, l, huw, hw, hl, hno⟩
  · obtain ⟨p, e, rfl, rfl⟩ := hends
    have hmem : e ∈ P.log v := hpre.subset (mem_append_right _ mem_cons_self)
    obtain hnil | ⟨q, x, hq⟩ := eq_nil_or_concat (P.log v)
    · rw [hnil] at hmem
      cases hmem
    rw [concat_eq_append] at hq
    have hex := h.stamp_le_last (h.log_traced v) hq hmem
    have hlast : lastStamp (P.log v) = stamp x := by rw [hq, lastStamp_snoc]
    obtain hnil | ⟨r, y, hr⟩ := eq_nil_or_concat log
    · rw [UpToDate, hnil, hlast] at hfresh
      rcases hfresh with hfresh | ⟨-, hfresh⟩
      · exact absurd hfresh (not_lt_zero _)
      · rw [length_nil, le_zero, length_eq_zero_iff] at hfresh
        rw [hfresh] at hmem
        cases hmem
    rw [concat_eq_append] at hr
    have hlast' : lastStamp log = stamp y := by rw [hr, lastStamp_snoc]
    obtain ⟨l, hl, hlog⟩ := htr r y (hr ▸ prefix_refl _)
    rw [← hr] at hlog
    rw [UpToDate, hlast, hlast'] at hfresh
    rcases hfresh with hxy | ⟨hxy, hlen⟩
    · -- the leader of the last term started with the part or lacked it
      by_cases hstart : p ++ [e] <+: l.start
      · refine .inl (hstart.trans ?_)
        refine prefix_of_prefix_length_le (h.lead _ l hl).start hlog ?_
        by_contra hshort
        have hin : log <+: l.start :=
          prefix_of_prefix_length_le hlog (h.lead _ l hl).start (by omega)
        have hy : y ∈ l.start :=
          hin.subset (hr ▸ mem_append_right _ mem_cons_self)
        exact absurd ((h.lead _ l hl).start_lt y hy) (lt_irrefl _)
      · have hy := hlt y (hr ▸ mem_append_right _ mem_cons_self)
        exact .inr ⟨stamp y, l, by omega, hy, hl, hstart⟩
    · -- both logs end in the block of one leader
      obtain ⟨l', hl', hlog'⟩ := h.log_traced v q x (hq ▸ prefix_refl _)
      rw [← hq] at hlog'
      rw [hxy, hl, some.injEq] at hl'
      subst hl'
      exact .inl (hpre.trans (prefix_of_prefix_length_le hlog' hlog hlen))
  · refine .inr ⟨w, l, huw, ?_, hl, hno⟩
    have hne : w ≠ t := by
      rintro rfl
      rw [hnone] at hl
      cases hl
    omega

/-! ## What stays -/

theorem Pledged.stays (h : Pledged P u v log) (hg : Grows P P') : Pledged P' u v log := by
  refine ⟨h.1.trans (hg.term v), fun t pre hack hends htu => ?_⟩
  rcases hg.fresh t v pre hack with hack | hle
  · exact (h.2 t pre hack hends htu).longer hg.lead
  · exact absurd (h.1.trans hle) (Nat.not_le_of_lt htu)

theorem Standing.stays (h : Standing P t v log) (hg : Grows P P') : Standing P' t v log :=
  ⟨h.le.trans (hg.term v), h.traced.longer hg.lead, h.lt⟩

variable {l : Reign ν ε}

theorem Reign.Ok.stays (h : l.Ok members P t) (hg : Grows P P') :
    l.Ok members P' t :=
  { h with
    votes := h.votes.mono fun v _ hv => ⟨hg.cast t v l.node hv.1, hv.2.stays hg⟩
    le := h.le.trans (hg.term l.node)
    traced := h.traced.longer hg.lead
    acked := fun pre hpre hends => hg.acked t l.node pre (h.acked pre hpre hends) }

omit [Stamped ε] in
/-- A log that only got longer keeps what was acknowledged. -/
theorem Acked.stays (h : Acked P t v pre) (hg : Grows P P') (hlog : P.log v <+: P'.log v) :
    Acked P' t v pre where
  le := h.le.trans (hg.term v)
  lead := by
    obtain ⟨l, hl, hpre⟩ := h.lead
    obtain ⟨l', hl', -, -, hlog⟩ := hg.lead t l hl
    exact ⟨l', hl', hpre.trans hlog⟩
  keeps := ((h.keeps.longer hg.lead).later (Nat.add_le_add_right (hg.term v) 1)).lengthen hlog

omit [Stamped ε] in
theorem Longer.none (hl : Longer lead lead') (h : lead' t = none) : lead t = none := by
  cases hlead : lead t with
  | none => rfl
  | some l =>
    obtain ⟨l', hl', -⟩ := hl t l hlead
    rw [h] at hl'
    cases hl'

theorem update_eq_some {α β : Type} [DecidableEq α] {f : α → Option β} {a b : α} {x y : β} :
    update f a (some x) b = some y ↔ (b = a ∧ y = x) ∨ (b ≠ a ∧ f b = some y) := by
  rw [update_apply]
  split
  · rename_i h
    simp [h, eq_comm]
  · rename_i h
    simp [h]

/-! ## One step -/

section

variable [DecidableEq ν]

/-- A node moves to a later term. -/
def State.raise (P : State ν ε) (v : ν) (t : Nat) : State ν ε :=
  { P with term := update P.term v t }

omit [Stamped ε] in
theorem State.grows_raise (hle : P.term v ≤ t) : Grows P (P.raise v t) where
  term w := by
    show P.term w ≤ update P.term v t w
    rw [update_apply]
    split
    · rename_i hw
      rwa [hw]
    · exact le_refl _
  stood _ _ _ := id
  cast _ _ _ := id
  lead := .refl _
  acked _ _ _ := id
  fresh _ _ _ := .inl

theorem Sound.raise (h : Sound members P) (hle : P.term v ≤ t) : Sound members (P.raise v t) := by
  have hg := State.grows_raise hle
  have hback : ∀ {w}, (P.raise v t).term w ≤ P.term w → (P.raise v t).term w = P.term w :=
    fun {w} hw => le_antisymm hw (hg.term w)
  exact
    { h with
      stood := fun u w log hs => (h.stood u w log hs).stays hg
      stood_log := fun w log hs hnone => by
        have hlast : (P.raise v t).term w ≤ P.term w := (h.stood _ w log hs).le
        rw [hback hlast] at hs hnone
        exact h.stood_log w log hs hnone
      cast := fun u w c hc => ⟨(h.cast u w c hc).1.trans (hg.term w), (h.cast u w c hc).2⟩
      promise := fun u w c log hnone hc hs => (h.promise u w c log hnone hc hs).stays hg
      lead := fun u l hl => (h.lead u l hl).stays hg
      own := fun w l hl hw => by
        have hlast : (P.raise v t).term w ≤ P.term l.node := (h.lead _ l hl).le
        rw [hw] at hlast
        rw [hback hlast] at hl
        exact h.own w l hl hw
      log_le := fun w e he => (h.log_le w e he).trans (hg.term w)
      acked := fun u w pre ha => (h.acked u w pre ha).stays hg (prefix_refl _) }

theorem Sound.stand (h : Sound members P) (hterm : P.term v = t) (hnone : P.stood t v = none)
    (hlt : ∀ e ∈ P.log v, stamp e < t) :
    Sound members { P with
      stood := fun u c => if u = t ∧ c = v then some (P.log v) else P.stood u c } := by
  have hstood : ∀ {u w log}, (if u = t ∧ w = v then some (P.log v) else P.stood u w) = some log →
      (u = t ∧ w = v ∧ log = P.log v) ∨ P.stood u w = some log := by
    intro u w log hs
    split at hs
    · rename_i huw
      exact .inl ⟨huw.1, huw.2, (some.inj hs).symm⟩
    · exact .inr hs
  exact
    { h with
      stood := fun u w log hs => by
        rcases hstood hs with ⟨rfl, rfl, rfl⟩ | hs
        · exact ⟨hterm.ge, h.log_traced w, hlt⟩
        · exact { h.stood u w log hs with }
      stood_log := fun w log hs hfree => by
        rcases hstood hs with ⟨-, rfl, rfl⟩ | hs
        · rfl
        · exact h.stood_log w log hs hfree
      cast := fun u w c hc => by
        obtain ⟨hle, log, hs⟩ := h.cast u w c hc
        refine ⟨hle, if u = t ∧ c = v then P.log v else log, ?_⟩
        dsimp only
        split
        · rfl
        · exact hs
      promise := fun u w c log hfree hc hs => by
        rcases hstood hs with ⟨rfl, rfl, rfl⟩ | hs
        · obtain ⟨-, log, hs⟩ := h.cast u w c hc
          rw [hnone] at hs
          cases hs
        · exact h.promise u w c log hfree hc hs
      lead := fun u l hl => { h.lead u l hl with }
      acked := fun u w pre ha => { h.acked u w pre ha with } }

omit [DecidableEq ν] in
/-- A node votes for a candidate that keeps what it acknowledged. -/
theorem Sound.vote (h : Sound members P) (hterm : P.term v = t) (hfree : ∀ c, ¬ P.cast t v c)
    (hs : P.stood t c = some log)
    (hkeeps : P.lead t = none → ∀ u pre, P.acked u v pre → Ends pre u → u < t →
      Keeps P.lead pre u t log) :
    Sound members { P with
      cast := fun u w d => P.cast u w d ∨ (u = t ∧ w = v ∧ d = c) } :=
  { h with
    stood := fun u w log hs => { h.stood u w log hs with }
    cast := fun u w d hc => by
      rcases hc with hc | ⟨rfl, rfl, rfl⟩
      · exact h.cast u w d hc
      · exact ⟨hterm.ge, log, hs⟩
    cast_unique := fun u w d d' hc hc' => by
      rcases hc with hc | ⟨rfl, rfl, rfl⟩
      · rcases hc' with hc' | ⟨rfl, rfl, rfl⟩
        · exact h.cast_unique u w d d' hc hc'
        · exact absurd hc (hfree d)
      · rcases hc' with hc' | ⟨-, -, rfl⟩
        · exact absurd hc' (hfree d')
        · rfl
    promise := fun u w d log' hnone hc hs' => by
      rcases hc with hc | ⟨rfl, rfl, rfl⟩
      · exact h.promise u w d log' hnone hc hs'
      · rw [hs, some.injEq] at hs'
        subst hs'
        exact ⟨hterm.ge, hkeeps hnone⟩
    lead := fun u l hl =>
      { h.lead u l hl with votes := (h.lead u l hl).votes.mono fun w _ hw => ⟨.inl hw.1, hw.2⟩ }
    acked := fun u w pre ha => { h.acked u w pre ha with } }

omit [DecidableEq ν] in
theorem Sound.win (h : Sound members P) (hs : P.stood t c = some log)
    (votes : Majority members fun v => P.cast t v c) (hfree : P.lead t = none) :
    let P' := { P with lead := update P.lead t (some ⟨c, log, log⟩) }
    Sound members P' ∧ Grows P P' := by
  intro P'
  have hl : Longer P.lead P'.lead := fun u l hlead => by
    refine ⟨l, update_eq_some.mpr (.inr ⟨?_, hlead⟩), rfl, rfl, prefix_refl _⟩
    rintro rfl
    rw [hfree] at hlead
    cases hlead
  have hg : Grows P P' := { Grows.refl P with lead := hl }
  have hstands := h.stood t c log hs
  refine ⟨{ h with
    stood := fun u w log hs => (h.stood u w log hs).stays hg
    stood_log := fun w log hs hlead => h.stood_log w log hs (hl.none hlead)
    promise := fun u w d log hlead hc hs => (h.promise u w d log (hl.none hlead) hc hs).stays hg
    lead := fun u l hlead => ?_
    own := fun w l hlead hw => ?_
    log_traced := fun w => (h.log_traced w).longer hl
    acked := fun u w pre hack => (h.acked u w pre hack).stays hg (prefix_refl _) }, hg⟩
  · rcases update_eq_some.mp hlead with ⟨rfl, rfl⟩ | ⟨-, hlead⟩
    · refine
        { votes := votes.mono fun w _ hw => ⟨hw, (h.promise u w c log hfree hw hs).stays hg⟩
          le := hstands.le
          start := prefix_refl _
          start_lt := hstands.lt
          stamp_le := fun e he => (hstands.lt e he).le
          traced := hstands.traced.longer hl
          acked := ?_ }
      rintro pre hpre ⟨p, e, rfl, he⟩
      have := hstands.lt e (hpre.subset (mem_append_right _ mem_cons_self))
      omega
    · exact (h.lead u l hlead).stays hg
  · rcases update_eq_some.mp hlead with ⟨hu, rfl⟩ | ⟨-, hlead⟩
    · obtain rfl : c = w := hw
      rw [← hu] at hs hfree
      exact h.stood_log c log hs hfree
    · exact h.own w l hlead hw

/-- A leader puts a new entry at the end of its log. -/
theorem Sound.extend (h : Sound members P)
    (leader : P.lead (P.term v) = some l) (own : l.node = v) (new : stamp e = P.term v) :
    let P' := { P with
      log := update P.log v (P.log v ++ [e])
      lead := update P.lead (P.term v) (some { l with log := l.log ++ [e] })
      acked := fun u w pre => P.acked u w pre ∨ (u = P.term v ∧ w = v ∧ pre = P.log v ++ [e]) }
    Sound members P' ∧ Grows P P' := by
  intro P'
  have hown := h.own v l leader own
  have hok := h.lead _ l leader
  have hl : Longer P.lead P'.lead := by
    intro u k hlead
    by_cases hu : u = P.term v
    · subst hu
      rw [leader, some.injEq] at hlead
      subst hlead
      exact ⟨_, update_self _ _ _, rfl, rfl, prefix_append _ _⟩
    · exact ⟨k, update_eq_some.mpr (.inr ⟨hu, hlead⟩), rfl, rfl, prefix_refl _⟩
  have hg : Grows P P' :=
    { Grows.refl P with
      lead := hl
      acked := fun _ _ _ => .inl
      fresh := fun u w pre hack => hack.imp id fun hnew => by rw [hnew.1, hnew.2.1] }
  have hlog : ∀ w, w ≠ v → P'.log w = P.log w := fun w hw => update_of_ne hw _ _
  have hlogv : P'.log v = l.log ++ [e] := by
    rw [← hown]
    exact update_self _ _ _
  have htraced : Traced P'.lead (l.log ++ [e]) := by
    intro p x hpx
    rcases prefix_concat_iff.mp hpx with heq | hpx
    · have hx := append_inj_right' heq rfl
      rw [cons.injEq] at hx
      rw [hx.1] at heq ⊢
      rw [new, heq]
      exact ⟨_, update_self _ _ _, prefix_refl _⟩
    · exact hok.traced.longer hl p x hpx
  have hgrown : ∀ w, P.log w <+: P'.log w := by
    intro w
    by_cases hw : w = v
    · rw [hw, hlogv, hown]
      exact prefix_append _ _
    · rw [hlog w hw]
  refine ⟨{ h with
    stood := fun u w log hs => (h.stood u w log hs).stays hg
    stood_log := fun w log hs hlead => ?_
    promise := fun u w d log hlead hc hs => (h.promise u w d log (hl.none hlead) hc hs).stays hg
    lead := fun u k hlead => ?_
    own := fun w k hlead hw => ?_
    log_le := fun w x hx => ?_
    log_traced := fun w => ?_
    acked := fun u w pre hack => ?_ }, hg⟩
  · have hw : w ≠ v := by
      rintro rfl
      cases (update_self (P.term w) _ P.lead).symm.trans hlead
    rw [hlog w hw]
    exact h.stood_log w log hs (hl.none hlead)
  · rcases update_eq_some.mp hlead with ⟨rfl, rfl⟩ | ⟨-, hlead⟩
    · refine
        { hok.stays hg with
          start := hok.start.trans (prefix_append _ _)
          stamp_le := fun x hx => ?_
          traced := htraced
          acked := fun pre hpre hends => ?_ }
      · rcases mem_append.mp hx with hx | hx
        · exact hok.stamp_le x hx
        · rw [mem_singleton] at hx
          rw [hx, new]
      · rcases prefix_concat_iff.mp hpre with rfl | hpre
        · exact .inr ⟨rfl, own, by rw [hown]⟩
        · exact .inl (hok.acked pre hpre hends)
    · exact (h.lead u k hlead).stays hg
  · rcases update_eq_some.mp hlead with ⟨-, rfl⟩ | ⟨hu, hlead⟩
    · obtain rfl : v = w := own.symm.trans hw
      exact hlogv
    · rw [hlog w fun hwv => hu (congrArg P.term hwv)]
      exact h.own w k hlead hw
  · by_cases hw : w = v
    · subst hw
      rw [hlogv, ← hown] at hx
      rcases mem_append.mp hx with hx | hx
      · exact h.log_le w x hx
      · rw [mem_singleton] at hx
        exact (hx ▸ new).le
    · rw [hlog w hw] at hx
      exact h.log_le w x hx
  · by_cases hw : w = v
    · rw [hw, hlogv]
      exact htraced
    · rw [hlog w hw]
      exact (h.log_traced w).longer hl
  · rcases hack with hack | ⟨rfl, rfl, rfl⟩
    · exact (h.acked u w pre hack).stays hg (hgrown w)
    · exact ⟨le_refl _, ⟨_, update_self _ _ _, by rw [hown]⟩, .inl (by rw [hlogv, hown])⟩

/-- A node that does not lead changes its log to one that its leader's log allows. -/
theorem Sound.follow (h : Sound members P)
    (leader : P.lead (P.term v) = some l) (other : l.node ≠ v)
    (hmem : ∀ e ∈ log, stamp e ≤ P.term v) (htr : Traced P.lead log)
    (hkeeps : ∀ u pre, P.acked u v pre → pre <+: P.log v →
      Keeps P.lead pre u (P.term v + 1) log) :
    Sound members { P with log := update P.log v log } := by
  generalize hnew : update P.log v log = logs
  have hlogv : logs v = log := hnew ▸ update_self _ _ _
  have hlog : ∀ w, w ≠ v → logs w = P.log w := fun w hw => hnew ▸ update_of_ne hw _ _
  have htraced : ∀ w, Traced P.lead (logs w) := by
    intro w
    by_cases hw : w = v
    · rwa [hw, hlogv]
    · rw [hlog w hw]
      exact h.log_traced w
  have hkept : ∀ u w pre, P.acked u w pre → Keeps P.lead pre u (P.term w + 1) (logs w) := by
    intro u w pre hack
    by_cases hw : w = v
    · subst hw
      rw [hlogv]
      rcases (h.acked u w pre hack).keeps with hpre | hno
      · exact hkeeps u pre hack hpre
      · exact .inr hno
    · rw [hlog w hw]
      exact (h.acked u w pre hack).keeps
  refine { h with
    stood := fun u w log hs => { h.stood u w log hs with }
    stood_log := fun w log' hs hnone => ?_
    lead := fun u l hl => { h.lead u l hl with }
    own := fun w k hlead hw => ?_
    log_le := fun w e he => ?_
    log_traced := htraced
    acked := fun u w pre hack => { h.acked u w pre hack with keeps := hkept u w pre hack } }
  · refine (hlog w ?_).trans (h.stood_log w log' hs hnone)
    rintro rfl
    cases leader.symm.trans hnone
  · refine (hlog w ?_).trans (h.own w k hlead hw)
    rintro rfl
    exact other ((some.inj (leader.symm.trans hlead)) ▸ hw)
  · by_cases hw : w = v
    · subst hw
      exact hmem e (hlogv ▸ he)
    · exact h.log_le w e (hlog w hw ▸ he)

variable {f : ε}

omit [Stamped ε] in
theorem prefix_dropLast (hpre : pre <+: log) (hpre' : pre <+: log')
    (h : p ++ [e] <+: log) (h' : p ++ [f] <+: log') (hne : e ≠ f) : pre <+: log.dropLast := by
  have hshort : pre.length ≤ p.length := by
    by_contra hlong
    have hlen : ∀ x : ε, (p ++ [x]).length ≤ pre.length := by
      intro x
      rw [length_append, length_singleton]
      omega
    have hep : p ++ [e] <+: p ++ [f] := by
      refine prefix_of_prefix_length_le
        ((prefix_of_prefix_length_le h hpre (hlen e)).trans hpre') h' ?_
      rw [length_append, length_append]
      exact le_refl _
    have heq := hep.eq_of_length (by rw [length_append, length_append]; rfl)
    exact hne (cons.inj (append_inj_right' heq rfl)).1
  refine prefix_of_prefix_length_le hpre ( dropLast_prefix log) ?_
  have := h.length_le
  rw [length_append, length_singleton] at this
  rw [length_dropLast]
  omega

/-- A node cuts off what is in the way of its leader's log. -/
theorem Sound.cut (h : Sound members P)
    (leader : P.lead (P.term v) = some l) (other : l.node ≠ v) (mine : p ++ [e] <+: P.log v)
    (its : p ++ [f] <+: l.log) (differ : e ≠ f) :
    Sound members { P with log := update P.log v (P.log v).dropLast } := by
  refine h.follow leader other (fun x hx => h.log_le v x (mem_of_mem_dropLast hx))
    ((h.log_traced v).shorter ( dropLast_prefix _)) fun u pre hack hpre => ?_
  by_cases hits : pre <+: l.log
  · exact .inl (prefix_dropLast hpre hits mine its differ)
  · have hu : u < P.term v := by
      rcases lt_or_eq_of_le (h.acked u v pre hack).le with hu | rfl
      · exact hu
      · obtain ⟨k, hk, hpk⟩ := (h.acked _ v pre hack).lead
        rw [leader, some.injEq] at hk
        exact absurd (hk ▸ hpk) hits
    exact .inr ⟨P.term v, l, hu, lt_succ_self _, leader,
      fun hstart => hits (hstart.trans (h.lead _ l leader).start)⟩

omit [DecidableEq ν] in
/-- A node acknowledges what it has of its leader's log. -/
theorem Sound.ack (h : Sound members P) (leader : P.lead (P.term v) = some l)
    (its : pre <+: l.log) (mine : pre <+: P.log v) :
    let P' := { P with acked := fun u w q => P.acked u w q ∨
      (u = P.term v ∧ w = v ∧ q <+: pre) }
    Sound members P' ∧ Grows P P' := by
  intro P'
  have hg : Grows P P' :=
    { Grows.refl P with
      acked := fun _ _ _ => .inl
      fresh := fun u w pre hack => hack.imp id fun hnew => by rw [hnew.1, hnew.2.1] }
  refine ⟨{ h with
    stood := fun u w log hs => (h.stood u w log hs).stays hg
    promise := fun u w d log hnone hc hs => (h.promise u w d log hnone hc hs).stays hg
    lead := fun u k hlead => (h.lead u k hlead).stays hg
    acked := fun u w q hack => ?_ }, hg⟩
  rcases hack with hack | ⟨rfl, rfl, hq⟩
  · exact (h.acked u w q hack).stays hg (prefix_refl _)
  · exact ⟨le_refl _, ⟨l, leader, hq.trans its⟩, .inl (hq.trans mine)⟩

theorem Sound.step (h : Sound members P) (hs : Step members P P') :
    Sound members P' ∧ Grows P P' := by
  cases hs with
  | advance later => exact ⟨h.raise later.le, State.grows_raise later.le⟩
  | @stand v t later =>
    have hnone : P.stood t v = none := by
      cases hst : P.stood t v with
      | none => rfl
      | some log => exact absurd (h.stood t v log hst).le (Nat.not_le_of_lt later)
    have hlt : ∀ e ∈ P.log v, stamp e < t := fun e he => (h.log_le v e he).trans_lt later
    have hterm : (P.raise v t).term v = t := update_self _ _ _
    have hstand := (h.raise later.le).stand hterm hnone hlt
    have hfree : ∀ c, ¬ P.cast t v c :=
      fun c hc => absurd (h.cast t v c hc).1 (Nat.not_le_of_lt later)
    refine ⟨hstand.vote hterm hfree (show _ = some (P.log v) from if_pos ⟨rfl, rfl⟩)
      fun hlead u pre hack hends hut => ?_,
      { State.grows_raise later.le with
        stood := fun u w log hst => ?_
        cast := fun u w c => .inl }⟩
    · exact h.pledged later.le hlead (h.log_traced v) hlt (.refl _) hack hends hut
    · refine (if_neg ?_).trans hst
      rintro ⟨rfl, rfl⟩
      cases hnone.symm.trans hst
  | @grant v c t log later free candidate fresh =>
    have hstands := h.stood t c log candidate
    exact ⟨(h.raise later).vote (update_self _ _ _) free candidate
      fun hlead u pre hack hends hut =>
        h.pledged later hlead hstands.traced hstands.lt fresh hack hends hut,
      { State.grows_raise later with cast := fun u w c => .inl }⟩
  | win candidate votes free => exact h.win candidate votes free
  | extend leader own new => exact h.extend leader own new
  | @append v l e leader other next =>
    have hok := h.lead _ l leader
    exact ⟨h.follow leader other (fun x hx => hok.stamp_le x (next.subset hx))
      (hok.traced.shorter next) fun u pre hack hpre =>
        .inl (hpre.trans (prefix_append _ _)), { Grows.refl P with }⟩
  | cut leader other mine its differ =>
    exact ⟨h.cut leader other mine its differ, { Grows.refl P with }⟩
  | ack leader its mine => exact h.ack leader its mine

end

/-! ## Committed entries -/

variable (members) in
/-- A part of the log of a term's leader that ends with an entry of the term, acknowledged by
a majority. -/
structure Committed (P : State ν ε) (t : Nat) (pre : List ε) : Prop where
  ends : Ends pre t
  lead : ∃ l, P.lead t = some l ∧ pre <+: l.log
  acked : Majority members fun v => P.acked t v pre

theorem Committed.grows (h : Committed members P t pre) (hg : Grows P P') :
    Committed members P' t pre where
  ends := h.ends
  lead := by
    obtain ⟨l, hl, hpre⟩ := h.lead
    obtain ⟨l', hl', -, -, hlog⟩ := hg.lead t l hl
    exact ⟨l', hl', hpre.trans hlog⟩
  acked := h.acked.mono fun v _ => hg.acked t v pre

/-- Every later leader starts with what is committed. -/
theorem Sound.complete (h : Sound members P) (hc : Committed members P t pre) :
    ∀ u l, P.lead u = some l → t < u → pre <+: l.start := by
  intro u
  -- a leader between the two terms has it by induction
  induction u using Nat.strong_induction_on with
  | _ u ih =>
    intro l hl htu
    obtain ⟨v, -, hack, -, hpledged⟩ := hc.acked.inter (h.lead u l hl).votes
    rcases hpledged.2 t pre hack hc.ends htu with hpre | ⟨w, k, htw, hwu, hk, hno⟩
    · exact hpre
    · exact absurd (ih w hwu k hk htw) hno

/-- The leader of a term from then on has what is committed. -/
theorem Sound.complete_log (h : Sound members P) (hc : Committed members P t pre)
    (hl : P.lead u = some l) (htu : t ≤ u) : pre <+: l.log := by
  rcases lt_or_eq_of_le htu with htu | rfl
  · exact (h.complete hc u l hl htu).trans (h.lead u l hl).start
  · obtain ⟨k, hk, hpre⟩ := hc.lead
    rw [hl, some.injEq] at hk
    rwa [hk]

theorem Sound.committed_total (h : Sound members P) {pre' : List ε}
    (hc : Committed members P t pre) (hc' : Committed members P u pre') :
    pre <+: pre' ∨ pre' <+: pre := by
  obtain ⟨l, hl, hpre⟩ := hc.lead
  obtain ⟨l', hl', hpre'⟩ := hc'.lead
  rcases le_total t u with htu | hut
  · exact prefix_or_prefix_of_prefix (h.complete_log hc hl' htu) hpre'
  · exact prefix_or_prefix_of_prefix hpre (h.complete_log hc' hl hut)

/-- Who acknowledged what is committed still has it. -/
theorem Sound.committed_held (h : Sound members P) (hc : Committed members P t pre) :
    Majority members fun v => pre <+: P.log v := by
  refine hc.acked.mono fun v _ hack => ?_
  rcases (h.acked t v pre hack).keeps with hpre | ⟨w, l, htw, -, hl, hno⟩
  · exact hpre
  · exact absurd (h.complete hc w l hl htw) hno

variable (members) in
/-- The first entries of the log are committed in the term or an earlier one. -/
def Covered (P : State ν ε) (log : List ε) (t k : Nat) : Prop :=
  k = 0 ∨ ∃ u pre, u ≤ t ∧ Committed members P u pre ∧ k ≤ pre.length ∧ pre.take k <+: log

variable {k : Nat}

theorem Covered.grows (h : Covered members P log t k) (hg : Grows P P') :
    Covered members P' log t k := by
  refine h.imp id ?_
  rintro ⟨u, pre, hut, hc, hk, hpre⟩
  exact ⟨u, pre, hut, hc.grows hg, hk, hpre⟩

theorem Covered.later (h : Covered members P log t k) (ht : t ≤ u) :
    Covered members P log u k := by
  refine h.imp id ?_
  rintro ⟨w, pre, hwt, hc, hk, hpre⟩
  exact ⟨w, pre, hwt.trans ht, hc, hk, hpre⟩

theorem Covered.le {k' : Nat} (h : Covered members P log t k) (hk : k' ≤ k) :
    Covered members P log t k' := by
  rcases h with rfl | ⟨u, pre, hut, hc, hlen, hpre⟩
  · exact .inl (le_zero.mp hk)
  · exact .inr ⟨u, pre, hut, hc, hk.trans hlen, (take_prefix_take_left hk).trans hpre⟩

theorem Covered.length_le (h : Covered members P log t k) : k ≤ log.length := by
  rcases h with rfl | ⟨u, pre, -, -, hlen, hpre⟩
  · exact zero_le _
  · have := hpre.length_le
    rwa [length_take, min_eq_left hlen] at this

/-- The log may change above what is committed of it. -/
theorem Covered.moves (h : Covered members P log t k)
    (hp : ∀ pre, pre.length ≤ k → pre <+: log → pre <+: log') : Covered members P log' t k := by
  refine h.imp id ?_
  rintro ⟨u, pre, hut, hc, hk, hpre⟩
  exact ⟨u, pre, hut, hc, hk, hp _ (length_take_le _ _) hpre⟩

theorem Covered.committed (h : Covered members P log t k) (h0 : 0 < k) :
    ∃ u pre, u ≤ t ∧ Committed members P u pre ∧ log.take k <+: pre := by
  rcases h with rfl | ⟨u, pre, hut, hc, hk, hpre⟩
  · exact absurd h0 (lt_irrefl 0)
  · refine ⟨u, pre, hut, hc, ?_⟩
    have htake := prefix_iff_eq_take.mp hpre
    rw [length_take, min_eq_left hk] at htake
    exact htake ▸ take_prefix _ _

/-- The leader of the term has what is committed of a log. -/
theorem Sound.covered_lead (h : Sound members P) (hc : Covered members P log t k)
    (hl : P.lead u = some l) (htu : t ≤ u) : log.take k <+: l.log := by
  rcases Nat.eq_zero_or_pos k with rfl | h0
  · exact nil_prefix
  · obtain ⟨w, pre, hwt, hc, hpre⟩ := hc.committed h0
    exact hpre.trans (h.complete_log hc hl (hwt.trans htu))

/-- Two logs agree on what is committed of both. -/
theorem Sound.covered_agree (h : Sound members P) (hc : Covered members P log t k)
    (hc' : Covered members P log' u k) : log.take k = log'.take k := by
  rcases Nat.eq_zero_or_pos k with rfl | h0
  · rfl
  obtain ⟨_, pre, -, hcom, hpre⟩ := hc.committed h0
  obtain ⟨_, pre', -, hcom', hpre'⟩ := hc'.committed h0
  have hlen : (log.take k).length = (log'.take k).length := by
    rw [length_take, length_take, min_eq_left hc.length_le, min_eq_left hc'.length_le]
  have heq : ∀ {q : List ε}, log.take k <+: q → log'.take k <+: q → log.take k = log'.take k :=
    fun h h' => (prefix_of_prefix_length_le h h' hlen.le).eq_of_length hlen
  rcases h.committed_total hcom hcom' with hle | hle
  · exact heq (hpre.trans hle) hpre'
  · exact heq hpre (hpre'.trans hle)

variable [DecidableEq ν]

/-- A node keeps what is committed of its log. -/
theorem Sound.covered_step (h : Sound members P) (hs : Step members P P')
    (hc : Covered members P (P.log v) (P.term v) k) :
    Covered members P' (P'.log v) (P'.term v) k := by
  have hg := (h.step hs).2
  have hgrown : ∀ {w : ν} {e : ε},
      Covered members P (update P.log w (P.log w ++ [e]) v) (P.term v) k := by
    intro w e
    refine hc.moves fun pre _ hpre => hpre.trans ?_
    rw [update_apply]
    split
    · rename_i hv
      exact hv ▸ prefix_append _ _
    · exact prefix_refl _
  have hkept : Covered members P (P'.log v) (P.term v) k := by
    cases hs with
    | extend | append => exact hgrown
    | @cut w l p e f leader other mine its differ =>
      show Covered members P (update P.log w (P.log w).dropLast v) (P.term v) k
      rw [update_apply]
      split
      · rename_i hv
        subst hv
        refine hc.moves fun pre hlen hpre => prefix_dropLast hpre ?_ mine its differ
        refine .trans ?_ (h.covered_lead hc leader (le_refl _))
        rw [prefix_iff_eq_take.mp hpre]
        exact take_prefix_take_left hlen
      · exact hc
    | _ => exact hc
  exact (hkept.grows hg).later (hg.term v)

/-! ## Moves of one node -/

variable (members) in
/-- Whoever has the votes of a majority leads. -/
structure Settled (P : State ν ε) : Prop extends Sound members P where
  elected : ∀ t c, Majority members (fun v => P.cast t v c) → ∃ l, P.lead t = some l ∧ l.node = c

variable (members) in
/-- Only one node moved. -/
structure Within (v : ν) (P P' : State ν ε) : Prop where
  grows : Grows P P'
  covered : ∀ w k, Covered members P (P.log w) (P.term w) k →
    Covered members P' (P'.log w) (P'.term w) k
  term : ∀ w, w ≠ v → P'.term w = P.term w
  log : ∀ w, w ≠ v → P'.log w = P.log w
  cast : ∀ w, w ≠ v → ∀ t c, P'.cast t w c → P.cast t w c

omit [DecidableEq ν] in
theorem Within.refl (v : ν) (P : State ν ε) : Within members v P P :=
  ⟨.refl P, fun _ _ => id, fun _ _ => rfl, fun _ _ => rfl, fun _ _ _ _ => id⟩

omit [DecidableEq ν] in
theorem Within.trans (h : Within members v P P')
    (h' : Within members v P' P'') : Within members v P P'' where
  grows := h.grows.trans h'.grows
  covered w k hc := h'.covered w k (h.covered w k hc)
  term w hw := (h'.term w hw).trans (h.term w hw)
  log w hw := (h'.log w hw).trans (h.log w hw)
  cast w hw t c hc := h.cast w hw t c (h'.cast w hw t c hc)

/-- A candidate that has the votes of a majority comes to lead. -/
theorem Sound.settle (h : Sound members P) (hset : ∀ u d,
    Majority members (fun v => P.cast u v d) →
      (u = t ∧ d = c) ∨ ∃ l, P.lead u = some l ∧ l.node = d) :
    ∃ lead, Settled members { P with lead := lead } ∧
      ∀ v, Within members v P { P with lead := lead } := by
  by_cases hmost : Majority members fun v => P.cast t v c
  · cases hlead : P.lead t with
    | none =>
      obtain ⟨v, -, hv, -⟩ := hmost.inter hmost
      obtain ⟨-, log, hs⟩ := h.cast t v c hv
      have hstep : Step members P _ := .win hs hmost hlead
      obtain ⟨hsound, hg⟩ := h.step hstep
      refine ⟨_, { hsound with elected := fun u d hm => ?_ }, fun v =>
        ⟨hg, fun w k => h.covered_step hstep, fun _ _ => rfl, fun _ _ => rfl,
          fun _ _ _ _ => id⟩⟩
      rcases hset u d hm with ⟨rfl, rfl⟩ | ⟨l, hl, hnode⟩
      · exact ⟨_, update_self _ _ _, rfl⟩
      · obtain ⟨l', hl', hnode', -⟩ := hg.lead u l hl
        exact ⟨l', hl', hnode'.trans hnode⟩
    | some l =>
      refine ⟨P.lead, { h with elected := fun u d hm => ?_ }, fun v => .refl v P⟩
      rcases hset u d hm with ⟨rfl, rfl⟩ | hl
      · obtain ⟨v, -, hv, hv', -⟩ := hm.inter (h.lead u l hlead).votes
        exact ⟨l, hlead, h.cast_unique u v _ _ hv' hv⟩
      · exact hl
  · refine ⟨P.lead, { h with elected := fun u d hm => ?_ }, fun v => .refl v P⟩
    rcases hset u d hm with ⟨rfl, rfl⟩ | hl
    · exact absurd hm hmost
    · exact hl

theorem Settled.advance (h : Settled members P) (later : P.term v < t) :
    ∃ P', Settled members P' ∧ Within members v P P' ∧ P'.term v = t ∧ P'.log v = P.log v ∧
      ∀ c, ¬ P'.cast t v c := by
  have hstep : Step members P _ := .advance later
  obtain ⟨hsound, hg⟩ := h.toSound.step hstep
  exact ⟨_, { hsound with elected := h.elected },
    ⟨hg, fun w k => h.covered_step hstep, fun w hw => update_of_ne hw _ _,
      fun _ _ => rfl, fun _ _ _ _ => id⟩,
    update_self _ _ _, rfl,
    fun c hc => absurd (h.cast t v c hc).1 (Nat.not_le_of_lt later)⟩

theorem Settled.voted (h : Settled members P) (hstep : Step members P P') (hlog : P'.log = P.log)
    (hterm : ∀ w, w ≠ v → P'.term w = P.term w)
    (hcast : ∀ u w d, P'.cast u w d ↔ P.cast u w d ∨ (u = t ∧ w = v ∧ d = c)) :
    ∃ lead, Settled members { P' with lead := lead } ∧
      Within members v P { P' with lead := lead } := by
  obtain ⟨hsound, hg⟩ := h.toSound.step hstep
  obtain ⟨lead, hset, hwithin⟩ := hsound.settle (t := t) (c := c) fun u d hm => by
    by_cases hnew : u = t ∧ d = c
    · exact .inl hnew
    · obtain ⟨l, hl, hnode⟩ := h.elected u d <| hm.mono fun w _ hw =>
        ((hcast u w d).mp hw).resolve_right fun hw => hnew ⟨hw.1, hw.2.2⟩
      obtain ⟨l', hl', hnode', -⟩ := hg.lead u l hl
      exact .inr ⟨l', hl', hnode'.trans hnode⟩
  refine ⟨lead, hset, .trans ⟨hg, fun w k => h.covered_step hstep, hterm, fun w _ => ?_,
    fun w hw u d hd => ?_⟩ (hwithin v)⟩
  · rw [hlog]
  · exact ((hcast u w d).mp hd).resolve_right fun hnew => hw hnew.2.1

theorem Settled.stand (h : Settled members P) (later : P.term v < t) :
    ∃ P', Settled members P' ∧ Within members v P P' ∧ P'.term v = t ∧ P'.log v = P.log v ∧
      P'.stood t v = some (P.log v) ∧ ∀ c, P'.cast t v c ↔ c = v := by
  obtain ⟨lead, hset, hwithin⟩ := h.voted (.stand later) rfl
    (fun w hw => update_of_ne hw _ _) fun u w d => .rfl
  refine ⟨_, hset, hwithin, update_self _ _ _, rfl, if_pos ⟨rfl, rfl⟩, fun c => ?_⟩
  constructor
  · rintro (hc | hc)
    · exact absurd (h.cast t v c hc).1 (Nat.not_le_of_lt later)
    · exact hc.2.2
  · exact fun hc => .inr ⟨rfl, rfl, hc⟩

theorem Settled.grant (h : Settled members P) (later : P.term v ≤ t)
    (free : ∀ c, ¬ P.cast t v c) (candidate : P.stood t c = some log)
    (fresh : UpToDate log (P.log v)) :
    ∃ P', Settled members P' ∧ Within members v P P' ∧ P'.term v = t ∧ P'.log v = P.log v ∧
      ∀ d, P'.cast t v d ↔ d = c := by
  obtain ⟨lead, hset, hwithin⟩ := h.voted (.grant later free candidate fresh) rfl
    (fun w hw => update_of_ne hw _ _) fun u w d => .rfl
  refine ⟨_, hset, hwithin, update_self _ _ _, rfl, fun d => ?_⟩
  constructor
  · rintro (hd | hd)
    · exact absurd hd (free d)
    · exact hd.2.2
  · exact fun hd => .inr ⟨rfl, rfl, hd⟩

theorem Settled.write (h : Settled members P) (hstep : Step members P P')
    (hlog : P'.log = update P.log v log) (hterm : P'.term = P.term)
    (hcast : P'.cast = P.cast) :
    Settled members P' ∧ Within members v P P' ∧ P'.log v = log := by
  obtain ⟨hsound, hg⟩ := h.toSound.step hstep
  refine ⟨{ hsound with elected := fun t c hm => ?_ }, ⟨hg, fun w k => h.covered_step hstep,
    fun w _ => by rw [hterm], fun w hw => ?_, fun w _ t c hc => by rwa [hcast] at hc⟩, ?_⟩
  · rw [hcast] at hm
    obtain ⟨l, hl, hnode⟩ := h.elected t c hm
    obtain ⟨l', hl', hnode', -⟩ := hg.lead t l hl
    exact ⟨l', hl', hnode'.trans hnode⟩
  · rw [hlog, update_of_ne hw]
  · rw [hlog, update_self]

/-- A node acknowledges what it has of its leader's log. -/
theorem Settled.ack (h : Settled members P) (leader : P.lead (P.term v) = some l)
    (its : pre <+: l.log) (mine : pre <+: P.log v) :
    ∃ P', Settled members P' ∧ Grows P P' ∧ P'.term = P.term ∧ P'.log = P.log ∧
      P'.cast = P.cast ∧ P'.lead = P.lead ∧
      (∀ w k, Covered members P (P.log w) (P.term w) k →
        Covered members P' (P'.log w) (P'.term w) k) ∧
      ∀ q, q <+: pre → P'.acked (P.term v) v q := by
  have hstep : Step members P _ := .ack leader its mine
  obtain ⟨hsound, hg⟩ := h.toSound.step hstep
  exact ⟨_, { hsound with elected := h.elected }, hg, rfl, rfl, rfl, rfl,
    fun w k => h.covered_step hstep, fun q hq => .inr ⟨rfl, rfl, hq⟩⟩

end

/-! ## The first state -/

/-- No term has begun. -/
def State.init : State ν ε where
  term _ := 0
  log _ := []
  stood _ _ := none
  cast _ _ _ := False
  lead _ := none
  acked _ _ _ := False

theorem Sound.init [DecidableEq ν] (members : List ν) :
    Sound members (State.init : State ν ε) where
  stood _ _ _ hs := by cases hs
  stood_log _ _ hs := by cases hs
  cast _ _ _ hc := hc.elim
  cast_unique _ _ _ _ hc := hc.elim
  promise _ _ _ _ _ hc := hc.elim
  lead _ _ hl := by cases hl
  own _ _ hl := by cases hl
  log_le _ _ he := by cases he
  log_traced _ p e hpe := by
    rw [State.init, prefix_nil] at hpe
    cases p <;> cases hpe
  acked _ _ _ ha := ha.elim

theorem Settled.init [DecidableEq ν] (members : List ν) :
    Settled members (State.init : State ν ε) :=
  { Sound.init members with
    elected := fun _ _ hm => by
      obtain ⟨v, -, hv, -⟩ := hm.inter hm
      exact hv.elim }

end Consensus

end Library
