/-!
# Computations that look at a part of the state

A computation over a state that it only reads, and may fail.  It is local to a
relation when it answers the same on related states, so that it looks at no more than
the relation keeps.  Locality composes (`Local.bind`), and what follows a result may
use what the result tells.
-/

namespace Library

variable {σ ε α β : Type} {R : σ → σ → Prop}

/-- The computation answers the same on related states. -/
def Local (R : σ → σ → Prop) (c : σ → Except ε α) : Prop := ∀ f g, R f g → c f = c g

theorem Local.const (r : Except ε α) : Local R fun _ => r := fun _ _ _ => rfl

theorem Local.bind {c : σ → Except ε α} {k : α → σ → Except ε β} (hc : Local R c)
    (hk : ∀ f a, c f = .ok a → Local R (k a)) : Local R fun f => c f >>= fun a => k a f := by
  intro f g h
  show (c f >>= fun a => k a f) = (c g >>= fun a => k a g)
  rw [← hc f g h]
  cases ha : c f with
  | error e => rfl
  | ok a => exact hk f a ha f g h

theorem Local.ite {p : Prop} [Decidable p] {c d : σ → Except ε α} (hc : p → Local R c)
    (hd : ¬p → Local R d) : Local R fun f => if p then c f else d f := by
  intro f g h
  show (if p then c f else d f) = if p then c g else d g
  split
  next hp => exact hc hp f g h
  next hp => exact hd hp f g h

end Library
