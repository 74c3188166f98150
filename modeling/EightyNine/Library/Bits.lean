import Mathlib.Algebra.Group.Nat.Defs

/-!
# Numbers put together from bits
-/

namespace Library

/-- Two numbers that share no bit: the low one has `k` bits. -/
theorem or_shiftLeft {k a x : Nat} (hx : x < 2 ^ k) : x ||| a <<< k = a * 2 ^ k + x := by
  rw [Nat.or_comm, ← Nat.shiftLeft_add_eq_or_of_lt hx, Nat.shiftLeft_eq]

end Library
