/-!
# Powers of two and ten

The radices of binary and decimal notation, as natural numbers. `twoPow` and
`tenPow` are positive, and each is multiplied by its radix when the exponent goes
up by one.
-/

namespace ScopeScript

/-- The power of two with exponent `n`. -/
def twoPow (n : Nat) : Nat := Nat.pow 2 n

/-- The power of ten with exponent `n`. -/
def tenPow (n : Nat) : Nat := Nat.pow 10 n

@[simp] theorem twoPow_zero : twoPow 0 = 1 := rfl

theorem twoPow_succ (n : Nat) : twoPow (n + 1) = twoPow n * 2 := rfl

theorem tenPow_succ (n : Nat) : tenPow (n + 1) = tenPow n * 10 := rfl

theorem twoPow_pos (n : Nat) : 0 < twoPow n := by
  induction n with
  | zero => decide
  | succ n ih => rw [twoPow_succ]; omega

theorem tenPow_pos (n : Nat) : 0 < tenPow n := by
  induction n with
  | zero => decide
  | succ n ih => rw [tenPow_succ]; omega

/-- Number of values of a 64-bit word. -/
def wordSize : Nat := twoPow 64

/-- Number of negative values of a signed 64-bit word. -/
def halfWordSize : Nat := twoPow 63

end ScopeScript
