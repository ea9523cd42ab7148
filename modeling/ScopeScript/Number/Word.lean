import ScopeScript.Number.Radix

/-!
# Powers of 64-bit words

Integers of the language are 64-bit words, and their arithmetic is that of the
ring of integers modulo `2^64`. Core supplies sums, products, quotients and
remainders. Its power multiplies one factor at a time; `power` squares instead,
and `power_eq_pow` says that the two agree for every exponent of at most
thirty-two bits.
-/

namespace ScopeScript

/-- The power `a ^ n` read off the lowest `bits` binary digits of `n`. -/
def powerBits : Nat → Int64 → Nat → Int64
  | 0, _, _ => 1
  | bits + 1, a, n =>
    let half := powerBits bits (a * a) (n / 2)
    if n % 2 = 1 then a * half else half

/-- The power of a word, for exponents below `2^32`. -/
def power (a : Int64) (n : Nat) : Int64 :=
  powerBits 32 a n

theorem pow_zero_word (a : Int64) : Int64.pow a 0 = 1 := rfl

theorem pow_succ_word (a : Int64) (n : Nat) : Int64.pow a (n + 1) = Int64.pow a n * a := rfl

theorem mul_self_pow (a : Int64) (k : Nat) : Int64.pow (a * a) k = Int64.pow a (2 * k) := by
  induction k with
  | zero => rfl
  | succ k ih =>
    rw [pow_succ_word, ih, Nat.mul_succ, pow_succ_word, pow_succ_word, Int64.mul_assoc]

theorem powerBits_eq_pow (bits : Nat) (a : Int64) (n : Nat) (h : n < twoPow bits) :
    powerBits bits a n = Int64.pow a n := by
  induction bits generalizing a n with
  | zero =>
    obtain rfl : n = 0 := by simpa using h
    rfl
  | succ bits ih =>
    have hhalf : n / 2 < twoPow bits := by rw [twoPow_succ] at h; omega
    simp only [powerBits, ih _ _ hhalf, mul_self_pow]
    by_cases hodd : n % 2 = 1
    · have hn : n = 2 * (n / 2) + 1 := by omega
      rw [if_pos hodd]
      conv => rhs; rw [hn]
      rw [pow_succ_word, Int64.mul_comm]
    · have hn : 2 * (n / 2) = n := by omega
      rw [if_neg hodd, hn]

theorem power_eq_pow (a : Int64) (n : Nat) (h : n < twoPow 32) : power a n = Int64.pow a n :=
  powerBits_eq_pow 32 a n h

end ScopeScript
