import ScopeScript.Number.Binary

/-!
# Fixed-point text of floating-point numbers

A floating-point number is written with a fixed number of decimal places by
rounding its exact value. `roundDiv` is the rounding step: the quotient of two
natural numbers to the nearest integer, a half going to the even neighbour; it
is never off by more than half a unit (`two_mul_roundDiv_le`,
`le_two_mul_roundDiv`). `fixedText` writes the sign, also that of a negative
zero, the integral digits, a point and the decimal places.
-/

namespace ScopeScript

/-- Nearest integer to `a / b`; a half goes to the even neighbour. -/
def roundDiv (a b : Nat) : Nat :=
  let low := a / b
  let twice := 2 * (a % b)
  if twice < b then low
  else if b < twice then low + 1
  else if low % 2 = 0 then low else low + 1

theorem two_mul_roundDiv_le (a b : Nat) : 2 * (b * roundDiv a b) ≤ 2 * a + b := by
  have hdiv := Nat.div_add_mod a b
  simp only [roundDiv]
  repeat' split
  all_goals (try rw [Nat.mul_add]); omega

theorem le_two_mul_roundDiv (a b : Nat) (hb : 0 < b) : 2 * a ≤ 2 * (b * roundDiv a b) + b := by
  have hdiv := Nat.div_add_mod a b
  have hmod := Nat.mod_lt a hb
  simp only [roundDiv]
  repeat' split
  all_goals (try rw [Nat.mul_add]); omega

/-- The exact value `m · 2^q` in units of `10^(-places)`, rounded. -/
def scaledRound (places m : Nat) (q : Int) : Nat :=
  let scaled := m * tenPow places
  if 0 ≤ q then scaled * twoPow q.toNat else roundDiv scaled (twoPow (-q).toNat)

/-- Decimal digits of `n`, padded with zeros on the left to `width`. -/
def paddedDigits (width n : Nat) : List Char :=
  let digits := Nat.toDigits 10 n
  List.replicate (width - digits.length) '0' ++ digits

/-- Text of a number with the given number of decimal places. -/
def fixedText (places : Nat) (x : Float) : List Char :=
  let b := Binary.ofFloat x
  let sign := if b.negative then ['-'] else []
  match b.magnitude with
  | .notANumber => ['N', 'a', 'N']
  | .infinite => sign ++ ['i', 'n', 'f']
  | .finite m q =>
    let units := scaledRound places m q
    sign ++ Nat.toDigits 10 (units / tenPow places) ++ '.' ::
      paddedDigits places (units % tenPow places)

end ScopeScript
