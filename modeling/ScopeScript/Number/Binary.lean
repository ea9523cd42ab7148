import ScopeScript.Number.Radix

/-!
# Binary floating-point numbers in exact arithmetic

A finite 64-bit floating-point number is a sign and a magnitude `m · 2^q` with
natural `m < 2^53` and `q ≥ -1074`. `Binary.ofFloat` reads sign, `m` and `q` off
the bit pattern, `Binary.toFloat` writes them back, and everything else that has
to be exact (decimal texts, remainders) is computed on `m` and `q` with natural
numbers.

`remainder` is the remainder of truncating division: it has the sign of the
dividend and a magnitude below that of the divisor, and no rounding occurs in it.
-/

namespace ScopeScript

/-- What a floating-point number is, its sign aside. -/
inductive Magnitude where
  /-- The number `m · 2^q`. -/
  | finite (m : Nat) (q : Int)
  | infinite
  | notANumber
deriving DecidableEq

/-- A floating-point number taken apart. -/
structure Binary where
  negative : Bool
  magnitude : Magnitude
deriving DecidableEq

/-- Least exponent of a magnitude. -/
def Binary.minExponent : Int := -1074

/-- Takes a number apart: one sign bit, eleven exponent bits, fifty-two fraction bits. -/
def Binary.ofFloat (x : Float) : Binary :=
  let bits := x.toBits.toNat
  let fraction := bits % twoPow 52
  let exponent := bits / twoPow 52 % twoPow 11
  let magnitude :=
    if exponent = twoPow 11 - 1 then
      if fraction = 0 then .infinite else .notANumber
    else if exponent = 0 then .finite fraction Binary.minExponent
    else .finite (twoPow 52 + fraction) (exponent + Binary.minExponent - 1)
  ⟨bits / twoPow 63 % 2 = 1, magnitude⟩

/-- Bits, the sign bit aside, of `m · 2^q` for `m < 2^53`: the significand is moved as far left
as its width and the least exponent allow. -/
def Binary.magnitudeBits (m : Nat) (q : Int) : Nat :=
  if m = 0 then 0
  else
    let shift := min (52 - m.log2) (q - Binary.minExponent).toNat
    let significand := m * twoPow shift
    if significand < twoPow 52 then significand
    else (q - shift - Binary.minExponent + 1).toNat * twoPow 52 + (significand - twoPow 52)

/-- Puts a number together; `m · 2^q` has to be representable. -/
def Binary.toFloat (b : Binary) : Float :=
  let magnitude :=
    match b.magnitude with
    | .finite m q => Binary.magnitudeBits m q
    | .infinite => (twoPow 11 - 1) * twoPow 52
    | .notANumber => (twoPow 12 - 1) * twoPow 51
  Float.ofBits (.ofNat ((if b.negative then twoPow 63 else 0) + magnitude))

/-- The remainder of `m · 2^q` divided by `n · 2^r`, as a multiple of the smaller power of two. -/
def Binary.remainderParts (m : Nat) (q : Int) (n : Nat) (r : Int) : Nat × Int :=
  let low := min q r
  (m * twoPow (q - low).toNat % (n * twoPow (r - low).toNat), low)

theorem Binary.remainderParts_lt (m : Nat) (q : Int) (n : Nat) (r : Int) (hn : 0 < n) :
    (remainderParts m q n r).1 < n * twoPow (r - (remainderParts m q n r).2).toNat := by
  exact Nat.mod_lt _ (Nat.mul_pos hn (twoPow_pos _))

/-- Remainder of the truncating division of `x` by `y`. -/
def remainder (x y : Float) : Float :=
  let a := Binary.ofFloat x
  match a.magnitude, (Binary.ofFloat y).magnitude with
  | .finite m q, .finite n r =>
    if n = 0 then Binary.toFloat ⟨false, .notANumber⟩
    else
      let (k, low) := Binary.remainderParts m q n r
      Binary.toFloat ⟨a.negative, .finite k low⟩
  | .finite _ _, .infinite => x
  | _, _ => Binary.toFloat ⟨false, .notANumber⟩

end ScopeScript
