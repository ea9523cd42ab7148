import ScopeScript.Number.Fixed

/-!
# Shortest decimal text of floating-point numbers

Among the decimals that round to a given floating-point number, `shortest`
takes one with the fewest significant digits, and of those the nearest to the
number. All comparisons are between natural numbers: a decimal `c · 10^e` and a
binary multiple `x · 2^p` are brought to a common denominator by `decimalSide`
and `binarySide`.

`outlineText` is the text of such a number in a program outline: positional
between `10^(-4)` and `10^16`, with at least one decimal place, and in
scientific form elsewhere.
-/

namespace ScopeScript

/-- The number `digits · 10^exponent`. -/
structure Decimal where
  digits : Nat
  exponent : Int
deriving DecidableEq

/-! ### Comparing decimals with binary multiples -/

/-- The decimal `c · 10^e` on the common scale of `10^e` and `2^p`. -/
def decimalSide (e p : Int) (c : Nat) : Nat :=
  c * tenPow e.toNat * twoPow (-p).toNat

/-- The binary multiple `x · 2^p` on the common scale of `10^e` and `2^p`. -/
def binarySide (e p : Int) (x : Nat) : Nat :=
  x * twoPow p.toNat * tenPow (-e).toNat

/-! ### The numbers that round to `m · 2^q`

In quarters of `2^q` the number itself is `4 * m`, its upper neighbour's midpoint
`4 * m + 2`, and the lower midpoint `4 * m - 2`, or `4 * m - 1` where the
spacing changes. Midpoints belong to an even `m`. -/

/-- Lower end of the interval of numbers that round to `m · 2^q`, in quarters. -/
def lowerQuarters (m : Nat) (q : Int) : Nat :=
  if m = twoPow 52 ∧ Binary.minExponent < q then 4 * m - 1 else 4 * m - 2

/-- Whether `c · 10^e` rounds to `m · 2^q`. -/
def readsBack (m : Nat) (q e : Int) (c : Nat) : Bool :=
  let p := q - 2
  let x := decimalSide e p c
  let low := binarySide e p (lowerQuarters m q)
  let high := binarySide e p (4 * m + 2)
  if m % 2 = 0 then low ≤ x && x ≤ high else low < x && x < high

/-- The largest power of ten, from `k` downwards, that is at most `m · 2^q`. -/
def leadingExponent (m : Nat) (q : Int) : Nat → Int → Int
  | 0, k => k
  | fuel + 1, k =>
    if decimalSide k q 1 ≤ binarySide k q m then k else leadingExponent m q fuel (k - 1)

/-- The decimal on the grid of `10^e` that rounds to `m · 2^q` and is nearest to it, if any. -/
def nearestOnGrid? (m : Nat) (q e : Int) : Option Nat :=
  let unit := decimalSide e q 1
  let value := binarySide e q m
  let low := value / unit
  match readsBack m q e low, readsBack m q e (low + 1) with
  | true, true => some (if 2 * (value % unit) < unit then low else low + 1)
  | true, false => some low
  | false, true => some (low + 1)
  | false, false => none

/-- Tries grids with more and more digits below the leading one. -/
def shortestFrom (m : Nat) (q : Int) : Nat → Int → Decimal
  | 0, e => ⟨(nearestOnGrid? m q e).getD 0, e⟩
  | fuel + 1, e =>
    match nearestOnGrid? m q e with
    | some c => ⟨c, e⟩
    | none => shortestFrom m q fuel (e - 1)

/-- Shortest decimal that rounds to `m · 2^q`. -/
def shortest (m : Nat) (q : Int) : Decimal :=
  if m = 0 then ⟨0, 0⟩ else shortestFrom m q 16 (leadingExponent m q 640 309)

/-! ### Text -/

/-- Digits without the zeros at their end, and how many those were. -/
def stripZeros (digits : List Char) : List Char × Nat :=
  (dropZeros digits.reverse, (digits.reverse.takeWhile (· == '0')).length)
where
  /-- Drops the zeros at the start and restores the order. -/
  dropZeros (reversed : List Char) : List Char :=
    (reversed.dropWhile (· == '0')).reverse

/-- An integer in decimal notation, with a minus sign if negative. -/
def signedDigits (n : Int) : List Char :=
  if n < 0 then '-' :: Nat.toDigits 10 n.natAbs else Nat.toDigits 10 n.natAbs

/-- Digits with the point after the first `point` of them; zeros fill the gaps on either side. -/
def pointed (digits : List Char) (point : Int) : List Char :=
  if point ≤ 0 then
    '0' :: '.' :: (List.replicate (-point).toNat '0' ++ digits)
  else
    let whole := digits.take point.toNat
    let places := digits.drop point.toNat
    let zeros := List.replicate (point.toNat - digits.length) '0'
    whole ++ zeros ++ '.' :: (if places.isEmpty then ['0'] else places)

/-- Positional text between `10^(-4)` and `10^16`, scientific text elsewhere. -/
def decimalText (d : Decimal) : List Char :=
  if d.digits = 0 then ['0', '.', '0']
  else
    let (digits, zeros) := stripZeros (Nat.toDigits 10 d.digits)
    let point : Int := d.exponent + zeros + digits.length
    if -4 < point && point ≤ 16 then pointed digits point
    else
      let places := digits.drop 1
      digits.take 1 ++ (if places.isEmpty then [] else '.' :: places) ++ 'e' ::
        signedDigits (point - 1)

/-- Text of a floating-point number with the fewest digits that read back. -/
def outlineText (x : Float) : List Char :=
  let b := Binary.ofFloat x
  let sign := if b.negative then ['-'] else []
  match b.magnitude with
  | .notANumber => ['N', 'a', 'N']
  | .infinite => sign ++ ['i', 'n', 'f']
  | .finite m q => sign ++ decimalText (shortest m q)

end ScopeScript
