import ScopeScript.Number.Shortest

/-!
# Reading numbers

`readInt?` reads an optional sign and decimal digits, and refuses what does not
fit a 64-bit word (`readInt?_eq_some_iff`). `readFloat?` reads an optional sign
followed by digits with an optional point and an optional exponent, or by one of
the words for infinity and for "not a number" in any case of letters; the
result is the nearest floating-point number. `leadingInt` reads the longest
integer at the start of a text.

The value of a decimal with a very large or very small exponent is settled by
its order of magnitude alone, so no power of ten beyond the range of the format
is ever formed.
-/

namespace ScopeScript

/-! ### Signs and digits -/

/-- Splits off a sign; the flag is set for a minus sign. -/
def splitSign : List Char → Bool × List Char
  | '+' :: cs => (false, cs)
  | '-' :: cs => (true, cs)
  | cs => (false, cs)

/-- Value of a run of decimal digits. -/
def digitsValue (cs : List Char) : Nat :=
  Nat.ofDigitChars 10 cs 0

theorem digitsValue_toDigits (n : Nat) : digitsValue (Nat.toDigits 10 n) = n := by
  simp [digitsValue]

/-- Whether the text is a non-empty run of decimal digits. -/
def isNumeral (cs : List Char) : Bool :=
  !cs.isEmpty && cs.all Char.isDigit

theorem isNumeral_toDigits (n : Nat) : isNumeral (Nat.toDigits 10 n) = true := by
  simp only [isNumeral, Bool.and_eq_true, Bool.not_eq_true', List.isEmpty_eq_false_iff,
    List.all_eq_true]
  exact ⟨Nat.toDigits_ne_nil, fun c hc => Nat.isDigit_of_mem_toDigits (by omega) (by omega) hc⟩

/-- The integer that an optional sign and digits denote. -/
def signedValue (cs : List Char) : Int :=
  let (negative, digits) := splitSign cs
  if negative then -digitsValue digits else digitsValue digits

/-! ### Integers -/

/-- Whether the integer is the value of a 64-bit word. -/
def fitsWord (n : Int) : Bool :=
  -halfWordSize ≤ n && n < halfWordSize

/-- Reads an integer, if the text is one and it fits. -/
def readInt? (cs : List Char) : Option Int64 :=
  if isNumeral (splitSign cs).2 && fitsWord (signedValue cs) then
    some (.ofInt (signedValue cs))
  else none

theorem readInt?_eq_some_iff (cs : List Char) (n : Int64) :
    readInt? cs = some n ↔
      isNumeral (splitSign cs).2 = true ∧ fitsWord (signedValue cs) = true ∧
        n = .ofInt (signedValue cs) := by
  simp only [readInt?, Bool.and_eq_true]
  split
  · rename_i h
    simp [h, eq_comm]
  · rename_i h
    constructor
    · intro hn; cases hn
    · rintro ⟨h₁, h₂, -⟩; exact absurd ⟨h₁, h₂⟩ h

/-- The integer at the start of a text, and zero if there is none or it does not fit. -/
def leadingInt (cs : List Char) : Int64 :=
  let body := (splitSign cs).2
  let sign := cs.take (cs.length - body.length)
  (readInt? (sign ++ body.takeWhile Char.isDigit)).getD 0

/-! ### Floating-point numbers -/

/-- Nearest floating-point number to a decimal. -/
def Decimal.toFloat (d : Decimal) : Float :=
  let order : Int := (Nat.toDigits 10 d.digits).length + d.exponent
  if d.digits = 0 ∨ order < -340 then Float.ofScientific 0 false 0
  else if 310 < order then Binary.toFloat ⟨false, .infinite⟩
  else Float.ofScientific d.digits (d.exponent < 0) d.exponent.natAbs

/-- An exponent: a mark, an optional sign and digits, up to the end of the text. -/
def readExponent? : List Char → Option Int
  | [] => some 0
  | c :: cs =>
    if (c == 'e' || c == 'E') && isNumeral (splitSign cs).2 then some (signedValue cs) else none

/-- An unsigned decimal with an optional point and an optional exponent. -/
def readDecimal? (cs : List Char) : Option Decimal :=
  let whole := cs.takeWhile Char.isDigit
  let rest := cs.dropWhile Char.isDigit
  let (places, tail) :=
    match rest with
    | '.' :: more => (more.takeWhile Char.isDigit, more.dropWhile Char.isDigit)
    | _ => ([], rest)
  if whole.isEmpty && places.isEmpty then none
  else (readExponent? tail).map fun e => ⟨digitsValue (whole ++ places), e - places.length⟩

/-- An unsigned floating-point number: a word for infinity, for "not a number", or a decimal. -/
def readMagnitude? (cs : List Char) : Option Float :=
  let word := cs.map Char.toLower
  if word = ['i', 'n', 'f'] ∨ word = ['i', 'n', 'f', 'i', 'n', 'i', 't', 'y'] then
    some (Binary.toFloat ⟨false, .infinite⟩)
  else if word = ['n', 'a', 'n'] then some (Binary.toFloat ⟨false, .notANumber⟩)
  else (readDecimal? cs).map Decimal.toFloat

/-- Reads a floating-point number, if the text is one. -/
def readFloat? (cs : List Char) : Option Float :=
  let (negative, body) := splitSign cs
  (readMagnitude? body).map fun x => if negative then -x else x

end ScopeScript
