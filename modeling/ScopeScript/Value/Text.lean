import ScopeScript.Number.Fixed
import ScopeScript.Number.Shortest
import ScopeScript.Value.Basic

/-!
# Text and equality of values

`Heap.text` is the text that printing a value writes: integers in decimal
notation, floating-point numbers with two decimal places, the words `TRUE` and
`FALSE`, strings as they are, lists as their elements between parentheses, and
nothing for null and for functions.

`Heap.equal` compares two values: functions by identity, floating-point numbers
as numbers, lists by identity or else element by element.

Both go through lists inside of lists. The fuel that bounds this is the number of
lists of the heap, which no chain of nested lists exceeds unless a list contains
itself.
-/

namespace ScopeScript

/-- Decimal places of a printed floating-point number. -/
def printedPlaces : Nat := 2

namespace Heap

/-- Text of a value that is not a list. -/
def plainText : Value → List Char
  | .null => []
  | .int n => signedDigits n.toInt
  | .float x => fixedText printedPlaces x
  | .bool true => ['T', 'R', 'U', 'E']
  | .bool false => ['F', 'A', 'L', 'S', 'E']
  | .str s => s.toList
  | .list _ => []
  | .function _ => []

/-- Text of a list of given texts. -/
def listText (items : List (List Char)) : List Char :=
  '(' :: ' ' :: (items.flatMap (· ++ [' ']) ++ [')'])

/-- Text of a value, with at most `fuel` lists inside each other. -/
def textWithin (h : Heap) : Nat → Value → List Char
  | 0, v => plainText v
  | fuel + 1, .list id => listText ((h.items id).map (h.textWithin fuel))
  | _ + 1, v => plainText v

/-- Text of a value. -/
def text (h : Heap) (v : Value) : List Char :=
  h.textWithin h.lists.size v

/-- Equality of values that are not lists. -/
def plainEqual : Value → Value → Bool
  | .null, .null => true
  | .int a, .int b => a == b
  | .float x, .float y => x == y
  | .bool a, .bool b => a == b
  | .str s, .str t => s == t
  | .function f, .function g => f == g
  | _, _ => false

/-- Equality of two lists of values under a given equality of their elements. -/
def allEqual (eq : Value → Value → Bool) : List Value → List Value → Bool
  | [], [] => true
  | a :: as, b :: bs => eq a b && allEqual eq as bs
  | _, _ => false

/-- Equality of values, with at most `fuel` lists inside each other. -/
def equalWithin (h : Heap) : Nat → Value → Value → Bool
  | 0, .list a, .list b => a == b
  | fuel + 1, .list a, .list b =>
    a == b || allEqual (h.equalWithin fuel) (h.items a) (h.items b)
  | _, v, w => plainEqual v w

/-- Equality of values. -/
def equal (h : Heap) (v w : Value) : Bool :=
  h.equalWithin h.lists.size v w

end Heap

end ScopeScript
