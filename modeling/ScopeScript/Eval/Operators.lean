import ScopeScript.Eval.Fault
import ScopeScript.Number.Binary
import ScopeScript.Number.Word
import ScopeScript.Value.Basic

/-!
# Operators

Every operator takes numbers and truth values and refuses other operands, the
left one first. Arithmetic is done on integers if both operands are integers or
truth values, and else on floating-point numbers; if an operand is a truth value,
the result is reduced to its truth. Dividing by a zero of any kind is an error.

Integer arithmetic is that of 64-bit words. An integer power whose exponent is
negative or has more than thirty-two bits is taken among the floating-point
numbers and cut back to the nearest word toward zero.
-/

namespace ScopeScript

/-- Results of operators. -/
abbrev Checked := Except SemanticError

/-- An operand that is no number. -/
def badOperand {α : Type} (arg : Nat) : Checked α :=
  .error ⟨.mustBeIntFloatOrBool, some arg⟩

/-- A division by zero. -/
def divisionByZero {α : Type} : Checked α :=
  .error ⟨.attemptedDivByZero, none⟩

/-- Refuses an operand of a class that no operator accepts. -/
def checkOperand (v : Value) (arg : Nat) : Checked Unit :=
  if v.typeClass.isInvalidOperand then badOperand arg else .ok ()

/-- The truth of an operand. -/
def truthOperand (v : Value) (arg : Nat) : Checked Bool := do
  checkOperand v arg
  match v.truth? with
  | some b => .ok b
  | none => badOperand arg

/-- An operand as an integer. -/
def intOperand (v : Value) (arg : Nat) : Checked Int64 :=
  match v.toInt? with
  | some n => .ok n
  | none => badOperand arg

/-- An operand as a floating-point number. -/
def floatOperand (v : Value) (arg : Nat) : Checked Float :=
  match v.toFloat? with
  | some x => .ok x
  | none => badOperand arg

/-! ### Arithmetic -/

namespace ArithOp

/-- Whether an operator divides. -/
def divides : ArithOp → Bool
  | div | mod => true
  | _ => false

/-- An integer power by way of the floating-point numbers. -/
def floatPower (a b : Int64) : Int64 :=
  (Float.pow (Value.widen a) (Value.widen b)).toInt64

/-- Arithmetic on integers. -/
def onInts (op : ArithOp) (a b : Int64) : Checked Int64 :=
  match op with
  | add => .ok (a + b)
  | sub => .ok (a - b)
  | mul => .ok (a * b)
  | div => if b = 0 then divisionByZero else .ok (a / b)
  | mod => if b = 0 then divisionByZero else .ok (a % b)
  | pow =>
    if 0 ≤ b.toInt ∧ b.toInt < twoPow 32 then .ok (power a b.toInt.toNat) else .ok (floatPower a b)

/-- Arithmetic on floating-point numbers, a zero divisor included. -/
def onFloats (op : ArithOp) (x y : Float) : Float :=
  match op with
  | add => x + y
  | sub => x - y
  | mul => x * y
  | div => x / y
  | mod => remainder x y
  | pow => Float.pow x y

/-- Arithmetic on numbers and truth values, before a result is reduced to its truth. -/
def numeric (op : ArithOp) (left right : Value) : Checked Value := do
  if left.typeClass.float || right.typeClass.float then
    let x ← floatOperand left 1
    let y ← floatOperand right 2
    if op.divides && right.isZero then divisionByZero else return .float (op.onFloats x y)
  else
    let a ← intOperand left 1
    let b ← intOperand right 2
    return .int (← op.onInts a b)

/-- Arithmetic on values. -/
def apply (op : ArithOp) (left right : Value) : Checked Value := do
  checkOperand left 1
  checkOperand right 2
  let result ← op.numeric left right
  if TypeClass.arithmeticResult left.typeClass right.typeClass = .ofBool then
    return .bool (← truthOperand result 1)
  else return result

end ArithOp

/-! ### Logic and comparison -/

/-- A connective; both operands have to be acceptable. -/
def LogicalOp.apply (op : LogicalOp) (left right : Value) : Checked Value := do
  let a ← truthOperand left 1
  let b ← truthOperand right 2
  return .bool (match op with
    | and => a && b
    | or => a || b)

namespace Relation

/-- Comparison of integers. -/
def onInts (op : Relation) (a b : Int64) : Bool :=
  match op with
  | lt => a < b
  | le => a ≤ b
  | gt => b < a
  | ge => b ≤ a
  | eq => a == b
  | ne => a != b

/-- Comparison of floating-point numbers. -/
def onFloats (op : Relation) (x y : Float) : Bool :=
  match op with
  | lt => x < y
  | le => x ≤ y
  | gt => y < x
  | ge => y ≤ x
  | eq => x == y
  | ne => x != y

/-- Comparison of values. -/
def apply (op : Relation) (left right : Value) : Checked Value := do
  checkOperand left 1
  checkOperand right 2
  if left.typeClass.float || right.typeClass.float then
    let x ← floatOperand left 1
    let y ← floatOperand right 2
    return .bool (op.onFloats x y)
  else
    let a ← intOperand left 1
    let b ← intOperand right 2
    return .bool (op.onInts a b)

end Relation

/-- Negation. -/
def negateValue (v : Value) : Checked Value := do
  return .bool (!(← truthOperand v 1))

end ScopeScript
