import ScopeScript.Ast.Basic

/-!
# Operator precedence

A run of operands joined by operators becomes a tree by precedence climbing.
`Operator.power` is how tightly an operator binds; operators of equal power
associate to the left, and a negation binds tighter than all of them, so it
applies to the operand right behind it.

`climb` reads the operators that bind at least as tightly as a given power and
hands back the others. `Operator.join` gives each node it makes the range from its
left operand to its right one.
-/

namespace ScopeScript

/-- The operators that stand between two operands, comparisons aside. -/
inductive Operator where
  | arith (op : ArithOp)
  | logical (op : LogicalOp)
deriving DecidableEq, Inhabited

/-- How tightly an operator binds. -/
def Operator.power : Operator → Nat
  | arith .add | arith .sub | logical .or => 1
  | arith .mul | arith .div | arith .mod | arith .pow | logical .and => 2

/-- Joins two operands. -/
def Operator.join (op : Operator) (left right : Expr) : Expr :=
  let span := left.span.join right.span
  match op with
  | arith op => .arith span op left right
  | logical op => .logical span op left right

/-- Negates an operand; `bang` is the range of the sign. -/
def negate (bang : Span) (operand : Expr) : Expr :=
  .not (bang.join operand.span) operand

/-- Extends `left` by the operators that bind at least as tightly as `least`, and gives back the
operators not read. The fuel bounds their number. -/
def climb : Nat → Nat → Expr → List (Operator × Expr) → Expr × List (Operator × Expr)
  | 0, _, left, ops => (left, ops)
  | _ + 1, _, left, [] => (left, [])
  | fuel + 1, least, left, (op, operand) :: ops =>
    if op.power < least then (left, (op, operand) :: ops)
    else
      let (right, rest) := climb fuel (op.power + 1) operand ops
      climb fuel least (op.join left right) rest

/-- The tree of a run of operands. -/
def joinAll (first : Expr) (ops : List (Operator × Expr)) : Expr :=
  (climb (ops.length + 1) 0 first ops).1

/-! ### From a flat sequence of signs, operators and operands -/

/-- What a run of operands consists of. -/
inductive Item where
  | bang (span : Span)
  | operator (op : Operator)
  | operand (expr : Expr)
deriving Inhabited

/-- Splits off one operand with the negations before it. -/
def Item.takeOperand : List Item → Option (Expr × List Item)
  | bang s :: items => (takeOperand items).map fun (e, rest) => (negate s e, rest)
  | operand e :: items => some (e, items)
  | _ => none

/-- Splits off operators, each with its operand. The fuel bounds their number. -/
def Item.takeOperators : Nat → List Item → Option (List (Operator × Expr))
  | _, [] => some []
  | fuel + 1, operator op :: items =>
    match takeOperand items with
    | some (e, rest) => (takeOperators fuel rest).map ((op, e) :: ·)
    | none => none
  | _, _ => none

/-- The tree of a flat sequence, unless it is malformed. -/
def Item.tree? (items : List Item) : Option Expr :=
  match takeOperand items with
  | some (first, rest) => (takeOperators items.length rest).map (joinAll first)
  | none => none

end ScopeScript
