import ScopeScript.Eval.Operators

/-!
# What operators yield

An operator that succeeds yields a number or a truth value, never a text and never something that
lives in the heap, and an operator that fails blames one of its operands or a zero divisor.
`Checked.Yields` states both at once, and goes through a sequence of checks step by step
(`Checked.Yields.bind`):

* `ArithOp.apply_yields`, `LogicalOp.apply_yields`, `Relation.apply_yields`, `negateValue_yields`.
-/

namespace ScopeScript

/-- Whether a value is null, a number or a truth value. -/
def Value.isAtom : Value → Bool
  | .null | .int _ | .float _ | .bool _ => true
  | .str _ | .list _ | .function _ => false

/-- A success meets the condition, and a failure is a rule that programs can violate. -/
def Checked.Yields {α : Type} (P : α → Prop) : Checked α → Prop
  | .ok a => P a
  | .error e => e.kind ≠ .internal

namespace Checked.Yields

variable {α β : Type} {P : α → Prop} {Q : β → Prop}

theorem bind {x : Checked α} {f : α → Checked β} (hx : Yields P x)
    (hf : ∀ a, P a → Yields Q (f a)) :
    Yields Q (x >>= f) := by
  cases x with
  | ok a => exact hf a hx
  | error e => exact hx

theorem badOperand (arg : Nat) : Yields P (badOperand arg) := by
  intro h
  cases h

theorem divisionByZero : Yields P divisionByZero := by
  intro h
  cases h

end Checked.Yields

open Checked

/-! ### Operands -/

theorem checkOperand_yields (v : Value) (arg : Nat) :
    Yields (fun _ => True) (checkOperand v arg) := by
  unfold checkOperand
  split
  · exact .badOperand arg
  · trivial

theorem truthOperand_yields (v : Value) (arg : Nat) :
    Yields (fun _ => True) (truthOperand v arg) := by
  refine (checkOperand_yields v arg).bind fun _ _ => ?_
  split
  · trivial
  · exact .badOperand arg

theorem intOperand_yields (v : Value) (arg : Nat) : Yields (fun _ => True) (intOperand v arg) := by
  unfold intOperand
  split
  · trivial
  · exact .badOperand arg

theorem floatOperand_yields (v : Value) (arg : Nat) :
    Yields (fun _ => True) (floatOperand v arg) := by
  unfold floatOperand
  split
  · trivial
  · exact .badOperand arg

/-! ### Operators -/

namespace ArithOp

theorem onInts_yields (op : ArithOp) (a b : Int64) : Yields (fun _ => True) (op.onInts a b) := by
  cases op with
  | add | sub | mul => trivial
  | div | mod =>
    simp only [onInts]
    split
    · exact .divisionByZero
    · trivial
  | pow =>
    simp only [onInts]
    split <;> trivial

theorem numeric_yields (op : ArithOp) (left right : Value) :
    Yields (·.isAtom) (op.numeric left right) := by
  unfold numeric
  split
  · refine (floatOperand_yields left 1).bind fun x _ => ?_
    refine (floatOperand_yields right 2).bind fun y _ => ?_
    split
    · exact .divisionByZero
    · rfl
  · refine (intOperand_yields left 1).bind fun a _ => ?_
    refine (intOperand_yields right 2).bind fun b _ => ?_
    exact (op.onInts_yields a b).bind fun n _ => rfl

theorem apply_yields (op : ArithOp) (left right : Value) :
    Yields (·.isAtom) (op.apply left right) := by
  refine (checkOperand_yields left 1).bind fun _ _ => ?_
  refine (checkOperand_yields right 2).bind fun _ _ => ?_
  refine (op.numeric_yields left right).bind fun result hresult => ?_
  split
  · exact (truthOperand_yields result 1).bind fun b _ => rfl
  · exact hresult

end ArithOp

theorem LogicalOp.apply_yields (op : LogicalOp) (left right : Value) :
    Yields (·.isAtom) (op.apply left right) := by
  refine (truthOperand_yields left 1).bind fun a _ => ?_
  exact (truthOperand_yields right 2).bind fun b _ => rfl

theorem Relation.apply_yields (op : Relation) (left right : Value) :
    Yields (·.isAtom) (op.apply left right) := by
  refine (checkOperand_yields left 1).bind fun _ _ => ?_
  refine (checkOperand_yields right 2).bind fun _ _ => ?_
  split
  · refine (floatOperand_yields left 1).bind fun x _ => ?_
    exact (floatOperand_yields right 2).bind fun y _ => rfl
  · refine (intOperand_yields left 1).bind fun a _ => ?_
    exact (intOperand_yields right 2).bind fun b _ => rfl

theorem negateValue_yields (v : Value) : Yields (·.isAtom) (negateValue v) :=
  (truthOperand_yields v 1).bind fun _ _ => rfl

end ScopeScript
