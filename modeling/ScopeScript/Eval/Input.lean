import ScopeScript.Number.Reading
import ScopeScript.Text.Blank
import ScopeScript.Value.Basic

/-!
# Values of input lines

A line of input becomes a value by its look. If its first character, blanks
aside, is a digit or a sign, it is read as an integer, else as a floating-point
number, else as the integer at its start; such a reading never fails. Any other
line is a string, blanks included (`ofInput_of_not_numeric`).
-/

namespace ScopeScript

/-- Whether a text begins like a number. -/
def beginsLikeNumber : List Char → Bool
  | c :: _ => c.isDigit || c == '+' || c == '-'
  | [] => false

/-- The value of a line of input. -/
def Value.ofInput (line : String) : Value :=
  let text := trim line.toList
  if beginsLikeNumber text then
    match readInt? text with
    | some n => .int n
    | none =>
      match readFloat? text with
      | some x => .float x
      | none => .int (leadingInt text)
  else .str line

theorem Value.ofInput_of_not_numeric (line : String)
    (h : beginsLikeNumber (trim line.toList) = false) : Value.ofInput line = .str line := by
  simp [Value.ofInput, h]

theorem Value.ofInput_ne_function (line : String) (id : FunctionId) :
    Value.ofInput line ≠ .function id := by
  unfold Value.ofInput
  dsimp only
  split
  · split
    · exact Value.noConfusion
    · split <;> exact Value.noConfusion
  · exact Value.noConfusion

end ScopeScript
