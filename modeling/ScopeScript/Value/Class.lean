/-!
# Type classes

A `TypeClass` is a set of value types. The class of a value is a singleton, the
empty set stands for null, and larger sets describe what is acceptable in some
place. One more member marks a name that is declared but not yet bound.

A class has a number, one bit per type (`TypeClass.bits`, `TypeClass.ofBits`); the
two conversions are inverse to each other on the 128 classes (`ofBits_bits`).
`arithmeticResult` is the class of the result of an arithmetic operator.
-/

namespace ScopeScript

/-- A set of value types. -/
structure TypeClass where
  /-- Declared, but not yet bound. -/
  undefined : Bool := false
  int : Bool := false
  str : Bool := false
  bool : Bool := false
  float : Bool := false
  list : Bool := false
  function : Bool := false
deriving DecidableEq, Inhabited

namespace TypeClass

/-! ### Single types -/

/-- The empty class, that of null. -/
def nothing : TypeClass := {}

/-- The class of a name that is not yet bound. -/
def ofUndefined : TypeClass := { undefined := true }

/-- The class of integers. -/
def ofInt : TypeClass := { int := true }

/-- The class of strings. -/
def ofStr : TypeClass := { str := true }

/-- The class of truth values. -/
def ofBool : TypeClass := { bool := true }

/-- The class of floating-point numbers. -/
def ofFloat : TypeClass := { float := true }

/-- The class of lists. -/
def ofList : TypeClass := { list := true }

/-- The class of functions. -/
def ofFunction : TypeClass := { function := true }

/-- The class of everything a list may be made of. -/
def ofScalar : TypeClass := { int := true, str := true, float := true, bool := true }

/-! ### Membership -/

/-- Whether the class is empty. -/
def isNull (c : TypeClass) : Bool := c == nothing

/-- Whether an integer is acceptable; a truth value counts as one. -/
def acceptsInt (c : TypeClass) : Bool := c.bool || c.int

/-- Whether a number is acceptable. -/
def acceptsNumber (c : TypeClass) : Bool := c.acceptsInt || c.float

/-- Whether the class is one that no operator accepts. -/
def isInvalidOperand (c : TypeClass) : Bool :=
  c == ofFunction || c == nothing || c == ofList || c == ofStr

/-- Class of the result of an arithmetic operator: a truth value if an operand is one, else an
integer if both operands are, else a floating-point number. -/
def arithmeticResult (left right : TypeClass) : TypeClass :=
  if left.bool || right.bool then ofBool
  else if left.acceptsInt && right.acceptsInt then ofInt
  else ofFloat

/-! ### Numbers and text -/

/-- The members, from the lowest bit to the highest. -/
def members (c : TypeClass) : List (Bool × String) :=
  [(c.undefined, "undefined"), (c.int, "integer"), (c.str, "string"), (c.bool, "bool"),
    (c.float, "float"), (c.list, "list"), (c.function, "function")]

/-- The number of a class. -/
def bits (c : TypeClass) : Nat :=
  c.members.foldr (fun m n => (if m.1 then 1 else 0) + 2 * n) 0

/-- The class of a number. -/
def ofBits (n : Nat) : TypeClass where
  undefined := n.testBit 0
  int := n.testBit 1
  str := n.testBit 2
  bool := n.testBit 3
  float := n.testBit 4
  list := n.testBit 5
  function := n.testBit 6

theorem ofBits_bits (c : TypeClass) : ofBits c.bits = c := by
  obtain ⟨u, i, s, b, f, l, g⟩ := c
  cases u <;> cases i <;> cases s <;> cases b <;> cases f <;> cases l <;> cases g <;> rfl

/-- The types of a class in words. -/
def text (c : TypeClass) : String :=
  if c.isNull then "null"
  else " or ".intercalate ((c.members.filter (·.1)).map (·.2))

end TypeClass

/-! ### What is known about a name -/

/-- Type information kept with a name. The number of parameters and the class of the last result
are known of functions only. -/
structure TypeInfo where
  kind : TypeClass
  numParams : Option Nat := none
  result : Option TypeClass := none
  /-- The name began as a parameter and has to stay an integer. -/
  isParam : Bool := false
deriving DecidableEq, Inhabited

namespace TypeInfo

/-- Information on a plain name of the given class. -/
def plain (c : TypeClass) : TypeInfo := { kind := c }

/-- Information on a name bound to a function. -/
def function (numParams : Nat) (result : Option TypeClass) : TypeInfo :=
  { kind := .ofFunction, numParams := some numParams, result }

/-- Information on a parameter. -/
def param : TypeInfo := { kind := .ofInt, isParam := true }

/-- Information on a name whose value is still to come. -/
def placeholder : TypeInfo := plain .ofUndefined

end TypeInfo

end ScopeScript
