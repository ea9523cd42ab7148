import ScopeScript.Ast.Precedence
import ScopeScript.Grammar.Matching
import ScopeScript.Number.Reading

/-!
# Reading programs

`Program.parse` reads a program: it matches the grammar against the whole text
and builds an expression out of each match tree with `Expr.ofTree`. Reading fails
where the grammar does not match (`SyntaxError.Cause.unexpected`, with the rules
wanted at the furthest position reached) or, once it does, at the first integer
constant that does not fit a 64-bit word (`SyntaxError.Cause.number`).

`Expr.ofTree` is defined on every match tree. Trees of rules that are no
expressions by themselves, such as a parameter list, are answered with
`SyntaxError.Cause.unhandled`. Parentheses leave no node.
-/

namespace ScopeScript

/-! ### Errors -/

/-- Why a text is not a program. -/
inductive SyntaxError.Cause where
  /-- The grammar does not match: rules wanted, and rules refused, where it fails. -/
  | unexpected (wanted refused : List Rule)
  /-- A number that does not fit its type. -/
  | number (text : List Char)
  /-- A match that is no expression. -/
  | unhandled (rule : Rule)
deriving DecidableEq

/-- A cause and the range of text it concerns. -/
structure SyntaxError where
  cause : SyntaxError.Cause
  span : Span
deriving DecidableEq

namespace SyntaxError

/-- One-based line on which the error is reported. -/
def line (e : SyntaxError) (source : List Char) : Nat :=
  e.span.line source

/-- What a reader calls the things a rule stands for. -/
def concept : Rule → String
  | .int | .float | .boolean | .string => "literal"
  | .ident => "identifier"
  | .endOfInput => "end of input"
  | .add | .sub | .or | .mul | .div | .and | .modulo | .pow => "operator"
  | .lt | .le | .gt | .ge | .eq | .ne => "comparison operator"
  | .index => "index"
  | _ => "expression"

/-- The list without repetitions; first occurrences stay. -/
def distinct (words : List String) : List String :=
  words.foldl (fun seen w => if seen.contains w then seen else seen ++ [w]) []

/-- Enumerates alternatives: `a`, `a or b`, `a, b or c`. -/
def orList (words : List String) : String :=
  match words.reverse with
  | [] => "something else"
  | [only] => only
  | last :: rest => ", ".intercalate rest.reverse ++ " or " ++ last

/-- What was wanted, in words. -/
def wantedText (rules : List Rule) : String :=
  orList (distinct (rules.map concept))

/-- What was found in its place, in words. -/
def foundText : List Rule → String
  | [] => "unexpected token"
  | .ident :: _ => "identifier"
  | .int :: _ => "integer"
  | .float :: _ => "floating-point number"
  | .boolean :: _ => "boolean"
  | .string :: _ => "string"
  | .endOfInput :: _ => "end of input"
  | r :: _ => r.name

/-- The one-line message of every syntax error. -/
def message : String := "syntax error"

/-- What exactly went wrong. -/
def detail (e : SyntaxError) : String :=
  match e.cause with
  | .unexpected wanted refused => "Expected " ++ wantedText wanted ++ ", found " ++
      foundText refused
  | .number text => "Invalid number literal '" ++ String.ofList text ++ "'"
  | .unhandled rule => "Unhandled rule: " ++ rule.name

end SyntaxError

/-! ### Leaves -/

/-- A match that is no expression. -/
def unhandled {α : Type} (t : Tree) : Except SyntaxError α :=
  .error ⟨.unhandled t.rule, t.span⟩

/-- A string constant without its quotes. -/
def unquote (cs : List Char) : List Char :=
  (cs.drop 1).dropLast

/-- The constant that a tree denotes. -/
def Literal.ofTree (t : Tree) : Except SyntaxError Literal :=
  match t.rule with
  | .int =>
    match readInt? t.lexeme with
    | some n => .ok (.int n)
    | none => .error ⟨.number t.lexeme, t.span⟩
  | .float =>
    match readFloat? t.lexeme with
    | some x => .ok (.float x)
    | none => .error ⟨.number t.lexeme, t.span⟩
  | .string => .ok (.str (String.ofList (unquote t.lexeme)))
  | .boolean =>
    if t.lexeme = ['T', 'R', 'U', 'E'] then .ok (.bool true)
    else if t.lexeme = ['F', 'A', 'L', 'S', 'E'] then .ok (.bool false)
    else unhandled t
  | _ => unhandled t

/-- The name that an identifier denotes. -/
def Tree.name (t : Tree) : String :=
  String.ofList t.lexeme

/-- The comparison that a tree denotes. -/
def Relation.ofTree (t : Tree) : Except SyntaxError Relation :=
  match t.rule with
  | .lt => .ok .lt
  | .le => .ok .le
  | .gt => .ok .gt
  | .ge => .ok .ge
  | .eq => .ok .eq
  | .ne => .ok .ne
  | _ => unhandled t

/-- The operator of a rule, if it is one. -/
def Operator.ofRule? : Rule → Option Operator
  | .add => some (.arith .add)
  | .sub => some (.arith .sub)
  | .mul => some (.arith .mul)
  | .div => some (.arith .div)
  | .modulo => some (.arith .mod)
  | .pow => some (.arith .pow)
  | .and => some (.logical .and)
  | .or => some (.logical .or)
  | _ => none

/-! ### Expressions -/

mutual

/-- The expression that a tree denotes. Parts are read from left to right, so the first error in
the text is the one reported. -/
def Expr.ofTree : Tree → Except SyntaxError Expr
  | .node rule span lexeme children =>
    match rule, children with
    | .arith, [a] => Expr.ofTree a
    | .arith, [a, op, b] => do
      let left ← Expr.ofTree a
      let relation ← Relation.ofTree op
      let right ← Expr.ofTree b
      return .compare span relation left right
    | .simple, parts => do
      match Item.tree? (← Item.ofTrees parts) with
      | some e => return e
      | none => .error ⟨.unhandled .simple, span⟩
    | .grouped, [a] => Expr.ofTree a
    | .int, _ => return .literal span (← Literal.ofTree (.node .int span lexeme []))
    | .float, _ => return .literal span (← Literal.ofTree (.node .float span lexeme []))
    | .string, _ => return .literal span (← Literal.ofTree (.node .string span lexeme []))
    | .boolean, _ => return .literal span (← Literal.ofTree (.node .boolean span lexeme []))
    | .ident, _ => return .var span (String.ofList lexeme)
    | .singleElement, [name, index] => return .element span name.name (← Expr.ofTree index)
    | .call, [name, .node .args _ _ args] => return .call span name.name (← Expr.ofTrees args)
    | .ifExpr, [cond, yes] => do
      let cond ← Expr.ofTree cond
      let yes ← Expr.ofTree yes
      return .ifThen span cond yes
    | .ifExpr, [cond, yes, no] => do
      let cond ← Expr.ofTree cond
      let yes ← Expr.ofTree yes
      let no ← Expr.ofTree no
      return .ifElse span cond yes no
    | .whileExpr, [cond, body] => do
      let cond ← Expr.ofTree cond
      let body ← Expr.ofTree body
      return .whileDo span cond body
    | .forExpr, [name, items, body] => do
      let items ← Expr.ofTree items
      let body ← Expr.ofTree body
      return .forIn span name.name items body
    | .breakExpr, _ => return .brk span
    | .nextExpr, _ => return .nxt span
    | .compound, body => return .block span (← Expr.ofTrees body)
    | .assignment, [name, value] => return .assign span name.name (← Expr.ofTree value)
    | .assignment, [name, .node .index _ _ [index], value] => do
      let index ← Expr.ofTree index
      let value ← Expr.ofTree value
      return .assignAt span name.name index value
    | .functionDef, [.node .params _ _ params, body] =>
      return .function span (params.map Tree.name) (← Expr.ofTree body)
    | .listExpr, items => return .list span (← items.mapM Literal.ofTree)
    | .printExpr, [a] => return .print span (← Expr.ofTree a)
    | .catExpr, [a] => return .cat span (← Expr.ofTree a)
    | .readExpr, _ => return .read span
    | .quitExpr, _ => return .quit span
    | rule, _ => .error ⟨.unhandled rule, span⟩

/-- The expressions that a list of trees denotes. -/
def Expr.ofTrees : List Tree → Except SyntaxError (List Expr)
  | [] => return []
  | t :: ts => do
    let e ← Expr.ofTree t
    let es ← Expr.ofTrees ts
    return e :: es

/-- The signs, operators and operands of a run of operands. -/
def Item.ofTrees : List Tree → Except SyntaxError (List Item)
  | [] => return []
  | .node rule span lexeme children :: ts => do
    let item : Item ←
      match rule, Operator.ofRule? rule with
      | .not, _ => pure (.bang span)
      | _, some op => pure (.operator op)
      | _, none => do
        let e ← Expr.ofTree (.node rule span lexeme children)
        pure (.operand e)
    let items ← Item.ofTrees ts
    return item :: items

end

/-! ### Programs -/

/-- A failed match as an error: it concerns the empty range at the furthest position. -/
def Mismatch.toError (m : Mismatch) : SyntaxError :=
  ⟨.unexpected m.wanted m.refused, ⟨m.pos, m.pos⟩⟩

/-- Matches one rule at the start of a text and gives the trees found. -/
def Rule.trees (r : Rule) (source : List Char) : Except SyntaxError (List Tree) :=
  match r.matchStart source with
  | .ok (_, trees) => .ok trees
  | .error m => .error m.toError

/-- The trees of the expressions of a program. -/
def Program.trees (source : List Char) : Except SyntaxError (List Tree) := do
  let trees ← Rule.program.trees source
  return trees.flatMap fun t => t.children.filter (·.rule != .endOfInput)

/-- Reads a program. -/
def Program.parse (source : List Char) : Except SyntaxError Program := do
  let trees ← Program.trees source
  Expr.ofTrees trees

end ScopeScript
