import ScopeScript.Eval.Construct

/-!
# Evaluation

`Eval.node` is the meaning of one expression, given that of the expressions inside
it, and `Eval.within` is evaluation with a given room: the number of expressions
that may be nested into each other. Where the room is used up, evaluation fails
with a stack overflow. `Eval.expr` evaluates with the room that the limits of the
run leave above the present depth.

Evaluation is a function by recursion on the room alone, so every program with a
depth limit and an iteration limit has a result; a loop without a limit ends with
`Stop.unfinished` only after more rounds than can be waited for.
-/

namespace ScopeScript

namespace Machine

/-- Counts an expression as under evaluation. -/
def begin (m : Machine) (e : Expr) : Machine :=
  { m with depth := m.depth + 1 }.note (.evaluating e.kindName e.span)

/-- Counts an expression as done, early if there is a stop. -/
def finish (m : Machine) (e : Expr) (stop : Option Stop) : Machine :=
  { m with depth := m.depth - 1 }.note (.left e.span stop)

end Machine

namespace Eval

/-- The meaning of one expression. -/
def node (lim : Limits) (recur : Recur) (e : Expr) : Eval Value :=
  match e with
  | .literal _ v => return .ofLiteral v
  | .var _ name => evalVar e name
  | .element _ name index => evalElement recur e name index
  | .arith _ op left right => do
    let a ← recur left
    let b ← recur right
    check e (op.apply a b)
  | .logical _ op left right => do
    let a ← recur left
    let b ← recur right
    check e (op.apply a b)
  | .compare _ op left right => do
    let a ← recur left
    let b ← recur right
    check e (op.apply a b)
  | .not _ operand => do
    let a ← recur operand
    check e (negateValue a)
  | .ifThen _ cond yes => do
    if ← evalCondition recur e cond then evalBranch recur e 2 yes else return .null
  | .ifElse _ cond yes no => do
    if ← evalCondition recur e cond then evalBranch recur e 2 yes else evalBranch recur e 3 no
  | .whileDo _ cond body => whileRounds lim recur e cond body lim.rounds .null
  | .forIn _ name items body => evalFor lim recur e name items body
  | .brk _ => fun m => .error .brk m
  | .nxt _ => fun m => .error .nxt m
  | .block _ body => evalSequence recur body .null
  | .assign _ name value => evalAssign recur e name value
  | .assignAt _ name index value => evalAssignAt recur e name index value
  | .function _ params body => evalFunction e params body
  | .call _ name args => evalCall recur e name args
  | .list _ items => evalList items
  | .print _ operand => evalPrint recur e operand
  | .cat _ operand => do
    let _ ← evalPrint recur e operand
    return .null
  | .read _ => evalRead
  | .quit _ => fun m => .error .quit m

/-- Counts an expression as under evaluation while an action runs, and notes its begin and end. -/
def counted (e : Expr) (action : Eval Value) : Eval Value := fun m =>
  match action (m.begin e) with
  | .ok v m => .ok v (m.finish e none)
  | .error stop m => .error stop (m.finish e (some stop))

/-- Fails because there is no room for another expression. -/
def overflow (lim : Limits) (e : Expr) : Eval Value := fun m =>
  .error (.error (.resource (.stackOverflow m.depth lim.maxDepth) e.span)) m

/-- Evaluates an expression with room for a number of nested ones. -/
def within (lim : Limits) : Nat → Expr → Eval Value
  | 0, e => overflow lim e
  | room + 1, e => counted e (node lim (within lim room) e)

/-- Evaluates an expression. -/
def expr (lim : Limits) (e : Expr) : Eval Value := fun m =>
  within lim (lim.maxDepth - m.depth) e m

end Eval

end ScopeScript
