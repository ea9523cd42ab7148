import ScopeScript.Text.Span

/-!
# Expressions

A program is a list of expressions; everything in the language is one. Each node
carries the range of source text it was read from. `Expr.same` compares two
expressions while ignoring these ranges, and `Expr.height` is the number of nodes
on the longest path into an expression, bodies of functions aside.
-/

namespace ScopeScript

/-- Arithmetic operators. -/
inductive ArithOp where
  | add | sub | mul | div | mod | pow
deriving DecidableEq, Inhabited

/-- Logical connectives. -/
inductive LogicalOp where
  | and | or
deriving DecidableEq, Inhabited

/-- Comparisons. -/
inductive Relation where
  | lt | le | gt | ge | eq | ne
deriving DecidableEq, Inhabited

/-- How an arithmetic operator is written. -/
def ArithOp.symbol : ArithOp → String
  | add => "+"
  | sub => "-"
  | mul => "*"
  | div => "/"
  | mod => "%%"
  | pow => "^"

/-- How a connective is written. -/
def LogicalOp.symbol : LogicalOp → String
  | and => "&"
  | or => "|"

/-- How a comparison is written. -/
def Relation.symbol : Relation → String
  | lt => "<"
  | le => "<="
  | gt => ">"
  | ge => ">="
  | eq => "=="
  | ne => "!="

/-- Constants of a program text. -/
inductive Literal where
  | int (n : Int64)
  | float (x : Float)
  | str (s : String)
  | bool (b : Bool)
deriving DecidableEq, Inhabited

/-- Expressions. -/
inductive Expr where
  | literal (span : Span) (value : Literal)
  | var (span : Span) (name : String)
  /-- An element of a list, `x[[i]]`. -/
  | element (span : Span) (name : String) (index : Expr)
  | arith (span : Span) (op : ArithOp) (left right : Expr)
  | logical (span : Span) (op : LogicalOp) (left right : Expr)
  | compare (span : Span) (op : Relation) (left right : Expr)
  | not (span : Span) (operand : Expr)
  | ifThen (span : Span) (cond yes : Expr)
  | ifElse (span : Span) (cond yes no : Expr)
  | whileDo (span : Span) (cond body : Expr)
  | forIn (span : Span) (name : String) (items body : Expr)
  /-- Leaves the innermost loop. -/
  | brk (span : Span)
  /-- Goes on with the next round of the innermost loop. -/
  | nxt (span : Span)
  /-- Expressions in braces, one after the other. -/
  | block (span : Span) (body : List Expr)
  | assign (span : Span) (name : String) (value : Expr)
  /-- Assignment to an element of a list, `x[[i]] <- v`. -/
  | assignAt (span : Span) (name : String) (index value : Expr)
  | function (span : Span) (params : List String) (body : Expr)
  | call (span : Span) (name : String) (args : List Expr)
  | list (span : Span) (items : List Literal)
  | print (span : Span) (operand : Expr)
  | cat (span : Span) (operand : Expr)
  | read (span : Span)
  | quit (span : Span)
deriving Inhabited

/-- A program: its expressions in source order. -/
abbrev Program := List Expr

namespace Expr

/-- The range of source text of an expression. -/
def span : Expr → Span
  | literal s _ | var s _ | element s _ _ | arith s _ _ _ | logical s _ _ _ | compare s _ _ _
  | not s _ | ifThen s _ _ | ifElse s _ _ _ | whileDo s _ _ | forIn s _ _ _ | brk s | nxt s
  | block s _ | assign s _ _ | assignAt s _ _ _ | function s _ _ | call s _ _ | list s _
  | print s _ | cat s _ | read s | quit s => s

/-- The kind of an expression, as it appears in transcripts. -/
def kindName : Expr → String
  | literal _ _ => "constant"
  | var _ _ => "variable"
  | element _ _ _ => "single_element"
  | arith _ _ _ _ => "arith"
  | logical _ _ _ _ => "logical"
  | compare _ _ _ _ => "relational"
  | not _ _ => "not"
  | ifThen _ _ _ | ifElse _ _ _ _ => "if_expr"
  | whileDo _ _ _ => "while_expr"
  | forIn _ _ _ _ => "for_expr"
  | brk _ => "break_expr"
  | nxt _ => "next_expr"
  | block _ _ => "compound"
  | assign _ _ _ | assignAt _ _ _ _ => "assignment"
  | function _ _ _ => "function_def"
  | call _ _ _ => "call"
  | list _ _ => "list_expr"
  | print _ _ => "print_expr"
  | cat _ _ => "cat_expr"
  | read _ => "read_expr"
  | quit _ => "quit_expr"

end Expr

/-! ### Equality up to ranges -/

/-- Equality of constants; floating-point constants are compared as numbers. -/
def Literal.same : Literal → Literal → Bool
  | int a, int b => a == b
  | float a, float b => a == b
  | str a, str b => a == b
  | bool a, bool b => a == b
  | _, _ => false

/-- Equality of lists of constants. -/
def Literal.sameAll : List Literal → List Literal → Bool
  | [], [] => true
  | a :: as, b :: bs => a.same b && sameAll as bs
  | _, _ => false

namespace Expr

mutual

/-- Whether two expressions are equal up to the ranges of their nodes. -/
def same : Expr → Expr → Bool
  | literal _ a, literal _ b => a.same b
  | var _ a, var _ b => a == b
  | element _ a i, element _ b j => a == b && i.same j
  | arith _ o a b, arith _ p c d => o == p && a.same c && b.same d
  | logical _ o a b, logical _ p c d => o == p && a.same c && b.same d
  | compare _ o a b, compare _ p c d => o == p && a.same c && b.same d
  | not _ a, not _ b => a.same b
  | ifThen _ a b, ifThen _ c d => a.same c && b.same d
  | ifElse _ a b e, ifElse _ c d f => a.same c && b.same d && e.same f
  | whileDo _ a b, whileDo _ c d => a.same c && b.same d
  | forIn _ x a b, forIn _ y c d => x == y && a.same c && b.same d
  | brk _, brk _ => true
  | nxt _, nxt _ => true
  | block _ as, block _ bs => sameAll as bs
  | assign _ x a, assign _ y b => x == y && a.same b
  | assignAt _ x i a, assignAt _ y j b => x == y && i.same j && a.same b
  | function _ ps a, function _ qs b => ps == qs && a.same b
  | call _ x as, call _ y bs => x == y && sameAll as bs
  | list _ as, list _ bs => Literal.sameAll as bs
  | print _ a, print _ b => a.same b
  | cat _ a, cat _ b => a.same b
  | read _, read _ => true
  | quit _, quit _ => true
  | _, _ => false

/-- Whether two lists of expressions are equal up to ranges. -/
def sameAll : List Expr → List Expr → Bool
  | [], [] => true
  | a :: as, b :: bs => a.same b && sameAll as bs
  | _, _ => false

end

/-! ### Height -/

mutual

/-- Number of nodes on the longest path into an expression; bodies of functions do not count. -/
def height : Expr → Nat
  | literal _ _ | var _ _ | brk _ | nxt _ | function _ _ _ | list _ _ | read _ | quit _ => 1
  | element _ _ a | not _ a | assign _ _ a | print _ a | cat _ a => a.height + 1
  | arith _ _ a b | logical _ _ a b | compare _ _ a b | ifThen _ a b | whileDo _ a b
  | forIn _ _ a b | assignAt _ _ a b => max a.height b.height + 1
  | ifElse _ a b c => max a.height (max b.height c.height) + 1
  | block _ as | call _ _ as => heightAll as + 1

/-- The largest height in a list of expressions. -/
def heightAll : List Expr → Nat
  | [] => 0
  | a :: as => max a.height (heightAll as)

end

end Expr

end ScopeScript
