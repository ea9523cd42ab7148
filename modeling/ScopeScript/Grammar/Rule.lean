/-!
# Grammar rules

The grammar of the language is a finite set of named rules. `Rule` lists them in
the order in which the grammar states them; the end of the input counts as a
rule and comes first. `Rule.all` is that order as a list, and it contains every
rule (`Rule.mem_all`).

A rule is *silent* if a match of it leaves no node of its own in the match tree,
and *atomic* if blanks and comments are not skipped inside it.
-/

namespace ScopeScript

/-- The rules of the grammar. -/
inductive Rule where
  | endOfInput
  | whitespace | comment
  | program | expr
  | wordChar | keyword
  | ifKw | elseKw | whileKw | functionKw | forKw | inKw | nextKw | breakKw | quitKw | printKw
  | catKw | readKw | listKw
  | ifExpr | whileExpr | forExpr | breakExpr | nextExpr | compound
  | assignment | index | functionDef | params | call | args
  | quitExpr | printExpr | catExpr | readExpr | listExpr
  | arith | simple
  | prefixOp | not | infixOp | add | sub | or | mul | div | and | modulo | pow
  | relOp | le | lt | ge | gt | eq | ne
  | factor | grouped | singleElement
  | constant | int | float | string | boolean
  | ident
deriving DecidableEq, Inhabited

namespace Rule

/-- Every rule, in grammar order. -/
def all : List Rule :=
  [endOfInput, whitespace, comment, program, expr, wordChar, keyword,
    ifKw, elseKw, whileKw, functionKw, forKw, inKw, nextKw, breakKw, quitKw, printKw,
    catKw, readKw, listKw,
    ifExpr, whileExpr, forExpr, breakExpr, nextExpr, compound,
    assignment, index, functionDef, params, call, args,
    quitExpr, printExpr, catExpr, readExpr, listExpr,
    arith, simple,
    prefixOp, not, infixOp, add, sub, or, mul, div, and, modulo, pow,
    relOp, le, lt, ge, gt, eq, ne,
    factor, grouped, singleElement,
    constant, int, float, string, boolean, ident]

theorem mem_all (r : Rule) : r ∈ all := by
  cases r <;> decide

/-- The name of a rule in the grammar. -/
def name : Rule → String
  | endOfInput => "EOI"
  | whitespace => "WHITESPACE"
  | comment => "COMMENT"
  | program => "program"
  | expr => "expr"
  | wordChar => "word_char"
  | keyword => "keyword"
  | ifKw => "if_kw"
  | elseKw => "else_kw"
  | whileKw => "while_kw"
  | functionKw => "function_kw"
  | forKw => "for_kw"
  | inKw => "in_kw"
  | nextKw => "next_kw"
  | breakKw => "break_kw"
  | quitKw => "quit_kw"
  | printKw => "print_kw"
  | catKw => "cat_kw"
  | readKw => "read_kw"
  | listKw => "list_kw"
  | ifExpr => "if_expr"
  | whileExpr => "while_expr"
  | forExpr => "for_expr"
  | breakExpr => "break_expr"
  | nextExpr => "next_expr"
  | compound => "compound"
  | assignment => "assignment"
  | index => "index"
  | functionDef => "function_def"
  | params => "params"
  | call => "call"
  | args => "args"
  | quitExpr => "quit_expr"
  | printExpr => "print_expr"
  | catExpr => "cat_expr"
  | readExpr => "read_expr"
  | listExpr => "list_expr"
  | arith => "arith"
  | simple => "simple"
  | prefixOp => "prefix"
  | not => "not"
  | infixOp => "infix"
  | add => "add"
  | sub => "sub"
  | or => "or"
  | mul => "mul"
  | div => "div"
  | and => "and"
  | modulo => "modulo"
  | pow => "pow"
  | relOp => "rel_op"
  | le => "le"
  | lt => "lt"
  | ge => "ge"
  | gt => "gt"
  | eq => "eq"
  | ne => "ne"
  | factor => "factor"
  | grouped => "grouped"
  | singleElement => "single_element"
  | constant => "constant"
  | int => "int"
  | float => "float"
  | string => "string"
  | boolean => "boolean"
  | ident => "ident"

/-- The rule of a given name. -/
def ofName? (name : String) : Option Rule :=
  all.find? fun r => r.name == name

/-- Whether a match leaves no node of its own. -/
def isSilent : Rule → Bool
  | whitespace | comment | expr | wordChar | ifKw | elseKw | whileKw | functionKw | forKw | inKw
  | nextKw | breakKw | quitKw | printKw | catKw | readKw | listKw | prefixOp | infixOp | relOp
  | factor | constant => true
  | _ => false

/-- Whether nothing is skipped inside the rule. -/
def isAtomic : Rule → Bool
  | whitespace | comment | keyword | int | float | string | boolean | ident => true
  | _ => false

end Rule

end ScopeScript
