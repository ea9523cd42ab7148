import ScopeScript.Ast.Basic
import ScopeScript.Number.Shortest
import ScopeScript.Text.Quoted

/-!
# Outlines of programs

An `Outline` is an indented listing: words, labelled parts, and groups of parts
between an opening and a closing text. A group that is not empty takes one line
for each of its parts, indented by four spaces more than the group and followed by a comma.

`Program.outline` lists a program with the range and kind of every expression.
-/

namespace ScopeScript

/-- An indented listing. -/
inductive Outline where
  | word (text : String)
  | labelled (label : String) (part : Outline)
  | group (opening closing : String) (parts : List Outline)
deriving Inhabited

namespace Outline

/-- The start of a line at a given level. -/
def indent (level : Nat) : String :=
  String.ofList (List.replicate (4 * level) ' ')

mutual

/-- Text of a listing at a given level; the start of its first line is left out. -/
def render (level : Nat) : Outline → String
  | word text => text
  | labelled label part => label ++ ": " ++ part.render level
  | group opening closing [] => opening ++ closing
  | group opening closing (part :: parts) =>
    opening ++ "\n" ++ renderAll (level + 1) (part :: parts) ++ indent level ++ closing

/-- Text of the parts of a group, each on lines of its own. -/
def renderAll (level : Nat) : List Outline → String
  | [] => ""
  | part :: parts => indent level ++ part.render level ++ ",\n" ++ renderAll level parts

end

/-- Parts in parentheses after a name. -/
def tuple (name : String) (parts : List Outline) : Outline :=
  group (name ++ "(") ")" parts

/-- Labelled parts in braces after a name. -/
def record (name : String) (fields : List (String × Outline)) : Outline :=
  group (name ++ " \x7b") "\x7d" (fields.map fun f => labelled f.1 f.2)

/-- Parts in brackets. -/
def sequence (parts : List Outline) : Outline :=
  group "[" "]" parts

/-- A quoted text. -/
def quoted (s : String) : Outline :=
  word (String.ofList (quote s.toList))

/-- A part that is missing. -/
def absent : Outline := word "None"

/-- A part that may be missing and is not. -/
def present (part : Outline) : Outline := tuple "Some" [part]

end Outline

open Outline

/-- Listing of a range. -/
def Span.outline (s : Span) : Outline :=
  tuple "Span" [word (toString s.start ++ ".." ++ toString s.stop)]

/-- Listing of a constant. -/
def Literal.outline : Literal → Outline
  | int n => tuple "Int" [word (String.ofList (signedDigits n.toInt))]
  | float x => tuple "Float" [word (String.ofList (outlineText x))]
  | str s => tuple "Str" [quoted s]
  | bool b => tuple "Bool" [word (if b then "true" else "false")]

/-- The name of an arithmetic operator in listings. -/
def ArithOp.outline : ArithOp → Outline
  | add => word "Add"
  | sub => word "Sub"
  | mul => word "Mul"
  | div => word "Div"
  | mod => word "Mod"
  | pow => word "Pow"

/-- The name of a connective in listings. -/
def LogicalOp.outline : LogicalOp → Outline
  | and => word "And"
  | or => word "Or"

/-- The name of a comparison in listings. -/
def Relation.outline : Relation → Outline
  | lt => word "Lt"
  | le => word "Le"
  | gt => word "Gt"
  | ge => word "Ge"
  | eq => word "Eq"
  | ne => word "Ne"

namespace Expr

/-- Listing of an expression of a given kind. -/
def outlineNode (span : Span) (kind : Outline) : Outline :=
  record "Expr" [("span", span.outline), ("kind", kind)]

mutual

/-- Listing of an expression. -/
def outline : Expr → Outline
  | literal s v => outlineNode s (tuple "Literal" [v.outline])
  | var s name => outlineNode s (tuple "Ident" [quoted name])
  | element s name index =>
    outlineNode s (record "Element" [("name", quoted name), ("index", index.outline)])
  | arith s op a b =>
    outlineNode s (record "Binary" [("op", op.outline), ("left", a.outline), ("right", b.outline)])
  | logical s op a b =>
    outlineNode s (record "Boolean" [("op", op.outline), ("left", a.outline), ("right", b.outline)])
  | compare s op a b =>
    outlineNode s
      (record "Comparison" [("op", op.outline), ("left", a.outline), ("right", b.outline)])
  | not s a => outlineNode s (record "Unary" [("op", word "Not"), ("expr", a.outline)])
  | ifThen s c a =>
    outlineNode s
      (record "If" [("cond", c.outline), ("then_branch", a.outline), ("else_branch", absent)])
  | ifElse s c a b =>
    outlineNode s
      (record "If"
        [("cond", c.outline), ("then_branch", a.outline), ("else_branch", present b.outline)])
  | whileDo s c b => outlineNode s (record "While" [("cond", c.outline), ("body", b.outline)])
  | forIn s name items b =>
    outlineNode s
      (record "For" [("var", quoted name), ("iterable", items.outline), ("body", b.outline)])
  | brk s => outlineNode s (word "Break")
  | nxt s => outlineNode s (word "Next")
  | block s es => outlineNode s (tuple "Compound" [sequence (outlineAll es)])
  | assign s name v =>
    outlineNode s
      (record "Assign" [("name", quoted name), ("index", absent), ("value", v.outline)])
  | assignAt s name i v =>
    outlineNode s
      (record "Assign"
        [("name", quoted name), ("index", present i.outline), ("value", v.outline)])
  | function s params b =>
    outlineNode s
      (record "Function" [("params", sequence (params.map quoted)), ("body", b.outline)])
  | call s name args =>
    outlineNode s
      (record "Call" [("name", quoted name), ("args", sequence (outlineAll args))])
  | list s items => outlineNode s (tuple "List" [sequence (items.map Literal.outline)])
  | print s a => outlineNode s (tuple "Print" [a.outline])
  | cat s a => outlineNode s (tuple "Cat" [a.outline])
  | read s => outlineNode s (word "Read")
  | quit s => outlineNode s (word "Quit")

/-- Listings of expressions. -/
def outlineAll : List Expr → List Outline
  | [] => []
  | e :: es => e.outline :: outlineAll es

end

end Expr

/-- Listing of a program. -/
def Program.outline (p : Program) : String :=
  (sequence (Expr.outlineAll p)).render 0

end ScopeScript
