import ScopeScript.Ast.WellFormed
import ScopeScript.Number.Shortest

/-!
# Programs as text

`Program.render` writes a program down with every subexpression in parentheses,
so that no reader has to know how tightly an operator binds. Names, parameters,
constants of lists and bodies of functions stand as they are, and the expressions
of a program and of a block are separated by semicolons.

How a floating-point constant is written is left open: `render` takes it as an
argument, and `positional` is the text with the fewest digits that read back, in
a form without an exponent.
-/

namespace ScopeScript

/-! ### Pieces -/

/-- A text in parentheses. -/
def parens (cs : List Char) : List Char :=
  '(' :: (cs ++ [')'])

/-- A text in parentheses between double brackets. -/
def inBrackets (cs : List Char) : List Char :=
  '[' :: '[' :: (parens cs ++ [']', ']'])

/-- Texts with a separator between them. -/
def separated (separator : Char) : List (List Char) → List Char
  | [] => []
  | [t] => t
  | t :: ts => t ++ separator :: separated separator ts

@[simp] theorem separated_nil (s : Char) : separated s [] = [] := rfl

@[simp] theorem separated_singleton (s : Char) (t : List Char) : separated s [t] = t := rfl

@[simp] theorem separated_cons_cons (s : Char) (t u : List Char) (ts : List (List Char)) :
    separated s (t :: u :: ts) = t ++ s :: separated s (u :: ts) := rfl

theorem separated_cons (s : Char) (t : List Char) (ts : List (List Char)) :
    separated s (t :: ts) = t ++ ts.flatMap (s :: ·) := by
  induction ts generalizing t with
  | nil => simp
  | cons u ts ih => simp [ih]

/-- A floating-point number as digits around a point. Infinity is written as a power of ten that
is too large for any other number; there is no text for "not a number". -/
def positional (x : Float) : List Char :=
  let b := Binary.ofFloat x
  let sign := if b.negative then ['-'] else []
  match b.magnitude with
  | .finite m q =>
    let d := shortest m q
    let digits := Nat.toDigits 10 d.digits
    sign ++ pointed digits (d.exponent + digits.length)
  | .infinite => sign ++ pointed ['1'] 310
  | .notANumber => []

/-- A constant; `floatText` writes those with a point. -/
def Literal.render (floatText : Float → List Char) : Literal → List Char
  | int n => signedDigits n.toInt
  | float x => floatText x
  | str s => '"' :: (s.toList ++ ['"'])
  | bool true => ['T', 'R', 'U', 'E']
  | bool false => ['F', 'A', 'L', 'S', 'E']

/-! ### Expressions -/

namespace Expr

mutual

/-- An expression with its subexpressions in parentheses. -/
def render (floatText : Float → List Char) : Expr → List Char
  | literal _ v => v.render floatText
  | var _ x => x.toList
  | element _ x i => x.toList ++ ['[', '['] ++ parens (i.render floatText) ++ [']', ']']
  | arith _ op a b => parens (a.render floatText) ++ op.symbol.toList ++ parens (b.render floatText)
  | logical _ op a b =>
    parens (a.render floatText) ++ op.symbol.toList ++ parens (b.render floatText)
  | compare _ op a b =>
    parens (a.render floatText) ++ op.symbol.toList ++ parens (b.render floatText)
  | not _ a => '!' :: parens (a.render floatText)
  | ifThen _ c t =>
  ['i', 'f'] ++ parens (parens (c.render floatText)) ++ parens (t.render floatText)
  | ifElse _ c t e =>
    ['i', 'f'] ++ parens (parens (c.render floatText)) ++ parens (t.render floatText) ++
      ['e', 'l', 's', 'e'] ++ parens (e.render floatText)
  | whileDo _ c b =>
    ['w', 'h', 'i', 'l', 'e'] ++ parens (parens (c.render floatText)) ++ parens (b.render floatText)
  | forIn _ x a b =>
    ['f', 'o', 'r', '('] ++ x.toList ++ [' ', 'i', 'n'] ++ parens (a.render floatText) ++ [')'] ++
      parens (b.render floatText)
  | brk _ => ['b', 'r', 'e', 'a', 'k']
  | nxt _ => ['n', 'e', 'x', 't']
  | block _ es => '\x7b' :: (separated ';' ((renderAll floatText es).map parens) ++ ['\x7d'])
  | assign _ x a => x.toList ++ ['<', '-'] ++ parens (a.render floatText)
  | assignAt _ x i a =>
    x.toList ++ ['[', '['] ++ parens (i.render floatText) ++ [']', ']', '<', '-'] ++
      parens (a.render floatText)
  | function _ ps b =>
    ['f', 'u', 'n', 'c', 't', 'i', 'o', 'n'] ++ parens (separated ',' (ps.map String.toList)) ++
      b.render floatText
  | call _ x es => x.toList ++ parens (separated ',' ((renderAll floatText es).map parens))
  | list _ vs =>
    ['l', 'i', 's', 't'] ++ parens (separated ',' (vs.map (Literal.render floatText)))
  | print _ a => ['p', 'r', 'i', 'n', 't'] ++ parens (parens (a.render floatText))
  | cat _ a => ['c', 'a', 't'] ++ parens (parens (a.render floatText))
  | read _ => ['r', 'e', 'a', 'd', '(', ')']
  | quit _ => ['q', 'u', 'i', 't', '(', ')']

/-- The texts of a list of expressions. -/
def renderAll (floatText : Float → List Char) : List Expr → List (List Char)
  | [] => []
  | e :: es => e.render floatText :: renderAll floatText es

end

theorem renderAll_eq_map (floatText : Float → List Char) (es : List Expr) :
    renderAll floatText es = es.map (render floatText) := by
  induction es with
  | nil => rfl
  | cons e es ih => simp [renderAll, ih]

/-! ### Texts part by part -/

section Parts

variable {floatText : Float → List Char} (s : Span) (x : String) (a b : Expr) (es : List Expr)

theorem render_element :
    (element s x a).render floatText = x.toList ++ inBrackets (a.render floatText) := by
  simp [render, inBrackets]

theorem render_assign :
    (assign s x a).render floatText = x.toList ++ '<' :: '-' :: parens (a.render floatText) := by
  simp [render]

theorem render_assignAt :
    (assignAt s x a b).render floatText =
      x.toList ++
        (inBrackets (a.render floatText) ++ '<' :: '-' :: parens (b.render floatText)) := by
  simp [render, inBrackets]

theorem render_forIn :
    (forIn s x a b).render floatText = ['f', 'o', 'r'] ++ '(' :: (x.toList ++ ' ' ::
      (['i', 'n'] ++ (parens (a.render floatText) ++ ')' :: parens (b.render floatText)))) := by
  simp [render]

theorem renderAll_map_parens :
    (renderAll floatText es).map parens = es.map fun e => parens (e.render floatText) := by
  rw [renderAll_eq_map, List.map_map]
  rfl

theorem render_block :
    (block s (a :: es)).render floatText = '\x7b' :: (parens (a.render floatText) ++
      ((es.flatMap fun e => ';' :: parens (e.render floatText)) ++ ['\x7d'])) := by
  rw [render, renderAll_map_parens, List.map_cons, separated_cons, List.flatMap_map,
    List.append_assoc]

end Parts

end Expr

/-- The text of a program. -/
def Program.render (floatText : Float → List Char) (p : Program) : List Char :=
  separated ';' (Expr.renderAll floatText p)

end ScopeScript
