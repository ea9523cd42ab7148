import ScopeScript.Ast.Basic
import ScopeScript.Grammar.Pattern

/-!
# Well-formed programs

Not every expression can be written down: a name may be a reserved word, a text
may hold a quote, a block may be empty. `Expr.isWellFormed` holds of the
expressions whose parts can be written, floating-point constants aside, of which
only "not a number" is excluded.

* `isName`: a word of ASCII letters, digits and underscores that does not start
  with a digit and is not reserved.
* `isQuotable`: a text without double quotes and line breaks.
* Blocks and lists have a member, and the body of a function is a block.

`Program.isWellFormed_iff` says that a program is well formed iff each of its
expressions is.
-/

namespace ScopeScript

/-! ### Words and texts -/

/-- Whether a character can stand in a name. -/
def isWordChar (c : Char) : Bool :=
  c.isAlphanum || c == '_'

/-- Whether a text is a name. -/
def isName (cs : List Char) : Bool :=
  match cs with
  | [] => false
  | c :: _ => (c.isAlpha || c == '_') && cs.all isWordChar && !keywords.contains cs

/-- Whether a text can stand between quotes. -/
def isQuotable (cs : List Char) : Bool :=
  cs.all fun c => c != '"' && c != '\n' && c != '\r'

/-- A name starts with no digit. -/
theorem isName_head {c : Char} {cs : List Char} (h : isName (c :: cs) = true) :
    (c.isAlpha || c == '_') = true := by
  simp only [isName, Bool.and_eq_true] at h
  exact h.1.1

theorem isName_all {cs : List Char} (h : isName cs = true) : cs.all isWordChar = true := by
  cases cs with
  | nil => simp [isName] at h
  | cons c cs =>
    simp only [isName, Bool.and_eq_true] at h
    exact h.1.2

theorem isName_not_keyword {cs : List Char} (h : isName cs = true) : cs ∉ keywords := by
  cases cs with
  | nil => simp [isName] at h
  | cons c cs =>
    simp only [isName, Bool.and_eq_true, Bool.not_eq_true', List.contains_eq_mem,
      decide_eq_false_iff_not] at h
    exact h.2

/-! ### Expressions -/

/-- Whether a constant can be written. -/
def Literal.isWellFormed : Literal → Bool
  | int _ | bool _ => true
  | float x => !x.isNaN
  | str s => isQuotable s.toList

namespace Expr

/-- Whether an expression is a block. -/
def isBlock : Expr → Bool
  | block _ _ => true
  | _ => false

mutual

/-- Whether every part of an expression can be written. -/
def isWellFormed : Expr → Bool
  | literal _ v => v.isWellFormed
  | var _ x => isName x.toList
  | element _ x a | assign _ x a => isName x.toList && a.isWellFormed
  | arith _ _ a b | logical _ _ a b | compare _ _ a b | ifThen _ a b | whileDo _ a b =>
    a.isWellFormed && b.isWellFormed
  | not _ a | print _ a | cat _ a => a.isWellFormed
  | ifElse _ a b c => a.isWellFormed && b.isWellFormed && c.isWellFormed
  | forIn _ x a b | assignAt _ x a b => isName x.toList && a.isWellFormed && b.isWellFormed
  | brk _ | nxt _ | read _ | quit _ => true
  | block _ es => !es.isEmpty && allWellFormed es
  | function _ ps b => ps.all (fun p => isName p.toList) && b.isBlock && b.isWellFormed
  | call _ x es => isName x.toList && allWellFormed es
  | list _ vs => !vs.isEmpty && vs.all Literal.isWellFormed

/-- Whether every expression of a list is well formed. -/
def allWellFormed : List Expr → Bool
  | [] => true
  | e :: es => e.isWellFormed && allWellFormed es

end

theorem allWellFormed_iff (es : List Expr) :
    allWellFormed es = true ↔ ∀ e ∈ es, e.isWellFormed = true := by
  induction es with
  | nil => simp [allWellFormed]
  | cons e es ih => simp [allWellFormed, ih]

end Expr

/-- Whether every expression of a program is well formed. -/
def Program.isWellFormed (p : Program) : Bool :=
  Expr.allWellFormed p

theorem Program.isWellFormed_iff (p : Program) :
    p.isWellFormed = true ↔ ∀ e ∈ p, e.isWellFormed = true :=
  Expr.allWellFormed_iff p

end ScopeScript
