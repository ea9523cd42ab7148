import ScopeScript.Grammar.Rule

/-!
# Patterns and the grammar

A pattern is an expression over literal texts, character classes and rules,
built with sequence, ordered choice, repetition, option and the two look-ahead
predicates. `Rule.body` gives the pattern of every rule; together the bodies are
the grammar of the language.

Patterns say nothing about blanks: whether they are skipped between the parts of
a sequence and between the rounds of a repetition is decided where a pattern is
matched, by the atomicity of the rules around it.
-/

namespace ScopeScript

/-- Classes of single characters. -/
inductive CharClass where
  | any | digit | letter | letterOrDigit
deriving DecidableEq

/-- Membership in a class; letters and digits are those of ASCII. -/
def CharClass.holds : CharClass → Char → Bool
  | any, _ => true
  | digit, c => c.isDigit
  | letter, c => c.isAlpha
  | letterOrDigit, c => c.isAlphanum

/-- What can be matched at a position of a text. -/
inductive Pattern where
  /-- Exactly these characters. -/
  | text (cs : List Char)
  /-- One character of a class. -/
  | one (cls : CharClass)
  /-- The start of the input, consuming nothing. -/
  | start
  /-- The end of the input, consuming nothing. -/
  | stop
  /-- A match of a rule. -/
  | rule (r : Rule)
  /-- The first part, then the second. -/
  | seq (first second : Pattern)
  /-- The first alternative if it matches, else the second. -/
  | alt (first second : Pattern)
  /-- The part if it matches, else nothing. -/
  | opt (part : Pattern)
  /-- The part as often as it matches. -/
  | star (part : Pattern)
  /-- Succeeds, consuming nothing, where the part matches. -/
  | ahead (part : Pattern)
  /-- Succeeds, consuming nothing, where the part does not match. -/
  | notAhead (part : Pattern)

namespace Pattern

/-- All parts of a non-empty list, one after the other. -/
def inOrder : List Pattern → Pattern
  | [] => text []
  | [p] => p
  | p :: ps => seq p (inOrder ps)

/-- The first alternative of a non-empty list that matches. -/
def firstOf : List Pattern → Pattern
  | [] => notAhead (text [])
  | [p] => p
  | p :: ps => alt p (firstOf ps)

/-- One character. -/
def char (c : Char) : Pattern := text [c]

/-- One or more rounds of a part. -/
def plus (p : Pattern) : Pattern := seq p (star p)

/-- A line break: a line feed, a carriage return, or the latter followed by the former. -/
def lineBreak : Pattern :=
  firstOf [char '\n', text ['\r', '\n'], char '\r']

/-- A sign. -/
def sign : Pattern := alt (char '+') (char '-')

end Pattern

/-! ### Keywords -/

/-- The reserved words. -/
def keywords : List (List Char) :=
  [['i', 'f'], ['e', 'l', 's', 'e'], ['w', 'h', 'i', 'l', 'e'],
    ['f', 'u', 'n', 'c', 't', 'i', 'o', 'n'], ['f', 'o', 'r'], ['i', 'n'], ['n', 'e', 'x', 't'],
    ['b', 'r', 'e', 'a', 'k'], ['T', 'R', 'U', 'E'], ['F', 'A', 'L', 'S', 'E'],
    ['q', 'u', 'i', 't'], ['p', 'r', 'i', 'n', 't'], ['c', 'a', 't'], ['r', 'e', 'a', 'd'],
    ['l', 'i', 's', 't']]

/-- A given reserved word, standing as a word of its own. -/
def Pattern.word (cs : List Char) : Pattern :=
  .seq (.ahead (.rule .keyword)) (.text cs)

/-! ### The grammar -/

open Pattern in
/-- The pattern of each rule. -/
def Rule.body : Rule → Pattern
  | endOfInput => stop
  | whitespace => firstOf [char ' ', char '\t', lineBreak]
  | comment => seq (char '#') (star (seq (notAhead lineBreak) (one .any)))
  | program =>
    inOrder [start, star (seq (.rule expr) (opt (char ';'))), .rule endOfInput]
  | expr =>
    firstOf [.rule ifExpr, .rule whileExpr, .rule forExpr, .rule functionDef, .rule assignment,
      .rule quitExpr, .rule printExpr, .rule catExpr, .rule readExpr, .rule listExpr,
      .rule compound, .rule breakExpr, .rule nextExpr, .rule arith]
  | wordChar => alt (one .letterOrDigit) (char '_')
  | keyword => seq (firstOf (keywords.map text)) (notAhead (.rule wordChar))
  | ifKw => word ['i', 'f']
  | elseKw => word ['e', 'l', 's', 'e']
  | whileKw => word ['w', 'h', 'i', 'l', 'e']
  | functionKw => word ['f', 'u', 'n', 'c', 't', 'i', 'o', 'n']
  | forKw => word ['f', 'o', 'r']
  | inKw => word ['i', 'n']
  | nextKw => word ['n', 'e', 'x', 't']
  | breakKw => word ['b', 'r', 'e', 'a', 'k']
  | quitKw => word ['q', 'u', 'i', 't']
  | printKw => word ['p', 'r', 'i', 'n', 't']
  | catKw => word ['c', 'a', 't']
  | readKw => word ['r', 'e', 'a', 'd']
  | listKw => word ['l', 'i', 's', 't']
  | ifExpr =>
    inOrder [.rule ifKw, char '(', .rule expr, char ')', .rule expr,
      opt (seq (.rule elseKw) (.rule expr))]
  | whileExpr => inOrder [.rule whileKw, char '(', .rule expr, char ')', .rule expr]
  | forExpr =>
    inOrder [.rule forKw, char '(', .rule ident, .rule inKw, .rule expr, char ')', .rule expr]
  | breakExpr => .rule breakKw
  | nextExpr => .rule nextKw
  | compound =>
    inOrder [char '{', .rule expr, star (seq (opt (char ';')) (.rule expr)), opt (char ';'),
      char '}']
  | assignment =>
    inOrder [.rule ident, opt (.rule index), text ['<', '-'], .rule expr]
  | index => inOrder [text ['[', '['], .rule expr, text [']', ']']]
  | functionDef =>
    inOrder [.rule functionKw, char '(', .rule params, char ')', .rule compound]
  | params => opt (seq (.rule ident) (star (seq (char ',') (.rule ident))))
  | call => inOrder [.rule ident, char '(', .rule args, char ')']
  | args => opt (seq (.rule expr) (star (seq (char ',') (.rule expr))))
  | quitExpr => inOrder [.rule quitKw, char '(', char ')']
  | printExpr => inOrder [.rule printKw, char '(', .rule expr, char ')']
  | catExpr => inOrder [.rule catKw, char '(', .rule expr, char ')']
  | readExpr => inOrder [.rule readKw, char '(', char ')']
  | listExpr =>
    inOrder [.rule listKw, char '(', .rule constant, star (seq (char ',') (.rule constant)),
      char ')']
  | arith => seq (.rule simple) (opt (seq (.rule relOp) (.rule simple)))
  | simple =>
    inOrder [star (.rule prefixOp), .rule factor,
      star (inOrder [.rule infixOp, star (.rule prefixOp), .rule factor])]
  | prefixOp => .rule not
  | not => char '!'
  | infixOp =>
    firstOf [.rule add, .rule sub, .rule or, .rule mul, .rule div, .rule and, .rule modulo,
      .rule pow]
  | add => char '+'
  | sub => char '-'
  | or => char '|'
  | mul => char '*'
  | div => char '/'
  | and => char '&'
  | modulo => text ['%', '%']
  | pow => char '^'
  | relOp => firstOf [.rule le, .rule lt, .rule ge, .rule gt, .rule eq, .rule ne]
  | le => text ['<', '=']
  | lt => char '<'
  | ge => text ['>', '=']
  | gt => char '>'
  | eq => text ['=', '=']
  | ne => text ['!', '=']
  | factor =>
    firstOf [.rule float, .rule int, .rule string, .rule boolean, .rule call,
      .rule singleElement, .rule ident, .rule grouped]
  | grouped => inOrder [char '(', .rule expr, char ')']
  | singleElement => inOrder [.rule ident, text ['[', '['], .rule expr, text [']', ']']]
  | constant => firstOf [.rule float, .rule int, .rule string, .rule boolean]
  | int => seq (opt sign) (plus (one .digit))
  | float =>
    inOrder [opt sign, star (one .digit), char '.', plus (one .digit)]
  | string =>
    inOrder [char '"', star (seq (notAhead (alt (char '"') lineBreak)) (one .any)), char '"']
  | boolean =>
    seq (alt (text ['T', 'R', 'U', 'E']) (text ['F', 'A', 'L', 'S', 'E']))
      (notAhead (.rule wordChar))
  | ident =>
    inOrder [notAhead (.rule keyword), alt (one .letter) (char '_'), star (.rule wordChar)]

end ScopeScript
