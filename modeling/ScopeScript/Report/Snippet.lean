import ScopeScript.Report.Problem

/-!
# Source snippets

A snippet shows a problem under the line of source text it concerns: a heading, the
line with its number, an underline below the range with a mark in its middle, and
the message where an arrow from the mark ends.

Everything is laid out by columns, one for each character of the line. A column is
one place wide, except that a tab reaches to the next multiple of four. Blanks at the
end of the line are not shown, and their columns are one place wide, tabs included.
-/

namespace ScopeScript

namespace Snippet

/-! ### Lines -/

/-- Whether a character ends a line in a snippet. -/
def endsLine (c : Char) : Bool :=
  c == '\n' || c == '\r' || c == '\x0b' || c == '\x0c' || c == '\u0085' || c == '\u2028' ||
    c == '\u2029'

/-- The lines of a text with their line ends; `begun` is the line read so far, backwards. -/
def splitFrom (begun : List Char) : List Char → List (List Char)
  | [] => if begun.isEmpty then [] else [begun.reverse]
  | '\r' :: '\n' :: cs => ('\n' :: '\r' :: begun).reverse :: splitFrom [] cs
  | c :: cs =>
    if endsLine c then (c :: begun).reverse :: splitFrom [] cs else splitFrom (c :: begun) cs

/-- A line, its number from zero, and a column in it. -/
structure Place where
  line : List Char
  number : Nat
  column : Nat

/-- The place of a position; positions after the last line belong to it. -/
def locate (number : Nat) : List (List Char) → Nat → Place
  | [], offset => ⟨[], number, offset⟩
  | [line], offset => ⟨line, number, offset⟩
  | line :: lines, offset =>
    if offset < line.length then ⟨line, number, offset⟩
    else locate (number + 1) lines (offset - line.length)

/-! ### Columns -/

/-- Places between two tab stops. -/
def tabWidth : Nat := 4

/-- Width of a column that holds the given character, if the line reaches that far. -/
def columnWidth (column : Nat) : Option Char → Nat
  | some '\t' => (column / tabWidth + 1) * tabWidth - column
  | _ => 1

/-- The characters of a line as they are shown. -/
def shown (column : Nat) : List Char → List Char
  | [] => []
  | c :: cs =>
    (if isBlank c then List.replicate (columnWidth column (some c)) ' ' else [c]) ++
      shown (column + 1) cs

/-- A row of marks below a line: what each column shows in its first place and in the others. -/
def markRow (chars : List Char) (columns : Nat) (mark : Nat → Char × Char) : List Char :=
  (List.range columns).flatMap fun column =>
    let (first, others) := mark column
    first :: List.replicate (columnWidth column chars[column]? - 1) others

/-- The underline of `length` columns from `start` on, with a mark in its middle. -/
def underline (start length column : Nat) : Char × Char :=
  if column = start + length / 2 then
    if length = 0 then ('│', ' ') else ('┬', '─')
  else if start ≤ column ∧ column < start + length then ('─', '─')
  else (' ', ' ')

/-- The arrow from the middle of the range to the message. -/
def arrow (start length column : Nat) : Char × Char :=
  if column < start + length / 2 then (' ', ' ')
  else if column = start + length / 2 then ('╰', '─')
  else ('─', '─')

/-! ### Layout -/

/-- The heading. -/
def heading (d : Diagnostic) : String :=
  let code := match d.code with
    | some code => "[" ++ code ++ "] "
    | none => ""
  code ++ "Error: " ++ d.message ++ "\n"

/-- A line below the heading that begins with the frame. -/
def framed (margin text : String) : String :=
  margin ++ "│" ++ text ++ "\n"

/-- The snippet of a diagnostic. -/
def render (d : Diagnostic) (source : List Char) : String :=
  let stop := min d.span.stop (byteLength source)
  let start := min d.span.start stop
  let place := locate 0 (splitFrom [] source) start
  let line := trimEnd place.line
  let number := toString (place.number + 1)
  let length := stop - start
  let columns := place.column + length + 2
  let width := number.length + 2
  let margin := String.ofList (List.replicate width ' ')
  let row (mark : Nat → Nat → Nat → Char × Char) : String :=
    String.ofList (markRow line columns (mark place.column length))
  let help := match d.help with
    | some help => framed margin " " ++ framed margin (" Help: " ++ help)
    | none => ""
  heading d ++
    margin ++ "╭─[ <unknown>:" ++ number ++ ":" ++ toString (place.column + 1) ++ " ]\n" ++
    framed margin "" ++
    " " ++ number ++ " │ " ++ String.ofList (shown 0 line) ++ "\n" ++
    framed margin (" " ++ row underline) ++
    framed margin (" " ++ row arrow ++ " " ++ d.message) ++
    help ++
    String.ofList (List.replicate width '─') ++ "╯\n"

end Snippet

/-- A problem as it is shown: with a snippet, or as a plain line if it concerns no source text. -/
def Problem.render (p : Problem) (source : List Char) : String :=
  match p.diagnostic? with
  | some d => Snippet.render d source
  | none => p.message ++ "\n"

end ScopeScript
