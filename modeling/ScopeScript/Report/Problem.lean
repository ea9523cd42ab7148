import ScopeScript.Ast.Parse
import ScopeScript.Eval.Run

/-!
# Problems of a run

A `Problem` is what went wrong with a program as its author sees it: an error with
the line of the source it stands on. `Problem.message` is the single line that a
failing run prints, and `Problem.diagnostic?` the same in parts, for richer
rendering. Only a failure of the console concerns no line.
-/

namespace ScopeScript

/-- What went wrong with a program. -/
inductive Problem where
  | malformed (error : SyntaxError) (line : Nat)
  | semantic (error : SemanticError) (span : Span) (line : Nat)
  | resource (error : ResourceError) (span : Span) (line : Nat)
  | io (fault : IoFault)
deriving DecidableEq

/-- A problem in parts. -/
structure Diagnostic where
  message : String
  span : Span
  help : Option String := none
  code : Option String := none
deriving DecidableEq

namespace Problem

/-- A syntax error, with its line. -/
def ofSyntaxError (source : List Char) (e : SyntaxError) : Problem :=
  malformed e (e.line source)

/-- An error of evaluation, with its line. -/
def ofEvalError (source : List Char) : EvalError → Problem
  | .semantic e span => semantic e span (span.line source)
  | .resource e span => resource e span (span.line source)
  | .io fault => io fault

/-- The line of a problem. -/
def line? : Problem → Option Nat
  | malformed _ line => some line
  | semantic _ _ line => some line
  | resource _ _ line => some line
  | io _ => none

/-- The range of source text of a problem. -/
def span? : Problem → Option Span
  | malformed e _ => some e.span
  | semantic _ span _ => some span
  | resource _ span _ => some span
  | io _ => none

/-- The text of a problem without its line. -/
def summary : Problem → String
  | malformed _ _ => SyntaxError.message
  | semantic e _ _ => e.message
  | resource e _ _ => e.message
  | io fault => "I/O error: " ++ fault.message

/-- The line that a failing run prints. -/
def message (p : Problem) : String :=
  match p.line? with
  | some line => "Line " ++ toString line ++ ": " ++ p.summary
  | none => p.summary

/-- Exit code of a failing run: two for an exceeded limit, else one. -/
def exitCode : Problem → Nat
  | resource _ _ _ => 2
  | _ => 1

/-- What can be done about an exceeded limit. -/
def limitHelp : String := "raise the limit with --max-depth or --max-iterations"

/-- A problem in parts; a failure of the console has none. -/
def diagnostic? (p : Problem) : Option Diagnostic :=
  match p with
  | malformed e _ => some { message := p.summary, span := e.span, help := some e.detail }
  | semantic e span _ => some { message := p.summary, span, code := some e.kind.code }
  | resource _ span _ => some { message := p.summary, span, help := some limitHelp }
  | io _ => none

end Problem

/-! ### Running a source text -/

/-- How the run of a source text ended. -/
inductive Outcome where
  | completed (v : Value)
  | quit
  | problem (p : Problem)
  | unfinished
deriving DecidableEq

namespace Outcome

/-- The ending of a program with the lines of its source. -/
def ofEnding (source : List Char) : Ending → Outcome
  | .completed v => completed v
  | .quit => quit
  | .failed e => problem (.ofEvalError source e)
  | .unfinished => unfinished

/-- Exit code of a run: quitting counts as a failure. -/
def exitCode : Outcome → Nat
  | completed _ => 0
  | quit => 1
  | problem p => p.exitCode
  | unfinished => 2

end Outcome

/-- Runs a program that was read from a source text on a machine. -/
def Machine.runProgram (m : Machine) (lim : Limits) (source : List Char) (p : Program) :
    Outcome × Machine :=
  let (ending, m) := (m.note (.running p.length)).run lim p
  (.ofEnding source ending, m)

/-- Reads and runs a source text on a machine. -/
def Machine.runSource (m : Machine) (lim : Limits) (source : List Char) : Outcome × Machine :=
  match Program.parse source with
  | .ok p => m.runProgram lim source p
  | .error e => (.problem (.ofSyntaxError source e), m)

end ScopeScript
