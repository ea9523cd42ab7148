import ScopeScript.Ast.Outline
import ScopeScript.Report.Snippet

/-!
# The command line

`Invocation.ofArgs?` reads the arguments of the command: flags, options with a
number, and the path of one source file, in any order. An argument of `--` makes
everything after it a path. Unknown, repeated and malformed options are mistakes,
and so is a second path.

`CommandLine.reply` is what the command does, given how files are read: an exit
code, the text for standard output, and the text for standard error. Mistakes in
the arguments give code 2 and no output.
-/

namespace ScopeScript

/-- What the command is asked to do. -/
structure Invocation where
  trace : Bool := false
  debugParse : Bool := false
  pretty : Bool := false
  maxDepth : Option Nat := none
  maxIterations : Option Nat := none
  file : Option String := none
deriving DecidableEq, Inhabited

namespace Invocation

/-- The limits asked for. -/
def limits (inv : Invocation) : Limits :=
  match inv.maxDepth with
  | some maxDepth => { maxDepth, maxIterations := inv.maxIterations }
  | none => { maxIterations := inv.maxIterations }

/-! ### Reading arguments -/

/-- A number of at most 64 bits, with an optional plus sign. -/
def readNumber? (s : String) : Option Nat :=
  let digits := match s.toList with
    | '+' :: cs => cs
    | cs => cs
  if isNumeral digits && digitsValue digits < wordSize then some (digitsValue digits) else none

/-- Sets a flag that is not set yet. -/
def withFlag? (inv : Invocation) : String → Option Invocation
  | "--trace" => if inv.trace then none else some { inv with trace := true }
  | "--debug-parse" => if inv.debugParse then none else some { inv with debugParse := true }
  | "--pretty" => if inv.pretty then none else some { inv with pretty := true }
  | _ => none

/-- Whether an argument is an option that takes a number. -/
def takesNumber (arg : String) : Bool :=
  arg == "--max-depth" || arg == "--max-iterations"

/-- Sets an option that is not set yet to a number. -/
def withNumber? (inv : Invocation) (option value : String) : Option Invocation := do
  let n ← readNumber? value
  if option == "--max-depth" then
    if inv.maxDepth.isSome then none else some { inv with maxDepth := some n }
  else if inv.maxIterations.isSome then none
  else some { inv with maxIterations := some n }

/-- Sets the path, if there is none yet. -/
def withFile? (inv : Invocation) (path : String) : Option Invocation :=
  if inv.file.isSome || path.isEmpty then none else some { inv with file := some path }

/-- Whether an argument is an option rather than a path; a single dash is a path. -/
def isOption (arg : String) : Bool :=
  match arg.toList with
  | '-' :: _ :: _ => true
  | _ => false

/-- Splits an argument at its first equals sign. -/
def splitEquals (arg : String) : String × Option String :=
  let name := arg.toList.takeWhile (· != '=')
  match arg.toList.dropWhile (· != '=') with
  | _ :: value => (String.ofList name, some (String.ofList value))
  | [] => (arg, none)

/-- Adds paths. -/
def withFiles? (inv : Invocation) : List String → Option Invocation
  | [] => some inv
  | path :: paths => do
    let inv ← inv.withFile? path
    inv.withFiles? paths

/-- Adds arguments. -/
def withArgs? (inv : Invocation) : List String → Option Invocation
  | [] => some inv
  | arg :: args =>
    if arg == "--" then inv.withFiles? args
    else if !isOption arg then do
      let inv ← inv.withFile? arg
      inv.withArgs? args
    else
      match splitEquals arg with
      | (name, some value) => do
        if !takesNumber name then failure
        let inv ← inv.withNumber? name value
        inv.withArgs? args
      | (name, none) =>
        if takesNumber name then
          match args with
          | value :: args => do
            let inv ← inv.withNumber? name value
            inv.withArgs? args
          | [] => none
        else do
          let inv ← inv.withFlag? name
          inv.withArgs? args

/-- What the arguments ask for, unless they are mistaken. -/
def ofArgs? (args : List String) : Option Invocation :=
  withArgs? {} args

end Invocation

/-! ### Carrying out an invocation -/

namespace CommandLine

/-- What the command answers. -/
structure Reply where
  exitCode : Nat
  output : String := ""
  errors : String := ""
deriving DecidableEq, Inhabited

/-- The message for a missing path. -/
def missingFile : String := "You must specify a file in the command line!"

/-- The outline of a program with its heading. -/
def outlineText (p : Program) : String :=
  "=== Parsed AST ===\n" ++ p.outline ++ "\n\n"

/-- The line printed for the outcome of a run. -/
def outcomeLine : Outcome → String
  | .problem p => p.message ++ "\n"
  | _ => ""

/-- The snippet shown for the outcome of a run. -/
def outcomeSnippet (source : List Char) : Outcome → String
  | .problem p => p.render source
  | _ => ""

/-- The answer to an invocation whose run ended with an outcome, after a listing. -/
def ofOutcome (inv : Invocation) (source : List Char) (listing : String) (outcome : Outcome)
    (m : Machine) : Reply :=
  let traced := if inv.trace then String.join (m.transcript.map (· ++ "\n")) else ""
  let snippet := if inv.pretty then outcomeSnippet source outcome else ""
  { exitCode := outcome.exitCode
    output := listing ++ m.console.sink.written ++ outcomeLine outcome
    errors := traced ++ snippet }

/-- Runs a source text. -/
def runSource (inv : Invocation) (source : List Char) (input : List UInt8) : Reply :=
  let start : Machine := { console := { input } }
  match Program.parse source with
  | .error e => ofOutcome inv source "" (.problem (.ofSyntaxError source e)) start
  | .ok p =>
    let listing := if inv.debugParse then outlineText p else ""
    let (outcome, m) := start.runProgram inv.limits source p
    ofOutcome inv source listing outcome m

/-- Carries out an invocation on the bytes of its file, which are missing if it cannot be read. -/
def runFile (inv : Invocation) (file : Option (List UInt8)) (input : List UInt8) : Reply :=
  match file.bind Console.decode? with
  | some source => runSource inv source.toList input
  | none => { exitCode := 1, errors := "cannot read source file\n" }

/-- What the command answers to arguments, given how files are read. -/
def reply (args : List String) (read : String → Option (List UInt8)) (input : List UInt8) :
    Reply :=
  match Invocation.ofArgs? args with
  | none => { exitCode := 2, errors := "error: mistaken arguments\n" }
  | some inv =>
    match inv.file with
    | none => { exitCode := 1, output := missingFile ++ "\n" }
    | some path => runFile inv (read path) input

end CommandLine

end ScopeScript
