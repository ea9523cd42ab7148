import ScopeScript.Eval.Operators
import ScopeScript.Scope
import ScopeScript.Value.Text

/-!
# The machine

A `Machine` is everything that evaluation reads and changes: the open scopes, the
heap, the console, the number of expressions under evaluation, and the log.
`Eval` is the type of actions on it. An action ends with a result or with a
`Stop`, the reason why the expression under evaluation is left early, and it
leaves a machine in either case.

The log is a complete record of what happened, newest event first. Some events
have a line in the transcript of a run (`Event.line?`); the others, from
`Event.left` on, are marks that say which expressions ended how, and what was
bound, called, printed, read, stored and returned.
-/

namespace ScopeScript

/-- Why an expression is left before it has a value. -/
inductive Stop where
  /-- Leaves the innermost loop. -/
  | brk
  /-- Goes on with the next round of the innermost loop. -/
  | nxt
  /-- Ends the program. -/
  | quit
  | error (e : EvalError)
  /-- A loop without a limit went on for longer than anyone waits. -/
  | unfinished
deriving DecidableEq, Inhabited

/-! ### Events -/

/-- What can happen during a run. -/
inductive Event where
  | running (expressions : Nat)
  | evaluating (kind : String) (span : Span)
  | adding (name : String) (kind : TypeClass)
  | entering (depth : Nat)
  | exiting (depth : Nat)
  | calling (name : String) (args : Nat)
  | detaching (kept hidden : Nat)
  /-- The evaluation of an expression ended, early if there is a stop. -/
  | left (span : Span) (stop : Option Stop)
  /-- A name of the innermost scope was given a value by an assignment or a loop. -/
  | bound (name : String) (value : Value)
  /-- The body of a function is about to run on top of the scopes `below`; where it was called, the
  scopes `caller` were open. -/
  | opened (function : FunctionId) (below caller : List ScopeId)
  /-- A call returned a value of the given class. -/
  | returned (function : FunctionId) (kind : TypeClass)
  /-- An element of a list was replaced. -/
  | stored (list : ListId) (index : Int64) (value : Value)
  /-- A line was written in full. -/
  | printed (text : List Char)
  /-- A line was read, or the end of the input was met. -/
  | consumed (line : Option String)
deriving DecidableEq

/-- The transcript line of an event, if it has one. -/
def Event.line? : Event → Option String
  | running n => some ("DEBUG running program expressions=" ++ toString n)
  | evaluating kind span =>
    some ("TRACE evaluating rule=" ++ kind ++ " span=" ++ toString span.start ++ ".." ++
      toString span.stop)
  | adding name kind => some ("DEBUG adding symbol name=" ++ name ++ " class=" ++ kind.text)
  | entering depth => some ("DEBUG entering scope depth=" ++ toString depth)
  | exiting depth => some ("DEBUG exiting scope depth=" ++ toString depth)
  | calling name args =>
    some ("DEBUG calling function function=" ++ name ++ " args=" ++ toString args)
  | detaching kept hidden =>
    some ("DEBUG detaching scopes depth=" ++ toString kept ++ " hidden=" ++ toString hidden)
  | _ => none

/-! ### Machines -/

/-- The state of a run. -/
structure Machine where
  scopes : ScopeStack := .initial
  heap : Heap := {}
  console : Console := {}
  /-- Number of expressions under evaluation. -/
  depth : Nat := 0
  /-- What happened so far, newest first. -/
  log : List Event := []
deriving Inhabited

namespace Machine

/-- Notes an event. -/
def note (m : Machine) (ev : Event) : Machine :=
  { m with log := ev :: m.log }

/-- Declares a name in the innermost scope, if that is possible. -/
def declare (m : Machine) (e : Entry) : Machine :=
  match m.scopes.add? e with
  | some s => { m with scopes := s }.note (.adding e.name e.info.kind)
  | none => m

/-- Removes a name from the innermost scope. -/
def forget (m : Machine) (name : String) : Machine :=
  { m with scopes := m.scopes.remove name }

/-- Opens a scope. -/
def openScope (m : Machine) : Machine :=
  { m with scopes := m.scopes.push }.note (.entering (m.scopes.depth + 1))

/-- Closes the innermost scope, if there is one. -/
def closeScope? (m : Machine) : Option Machine :=
  match m.scopes.pop with
  | .ok s => some ({ m with scopes := s }.note (.exiting s.depth))
  | .error _ => none

/-- Sets aside the scopes above the outermost `depth` ones and hands them back. -/
def detach (m : Machine) (depth : Nat) : List Scope × Machine :=
  let (hidden, outer) := m.scopes.detach depth
  let m := { m with scopes := outer }
  (hidden, if hidden.isEmpty then m else m.note (.detaching outer.depth hidden.length))

/-- Puts scopes back that were set aside. -/
def reattach (m : Machine) (hidden : List Scope) : Machine :=
  { m with scopes := m.scopes.reattach hidden }

/-- The log after all of `n` open scopes were closed one by one. -/
def logClosing (log : List Event) : Nat → List Event
  | 0 => log
  | n + 1 => logClosing (.exiting n :: log) n

/-- Closes every scope, innermost first. -/
def closeAll (m : Machine) : Machine :=
  { m with scopes := m.scopes.clear, log := logClosing m.log m.scopes.depth }

/-- The transcript of a run, oldest line first. -/
def transcript (m : Machine) : List String :=
  m.log.reverse.filterMap Event.line?

end Machine

/-! ### Actions -/

/-- Actions on a machine. -/
abbrev Eval := EStateM Stop Machine

namespace Eval

section

variable {α β : Type} {m m' : Machine}

theorem bind_of_ok {x : Eval α} {f : α → Eval β} {a : α} (h : x m = .ok a m') :
    (x >>= f) m = f a m' := by
  show EStateM.bind x f m = f a m'
  rw [EStateM.bind, h]

theorem bind_of_error {x : Eval α} {f : α → Eval β} {stop : Stop} (h : x m = .error stop m') :
    (x >>= f) m = .error stop m' := by
  show EStateM.bind x f m = .error stop m'
  rw [EStateM.bind, h]

theorem get_bind (f : Machine → Eval α) (m : Machine) : (get >>= f) m = f m m := rfl

theorem modify_bind (g : Machine → Machine) (f : PUnit → Eval α) (m : Machine) :
    (modify g >>= f) m = f () (g m) := rfl

end

/-- Fails at an expression for violating a rule of the language. -/
def failWith {α : Type} (e : Expr) (error : SemanticError) : Eval α :=
  fun m => .error (.error (.semantic error e.span)) m

/-- Fails at an expression. -/
def fail {α : Type} (e : Expr) (kind : SemanticKind) : Eval α :=
  failWith e ⟨kind, none⟩

/-- Fails at an expression because of one of its operands. -/
def failAt {α : Type} (e : Expr) (arg : Nat) (kind : SemanticKind) : Eval α :=
  failWith e ⟨kind, some arg⟩

/-- The result of an operator at an expression. -/
def check {α : Type} (e : Expr) : Checked α → Eval α
  | .ok a => fun m => .ok a m
  | .error error => failWith e error

/-- Notes an event. -/
def note (ev : Event) : Eval Unit :=
  fun m => .ok () (m.note ev)

/-- Acts on the console. -/
def onConsole {α : Type} (action : Console.Action α) : Eval α := fun m =>
  match action m.console with
  | .ok a c => .ok a { m with console := c }
  | .error fault c => .error (.error (.io fault)) { m with console := c }

/-- Closes the innermost scope. -/
def closeScope (e : Expr) : Eval Unit := fun m =>
  match m.closeScope? with
  | some m => .ok () m
  | none => fail e .internal m

/-- Prints a value on a line of its own. -/
def printValue (v : Value) : Eval Unit := do
  let text := (← get).heap.text v
  onConsole (Console.printLine (String.ofList text))
  note (.printed text)

end Eval

end ScopeScript
