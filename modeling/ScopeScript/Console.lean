import ScopeScript.Text.Blank

/-!
# The console

A console has bytes to be read and a sink to be written to. `Console.printLine`
writes a text and a line feed, `Console.readLine` takes the next line without its
line end, and `Console.flush` ends a run. Each of them leaves a console behind
whether it succeeds or fails: a line that is no valid text is consumed all the
same, and what a refused line has written before its refusal stays written.

A sink may be limited to a number of lines: once that many line feeds have been
written, every further write is refused. A write that has begun goes through as a
whole. An empty text is not written at all, so that its line feed is the only
write. Hence a sink without a limit accepts every line (`printLine_of_unlimited`).
A sink may also refuse to be flushed. Sinks that fail in other ways are not
covered: in the middle of a write, or for a while only.
-/

namespace ScopeScript

/-- Why reading or writing failed. -/
inductive IoFault where
  | writeRefused
  | flushRefused
  | notUtf8
  | other (text : String)
deriving DecidableEq, Inhabited

/-- The message of a fault. -/
def IoFault.message : IoFault → String
  | writeRefused => "write refused"
  | flushRefused => "flush refused"
  | notUtf8 => "stream did not contain valid UTF-8"
  | other text => text

/-! ### Output -/

/-- Where output goes. -/
structure Sink where
  written : String := ""
  /-- Number of lines that are accepted, unless there is no limit. -/
  limit : Option Nat := none
  refusesFlush : Bool := false
deriving DecidableEq, Inhabited

namespace Sink

/-- Number of line feeds written. -/
def lines (s : Sink) : Nat := s.written.toList.count '\n'

/-- Whether the sink has taken all the lines it accepts. -/
def isFull (s : Sink) : Bool :=
  match s.limit with
  | some n => n ≤ s.lines
  | none => false

/-- Adds a text to what is written. -/
def append (s : Sink) (text : String) : Sink :=
  { s with written := s.written ++ text }

end Sink

/-- A source of bytes and a sink of text. -/
structure Console where
  input : List UInt8 := []
  sink : Sink := {}
deriving DecidableEq, Inhabited

namespace Console

/-- Actions on a console; a failing action leaves a console as well. -/
abbrev Action := EStateM IoFault Console

/-- Writes a text, unless the sink is full. -/
def write (text : String) : Action Unit := fun c =>
  if c.sink.isFull then .error .writeRefused c
  else .ok () { c with sink := c.sink.append text }

/-- Writes a text and a line feed, as two writes; an empty text is not written. -/
def printLine (text : String) : Action Unit := do
  if !text.isEmpty then write text
  write "\n"

/-- Ends the output of a run. -/
def flush : Action Unit := fun c =>
  if c.sink.refusesFlush then .error .flushRefused c else .ok () c

theorem printLine_of_unlimited (text : String) (c : Console) (h : c.sink.limit = none) :
    printLine text c = .ok () { c with sink := (c.sink.append text).append "\n" } := by
  by_cases ht : text = ""
  · subst ht
    simp [printLine, write, Sink.isFull, h, Sink.append]
  · have hne : text.isEmpty = false := by simpa using ht
    simp [printLine, write, Sink.isFull, h, Sink.append, hne, bind, EStateM.bind]

/-! ### Input -/

/-- Whether a byte ends a line. -/
def isLineFeed (b : UInt8) : Bool := b == 10

/-- The bytes before the first line feed. -/
def firstLine (bytes : List UInt8) : List UInt8 :=
  bytes.takeWhile (!isLineFeed ·)

/-- The bytes after the first line feed. -/
def afterLine (bytes : List UInt8) : List UInt8 :=
  (bytes.dropWhile (!isLineFeed ·)).drop 1

/-- The text that bytes encode. -/
def decode? (bytes : List UInt8) : Option String :=
  String.fromUTF8? ⟨bytes.toArray⟩

/-- Whether a character is removed from the end of a line. -/
def isLineEnd (c : Char) : Bool := c == '\n' || c == '\r'

/-- Takes the next line without the line ends at its end; nothing is left to take at the end of
the input. -/
def readLine : Action (Option String) := fun c =>
  if c.input.isEmpty then .ok none c
  else
    let rest := { c with input := afterLine c.input }
    match decode? (firstLine c.input) with
    | some line => .ok (some (String.ofList (dropEndWhile isLineEnd line.toList))) rest
    | none => .error .notUtf8 rest

end Console

end ScopeScript
