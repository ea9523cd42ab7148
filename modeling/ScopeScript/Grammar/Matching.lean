import ScopeScript.Text.Span
import ScopeScript.Grammar.Pattern

/-!
# Matching patterns against a text

`Pattern.run` matches a pattern at a cursor and yields either the cursor after
the match with the match trees found on the way, or a failure. Rules are matched
by the function it is given, so that `matchRule` ties the knot on a fuel that
counts nested rules; `fuelFor` of the text is enough for every rule, since a
chain of rules that consumes nothing never meets the same rule twice.

Besides the result a match keeps `Attempts`: the furthest position at which a
rule was tried in vain, and the rules tried there. If the whole match fails they
say where, and what was expected; none of the rules is lost when they are put in
the order of the grammar (`Attempts.mem_mismatch`).

Outside of atomic rules `skipBlanks` passes over blanks and comments between the
parts of a sequence and between the rounds of a repetition. A repetition gives
back what it skipped before its last, failing round.
-/

namespace ScopeScript

/-! ### Cursors -/

/-- A position in a text and what follows it. -/
structure Cursor where
  rest : List Char
  pos : Nat
deriving DecidableEq, Inhabited

namespace Cursor

/-- The start of a text. -/
def atStart (source : List Char) : Cursor := ⟨source, 0⟩

/-- Passes over one character of the text. -/
def advance (c : Char) (rest : List Char) (pos : Nat) : Cursor := ⟨rest, pos + c.utf8Size⟩

/-- The cursor after the given characters, if they stand next. -/
def afterText? : List Char → Cursor → Option Cursor
  | [], here => some here
  | c :: cs, ⟨d :: rest, pos⟩ => if c = d then afterText? cs (advance d rest pos) else none
  | _ :: _, ⟨[], _⟩ => none

/-- The cursor after one character of the class, if one stands next. -/
def afterOne? (cls : CharClass) : Cursor → Option Cursor
  | ⟨d :: rest, pos⟩ => if cls.holds d then some (advance d rest pos) else none
  | ⟨[], _⟩ => none

/-- Passes over blanks and comments; `inComment` says that a comment has begun. A comment runs to
the next line break, which is a blank. -/
def skipFrom (inComment : Bool) : List Char → Nat → Cursor
  | [], pos => ⟨[], pos⟩
  | c :: rest, pos =>
    if c = '\n' ∨ c = '\r' then skipFrom false rest (pos + c.utf8Size)
    else if inComment then skipFrom true rest (pos + c.utf8Size)
    else if c = ' ' ∨ c = '\t' then skipFrom false rest (pos + c.utf8Size)
    else if c = '#' then skipFrom true rest (pos + c.utf8Size)
    else ⟨c :: rest, pos⟩

/-- The cursor after all blanks and comments that stand next. -/
def skipBlanks (here : Cursor) : Cursor :=
  skipFrom false here.rest here.pos

end Cursor

/-! ### Match trees -/

/-- What a rule matched: its range, its text if the rule is atomic, and the matches inside it. -/
inductive Tree where
  | node (rule : Rule) (span : Span) (lexeme : List Char) (children : List Tree)
deriving Inhabited

namespace Tree

/-- The rule that was matched. -/
def rule : Tree → Rule
  | node r _ _ _ => r

/-- The range of the match. -/
def span : Tree → Span
  | node _ s _ _ => s

/-- The text of an atomic match. -/
def lexeme : Tree → List Char
  | node _ _ l _ => l

/-- The matches inside. -/
def children : Tree → List Tree
  | node _ _ _ ts => ts

end Tree

/-! ### Failed attempts -/

/-- Whether the match is part of a look-ahead predicate, and of which sign. -/
inductive Look where
  | none | positive | negative
deriving DecidableEq

/-- What surrounds a match. -/
structure Mode where
  atomic : Bool := false
  look : Look := .none
deriving DecidableEq

namespace Mode

/-- Inside a predicate that asks for a match. -/
def ahead (m : Mode) : Mode :=
  { m with look := if m.look = .negative then .negative else .positive }

/-- Inside a predicate that asks for the absence of a match. -/
def notAhead (m : Mode) : Mode :=
  { m with look := if m.look = .negative then .positive else .negative }

/-- Inside a rule. -/
def inside (m : Mode) (r : Rule) : Mode :=
  { m with atomic := m.atomic || r.isAtomic }

/-- The cursor from which the next part of a sequence is matched. -/
def skip (m : Mode) (here : Cursor) : Cursor :=
  if m.atomic then here else here.skipBlanks

end Mode

/-- The rules that failed at the furthest position, and those whose match was refused there. -/
structure Attempts where
  pos : Nat := 0
  wanted : List Rule := []
  refused : List Rule := []
deriving DecidableEq, Inhabited

namespace Attempts

/-- Number of attempts noted at a position. -/
def countAt (a : Attempts) (pos : Nat) : Nat :=
  if pos = a.pos then a.wanted.length + a.refused.length else 0

/-- The attempts as they were before, for a position noted before; later ones at it are dropped. -/
def rewind (before after : Attempts) (pos : Nat) : Attempts :=
  if pos = after.pos then
    if pos = before.pos then
      { after with
        wanted := after.wanted.take before.wanted.length
        refused := after.refused.take before.refused.length }
    else { after with wanted := [], refused := [] }
  else if after.pos < pos then { pos := pos }
  else after

/-- Notes the rule at a position, if that is the furthest one. -/
def note (a : Attempts) (look : Look) (r : Rule) (pos : Nat) : Attempts :=
  if pos ≠ a.pos then a
  else if look = .negative then { a with refused := a.refused ++ [r] }
  else { a with wanted := a.wanted ++ [r] }

/-- Notes that the rule was tried at a position. The attempts made inside it give way to the rule
itself, unless there was exactly one; nothing is noted inside atomic rules. -/
def track (before after : Attempts) (m : Mode) (r : Rule) (pos : Nat) : Attempts :=
  if m.atomic then after
  else if after.countAt pos = before.countAt pos + 1 then after
  else (before.rewind after pos).note m.look r pos

end Attempts

/-! ### Matching -/

/-- Outcome of a match. -/
inductive Found where
  | matched (here : Cursor) (trees : List Tree) (attempts : Attempts)
  | failed (attempts : Attempts)

namespace Found

/-- The outcome without the record of attempts. -/
def result : Found → Option (Cursor × List Tree)
  | matched here trees _ => some (here, trees)
  | failed _ => none

/-- The record of attempts. -/
def attempts : Found → Attempts
  | matched _ _ a => a
  | failed a => a

/-- A match without trees, or a failure. -/
def ofCursor? (here : Option Cursor) (a : Attempts) : Found :=
  match here with
  | some here => matched here [] a
  | none => failed a

end Found

/-- Repeats a part, skipping before each round; trees found so far are at hand. The count bounds
the rounds: one for each character that is left, and a last one that fails. -/
def rounds (m : Mode) (part : Cursor → Attempts → Found) :
    Nat → Cursor → List Tree → Attempts → Found
  | 0, here, trees, a => .matched here trees a
  | n + 1, here, trees, a =>
    match part (m.skip here) a with
    | .matched next found a => rounds m part n next (trees ++ found) a
    | .failed a => .matched here trees a

/-- Matches a pattern at a cursor; `call` matches the rules in it. -/
def Pattern.run (call : Rule → Mode → Cursor → Attempts → Found) :
    Pattern → Mode → Cursor → Attempts → Found
  | text cs, _, here, a => .ofCursor? (here.afterText? cs) a
  | one cls, _, here, a => .ofCursor? (here.afterOne? cls) a
  | start, _, here, a => if here.pos = 0 then .matched here [] a else .failed a
  | stop, _, here, a => if here.rest.isEmpty then .matched here [] a else .failed a
  | rule r, m, here, a => call r m here a
  | seq p q, m, here, a =>
    match p.run call m here a with
    | .failed a => .failed a
    | .matched mid ps a =>
      match q.run call m (m.skip mid) a with
      | .failed a => .failed a
      | .matched last qs a => .matched last (ps ++ qs) a
  | alt p q, m, here, a =>
    match p.run call m here a with
    | .failed a => q.run call m here a
    | found => found
  | opt p, m, here, a =>
    match p.run call m here a with
    | .failed a => .matched here [] a
    | found => found
  | star p, m, here, a =>
    match p.run call m here a with
    | .failed a => .matched here [] a
    | .matched next trees a => rounds m (p.run call m) (next.rest.length + 1) next trees a
  | ahead p, m, here, a =>
    match p.run call m.ahead here a with
    | .failed a => .failed a
    | .matched _ _ a => .matched here [] a
  | notAhead p, m, here, a =>
    match p.run call m.notAhead here a with
    | .failed a => .matched here [] a
    | .matched _ _ a => .failed a

/-- Matches a rule that leaves a node, given how its body is matched. -/
def matchNode (r : Rule) (m : Mode) (body : Cursor → Attempts → Found) (here : Cursor)
    (a : Attempts) : Found :=
  match body here a with
  | .matched next trees b =>
    let lexeme := if r.isAtomic then takeBytes (next.pos - here.pos) here.rest else []
    let node := if m.atomic then trees else [.node r ⟨here.pos, next.pos⟩ lexeme trees]
    .matched next node (if m.look = .negative then a.track b m r here.pos else b)
  | .failed b => .failed (if m.look = .negative then b else a.track b m r here.pos)

/-- Matches a rule, with at most `fuel` rules nested in each other. -/
def matchRule : Nat → Rule → Mode → Cursor → Attempts → Found
  | 0, _, _, _, a => .failed a
  | fuel + 1, r, m, here, a =>
    let body := r.body.run (matchRule fuel) (m.inside r)
    if r.isSilent then body here a else matchNode r m body here a

/-- Fuel that no match in the text exhausts. -/
def fuelFor (source : List Char) : Nat :=
  (source.length + 1) * Rule.all.length

/-- Where a text stops matching: the position, the rules wanted there, and those refused there. -/
structure Mismatch where
  pos : Nat
  wanted : List Rule
  refused : List Rule
deriving DecidableEq

/-- The furthest attempts, without repetition and in grammar order. -/
def Attempts.mismatch (a : Attempts) : Mismatch :=
  ⟨a.pos, Rule.all.filter (a.wanted.contains ·), Rule.all.filter (a.refused.contains ·)⟩

/-- Putting the rules in the order of the grammar loses none of them. -/
theorem Attempts.mem_mismatch (a : Attempts) (r : Rule) :
    (r ∈ a.mismatch.wanted ↔ r ∈ a.wanted) ∧ (r ∈ a.mismatch.refused ↔ r ∈ a.refused) := by
  simp [mismatch, Rule.mem_all]

/-- Matches a rule at the start of a text. The match need not reach the end of the text. -/
def Rule.matchStart (r : Rule) (source : List Char) : Except Mismatch (Cursor × List Tree) :=
  match matchRule (fuelFor source) r {} (.atStart source) {} with
  | .matched next trees _ => .ok (next, trees)
  | .failed a => .error a.mismatch

end ScopeScript
