import ContractScript.Text.Numeral

/-!
# Ranges of source text

A `Span` names a document and a range of it. Lines and columns count from one; the end is
exclusive.

- `Span.first`, `Span.last`: the one-character ranges at both ends, where a block has its braces.
- `Span.merge`: the least range that covers two.
-/

namespace ContractScript

/-- A range of a source document. -/
structure Span where
  file : Nat := 0
  line : Nat := 0
  col : Nat := 0
  endLine : Nat := 0
  endCol : Nat := 0
deriving Repr, DecidableEq, Inhabited

namespace Span

/-- The empty `Span` at a position. -/
def point (file line col : Nat) : Span :=
  ⟨file, line, col, line, col⟩

/-- Whether the `Span` covers no text. -/
def isEmpty (s : Span) : Bool :=
  s.line == s.endLine && s.col == s.endCol

/-- The `Span` of the first character. -/
def first (s : Span) : Span :=
  ⟨s.file, s.line, s.col, s.line, s.col + 1⟩

/-- The `Span` of the last character; a range that ends at a line's start keeps to column one. -/
def last (s : Span) : Span :=
  ⟨s.file, s.endLine, max (s.endCol - 1) 1, s.endLine, max s.endCol 2⟩

/-- Whether the position `(line, col)` stands at or before `(line', col')`. -/
def posLe (line col line' col' : Nat) : Bool :=
  decide (line < line') || (line == line' && decide (col ≤ col'))

/-- The least `Span` that covers both, in the document of the first. -/
def merge (s t : Span) : Span :=
  let start := if posLe s.line s.col t.line t.col then (s.line, s.col) else (t.line, t.col)
  let stop :=
    if posLe s.endLine s.endCol t.endLine t.endCol then (t.endLine, t.endCol)
    else (s.endLine, s.endCol)
  ⟨s.file, start.1, start.2, stop.1, stop.2⟩

/-- The start of the `Span`, as messages give it. -/
def text (s : Span) : String :=
  Text.decimalNat s.line ++ ":" ++ Text.decimalNat s.col

/-- Document, start and end of the `Span`. -/
def fullText (s : Span) : String :=
  "#" ++ Text.decimalNat s.file ++ ":" ++ s.text ++ "-" ++ Text.decimalNat s.endLine ++ ":" ++
    Text.decimalNat s.endCol

end Span

end ContractScript
