import Stencil.Text.Basic

/-! # Positions in a template

Every node and diagnostic points back into its template with a `Span` of byte offsets. A
`LineIndex` turns an offset into a line and a column.
-/

namespace Stencil

/-- The bytes from `start` up to, not including, `stop`. -/
structure Span where
  start : Nat
  stop : Nat
  deriving Repr, DecidableEq, Inhabited

namespace Span

def empty : Span := ⟨0, 0⟩

def length (s : Span) : Nat :=
  s.stop - s.start

def isEmpty (s : Span) : Bool :=
  s.length == 0

def merge (a b : Span) : Span :=
  ⟨min a.start b.start, max a.stop b.stop⟩

def slice (s : Span) (text : String) : String :=
  String.ofList (Text.slice s.start s.stop text.toList)

end Span

/-- A line and a byte column, both counted from zero. -/
structure LineCol where
  line : Nat
  col : Nat
  deriving Repr, DecidableEq

/-- Line and column as people count them, from one. -/
def LineCol.display (p : LineCol) : Nat × Nat :=
  (p.line + 1, p.col + 1)

def newlineOffsets (pos : Nat) : List Char → List Nat
  | [] => []
  | c :: cs =>
    if c = '\n' then pos :: newlineOffsets (pos + 1) cs else newlineOffsets (pos + c.utf8Size) cs

structure LineIndex where
  newlines : List Nat
  length : Nat

namespace LineIndex

def ofText (text : String) : LineIndex :=
  ⟨newlineOffsets 0 text.toList, Text.bytes text.toList⟩

def position (index : LineIndex) (offset : Nat) : LineCol :=
  let offset := min offset index.length
  let earlier := index.newlines.takeWhile (· < offset)
  let lineStart := match earlier.getLast? with
    | none => 0
    | some newline => newline + 1
  ⟨earlier.length, offset - lineStart⟩

def lines (index : LineIndex) : Nat :=
  index.newlines.length + 1

end LineIndex

end Stencil
