import EditLex.Position

/-!
The table of line starts of a text, and the way between offsets and line and column.
-/
namespace EditLex

/-- Where each line of a text starts, and how long the text is. -/
structure LineTable where
  starts : List Coord
  length : Coord
  deriving DecidableEq

namespace LineTable

/-- The offsets just past the newlines of a text that begins at offset `i`. -/
def newlineEnds (i : Nat) : Bytes → List Coord
  | [] => []
  | b :: text =>
    if b = newline then .sat (i + 1) :: newlineEnds (i + 1) text else newlineEnds (i + 1) text

def ofText (text : Bytes) : LineTable := ⟨.zero :: newlineEnds 0 text, .sat text.length⟩

/-- The number of lines; a newline at the end opens one more. -/
def lineCount (t : LineTable) : Nat := t.starts.length

def isEmpty (t : LineTable) : Bool := t.length.val == 0

/-- `offset`, or the end of the text if that comes first. -/
def clamp (t : LineTable) (offset : Coord) : Coord :=
  if offset ≤ t.length then offset else t.length

/-- The number of lines that start at `offset` or before it. -/
def linesUpTo (t : LineTable) (offset : Coord) : Nat :=
  (t.starts.takeWhile fun s => decide (s ≤ offset)).length

/-- The position of a byte; past the end it is the end. -/
def position (t : LineTable) (offset : Coord) : Position :=
  let offset := t.clamp offset
  let line := t.linesUpTo offset
  ⟨.sat line, offset.down (t.starts[line - 1]?.getD .zero), offset⟩

/-- The last offset of the line of index `i`: its newline, or the end of the text. -/
def lineEnd (t : LineTable) (i : Nat) : Nat :=
  match t.starts[i + 1]? with
  | some next => next.val - 1
  | none => t.length.val

/-- The offset of a line and a column of it, if the text has them. -/
def offset? (t : LineTable) (line column : Coord) : Option Coord :=
  if line = .zero then none
  else do
    let start ← t.starts[line.val - 1]?
    let offset ← Coord.ofNat? (start.val + column.val)
    if offset.val ≤ t.lineEnd (line.val - 1) then some offset else none

/-- A position known by line and column, with its offset filled in. -/
def locate? (t : LineTable) (p : Position) : Option Position :=
  (t.offset? p.line p.column).map fun offset => ⟨p.line, p.column, offset⟩

end LineTable
end EditLex
