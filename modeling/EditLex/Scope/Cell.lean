import EditLex.Event
import EditLex.Fault

/-!
Cells whose value can be overridden for a while. A cell is not to be written while it is being
read; an override remembers the value before it, and ending the override puts that value back.
-/
namespace EditLex.Scope

/-- A value and the number of readers that hold it. -/
structure Cell where
  value : Int := 0
  readers : Nat := 0
  deriving DecidableEq, Repr

namespace Cell

/-- The cell with another value, unless it is being read. -/
def write (c : Cell) (value : Int) : Except Fault Cell :=
  if c.readers = 0 then .ok { c with value } else .error .beingRead

def render (c : Cell) : String := "DynamicCell(" ++ toString c.value ++ ")"

/-- How a cell looks from outside the thread that reads it. -/
def renderElsewhere (c : Cell) : String :=
  if c.readers = 0 then c.render else "DynamicCell(<locked>)"

end Cell

/-- An override that has not ended: its cell, and the value from before. -/
structure Guard where
  cell : Nat
  prior : Int
  deriving DecidableEq, Repr

def Guard.render (g : Guard) : String :=
  "OverrideGuard \x7b prior: Some(" ++ toString g.prior ++ "), .. \x7d"

/-- The cells by number, the name of the document, the guards that are kept by name (newest first),
and what happened (newest first). -/
structure World where
  cells : List Cell
  document : Option String := none
  guards : List (String × Guard) := []
  journal : List Event := []

namespace World

def cell (w : World) (c : Nat) : Cell := w.cells[c]?.getD {}

/-- A cell changed by a write, with the event of it. -/
def write (w : World) (c : Nat) (value : Int) (event : Event) : Except Fault World := do
  let cell ← (w.cell c).write value
  return { w with cells := w.cells.set c cell, journal := event :: w.journal }

/-- Begins an override. -/
def override (w : World) (c : Nat) (value : Int) : Except Fault (Guard × World) :=
  return (⟨c, (w.cell c).value⟩, ← w.write c value .cellOverridden)

/-- Ends an override. -/
def restore (w : World) (g : Guard) : Except Fault World := w.write g.cell g.prior .cellRestored

/-- One more reader of a cell. -/
def beginRead (w : World) (c : Nat) : World :=
  { w with cells := w.cells.modify c fun x => { x with readers := x.readers + 1 } }

/-- One reader of a cell less. -/
def endRead (w : World) (c : Nat) : World :=
  { w with cells := w.cells.modify c fun x => { x with readers := x.readers - 1 } }

/-- Another document, with the event of the change. -/
def setDocument (w : World) (document : Option String) (event : Event) : World :=
  { w with document, journal := event :: w.journal }

end World
end EditLex.Scope
