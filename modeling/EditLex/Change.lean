import EditLex.Position

/-!
Edits of a text, and the part of the old text whose units they leave in doubt.
-/
namespace EditLex

/-- Bytes `start` to `stop` of the old text give way to `length` new ones. -/
structure Change where
  start : Coord
  stop : Coord
  length : Coord
  deriving DecidableEq

/-- The part of the old text that has to be read again. -/
structure Damage where
  start : Coord
  stop : Coord
  deriving DecidableEq

/-- A sum of coordinates that has to be one. -/
def Coord.plus (c d : Coord) : Except Fault Coord :=
  match Coord.ofNat? (c.val + d.val) with
  | some sum => .ok sum
  | none => .error .addOverflow

/-- A difference of coordinates that has to be one. -/
def Coord.minus (c d : Coord) : Except Fault Coord :=
  if c < d then .error .subOverflow else .ok (c.down d)

namespace Change

/-- `length` bytes put in at `place`. -/
def insert (place length : Coord) : Change := ⟨place, place, length⟩

/-- `length` bytes taken out from `start` on. -/
def delete (start length : Coord) : Except Fault Change :=
  return ⟨start, ← start.plus length, .zero⟩

/-- `removed` bytes from `start` on replaced by `length` others. -/
def replace (start removed length : Coord) : Except Fault Change :=
  return ⟨start, ← start.plus removed, length⟩

/-- The bytes from `start` to `stop` replaced by `replacement`. -/
def ofReplacement (start stop : Coord) (replacement : Bytes) : Change :=
  ⟨start, stop, .sat replacement.length⟩

/-- The number of bytes taken out. -/
def removed (c : Change) : Except Fault Coord := c.stop.minus c.start

/-- The end of the new bytes in the new text. -/
def newStop (c : Change) : Except Fault Coord := c.start.plus c.length

/-- The damage of a change, widened to the front by `lookbehind` bytes. -/
def damage (c : Change) (lookbehind : Coord) : Damage := ⟨c.start.down lookbehind, c.stop⟩

def render (c : Change) : String :=
  "TextChange \x7b start: " ++ toString c.start ++ ", old_end: " ++ toString c.stop
    ++ ", new_len: " ++ toString c.length ++ " \x7d"

end Change

namespace Damage

/-- A unit that ends at `stop` lies before the damage. One that touches it does not: new bytes may
lengthen it. -/
def spares (d : Damage) (stop : Coord) : Bool := decide (stop < d.start)

def render (d : Damage) : String :=
  "DamageRegion \x7b start: " ++ toString d.start ++ ", end: " ++ toString d.stop ++ " \x7d"

end Damage
end EditLex
