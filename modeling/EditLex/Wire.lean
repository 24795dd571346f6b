import EditLex.Change

/-!
Reading positions and changes from structured values that come from outside.
-/
namespace EditLex

/-- A structured value. Whole numbers and numbers with a fraction are kept apart. -/
inductive Wire where
  | null
  | bool (b : Bool)
  | whole (n : Int)
  | fractional
  | text (t : String)
  | list (items : List Wire)
  | record (fields : List (String × Wire))
  deriving Inhabited

namespace Wire

/-- A whole number that is a coordinate. -/
def coord? : Wire → Option Coord
  | .whole n => if 0 ≤ n then Coord.ofNat? n.toNat else none
  | _ => none

/-- Three coordinates: the fields of these names, or a list of exactly three items. -/
def triple? (a b c : String) : Wire → Option (Coord × Coord × Coord)
  | .list [x, y, z] => do return (← x.coord?, ← y.coord?, ← z.coord?)
  | .record fields => do
    let x ← fields.lookup a
    let y ← fields.lookup b
    let z ← fields.lookup c
    return (← x.coord?, ← y.coord?, ← z.coord?)
  | _ => none

/-- A position as it is written, a line zero included. -/
def position? (w : Wire) : Option Position :=
  (w.triple? "line" "column" "offset").map fun (line, column, offset) => ⟨line, column, offset⟩

def change? (w : Wire) : Option Change :=
  (w.triple? "start" "old_end" "new_len").map fun (start, oldEnd, newLen) =>
    ⟨start, oldEnd, newLen⟩

end Wire
end EditLex
