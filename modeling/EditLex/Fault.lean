/-!
The ways a computation stops short.
-/
namespace EditLex

/-- Why a computation was abandoned. -/
inductive Fault where
  /-- A position was asked for on line zero. -/
  | lineZero
  | addOverflow
  | subOverflow
  /-- A cell was written while a reader held its value. -/
  | beingRead
  /-- There is no room for a buffer. -/
  | noRoom
  /-- A program raised it. -/
  | raised (text : String)
  deriving DecidableEq, Repr

/-- The text a fault is reported with. -/
def Fault.message : Fault → String
  | .lineZero => "Position::new: lines are 1-based"
  | .addOverflow => "attempt to add with overflow"
  | .subOverflow => "attempt to subtract with overflow"
  | .beingRead => "RefCell already borrowed"
  | .noRoom => "capacity overflow"
  | .raised text => text

/-- The most bytes that a buffer has room for. -/
def bufferLimit : Nat := 9223372036854775807

end EditLex
