import EditLex.Source

/-!
The operations of a source as values, and runs of them. Here it is a fault, and not an end, if there
is no room for the bytes that an operation asks for.
-/
namespace EditLex.Source

inductive Op where
  | pull (n : Nat)
  | read (n : Nat)
  | readAll
  | readText
  | ask
  | moveTo (position : Position)
  | restart (position : Position) (initial : Bytes)
  deriving DecidableEq

inductive Answer where
  | done
  | bytes (taken : Bytes)
  /-- How many bytes were read, and the buffer. -/
  | buffer (count : Nat) (content : Bytes)
  | text (content : Option Bytes)
  deriving DecidableEq

variable {σ : Type}

/-- The answer of an operation that left `s`. If it fell `short`, the input has ended, or else there
was no room. -/
def settle (s : Source σ) (short : Bool) (answer : Answer) : Except Fault Answer × Source σ :=
  (if short && !s.ended then .error .noRoom else .ok answer, s)

/-- Performs an operation. A pull of `n` bytes is made into a buffer of as many. -/
def perform [Bounded σ] (s : Source σ) : Op → Except Fault Answer × Source σ
  | .pull n =>
    if bufferLimit < n then (.error .noRoom, s)
    else
      let (taken, s) := s.pull n
      s.settle (n ≠ 0 && taken.isEmpty) (.bytes taken)
  | .read n =>
    if bufferLimit < n then (.error .noRoom, s)
    else
      let (count, content, s) := s.read n
      s.settle (n ≠ 0 && count = 0) (.buffer count content)
  | .readAll =>
    let (content, s) := s.readAll
    s.settle true (.buffer content.length content)
  | .readText =>
    let (content, s) := s.readText
    s.settle true (.text content)
  | .ask =>
    let (chunk, t) := s.ask
    (if Producer.hasRoom s.producer then .ok (.bytes chunk) else .error .noRoom, t)
  | .moveTo position => (.ok .done, s.moveTo position)
  | .restart position initial => (.ok .done, s.restart position initial)

end EditLex.Source
