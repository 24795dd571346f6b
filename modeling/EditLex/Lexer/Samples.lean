import EditLex.Lexer.Words

/-!
Small lexers that differ in what they keep and in how far they look ahead. Their common state is
the number of units asked for so far.
-/
namespace EditLex

inductive Sample where
  /-- Words. -/
  | words
  /-- Single bytes, nothing between them. -/
  | bytes
  /-- Single bytes, each shown as the document's name and a count. -/
  | observer
  /-- Three dots or a single byte, with blanks and comments between them. -/
  | dots
  /-- `limit` words, then a unit that takes no byte. -/
  | stuck (limit : Nat)
  /-- `limit` words, then nothing. -/
  | limited (limit : Nat)
  deriving DecidableEq, Repr

/-- A unit of a sample lexer. -/
inductive SampleUnit where
  | word (w : Word)
  | byte (b : UInt8)
  | observation (document : Option String) (count : Nat)
  | ellipsis
  | stuck
  deriving DecidableEq

namespace Sample

def dot : UInt8 := 46

/-- The byte that begins a comment, which lasts to the end of its line. -/
def hash : UInt8 := 35

/-- Accepts blanks, line ends and comments, and remembers 1 inside a comment. -/
def dotsGap : Lookahead.Test := fun memory b =>
  if b = newline then some 0
  else if memory = 1 || b = hash then some 1
  else if b = 32 then some 0
  else none

def skip : Sample → Scan Unit
  | .bytes | .observer => return ()
  | .dots => do
    let _ ← Scan.takeWhile dotsGap .done
    return ()
  | .words | .stuck _ | .limited _ => Word.skip

def readByte : Scan (Option SampleUnit) := return (← Scan.byte).map .byte

def readWord : Scan (Option SampleUnit) := return (← Word.read).map .word

/-- There is a dot at each of these places ahead. -/
def dotsAt : List Nat → Scan Bool
  | [] => return true
  | n :: places => do
    if (← Scan.nth n .done) = some dot then dotsAt places else return false

/-- Three dots, or one byte. -/
def readDots : Scan (Option SampleUnit) := do
  if ← dotsAt [0, 1, 2] then
    let _ ← Scan.byte
    let _ ← Scan.byte
    let _ ← Scan.byte
    return some .ellipsis
  else readByte

/-- The unit asked for after `asked` others. -/
def read (document : Option String) (asked : Nat) : Sample → Scan (Option SampleUnit)
  | .words => readWord
  | .bytes => readByte
  | .observer => return (← Scan.byte).map fun _ => .observation document (asked + 1)
  | .dots => readDots
  | .stuck limit => if asked < limit then readWord else return some .stuck
  | .limited limit => if asked < limit then readWord else return none

def lexer (sample : Sample) : Lexer Nat SampleUnit where
  skip _ asked := do
    sample.skip
    return asked
  read document asked := return (← sample.read document asked, asked + 1)

end Sample
end EditLex
