import EditLex.Source

/-!
A reader for lexers, which looks ahead of the byte it takes next. What has been pulled from the
source and not yet been taken stands in the window; the reader's position is that of the window's
first byte, behind the source's by the window.
-/
namespace EditLex

structure Lookahead (σ : Type) where
  source : Source σ
  window : Bytes := []
  position : Position
  pullSize : Nat

/-- Accepts a byte or rejects it, and may remember a number from each byte to the next, at first 0:
gives the number to remember for an accepted byte, and none for a rejected one. -/
abbrev Lookahead.Test := Nat → UInt8 → Option Nat

namespace Lookahead

/-- Accepts what `p` holds of, and remembers nothing. -/
def Test.ofPredicate (p : UInt8 → Bool) : Test := fun memory b => if p b then some memory else none

variable {σ : Type}

def defaultPullSize : Nat := 256

/-- The largest count there is; looking that far ahead is looking past every end. -/
def maxCount : Nat := 18446744073709551615

/-- Pulls of no bytes are taken as pulls of one. -/
def ofSource (source : Source σ) (pullSize : Nat := defaultPullSize) : Lookahead σ :=
  { source, position := source.position, pullSize := max pullSize 1 }

/-- Pulls until the window holds `need` bytes, the input ends, or there is no room for a pull. -/
def fill [Producer σ] (s : Lookahead σ) (need : Nat) : Lookahead σ :=
  if bufferLimit < s.pullSize then s
  else
    let p := s.source.pullAtLeast s.pullSize (need - s.window.length)
    { s with source := p.2, window := s.window ++ p.1 }

/-- The byte `n` places past the next one. -/
def nth [Producer σ] (s : Lookahead σ) (n : Nat) : Option UInt8 × Lookahead σ :=
  if maxCount ≤ n then (none, s)
  else
    match s.window[n]? with
    | some b => (some b, s)
    | none =>
      let filled := s.fill (n + 1)
      (filled.window[n]?, filled)

def peek [Producer σ] (s : Lookahead σ) : Option UInt8 × Lookahead σ := s.nth 0

/-- Takes one byte. -/
def take [Producer σ] (s : Lookahead σ) : Option UInt8 × Lookahead σ :=
  match s.peek with
  | (none, s) => (none, s)
  | (some b, s) =>
    (some b, { s with window := s.window.tail, position := s.position.advance [b] })

/-- Takes the byte `b` if it is next. -/
def takeIf [Producer σ] (s : Lookahead σ) (b : UInt8) : Bool × Lookahead σ :=
  let (next, s) := s.peek
  if next = some b then (true, s.take.2) else (false, s)

def atEnd [Producer σ] (s : Lookahead σ) : Bool × Lookahead σ :=
  let (next, s) := s.peek
  (next.isNone, s)

/-- Takes bytes from the window while `p` accepts them, in at most `fuel` looks; the position
stays behind. The bytes before, `taken`, and the answer are newest first. -/
def gatherUpTo [Producer σ] (p : Test) : Nat → Nat → Bytes → Lookahead σ → Bytes × Lookahead σ
  | 0, _, taken, s => (taken, s)
  | fuel + 1, memory, taken, s =>
    match s.peek with
    | (none, s) => (taken, s)
    | (some b, s) =>
      match p memory b with
      | none => (taken, s)
      | some memory => gatherUpTo p fuel memory (b :: taken) { s with window := s.window.tail }

/-- Takes bytes while `p` accepts them, in at most `fuel` looks. -/
def takeWhileUpTo [Producer σ] (fuel : Nat) (p : Test) (s : Lookahead σ) : Bytes × Lookahead σ :=
  let (taken, s) := gatherUpTo p fuel 0 [] s
  (taken.reverse, { s with position := s.position.advance taken.reverse })

/-- The answer of an operation that led from `s` to `t` and for which the window was to hold `need`
bytes. If it holds fewer though the input has not ended, there was no room for more, which is a
fault, and the position stays that of `s`. If there was room in the window itself, it has been
enlarged for the pull and stays so, with zeros. -/
def settle {α : Type} (s t : Lookahead σ) (need : Nat) (answer : α) :
    Except Fault α × Lookahead σ :=
  if need ≤ t.window.length then (.ok answer, t)
  else if bufferLimit < t.pullSize then (.error .noRoom, { t with position := s.position })
  else if t.source.ended then (.ok answer, t)
  else
    (.error .noRoom,
      { t with position := s.position, window := t.window ++ List.replicate t.pullSize 0 })

end Lookahead
end EditLex
