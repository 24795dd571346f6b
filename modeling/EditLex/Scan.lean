import EditLex.Lookahead.Bounded

/-!
Programs over a reader that looks ahead: trees of its operations, each branching on the answer. A
lexer is written as such programs, so that it runs over every source. The predicates of `takeWhile`
and `lookWhile` remember something of the bytes they have accepted, so a loop over the bytes ahead
is one of them. A program may also look at the source below the reader, and so see how far that has
been read and where its chunks end.
-/
namespace EditLex

inductive Scan (α : Type) : Type where
  | done (a : α)
  | nth (n : Nat) (next : Option UInt8 → Scan α)
  | take (next : Option UInt8 → Scan α)
  | takeWhile (p : Lookahead.Test) (next : Bytes → Scan α)
  | lookWhile (p : Lookahead.Test) (next : Bytes → Scan α)
  | position (next : Position → Scan α)
  | source (next : Source.View → Scan α)

namespace Scan

variable {α β σ : Type}

def bind : Scan α → (α → Scan β) → Scan β
  | done a, f => f a
  | nth n next, f => nth n fun b => (next b).bind f
  | take next, f => take fun b => (next b).bind f
  | takeWhile p next, f => takeWhile p fun taken => (next taken).bind f
  | lookWhile p next, f => lookWhile p fun seen => (next seen).bind f
  | position next, f => position fun place => (next place).bind f
  | source next, f => source fun view => (next view).bind f

instance : Monad Scan where
  pure := done
  bind := bind

/-- The next byte. -/
def peek : Scan (Option UInt8) := nth 0 done

/-- The next byte, taken. -/
def byte : Scan (Option UInt8) := take done

/-- The bytes that `p` accepts, taken. -/
def span (p : UInt8 → Bool) : Scan Bytes := takeWhile (.ofPredicate p) done

/-- The position of the next byte. -/
def here : Scan Position := position done

/-- What the source shows of itself. -/
def view : Scan Source.View := source done

/-- The program's result, and the reader after it. Want of room passes for the end of the input. -/
def run [Bounded σ] : Scan α → Lookahead σ → α × Lookahead σ
  | done a, s => (a, s)
  | nth n next, s => let (b, s) := s.nth n; (next b).run s
  | take next, s => let (b, s) := s.take; (next b).run s
  | takeWhile p next, s => let (taken, s) := s.takeWhile p; (next taken).run s
  | lookWhile p next, s => let (seen, s) := s.lookWhile p; (next seen).run s
  | position next, s => (next s.position).run s
  | source next, s => (next s.source.view).run s

/-- The program's result, unless there is no room for the bytes it looks at, and the reader after
it. -/
def attempt [Bounded σ] : Scan α → Lookahead σ → Except Fault α × Lookahead σ
  | done a, s => (.ok a, s)
  | nth n next, s =>
    let (b, t) := s.nth n
    match s.settle t (if n < Lookahead.maxCount then n + 1 else 0) b with
    | (.ok b, t) => (next b).attempt t
    | (.error e, t) => (.error e, t)
  | take next, s =>
    let (b, t) := s.take
    match s.settle t (if b.isSome then 0 else 1) b with
    | (.ok b, t) => (next b).attempt t
    | (.error e, t) => (.error e, t)
  | takeWhile p next, s =>
    let (taken, t) := s.takeWhile p
    match s.settle t 1 taken with
    | (.ok taken, t) => (next taken).attempt t
    | (.error e, t) => (.error e, t)
  | lookWhile p next, s =>
    let (seen, t) := s.lookWhile p
    match s.settle t (seen.length + 1) seen with
    | (.ok seen, t) => (next seen).attempt t
    | (.error e, t) => (.error e, t)
  | position next, s => (next s.position).attempt s
  | source next, s => (next s.source.view).attempt s

theorem behind_run [Bounded σ] (m : Scan α) (s : Lookahead σ) : s.Behind (m.run s).2 := by
  induction m generalizing s with
  | done a => exact .refl s
  | nth n next ih => exact (s.behind_nth n).trans (ih _ _)
  | take next ih => exact s.behind_take.trans (ih _ _)
  | takeWhile p next ih => exact (s.behind_takeWhile p).trans (ih _ _)
  | lookWhile p next ih => exact (s.behind_lookWhile p).trans (ih _ _)
  | position next ih => exact ih _ _
  | source next ih => exact ih _ _

end Scan
end EditLex
