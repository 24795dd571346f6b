import EditLex.Focused
import EditLex.Producer.Pieces
import EditLex.Scan
import EditLex.Settings

/-!
Lexers, and the loop that runs one over a text. The loop takes the positions around each unit from
the reader, and it goes on only after a unit that took a byte, so it ends with the input.
-/
namespace EditLex

/-- The two methods of a lexer with state `S`: passing over what lies between units, and reading
one unit, or none to stop early. Both may see the name of the document. -/
structure Lexer (S U : Type) where
  skip : Option String → S → Scan S
  read : Option String → S → Scan (Option U × S)

/-- A unit and the positions of its first byte and of the byte past it. -/
structure Token (U : Type) where
  value : U
  start : Position
  stop : Position
  deriving DecidableEq

/-- What a lexer leaves: the units, its state, the reader, and the place where a unit took no byte,
if one did. -/
structure Lexing (σ S U : Type) where
  tokens : List (Token U)
  state : S
  reader : Lookahead σ
  stall : Option Position := none

/-- The events of the source, and that of a stall. -/
def Lexing.events {σ S U : Type} (r : Lexing σ S U) : List Event :=
  r.reader.source.journal.reverse ++ (r.stall.map Event.lexerStalled).toList

namespace Lexer

variable {σ S U : Type}

/-- Runs the lexer until the reader is at its end, the lexer stops, or a unit takes no byte. -/
def run [Bounded σ] (lexer : Lexer S U) (document : Option String) (state : S)
    (reader : Lookahead σ) : Lexing σ S U :=
  let skipped := (lexer.skip document state).run reader
  let ahead := skipped.2.atEnd
  if ahead.1 then ⟨[], skipped.1, ahead.2, none⟩
  else
    let unit := (lexer.read document skipped.1).run ahead.2
    match unit.1.1 with
    | none => ⟨[], unit.1.2, unit.2, none⟩
    | some value =>
      if _h : unit.2.position.offset = ahead.2.position.offset then
        ⟨[], unit.1.2, unit.2, some ahead.2.position⟩
      else
        let rest := run lexer document unit.1.2 unit.2
        { rest with tokens := ⟨value, ahead.2.position, unit.2.position⟩ :: rest.tokens }
termination_by reader.left
decreasing_by
  have hs := ((lexer.skip document state).behind_run reader).left_le
  have ha := (skipped.2.behind_nth 0).left_le
  have hu := ((lexer.read document skipped.1).behind_run ahead.2).left_lt
    fun e => _h (congrArg Position.offset e)
  exact Nat.lt_of_lt_of_le hu (Nat.le_trans ha hs)

/-- The units of `text`, which begins at `start`, read in chunks as the settings have them. -/
def tokensFrom (lexer : Lexer S U) (document : Option String) (settings : Settings) (state : S)
    (start : Position) (text : Bytes) : Logged (List (Token U) × S) :=
  let slices := Slices.ofText text settings.chunkSize
  let r := lexer.run document state (.ofSource (.beginAt [] slices start))
  ⟨(r.tokens, r.state), r.events⟩

/-- The units of a whole text. -/
def tokens (lexer : Lexer S U) (document : Option String) (settings : Settings) (state : S)
    (text : Bytes) : Logged (Focused (Token U) × S) := do
  let (tokens, state) ← lexer.tokensFrom document settings state .start text
  return (.ofList tokens, state)

end Lexer
end EditLex
