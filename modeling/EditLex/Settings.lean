import EditLex.Event
import EditLex.Text.Blank

/-!
The settings of lexing, from defaults, from code and from an environment.
-/
namespace EditLex

/-- The size of the chunks a text is handed to the lexer in, and how far before an edit units are
lexed again. -/
structure Settings where
  chunkSize : Nat := 8192
  lookbehind : Coord := .zero
  deriving DecidableEq

namespace Settings

instance : Inhabited Settings where
  default := {}

/-- Chunks of no bytes are taken as chunks of one. -/
def withChunkSize (s : Settings) (size : Nat) : Settings :=
  { s with chunkSize := if size = 0 then 1 else size }

def withLookbehind (s : Settings) (lookbehind : Coord) : Settings := { s with lookbehind }

/-- A number up to `limit`: decimal digits, with a plus sign or without. -/
def parseNumber (limit : Nat) (cs : List Char) : Option Nat :=
  let digits := match cs with
    | '+' :: digits => digits
    | digits => digits
  if digits.isEmpty || !digits.all Char.isDigit then none
  else
    let n := digits.foldl (fun n d => 10 * n + (d.toNat - '0'.toNat)) 0
    if n ≤ limit then some n else none

/-- The number that a variable holds; any other value is reported and passed over. -/
def readNumber (limit : Nat) (name : String) : Option String → Logged (Option Nat)
  | none => ⟨none, []⟩
  | some raw =>
    match parseNumber limit (Text.trim raw.toList) with
    | some n => ⟨some n, []⟩
    | none => ⟨none, [.settingIgnored name raw]⟩

def chunkSizeVariable : String := "RELEX_CHUNK_SIZE"

def lookbehindVariable : String := "RELEX_LOOKBEHIND"

/-- The defaults, changed by the variables that are set. -/
def ofEnvironment (lookup : String → Option String) : Logged Settings := do
  let size ← readNumber 18446744073709551615 chunkSizeVariable (lookup chunkSizeVariable)
  let back ← readNumber Coord.limit lookbehindVariable (lookup lookbehindVariable)
  let s : Settings := {}
  let s := match size with
    | some n => s.withChunkSize n
    | none => s
  return match back with
    | some n => s.withLookbehind (.sat n)
    | none => s

def render (s : Settings) : String :=
  "RelexConfig \x7b chunk_size: " ++ toString s.chunkSize ++ ", lookbehind: "
    ++ toString s.lookbehind ++ " \x7d"

end Settings
end EditLex
