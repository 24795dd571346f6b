import EditLex.Lexer

/-!
A lexer of identifiers, decimal numbers and single characters of punctuation, with white space
between them. It keeps no state.
-/
namespace EditLex

/-- A unit of text. The bytes of identifiers and numbers are valid UTF-8. -/
inductive Word where
  | ident (text : Bytes)
  | number (text : Bytes)
  | punct (c : Char)
  deriving DecidableEq

namespace Word

/-- Space, tab, line feed, form feed and carriage return. -/
def isSpace (b : UInt8) : Bool := b = 32 || b = 9 || b = 10 || b = 12 || b = 13

def isDigit (b : UInt8) : Bool := 48 ≤ b && b ≤ 57

def isLetter (b : UInt8) : Bool := (65 ≤ b && b ≤ 90) || (97 ≤ b && b ≤ 122)

/-- Letters, digits, the underscore, and every byte of a character beyond ASCII. -/
def isIdentByte (b : UInt8) : Bool := isLetter b || isDigit b || b = 95 || 128 ≤ b

/-- Passes over white space. -/
def skip : Scan Unit := do
  let _ ← Scan.span isSpace
  return ()

/-- The longest word from here on, if there is a byte. -/
def read : Scan (Option Word) := do
  match ← Scan.peek with
  | none => return none
  | some first =>
    if isDigit first then return some (.number (Utf8.lossy (← Scan.span isDigit)))
    else if isIdentByte first then
      return some (.ident (Utf8.lossy (← Scan.span isIdentByte)))
    else
      let _ ← Scan.byte
      return some (.punct (Char.ofNat first.toNat))

/-- The lexer of words. -/
def lexer : Lexer Unit Word where
  skip _ _ := skip
  read _ _ := return (← read, ())

end Word
end EditLex
