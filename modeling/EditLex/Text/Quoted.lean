import EditLex.Text.Invisible

/-!
Quoted texts, as they are shown to a programmer.
-/
namespace EditLex.Text

/-- The hexadecimal digits of `n`, highest first. -/
def hexDigits (n : Nat) : String := String.ofList (Nat.toDigits 16 n)

/-- `c` by its number. -/
def codeEscape (c : Char) : String := "\\u\x7b" ++ hexDigits c.toNat ++ "\x7d"

/-- `c` inside quotes. Quotes, backslashes and what does not show on its own are escaped. -/
def escape (c : Char) : String :=
  if c = '"' then "\\\""
  else if c = '\\' then "\\\\"
  else if c = '\t' then "\\t"
  else if c = '\r' then "\\r"
  else if c = '\n' then "\\n"
  else if c = '\x00' then "\\0"
  else if c.toNat < 0x20 ∨ c.toNat = 0x7F then codeEscape c
  else if 0x80 ≤ c.toNat ∧ isInvisible c then codeEscape c
  else c.toString

def quoted (text : String) : String :=
  "\"" ++ String.join (text.toList.map escape) ++ "\""

/-- A text that may be missing. -/
def quotedOption : Option String → String
  | none => "None"
  | some text => "Some(" ++ quoted text ++ ")"

end EditLex.Text
