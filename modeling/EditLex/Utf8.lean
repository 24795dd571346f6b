import EditLex.Position

/-!
UTF-8, read by a machine that takes one byte at a time. Validity, the longest valid part of some
bytes, the reason it ends, and the replacement of what is not valid all come from the one `step`.
-/
namespace EditLex.Utf8

/-- A byte that continues a character. -/
def isContinuation (b : UInt8) : Bool := 0x80 ≤ b && b ≤ 0xBF

/-- Between characters, or inside one: the next byte lies from `low` to `high`, and `more`
continuation bytes follow it. -/
inductive State where
  | boundary
  | inside (more : Nat) (low high : UInt8)
  deriving DecidableEq

/-- The state after the first byte of a character. -/
def opening (b : UInt8) : Option State :=
  if b < 0x80 then some .boundary
  else if b < 0xC2 then none
  else if b < 0xE0 then some (.inside 0 0x80 0xBF)
  else if b = 0xE0 then some (.inside 1 0xA0 0xBF)
  else if b = 0xED then some (.inside 1 0x80 0x9F)
  else if b < 0xF0 then some (.inside 1 0x80 0xBF)
  else if b = 0xF0 then some (.inside 2 0x90 0xBF)
  else if b < 0xF4 then some (.inside 2 0x80 0xBF)
  else if b = 0xF4 then some (.inside 2 0x80 0x8F)
  else none

/-- The state after one more byte, unless no character continues so. -/
def step : State → UInt8 → Option State
  | .boundary, b => opening b
  | .inside more low high, b =>
    if low ≤ b ∧ b ≤ high then
      match more with
      | 0 => some .boundary
      | more + 1 => some (.inside more 0x80 0xBF)
    else none

def run (s : State) (bytes : Bytes) : Option State := bytes.foldlM step s

/-- Whole characters and nothing else. -/
def Valid (bytes : Bytes) : Prop := run .boundary bytes = some .boundary

instance (bytes : Bytes) : Decidable (Valid bytes) :=
  inferInstanceAs (Decidable (run .boundary bytes = some .boundary))

/-- Why the longest valid part of some bytes ends where it ends. -/
inductive Ending where
  /-- Nothing follows it. -/
  | whole
  /-- What follows is no beginning of a character. -/
  | malformed
  /-- What follows is a character cut short by the end of the bytes. -/
  | truncated
  deriving DecidableEq, Repr

/-- The length of the longest valid part from the front, and why it ends. -/
structure Verdict where
  valid : Nat
  ending : Ending
  deriving DecidableEq

/-- The verdict on `bytes` behind `valid` bytes of whole characters and `held` bytes of one that
led to `s`. -/
def checkFrom (s : State) (valid held : Nat) : Bytes → Verdict
  | [] => ⟨valid, if s = .boundary then .whole else .truncated⟩
  | b :: bytes =>
    match step s b with
    | none => ⟨valid, .malformed⟩
    | some .boundary => checkFrom .boundary (valid + held + 1) 0 bytes
    | some s => checkFrom s valid (held + 1) bytes

def check (bytes : Bytes) : Verdict := checkFrom .boundary 0 0 bytes

/-- The character that stands for bytes that are none. -/
def replacement : Bytes := [0xEF, 0xBF, 0xBD]

/-- `bytes` with one replacement for each longest run that begins a character without ending it
and for each byte that begins none; `held` is the run behind `bytes`, last byte first. -/
def lossyFrom (s : State) (held : Bytes) : Bytes → Bytes
  | [] => if held.isEmpty then [] else replacement
  | b :: bytes =>
    match step s b with
    | some .boundary => held.reverse ++ b :: lossyFrom .boundary [] bytes
    | some s => lossyFrom s (b :: held) bytes
    | none =>
      let unfinished := if held.isEmpty then [] else replacement
      match opening b with
      | some .boundary => unfinished ++ b :: lossyFrom .boundary [] bytes
      | some s => unfinished ++ lossyFrom s [b] bytes
      | none => unfinished ++ replacement ++ lossyFrom .boundary [] bytes

def lossy (bytes : Bytes) : Bytes := lossyFrom .boundary [] bytes

/-- Offset `i` is an end of `text` or the first byte of a character. -/
def isBoundary (text : Bytes) (i : Nat) : Bool :=
  i == 0 || match text[i]? with
    | some b => !isContinuation b
    | none => i == text.length

/-- The text that valid bytes are. -/
def toString? (bytes : Bytes) : Option String :=
  String.fromUTF8? ⟨bytes.toArray⟩

end EditLex.Utf8
