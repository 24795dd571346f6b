import EditLex.Ambient
import EditLex.Cache
import EditLex.Update

/-!
An open document: its text, its units, and edits of it. Each edit makes a new snapshot of the text;
the units of a snapshot are answered only while it is the current one.
-/
namespace EditLex

/-- A text with an identity. -/
abbrev Snapshot := Shared Bytes

/-- Why an edit is refused. -/
inductive EditError where
  | reversed (start stop : Coord)
  | outOfBounds (start stop : Coord) (length : Nat)
  | notCharBoundary (start stop : Coord)
  | tooLarge
  deriving DecidableEq

def EditError.message : EditError → String
  | .reversed start stop =>
    "edit range " ++ toString start ++ ".." ++ toString stop ++ " is reversed"
  | .outOfBounds start stop length =>
    "edit range " ++ toString start ++ ".." ++ toString stop ++ " is outside the document ("
      ++ toString length ++ " bytes)"
  | .notCharBoundary start stop =>
    "edit range " ++ toString start ++ ".." ++ toString stop ++ " splits a character"
  | .tooLarge => "edited document would exceed " ++ toString Coord.limit ++ " bytes"

/-- `version` counts the edits since the document was opened; `cache` holds the units of the
current snapshot under the document's name. -/
structure Document (S U : Type) where
  name : String
  text : Snapshot
  units : Focused (Token U)
  version : Nat
  tokenizer : Tokenizer S U
  cache : Cache (Focused (Token U))

namespace Document

variable {S U : Type}

/-- Opens a document on `text`. -/
def load (name : String) (text : Snapshot) (tokenizer : Tokenizer S U) :
    Logged (Document S U) := do
  let (units, tokenizer) ← Ambient.within name fun document =>
    tokenizer.tokenize document text.value
  Logged.tell (.documentOpened name text.value.length units.size)
  let (_, cache) ← Cache.empty.insert name text units
  return { name, text, units, version := 0, tokenizer, cache }

/-- Why the bytes from `start` to `stop` of `text` cannot give way to `replacement`. -/
def checkEdit (text : Bytes) (start stop : Coord) (replacement : Bytes) : Except EditError Unit :=
  if stop < start then .error (.reversed start stop)
  else if text.length < stop.val then .error (.outOfBounds start stop text.length)
  else if !Utf8.isBoundary text start.val || !Utf8.isBoundary text stop.val then
    .error (.notCharBoundary start stop)
  else if Coord.limit < text.length - (stop.val - start.val) + replacement.length then
    .error .tooLarge
  else .ok ()

/-- `text` with the bytes from `start` to `stop` replaced. -/
def splice (text : Bytes) (start stop : Coord) (replacement : Bytes) : Bytes :=
  text.take start.val ++ replacement ++ text.drop stop.val

/-- The document with another text and the units of it, one version on. -/
def install (d : Document S U) (text : Snapshot) (units : Focused (Token U))
    (tokenizer : Tokenizer S U) : Logged (Document S U) := do
  let (_, cache) ← d.cache.insert d.name text units
  return { d with text, units, version := d.version + 1, tokenizer, cache }

/-- Replaces the bytes from `start` to `stop`; the new snapshot has the identity `id`. A refused
edit changes nothing. -/
def edit (d : Document S U) (id : Nat) (start stop : Coord) (replacement : Bytes) :
    Logged (Except EditError Reuse × Document S U) :=
  match checkEdit d.text.value start stop replacement with
  | .error e => return (.error e, d)
  | .ok () => do
    let text : Snapshot := ⟨id, splice d.text.value start stop replacement⟩
    let change := Change.ofReplacement start stop replacement
    let (u, tokenizer) ← Ambient.within d.name fun document =>
      d.tokenizer.update document d.units change text.value
    let d ← d.install text u.units tokenizer
    Logged.tell (.editApplied d.name d.version u.reuse.kept u.reuse.fresh)
    return (.ok u.reuse, d)

/-- Replaces the whole text. -/
def replace (d : Document S U) (text : Snapshot) : Logged (Document S U) := do
  let (units, tokenizer) ← Ambient.within d.name fun document =>
    d.tokenizer.tokenize document text.value
  let d ← d.install text units tokenizer
  Logged.tell (.textReplaced d.name d.version)
  return d

/-- The units of `snapshot`, if it is the current text; `held` tells which snapshots others hold. -/
def unitsOf (d : Document S U) (held : Nat → Bool) (snapshot : Snapshot) :
    Logged (Option (Shared (Focused (Token U))) × Document S U) := do
  let (units, cache) ← d.cache.get (fun id => id == d.text.id || held id) d.name snapshot
  return (units, { d with cache })

end Document
end EditLex
