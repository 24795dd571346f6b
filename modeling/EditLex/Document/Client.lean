import EditLex.Document

/-!
Runs of a document with a client that keeps snapshots of it by name.
-/
namespace EditLex

structure Client (S U : Type) where
  document : Document S U
  kept : List (String × Snapshot) := []
  /-- The identity of the next snapshot. -/
  nextId : Nat

namespace Client

inductive Op where
  | edit (start stop : Coord) (replacement : Bytes)
  /-- Replaces the text by a new snapshot. -/
  | replace (text : Bytes)
  /-- Replaces the text by the snapshot kept under a label. -/
  | reinstall (label : String)
  /-- Keeps the current snapshot. -/
  | keep (label : String)
  /-- Keeps a new snapshot of the same text. -/
  | copy (label : String)
  | forget (label : String)
  /-- Looks up the units of the snapshot kept under a label, or of the current one. -/
  | units (label : Option String)
  deriving DecidableEq

inductive Answer (U : Type) where
  | done
  | edited (result : Except EditError Reuse)
  /-- Whether a snapshot was kept. -/
  | forgot (found : Bool)
  | units (found : Option (Focused (Token U)))

variable {S U : Type}

/-- A document opened on a new snapshot of `text`. -/
def load (name : String) (text : Bytes) (tokenizer : Tokenizer S U) : Logged (Client S U) :=
  return { document := ← Document.load name ⟨0, text⟩ tokenizer, nextId := 1 }

def find? (c : Client S U) (label : String) : Option Snapshot := c.kept.lookup label

/-- The client keeps the snapshot `id`. -/
def holds (c : Client S U) (id : Nat) : Bool := c.kept.any fun e => e.2.id == id

/-- Lets go of the snapshot under `label`. -/
def forget (c : Client S U) (label : String) : Client S U :=
  { c with kept := c.kept.filter fun e => e.1 != label }

/-- Keeps a snapshot under `label`, and no other. -/
def hold (c : Client S U) (label : String) (snapshot : Snapshot) : Client S U :=
  { c with kept := (label, snapshot) :: (c.forget label).kept }

def unitsOf (c : Client S U) (snapshot : Snapshot) : Logged (Answer U × Client S U) := do
  let (units, document) ← c.document.unitsOf c.holds snapshot
  return (.units (units.map (·.value)), { c with document })

def step (c : Client S U) : Op → Logged (Answer U × Client S U)
  | .edit start stop replacement => do
    let (result, document) ← c.document.edit c.nextId start stop replacement
    return (.edited result, { c with document, nextId := c.nextId + 1 })
  | .replace text => do
    let document ← c.document.replace ⟨c.nextId, text⟩
    return (.done, { c with document, nextId := c.nextId + 1 })
  | .reinstall label =>
    match c.find? label with
    | none => return (.done, c)
    | some snapshot => return (.done, { c with document := ← c.document.replace snapshot })
  | .keep label => return (.done, c.hold label c.document.text)
  | .copy label =>
    return (.done,
      { c.hold label ⟨c.nextId, c.document.text.value⟩ with nextId := c.nextId + 1 })
  | .forget label => return (.forgot (c.find? label).isSome, c.forget label)
  | .units none => c.unitsOf c.document.text
  | .units (some label) =>
    match c.find? label with
    | none => return (.units none, c)
    | some snapshot => c.unitsOf snapshot

/-- The client after some operations. -/
def run (c : Client S U) (ops : List Op) : Logged (Client S U) :=
  ops.foldlM (fun c op => return (← c.step op).2) c

end Client
end EditLex
