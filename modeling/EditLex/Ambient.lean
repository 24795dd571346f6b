import EditLex.Event

/-!
The name of the document that is being read, for the code that reads it.
-/
namespace EditLex.Ambient

/-- What `body` gives with `name` as the document; the name before comes back afterwards. -/
def within {α : Type} (name : String) (body : Option String → Logged α) : Logged α := do
  Logged.tell .cellOverridden
  let a ← body (some name)
  Logged.tell .cellRestored
  return a

end EditLex.Ambient
