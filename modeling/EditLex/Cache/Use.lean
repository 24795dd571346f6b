import EditLex.Cache

/-!
A cache in use: its sources are made, shared under several names and let go of. A source is held as
long as a name stands for it; the cache holds none.
-/
namespace EditLex.Cache

/-- The names that hold sources, and the id of the next source. -/
structure Holders (α : Type) where
  names : List (String × Shared α) := []
  nextId : Nat := 0

namespace Holders

variable {α : Type}

def find? (h : Holders α) (name : String) : Option (Shared α) := h.names.lookup name

/-- Lets go of what `name` holds. -/
def release (h : Holders α) (name : String) : Holders α :=
  { h with names := h.names.filter fun e => e.1 != name }

/-- Lets `name` hold `source`, and nothing else. -/
def hold (h : Holders α) (name : String) (source : Shared α) : Holders α :=
  { h.release name with names := (name, source) :: (h.release name).names }

/-- A new source under `name`, like no other whatever its value. -/
def create (h : Holders α) (name : String) (value : α) : Holders α :=
  { h.hold name ⟨h.nextId, value⟩ with nextId := h.nextId + 1 }

/-- The number of names that hold the object `id`. -/
def count (h : Holders α) (id : Nat) : Nat := h.names.countP fun e => e.2.id == id

def holds (h : Holders α) (id : Nat) : Bool := h.names.any fun e => e.2.id == id

end Holders

/-- A cache, and the holders of its sources. -/
structure Use (α δ : Type) where
  holders : Holders α := {}
  cache : Cache δ := {}

namespace Use

inductive Op (α δ : Type) where
  | create (name : String) (value : α)
  | share (name other : String)
  | release (name : String)
  | insert (key name : String) (derived : δ)
  | get (key name : String)
  | getOrDerive (key name : String) (derive : α → Logged δ)
  | peek (key : String)
  | remove (key : String)
  | purge

inductive Answer (δ : Type) where
  | done
  /-- Whether a name held a source. -/
  | released (found : Bool)
  | result (found : Option (Shared δ))
  | purged (count : Nat)

variable {α δ : Type}

def held (u : Use α δ) : Nat → Bool := u.holders.holds

/-- Goes on with the source of `name`; a name that holds none leaves all as it is. -/
def withSource (u : Use α δ) (name : String)
    (next : Shared α → Logged (Answer δ × Use α δ)) : Logged (Answer δ × Use α δ) :=
  match u.holders.find? name with
  | some source => next source
  | none => return (.result none, u)

def step (u : Use α δ) : Op α δ → Logged (Answer δ × Use α δ)
  | .create name value => return (.done, { u with holders := u.holders.create name value })
  | .share name other => u.withSource other fun source =>
    return (.done, { u with holders := u.holders.hold name source })
  | .release name =>
    return (.released (u.holders.find? name).isSome,
      { u with holders := u.holders.release name })
  | .insert key name derived => u.withSource name fun source => do
    let (result, cache) ← u.cache.insert key source derived
    return (.result (some result), { u with cache })
  | .get key name => u.withSource name fun source => do
    let (found, cache) ← u.cache.get u.held key source
    return (.result found, { u with cache })
  | .getOrDerive key name derive => u.withSource name fun source => do
    let (result, cache) ← u.cache.getOrDerive u.held key source derive
    return (.result (some result), { u with cache })
  | .peek key => return (.result (u.cache.peek key), u)
  | .remove key =>
    let (found, cache) := u.cache.remove key
    return (.result found, { u with cache })
  | .purge => do
    let (count, cache) ← u.cache.purge u.held
    return (.purged count, { u with cache })

/-- The use after some operations. -/
def run (u : Use α δ) (ops : List (Op α δ)) : Logged (Use α δ) :=
  ops.foldlM (fun u op => return (← u.step op).2) u

end Use
end EditLex.Cache
