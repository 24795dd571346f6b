import EditLex.Event
import EditLex.Shared

/-!
A cache of results derived from shared sources. A result is given out only for the very source it
was derived from. The cache holds no source; which of them are held elsewhere comes as `held`.
-/
namespace EditLex

/-- How many look-ups were answered, found no entry, or found one of another source. -/
structure LookupCounts where
  hits : Nat := 0
  misses : Nat := 0
  stale : Nat := 0
  deriving DecidableEq, Repr

/-- A result and the source it was derived from. -/
structure Entry (δ : Type) where
  origin : Witness
  derived : Shared δ

structure Cache (δ : Type) where
  entries : List (String × Entry δ) := []
  counts : LookupCounts := {}
  /-- The identity of the next result. -/
  nextId : Nat := 0

namespace Cache

variable {α δ : Type}

def empty : Cache δ := {}

def find? (c : Cache δ) (key : String) : Option (Entry δ) := c.entries.lookup key

def erase (c : Cache δ) (key : String) : Cache δ :=
  { c with entries := c.entries.filter fun e => e.1 != key }

def size (c : Cache δ) : Nat := c.entries.length

def isEmpty (c : Cache δ) : Bool := c.entries.isEmpty

/-- Keeps `derived` as derived from `source`, in the place of any entry under `key`. -/
def insert (c : Cache δ) (key : String) (source : Shared α) (derived : δ) :
    Logged (Shared δ × Cache δ) :=
  let result : Shared δ := ⟨c.nextId, derived⟩
  ⟨(result, { c.erase key with
      entries := (key, ⟨.of source, result⟩) :: (c.erase key).entries
      nextId := c.nextId + 1 }),
    [.resultCached key]⟩

/-- The result under `key`, if it was derived from `source`. An entry of another source stays
unless its own source is held no more. -/
def get (c : Cache δ) (held : Nat → Bool) (key : String) (source : Shared α) :
    Logged (Option (Shared δ) × Cache δ) :=
  match c.find? key with
  | none => ⟨(none, { c with counts.misses := c.counts.misses + 1 }), []⟩
  | some entry =>
    if entry.origin.isOf source then
      ⟨(some entry.derived, { c with counts.hits := c.counts.hits + 1 }), []⟩
    else
      let c := { c with counts.stale := c.counts.stale + 1 }
      if entry.origin.isLive held then ⟨(none, c), []⟩
      else ⟨(none, c.erase key), [.resultEvicted key]⟩

/-- The result under `key` for `source`, derived and kept if the look-up gives none. -/
def getOrDerive (c : Cache δ) (held : Nat → Bool) (key : String) (source : Shared α)
    (derive : α → Logged δ) : Logged (Shared δ × Cache δ) := do
  match ← c.get held key source with
  | (some result, c) => return (result, c)
  | (none, c) => c.insert key source (← derive source.value)

/-- The result under `key`, whatever its source. -/
def peek (c : Cache δ) (key : String) : Option (Shared δ) := (c.find? key).map (·.derived)

def remove (c : Cache δ) (key : String) : Option (Shared δ) × Cache δ := (c.peek key, c.erase key)

/-- Drops the entries whose sources are held no more, and tells how many. -/
def purge (c : Cache δ) (held : Nat → Bool) : Logged (Nat × Cache δ) :=
  let entries := c.entries.filter fun e => e.2.origin.isLive held
  let purged := c.entries.length - entries.length
  ⟨(purged, { c with entries }), if purged = 0 then [] else [.resultsPurged purged]⟩

def render (c : Cache δ) : String :=
  "DerivedCache \x7b entries: " ++ toString c.size ++ ", stats: CacheStats \x7b hits: "
    ++ toString c.counts.hits ++ ", misses: " ++ toString c.counts.misses ++ ", stale: "
    ++ toString c.counts.stale ++ " \x7d \x7d"

end Cache
end EditLex
