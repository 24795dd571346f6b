import EditLex.Cache.Watched
import EditLex.Text.Blank

/-!
Runs of a cache of numbers derived from texts, with witnesses of the texts under labels.
-/
namespace EditLex.Cache

/-- A text with an identity. -/
abbrev SharedText := Shared String

inductive Op where
  | create (name text : String)
  | alias (name other : String)
  | release (name : String)
  /-- How many names hold the source of `name`. -/
  | holders (name : String)
  | insert (key name : String) (value : Int)
  | get (key name : String)
  /-- Derives the number of words of the source, plus `extra`. -/
  | getOrDerive (key name : String) (extra : Int)
  | peek (key : String)
  | remove (key : String)
  | purge
  /-- Whether two keys share one result. -/
  | same (key other : String)
  | render
  | witness (label name : String)
  | copyWitness (label other : String)
  | isOf (label name : String)
  | isLive (label : String)
  | renderWitness (label : String)
  deriving DecidableEq, Repr

inductive Answer where
  | none
  | value (x : Int)
  | flag (b : Bool)
  | count (n : Nat)
  | text (t : String)
  /-- A result, and the text it was derived from if it was derived now. -/
  | derived (x : Int) (source : Option String)
  deriving DecidableEq, Repr

/-- A cache of numbers derived from texts. -/
abbrev Run := Watched String Int

namespace Run

/-- What is shown of an answer: of a result, its value. -/
def answer : Watched.Answer Int → Answer
  | .none | .use .done | .use (.result .none) => .none
  | .use (.released found) | .flag found => .flag found
  | .use (.result (.some result)) => .value result.value
  | .use (.purged count) => .count count

/-- What a key is mapped to when it is derived from a text. -/
def derive (extra : Int) (text : String) : Int := Text.wordCount text.toList + extra

def perform (r : Run) (op : Watched.Op String Int) : Logged (Answer × Run) := do
  let (reply, next) ← Watched.step r op
  return (answer reply, next)

/-- Goes on with the source of `name`; a name that holds none leaves all as it is. -/
def withSource (r : Run) (name : String) (next : SharedText → Logged (Answer × Run)) :
    Logged (Answer × Run) :=
  match r.holders.find? name with
  | .some source => next source
  | .none => return (.none, r)

def step (r : Run) : Op → Logged (Answer × Run)
  | .create name text => r.perform (.use (.create name text))
  | .alias name other => r.perform (.use (.share name other))
  | .release name => r.perform (.use (.release name))
  | .holders name => r.withSource name fun source =>
    return (.count (r.holders.count source.id), r)
  | .insert key name x => r.perform (.use (.insert key name x))
  | .get key name => r.perform (.use (.get key name))
  | .getOrDerive key name extra => r.withSource name fun source => do
    let (reply, next) ← r.perform
      (.use (.getOrDerive key name fun text => return derive extra text))
    let isNew := next.cache.nextId != r.cache.nextId
    return (match reply with
      | .value x => .derived x (if isNew then .some source.value else none)
      | reply => reply, next)
  | .peek key => r.perform (.use (.peek key))
  | .remove key => r.perform (.use (.remove key))
  | .purge => r.perform (.use .purge)
  | .same key other =>
    return (.flag (match r.cache.peek key, r.cache.peek other with
      | .some a, .some b => a.id == b.id
      | _, _ => false), r)
  | .render => return (.text r.cache.render, r)
  | .witness label name => r.perform (.witness label name)
  | .copyWitness label other => r.perform (.copyWitness label other)
  | .isOf label name => r.perform (.isOf label name)
  | .isLive label => r.perform (.isLive label)
  | .renderWitness label =>
    return (match r.witness? label with
      | .some witness => .text (witness.render r.held)
      | .none => .none, r)

end Run
end EditLex.Cache
