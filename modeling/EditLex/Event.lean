import EditLex.Position
import EditLex.Text.Quoted

/-!
What the library reports while it works, and values that come with such a report.
-/
namespace EditLex

/-- Why a chunk producer ended its input early. -/
inductive ReadFailure where
  | io (text : String)
  /-- `offset` counts from where the producer began. -/
  | invalidUtf8 (offset : Nat)
  deriving DecidableEq, Repr

def ReadFailure.message : ReadFailure → String
  | .io text => "failed to read source chunk: " ++ text
  | .invalidUtf8 offset => "source is not valid UTF-8 at byte " ++ toString offset

inductive Level where
  | trace | debug | info | warn
  deriving DecidableEq, Repr

/-- The part of the library that an event comes from. -/
inductive Component where
  | source | producer | scope | cache | settings | lexer | update | document
  deriving DecidableEq, Repr

inductive Event where
  | sourceMade (start : Position) (length : Nat)
  | inputEnded (offset : Coord)
  | chunkLoaded (offset : Coord) (length : Nat)
  /-- A source left one position for another and dropped `discarded` unread bytes. -/
  | sourceMoved (fromPosition toPosition : Position) (discarded : Nat)
  | readerFailed (failure : ReadFailure) (delivered : Nat)
  | cellOverridden
  | cellRestored
  | resultCached (key : String)
  | resultEvicted (key : String)
  | resultsPurged (count : Nat)
  | settingIgnored (name value : String)
  /-- A lexer gave a unit and took no byte for it. -/
  | lexerStalled (place : Position)
  | updated (document : Option String) (resume : Position) (kept fresh : Nat)
  /-- The place to go on from lies inside a character of the new text. -/
  | resumeRejected (document : Option String) (resume : Position)
  | documentOpened (document : String) (bytes units : Nat)
  | editApplied (document : String) (version kept fresh : Nat)
  | textReplaced (document : String) (version : Nat)
  deriving DecidableEq

namespace Event

def level : Event → Level
  | sourceMade .. | inputEnded .. | chunkLoaded .. | cellOverridden | cellRestored => .trace
  | readerFailed .. | settingIgnored .. | lexerStalled .. | resumeRejected .. => .warn
  | documentOpened .. => .info
  | _ => .debug

def component : Event → Component
  | sourceMade .. | inputEnded .. | chunkLoaded .. | sourceMoved .. => .source
  | readerFailed .. => .producer
  | cellOverridden | cellRestored => .scope
  | resultCached .. | resultEvicted .. | resultsPurged .. => .cache
  | settingIgnored .. => .settings
  | lexerStalled .. => .lexer
  | updated .. | resumeRejected .. => .update
  | documentOpened .. | editApplied .. | textReplaced .. => .document

def message : Event → String
  | sourceMade .. => "chunked source created"
  | inputEnded .. => "end of input"
  | chunkLoaded .. => "refilled chunk"
  | sourceMoved .. => "repositioned chunked source"
  | readerFailed .. => "chunk reader failed, ending input"
  | cellOverridden => "dynamic cell overridden"
  | cellRestored => "dynamic cell restored"
  | resultCached .. => "cached derived result"
  | resultEvicted .. => "evicting derived result of reclaimed source"
  | resultsPurged .. => "purged derived results of reclaimed sources"
  | settingIgnored .. => "ignoring unparseable setting"
  | lexerStalled .. => "lexer returned a unit without consuming input"
  | updated .. => "relexed after edit"
  | resumeRejected .. =>
    "resume point is not a character boundary of the new text; lexing from scratch"
  | documentOpened .. => "opened document"
  | editApplied .. => "applied edit"
  | textReplaced .. => "replaced document text"

/-- The named values of an event, as texts. -/
def fields : Event → List (String × String)
  | sourceMade start length => [("start", start.render), ("len", toString length)]
  | inputEnded offset => [("offset", toString offset)]
  | chunkLoaded offset length => [("offset", toString offset), ("len", toString length)]
  | sourceMoved fromPosition toPosition discarded =>
    [("from", fromPosition.render), ("to", toPosition.render), ("discarded", toString discarded)]
  | readerFailed failure delivered =>
    [("error", failure.message), ("delivered", toString delivered)]
  | cellOverridden | cellRestored => []
  | resultCached key | resultEvicted key => [("key", Text.quoted key)]
  | resultsPurged count => [("purged", toString count)]
  | settingIgnored name value => [("var", name), ("value", value)]
  | lexerStalled place => [("at", place.display)]
  | updated document resume kept fresh =>
    [("document", Text.quotedOption document), ("resume", resume.display),
      ("reused", toString kept), ("relexed", toString fresh)]
  | resumeRejected document resume =>
    [("document", Text.quotedOption document), ("resume", resume.display)]
  | documentOpened document bytes units =>
    [("document", document), ("bytes", toString bytes), ("units", toString units)]
  | editApplied document version kept fresh =>
    [("document", document), ("version", toString version), ("reused", toString kept),
      ("relexed", toString fresh)]
  | textReplaced document version => [("document", document), ("version", toString version)]

end Event

/-- A value and the events on the way to it, oldest first. -/
structure Logged (α : Type) where
  value : α
  events : List Event

namespace Logged

/-- A single event. -/
def tell (event : Event) : Logged PUnit := ⟨⟨⟩, [event]⟩

instance : Monad Logged where
  pure a := ⟨a, []⟩
  bind x f := ⟨(f x.value).value, x.events ++ (f x.value).events⟩

variable {α β : Type}

@[simp] theorem value_pure (a : α) : (pure a : Logged α).value = a := rfl

@[simp] theorem value_bind (x : Logged α) (f : α → Logged β) :
    (x >>= f).value = (f x.value).value := rfl

@[simp] theorem events_pure (a : α) : (pure a : Logged α).events = [] := rfl

@[simp] theorem events_bind (x : Logged α) (f : α → Logged β) :
    (x >>= f).events = x.events ++ (f x.value).events := rfl

end Logged
end EditLex
