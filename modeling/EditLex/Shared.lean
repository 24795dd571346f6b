/-!
Values with an identity, and witnesses of an identity that do not keep the value.
-/
namespace EditLex

/-- A value held in one place. Two of them are the same object when their ids agree, whatever they
hold. -/
structure Shared (α : Type) where
  id : Nat
  value : α
  deriving DecidableEq

/-- Remembers an object without holding it. -/
structure Witness where
  target : Nat
  deriving DecidableEq

namespace Witness

variable {α : Type}

def of (object : Shared α) : Witness := ⟨object.id⟩

/-- `candidate` is the object remembered. -/
def isOf (w : Witness) (candidate : Shared α) : Bool := w.target == candidate.id

/-- The object remembered is still held, `held` telling which objects are. -/
def isLive (w : Witness) (held : Nat → Bool) : Bool := held w.target

def render (w : Witness) (held : Nat → Bool) : String :=
  "StalenessToken \x7b live: " ++ (if w.isLive held then "true" else "false") ++ " \x7d"

end Witness
end EditLex
