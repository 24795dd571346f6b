import EditLex.Stack

/-!
A sequence with a focus between two of its elements. The part before the focus is kept closest
first, so that the sequence is `before` reversed and then `after` (`Focused.toList`).
-/
namespace EditLex

structure Focused (α : Type) where
  before : Stack α
  after : Stack α

namespace Focused

variable {α : Type}

def empty : Focused α := ⟨.empty, .empty⟩

instance : Inhabited (Focused α) where
  default := empty

/-- The sequence with the focus at its front. -/
def ofList (items : List α) : Focused α := ⟨.empty, .ofFront items⟩

/-- The sequence with the focus at its end. -/
def ofListAtEnd (items : List α) : Focused α := ⟨.ofBack items, .empty⟩

def toList (c : Focused α) : List α := c.before.items.reverse ++ c.after.items

/-- The number of elements before the focus. -/
def focus (c : Focused α) : Nat := c.before.size

def size (c : Focused α) : Nat := c.before.size + c.after.size

def isEmpty (c : Focused α) : Bool := c.size == 0

def atStart (c : Focused α) : Bool := c.before.size == 0

def atEnd (c : Focused α) : Bool := c.after.size == 0

/-- The element just after the focus. -/
def following? (c : Focused α) : Option α := c.after.peek?

/-- The element just before the focus. -/
def preceding? (c : Focused α) : Option α := c.before.peek?

/-- Puts `a` before the focus. -/
def insert (c : Focused α) (a : α) : Focused α := ⟨c.before.push a, c.after⟩

/-- Puts `items` in the place of all that follows the focus. -/
def replaceAfter (c : Focused α) (items : List α) : Focused α := ⟨c.before, .ofFront items⟩

/-- Drops what follows the focus. -/
def dropAfter (c : Focused α) : Focused α := c.replaceAfter []

/-- Moves the focus on by `n` elements or to the end. -/
def forward : Nat → Focused α → Focused α
  | 0, c => c
  | n + 1, c =>
    match c.after.pop? with
    | none => c
    | some (a, after) => forward n ⟨c.before.push a, after⟩

/-- Moves the focus back by `n` elements or to the front. -/
def backward : Nat → Focused α → Focused α
  | 0, c => c
  | n + 1, c =>
    match c.before.pop? with
    | none => c
    | some (a, before) => backward n ⟨before, c.after.push a⟩

/-- Moves the focus by `n` elements, or to the end that lies on the way. -/
def move (c : Focused α) (n : Int) : Focused α :=
  if 0 ≤ n then c.forward n.natAbs else c.backward n.natAbs

/-- Moves the focus to an index, or to the end. -/
def moveTo (c : Focused α) (index : Nat) : Focused α :=
  if c.focus ≤ index then c.forward (index - c.focus) else c.backward (c.focus - index)

instance [BEq α] : BEq (Focused α) where
  beq c d := c.focus == d.focus && c.size == d.size && c.toList == d.toList

def render (render : α → String) (c : Focused α) : String :=
  let items (s : Stack α) := "[" ++ ", ".intercalate (s.items.map render) ++ "]"
  "Cursor \x7b focus: " ++ toString c.focus ++ ", before: " ++ items c.before ++ ", after: "
    ++ items c.after ++ " \x7d"

end Focused
end EditLex
