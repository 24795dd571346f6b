import EditLex.Producer
import EditLex.Utf8

/-!
Producers over texts that are at hand: replies handed out as they are, pieces of which the empty
ones are passed over, and slices of one text.
-/
namespace EditLex

/-- The chunks of a list as they are, an empty one too, and empty ones ever after. -/
structure Replies where
  items : List Bytes
  deriving DecidableEq

namespace Replies

def next (r : Replies) : Delivery Replies :=
  match r.items with
  | [] => ⟨[], r, []⟩
  | chunk :: items => ⟨chunk, ⟨items⟩, []⟩

instance : Bounded Replies where
  next := next
  left r := r.items.flatten.length
  left_next r := by
    rcases r with ⟨_ | ⟨chunk, items⟩⟩ <;> simp [next]

end Replies

/-- The chunks of a list without the empty ones. -/
structure Pieces where
  items : List Bytes
  deriving DecidableEq

namespace Pieces

def nextOf : List Bytes → Delivery Pieces
  | [] => ⟨[], ⟨[]⟩, []⟩
  | chunk :: items => if chunk.isEmpty then nextOf items else ⟨chunk, ⟨items⟩, []⟩

theorem left_nextOf (items : List Bytes) :
    (nextOf items).chunk.length + (nextOf items).rest.items.flatten.length
      ≤ items.flatten.length := by
  induction items with
  | nil => simp [nextOf]
  | cons chunk items ih =>
    unfold nextOf
    split
    · rw [List.flatten_cons, List.length_append]
      omega
    · simp

instance : Bounded Pieces where
  next p := nextOf p.items
  left p := p.items.flatten.length
  left_next p := left_nextOf p.items

end Pieces

/-- A text cut into slices of `size` bytes and as many more as end a character. -/
structure Slices where
  rest : Bytes
  size : Nat
  deriving DecidableEq

namespace Slices

/-- Slices of no bytes are taken as slices of one. -/
def ofText (text : Bytes) (size : Nat) : Slices := ⟨text, max size 1⟩

/-- The length of the next slice. -/
def cut (s : Slices) : Nat :=
  s.size + ((s.rest.drop s.size).takeWhile Utf8.isContinuation).length

def next (s : Slices) : Delivery Slices :=
  ⟨s.rest.take s.cut, ⟨s.rest.drop s.cut, s.size⟩, []⟩

instance : Bounded Slices where
  next := next
  left s := s.rest.length
  left_next s := by
    simp only [next, List.length_take, List.length_drop]
    omega

end Slices
end EditLex
