import EditLex.Coord
import EditLex.Fault

/-!
Places in a text. Moving a position across bytes is an action: going over `a ++ b` is going over
`a` and then over `b` (`Position.advance_append`), also where a coordinate has reached its limit.
-/
namespace EditLex

/-- Texts and pieces of them, as bytes. -/
abbrev Bytes := List UInt8

/-- The byte that ends a line. -/
def newline : UInt8 := 10

/-- A byte of a text, named by its line (counted from one), its column in bytes and its offset. -/
structure Position where
  line : Coord
  column : Coord
  offset : Coord
  deriving DecidableEq

/-- Coordinates that are refused when they come from outside. -/
inductive PositionError where
  | zeroLine
  deriving DecidableEq, Repr

def PositionError.message : PositionError → String
  | .zeroLine => "line numbers start at 1, got 0"

namespace Position

/-- The first byte of a text. -/
def start : Position := ⟨.one, .zero, .zero⟩

instance : Inhabited Position where
  default := start

/-- The position with these coordinates; line zero is a fault of the caller. -/
def of (line column offset : Coord) : Except Fault Position :=
  if line = .zero then .error .lineZero else .ok ⟨line, column, offset⟩

/-- The position with these coordinates, line zero being refused. -/
def checked (line column offset : Coord) : Except PositionError Position :=
  if line = .zero then .error .zeroLine else .ok ⟨line, column, offset⟩

/-- A position known by line and column alone. -/
def ofLineColumn (line column : Coord) : Except Fault Position := of line column .zero

/-- The order of positions of one text: by line, then by column. -/
def compare (p q : Position) : Ordering :=
  (Ord.compare p.line.val q.line.val).then (Ord.compare p.column.val q.column.val)

/-- The number of bytes after the last newline of `bytes`. -/
def tailLength (bytes : Bytes) : Nat := (bytes.reverse.takeWhile (· != newline)).length

/-- `p` moved across `bytes`. -/
def advance (p : Position) (bytes : Bytes) : Position where
  line := p.line.up (bytes.count newline)
  column := if newline ∈ bytes then .sat (tailLength bytes) else p.column.up bytes.length
  offset := p.offset.up bytes.length

def display (p : Position) : String := toString p.line ++ ":" ++ toString p.column

def render (p : Position) : String := p.display ++ "@" ++ toString p.offset

@[simp] theorem advance_nil (p : Position) : p.advance [] = p := by
  simp [advance]

theorem takeWhile_length_eq_iff {p : UInt8 → Bool} {bytes : Bytes} :
    (bytes.takeWhile p).length = bytes.length ↔ ∀ b ∈ bytes, p b = true := by
  induction bytes with
  | nil => simp
  | cons b bytes ih => by_cases h : p b <;> simp [h, ih]

theorem tailLength_append (a b : Bytes) : tailLength (a ++ b) =
    if newline ∈ b then tailLength b else tailLength a + b.length := by
  have hall : (b.reverse.takeWhile (· != newline)).length = b.reverse.length ↔ newline ∉ b := by
    rw [takeWhile_length_eq_iff]
    simp only [List.mem_reverse, bne_iff_ne]
    exact ⟨fun h hm => h _ hm rfl, fun h c hc e => h (e ▸ hc)⟩
  simp only [tailLength, List.reverse_append, List.takeWhile_append]
  by_cases hb : newline ∈ b
  · rw [if_pos hb, if_neg (fun h => hall.1 h hb)]
  · rw [if_neg hb, if_pos (hall.2 hb)]
    simp [Nat.add_comm]

theorem advance_append (p : Position) (a b : Bytes) :
    p.advance (a ++ b) = (p.advance a).advance b := by
  simp only [advance, List.count_append, List.length_append, Coord.up_up, List.mem_append,
    tailLength_append, mk.injEq, true_and, and_true]
  by_cases hb : newline ∈ b
  · simp [hb]
  · by_cases ha : newline ∈ a
    · apply Coord.eq_of_val_eq
      simp only [ha, hb, or_false, if_true, if_false, Coord.val_sat, Coord.val_up]
      omega
    · simp [ha, hb, Coord.up_up]

end Position
end EditLex
