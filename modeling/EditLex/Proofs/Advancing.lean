import EditLex.Position

/-!
Going over a text in pieces. Moving a position is an action of the bytes it is moved across, so that
it comes to the same place however these are cut (`Position.foldl_advance`). Where that is follows
from their number, the number of newlines and what stands behind the last of these; any search for
that newline will do (`Position.advanceBy_eq`). All of it holds at the limit of the coordinates too.
-/
namespace EditLex.Position

/-- `last` is a right answer to a search for the last newline. -/
def IsLastNewline (bytes : Bytes) : Option Nat → Prop
  | none => newline ∉ bytes
  | some i => bytes[i]? = some newline ∧ newline ∉ bytes.drop (i + 1)

instance (bytes : Bytes) : (last : Option Nat) → Decidable (IsLastNewline bytes last)
  | none => inferInstanceAs (Decidable (newline ∉ bytes))
  | some i =>
    inferInstanceAs (Decidable (bytes[i]? = some newline ∧ newline ∉ bytes.drop (i + 1)))

/-- `advance` by way of a search for the last newline. Every number is made a coordinate before it
is added to one. -/
def advanceBy (p : Position) (last : Option Nat) (bytes : Bytes) : Position :=
  let length := Coord.sat bytes.length
  match last with
  | none => ⟨p.line, p.column.up length.val, p.offset.up length.val⟩
  | some i =>
    let newlines := Coord.sat (bytes.count newline)
    ⟨p.line.up newlines.val, .sat (bytes.length - i - 1), p.offset.up length.val⟩

/-- A number past the limit counts for no more than the limit. -/
theorem up_val_sat (c : Coord) (n : Nat) : c.up (Coord.sat n).val = c.up n := by
  apply Coord.eq_of_val_eq
  simp only [Coord.val_up, Coord.val_sat]
  omega

theorem tailLength_of_last {before rest : Bytes} (h : newline ∉ rest) :
    tailLength (before ++ newline :: rest) = rest.length := by
  have hfront : tailLength (before ++ [newline]) = 0 := by
    rw [tailLength_append, if_pos (List.mem_singleton_self newline)]
    rfl
  rw [← List.singleton_append, ← List.append_assoc, tailLength_append, if_neg h, hfront,
    Nat.zero_add]

theorem column_of_last (p : Position) (before : Bytes) {rest : Bytes} (h : newline ∉ rest) :
    (p.advance (before ++ newline :: rest)).column = .sat rest.length := by
  have hmem : newline ∈ before ++ newline :: rest :=
    List.mem_append_right before List.mem_cons_self
  rw [advance, if_pos hmem, tailLength_of_last h]

/-- Whatever the search, it leads to the position. -/
theorem advanceBy_eq {bytes : Bytes} {last : Option Nat} (h : IsLastNewline bytes last)
    (p : Position) : p.advanceBy last bytes = p.advance bytes := by
  cases last with
  | none =>
    have hnone : newline ∉ bytes := h
    simp only [advanceBy, advance, up_val_sat, if_neg hnone, List.count_eq_zero.2 hnone,
      Coord.up_zero]
  | some i =>
    obtain ⟨hget, hrest⟩ := h
    obtain ⟨hi, hnewline⟩ := List.getElem?_eq_some_iff.1 hget
    have hsplit : bytes.take i ++ newline :: bytes.drop (i + 1) = bytes := by
      rw [← hnewline, List.getElem_cons_drop, List.take_append_drop]
    have hcolumn := p.column_of_last (bytes.take i) hrest
    rw [hsplit, List.length_drop, ← Nat.sub_sub] at hcolumn
    simp only [advanceBy, up_val_sat, ← hcolumn]
    rfl

/-- Going over pieces one after another is going over what they join to. -/
theorem foldl_advance (p : Position) (pieces : List Bytes) :
    pieces.foldl advance p = p.advance pieces.flatten := by
  induction pieces generalizing p with
  | nil => exact p.advance_nil.symm
  | cons piece pieces ih => rw [List.foldl_cons, ih, List.flatten_cons, advance_append]

/-- Moving a position is an action of byte strings, and a position comes to the same place over the
same bytes however they are cut. Its offset has grown by their number, its line by that of their
newlines, and its column by their number too, or it is what follows the last newline; each of them
stops at the limit. -/
theorem advance_action (p : Position) (a b : Bytes) :
    p.advance (a ++ b) = (p.advance a).advance b ∧
    (∀ pieces others : List Bytes, pieces.flatten = others.flatten →
      pieces.foldl advance p = others.foldl advance p) ∧
    (p.advance a).offset.val = min (p.offset.val + a.length) Coord.limit ∧
    (p.advance a).line.val = min (p.line.val + a.count newline) Coord.limit ∧
    (newline ∉ a →
      (p.advance a).column.val = min (p.column.val + a.length) Coord.limit) ∧
    (∀ before rest, a = before ++ newline :: rest → newline ∉ rest →
      (p.advance a).column.val = min rest.length Coord.limit) ∧
    ∀ last, IsLastNewline a last → p.advanceBy last a = p.advance a := by
  refine ⟨p.advance_append a b, ?pieces, rfl, rfl, ?column, ?last, ?search⟩
  case pieces =>
    intro pieces others h
    rw [foldl_advance, foldl_advance, h]
  case column =>
    intro h
    rw [advance, if_neg h]
    rfl
  case last =>
    rintro before rest rfl h
    rw [column_of_last p before h]
    rfl
  case search =>
    intro last h
    exact advanceBy_eq h p

/-- Just below the limit, over `a`, newline, `b`, newline, `c`, `d`: all in one, and cut inside both
lines. -/
theorem advance_action_near_limit :
    let p : Position := ⟨.sat 4294967294, .sat 4294967295, .sat 4294967290⟩
    let bytes : Bytes := [97, 10, 98, 10, 99, 100]
    let pieces : List Bytes := [[97], [10, 98, 10, 99], [], [100]]
    let place : Position := ⟨.sat 4294967295, .sat 2, .sat 4294967295⟩
    (pieces.flatten = [bytes].flatten ∧ bytes = [97, 10, 98] ++ newline :: [99, 100] ∧
        newline ∉ [99, 100] ∧ IsLastNewline bytes (some 3)) ∧
      pieces.foldl advance p = place ∧ p.advanceBy (some 3) bytes = place ∧
      (p.advance bytes).column.val = 2 ∧
      newline ∉ [97] ∧ (p.advance [97]).column.val = 4294967295 := by
  intro p bytes pieces place
  have hbytes : p.advance bytes = place := by decide
  obtain ⟨-, hpieces, -, -, -, hlast, hsearch⟩ := advance_action p bytes []
  obtain ⟨-, -, -, -, hcolumn, -⟩ := advance_action p [97] []
  refine ⟨by decide, ?_, (hsearch (some 3) (by decide)).trans hbytes, ?_, by decide, ?_⟩
  · exact (hpieces pieces [bytes] (by decide)).trans hbytes
  · exact hlast [97, 10, 98] [99, 100] rfl (by decide)
  · exact hcolumn (by decide)

end EditLex.Position
