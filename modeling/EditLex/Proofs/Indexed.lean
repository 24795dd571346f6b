import EditLex.Proofs.Focus

/-!
A sequence with a focus is a list with an index. Whatever it was made from and whatever was done to
it, it answers as the list and the index do that the same was done to (`Focused.make_eq_indexed`).
-/
namespace EditLex

/-- A list, and an index of it or its length. -/
structure Indexed (α : Type) where
  items : List α
  index : Nat
  le : index ≤ items.length

namespace Focused
variable {α : Type}

/-- How a sequence comes about; one that is collected has its focus in front. -/
inductive Origin (α : Type) where
  | empty
  | front (items : List α)
  | back (items : List α)
  deriving DecidableEq

inductive Op (α : Type) where
  | move (n : Int)
  | moveTo (index : Nat)
  | insert (a : α)
  | replaceAfter (items : List α)
  | dropAfter
  | copy
  deriving DecidableEq

def Origin.focused : Origin α → Focused α
  | empty => .empty
  | front items => .ofList items
  | back items => .ofListAtEnd items

def perform (c : Focused α) : Op α → Focused α
  | .move n => c.move n
  | .moveTo index => c.moveTo index
  | .insert a => c.insert a
  | .replaceAfter items => c.replaceAfter items
  | .dropAfter => c.dropAfter
  | .copy => c

/-- The sequence that some operations make of that of `o`. -/
def make (o : Origin α) (ops : List (Op α)) : Focused α := ops.foldl perform o.focused

end Focused

namespace Indexed
variable {α : Type}

def ofOrigin : Focused.Origin α → Indexed α
  | .empty => ⟨[], 0, Nat.le_refl _⟩
  | .front items => ⟨items, 0, Nat.zero_le _⟩
  | .back items => ⟨items, items.length, Nat.le_refl _⟩

/-- Moves go to the nearest index there is. -/
def perform (m : Indexed α) : Focused.Op α → Indexed α
  | .move n => ⟨m.items, (max 0 (min (m.index + n) m.items.length)).toNat, by omega⟩
  | .moveTo index => ⟨m.items, min index m.items.length, Nat.min_le_right _ _⟩
  | .insert a => ⟨m.items.insertIdx m.index a, m.index + 1, by
    rw [List.length_insertIdx_of_le_length m.le]
    exact Nat.succ_le_succ m.le⟩
  | .replaceAfter items => ⟨m.items.take m.index ++ items, m.index, by
    rw [List.length_append, List.length_take, Nat.min_eq_left m.le]
    exact Nat.le_add_right _ _⟩
  | .dropAfter => ⟨m.items.take m.index, m.index, by simp [m.le]⟩
  | .copy => m

/-- The list and index that some operations make of those of `o`. -/
def make (o : Focused.Origin α) (ops : List (Focused.Op α)) : Indexed α :=
  ops.foldl perform (ofOrigin o)

end Indexed

/-- A walk yields the items from the top down and counts those that are left. -/
theorem Stack.skip_walk {α : Type} (s : Stack α) (k : Nat) :
    s.walk.skip k = ⟨s.items.drop k, (s.items.drop k).length⟩ := by
  have key (rest : List α) : (⟨rest, rest.length⟩ : Walk α).skip k =
      ⟨rest.drop k, (rest.drop k).length⟩ := by
    induction k generalizing rest with
    | zero => rfl
    | succ k ih =>
      cases rest with
      | nil => exact (ih []).trans (by rw [List.drop_nil, List.drop_nil])
      | cons a rest => exact ih rest
  rw [walk, s.size_eq, key]

namespace Focused
variable {α : Type}

theorem move_spec (c : Focused α) (n : Int) : (c.move n).toList = c.toList ∧
    (c.move n).focus = (max 0 (min (c.focus + n) c.size)).toNat := by
  have hsize : c.focus ≤ c.size := Nat.le_add_right _ _
  unfold move
  split
  · obtain ⟨hl, hf⟩ := c.forward_spec n.natAbs
    exact ⟨hl, by rw [hf]; omega⟩
  · obtain ⟨hl, hf⟩ := c.backward_spec n.natAbs
    exact ⟨hl, by rw [hf]; omega⟩

theorem toList_insert (c : Focused α) (a : α) :
    (c.insert a).toList = c.toList.insertIdx c.focus a := by
  have key (front back : List α) :
      (front ++ back).insertIdx front.length a = front ++ a :: back := by
    induction front with
    | nil => rfl
    | cons b front ih => exact congrArg (b :: ·) ih
  rw [focus_eq, ← List.length_reverse, toList, toList, key]
  simp [insert]

/-- `c` has the elements of `m`, and its focus at the index. -/
structure Represents (c : Focused α) (m : Indexed α) : Prop where
  items : c.toList = m.items
  index : c.focus = m.index

theorem represents_focused (o : Origin α) : o.focused.Represents (.ofOrigin o) := by
  cases o with
  | empty => exact ⟨rfl, rfl⟩
  | front items => exact ⟨rfl, rfl⟩
  | back items =>
    constructor
    · simp [Origin.focused, Indexed.ofOrigin, ofListAtEnd, toList]
    · simp [Origin.focused, Indexed.ofOrigin, ofListAtEnd, focus_eq]

namespace Represents
variable {c d : Focused α} {m : Indexed α}

theorem size (h : c.Represents m) : c.size = m.items.length := by rw [c.size_eq, h.items]

theorem before (h : c.Represents m) : c.before.items.reverse = m.items.take m.index := by
  rw [c.before_eq, List.reverse_reverse, h.items, h.index]

theorem after (h : c.Represents m) : c.after.items = m.items.drop m.index := by
  rw [c.after_eq, h.items, h.index]

theorem beq_iff [BEq α] (h : c.Represents m) {n : Indexed α} (hd : d.Represents n) :
    (c == d) = true ↔ m.index = n.index ∧ (m.items == n.items) = true := by
  show (c.focus == d.focus && c.size == d.size && c.toList == d.toList) = true ↔ _
  rw [h.index, hd.index, h.size, hd.size, h.items, hd.items]
  simp only [Bool.and_eq_true, beq_iff_eq]
  constructor
  · rintro ⟨⟨hindex, -⟩, hitems⟩
    exact ⟨hindex, hitems⟩
  · rintro ⟨hindex, hitems⟩
    exact ⟨⟨hindex, List.length_eq_of_beq hitems⟩, hitems⟩

theorem perform (h : c.Represents m) (op : Op α) : (c.perform op).Represents (m.perform op) := by
  cases op with
  | move n =>
    obtain ⟨hl, hf⟩ := c.move_spec n
    exact ⟨hl.trans h.items, by rw [Focused.perform, hf, h.index, h.size]; rfl⟩
  | moveTo index =>
    obtain ⟨hl, hf⟩ := c.moveTo_spec index
    exact ⟨hl.trans h.items, by rw [Focused.perform, hf, h.size]; rfl⟩
  | insert a =>
    constructor
    · rw [Focused.perform, toList_insert, h.items, h.index]
      rfl
    · exact congrArg (· + 1) h.index
  | replaceAfter items =>
    constructor
    · rw [Focused.perform, toList_replaceAfter, h.before]
      rfl
    · exact h.index
  | dropAfter =>
    constructor
    · rw [Focused.perform, Focused.dropAfter, toList_replaceAfter, h.before, List.append_nil]
      rfl
    · exact h.index
  | copy => exact h

end Represents

theorem represents_make (o : Origin α) (ops : List (Op α)) :
    (make o ops).Represents (.make o ops) := by
  unfold make Indexed.make
  have h := represents_focused o
  generalize o.focused = c at h
  generalize Indexed.ofOrigin o = m at h
  induction ops generalizing c m with
  | nil => exact h
  | cons op ops ih => exact ih _ _ (h.perform op)

/-- Made in any way, a sequence with a focus has the elements of one list, with the focus at one
index of it: those that the same operations give on a list and an index. Its halves are the list up
to the index, closest first, and from the index on; walked through, each counts what is left of it.
Two of them are equal if list and index are. -/
theorem make_eq_indexed [BEq α] (o : Origin α) (ops : List (Op α)) :
    let c := make o ops
    let m := Indexed.make o ops
    c.focus = m.index ∧ c.before.items.length = m.index ∧
      c.before.items.reverse ++ c.after.items = m.items ∧ c.size = m.items.length ∧
      (∀ k, let before := c.before.walk.skip k
        before.rest = (m.items.take m.index).reverse.drop k ∧
          before.remaining = before.rest.length) ∧
      (∀ k, let after := c.after.walk.skip k
        after.rest = m.items.drop (m.index + k) ∧ after.remaining = after.rest.length) ∧
      ∀ other others, (c == make other others) = true ↔
        m.index = (Indexed.make other others).index ∧
          (m.items == (Indexed.make other others).items) = true := by
  intro c m
  have h : c.Represents m := represents_make o ops
  refine ⟨h.index, by rw [← c.focus_eq, h.index], h.items, h.size, ?_, ?_, ?_⟩
  · intro k before
    have hwalk : before = _ := c.before.skip_walk k
    rw [hwalk, ← h.before, List.reverse_reverse]
    exact ⟨rfl, rfl⟩
  · intro k after
    have hwalk : after = _ := c.after.skip_walk k
    rw [hwalk, h.after, List.drop_drop]
    exact ⟨rfl, rfl⟩
  · intro other others
    exact h.beq_iff (represents_make other others)

end Focused
end EditLex
