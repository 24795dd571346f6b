/-!
Stacks that know their size.
-/
namespace EditLex

structure Stack (α : Type) where
  /-- The items from the top down. -/
  items : List α
  size : Nat
  size_eq : size = items.length

namespace Stack

variable {α : Type}

def empty : Stack α := ⟨[], 0, rfl⟩

instance : Inhabited (Stack α) where
  default := empty

def peek? (s : Stack α) : Option α := s.items.head?

def push (s : Stack α) (a : α) : Stack α :=
  ⟨a :: s.items, s.size + 1, by rw [s.size_eq, List.length_cons]⟩

/-- The top and what lies beneath it. -/
def pop? : Stack α → Option (α × Stack α)
  | ⟨[], _, _⟩ => none
  | ⟨a :: items, size, h⟩ => some (a, ⟨items, size - 1, by rw [h]; rfl⟩)

/-- The stack with the first of `items` on top. -/
def ofFront (items : List α) : Stack α := ⟨items, items.length, rfl⟩

/-- The stack with the last of `items` on top. -/
def ofBack (items : List α) : Stack α := items.foldl push empty

theorem eq_of_items_eq {s t : Stack α} (h : s.items = t.items) : s = t := by
  obtain ⟨items, size, hs⟩ := s
  obtain ⟨items', size', ht⟩ := t
  simp_all

@[simp] theorem items_empty : (empty : Stack α).items = [] := rfl

@[simp] theorem items_push (s : Stack α) (a : α) : (s.push a).items = a :: s.items := rfl

@[simp] theorem items_ofFront (items : List α) : (ofFront items).items = items := rfl

@[simp] theorem items_ofBack (items : List α) : (ofBack items).items = items.reverse := by
  have key : ∀ s : Stack α, (items.foldl push s).items = items.reverse ++ s.items := by
    induction items with
    | nil => simp
    | cons a items ih => simp [ih]
  rw [ofBack, key, items_empty, List.append_nil]

/-- A walk from the top down that counts what is left. -/
structure Walk (α : Type) where
  rest : List α
  remaining : Nat

def walk (s : Stack α) : Walk α := ⟨s.items, s.size⟩

namespace Walk

def next (w : Walk α) : Option α × Walk α :=
  match w.rest with
  | [] => (none, w)
  | a :: rest => (some a, ⟨rest, w.remaining - 1⟩)

/-- The walk after `n` steps. -/
def skip : Nat → Walk α → Walk α
  | 0, w => w
  | n + 1, w => skip n w.next.2

end Walk
end Stack
end EditLex
