/-!
Coordinates of a text: natural numbers that stop growing at `Coord.limit`.
-/
namespace EditLex

/-- The largest coordinate. -/
def Coord.limit : Nat := 4294967295

/-- A line, column or offset. Counting past the limit stays at the limit. -/
structure Coord where
  val : Nat
  val_le : val ≤ Coord.limit
  deriving DecidableEq

namespace Coord

/-- The coordinate nearest to `n`. -/
def sat (n : Nat) : Coord := ⟨min n limit, Nat.min_le_right _ _⟩

/-- The coordinate `n`, if it is one. -/
def ofNat? (n : Nat) : Option Coord :=
  if h : n ≤ limit then some ⟨n, h⟩ else none

def zero : Coord := sat 0

def one : Coord := sat 1

/-- `c` moved up by `n`, up to the limit. -/
def up (c : Coord) (n : Nat) : Coord := sat (c.val + n)

/-- `c` moved down by `d`, down to zero. -/
def down (c d : Coord) : Coord :=
  ⟨c.val - d.val, Nat.le_trans (Nat.sub_le _ _) c.val_le⟩

instance : Inhabited Coord where
  default := zero

instance : LT Coord where
  lt c d := c.val < d.val

instance : LE Coord where
  le c d := c.val ≤ d.val

instance (c d : Coord) : Decidable (c < d) := inferInstanceAs (Decidable (c.val < d.val))

instance (c d : Coord) : Decidable (c ≤ d) := inferInstanceAs (Decidable (c.val ≤ d.val))

instance : ToString Coord where
  toString c := toString c.val

theorem eq_of_val_eq {c d : Coord} (h : c.val = d.val) : c = d := by
  cases c; cases d; simp_all

theorem eq_iff_val {c d : Coord} : c = d ↔ c.val = d.val :=
  ⟨fun h => h ▸ rfl, eq_of_val_eq⟩

theorem lt_def {c d : Coord} : c < d ↔ c.val < d.val := Iff.rfl

theorem le_def {c d : Coord} : c ≤ d ↔ c.val ≤ d.val := Iff.rfl

@[simp] theorem val_sat (n : Nat) : (sat n).val = min n limit := rfl

@[simp] theorem val_up (c : Coord) (n : Nat) : (c.up n).val = min (c.val + n) limit := rfl

@[simp] theorem val_down (c d : Coord) : (c.down d).val = c.val - d.val := rfl

@[simp] theorem val_zero : zero.val = 0 := rfl

@[simp] theorem val_one : one.val = 1 := rfl

@[simp] theorem sat_val (c : Coord) : sat c.val = c :=
  eq_of_val_eq (Nat.min_eq_left c.val_le)

@[simp] theorem up_zero (c : Coord) : c.up 0 = c :=
  eq_of_val_eq (Nat.min_eq_left c.val_le)

theorem up_up (c : Coord) (m n : Nat) : (c.up m).up n = c.up (m + n) := by
  apply eq_of_val_eq
  simp only [val_up]
  omega

end Coord
end EditLex
