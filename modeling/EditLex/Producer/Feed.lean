import EditLex.Producer.Pieces
import EditLex.Producer.Reader

/-!
A producer of any of the kinds there are.
-/
namespace EditLex

inductive Feed where
  | none
  | replies (r : Replies)
  | pieces (p : Pieces)
  | slices (s : Slices)
  | reader (r : Reader)

namespace Feed

def next : Feed → Delivery Feed
  | .none => ⟨[], .none, []⟩
  | .replies r => (Producer.next r).map .replies
  | .pieces p => (Producer.next p).map .pieces
  | .slices s => (Producer.next s).map .slices
  | .reader r => (Producer.next r).map .reader

/-- Only a reader can want for room. -/
def hasRoom : Feed → Bool
  | .reader r => r.hasRoom
  | _ => true

def left : Feed → Nat
  | .none => 0
  | .replies r => Bounded.left r
  | .pieces p => Bounded.left p
  | .slices s => Bounded.left s
  | .reader r => Bounded.left r

instance : Bounded Feed where
  next := next
  hasRoom := hasRoom
  left := left
  left_next f := by
    cases f with
    | none => exact Nat.le_refl _
    | replies r => exact Bounded.left_next r
    | pieces p => exact Bounded.left_next p
    | slices s => exact Bounded.left_next s
    | reader r => exact Bounded.left_next r

/-- The failure that ended the input, given out once; only a reader fails. -/
def takeFailure : Feed → Option ReadFailure × Feed
  | .reader r => let (e, r) := r.takeFailure; (e, .reader r)
  | f => (Option.none, f)

end Feed
end EditLex
