import EditLex.Event

/-!
Producers of the chunks of a text. An empty chunk means that the text has ended.
-/
namespace EditLex

/-- What a producer answers: a chunk, the events on the way to it, and itself afterwards. -/
structure Delivery (σ : Type) where
  chunk : Bytes
  rest : σ
  events : List Event := []

/-- The same delivery, its producer seen as one of another kind. -/
def Delivery.map {σ τ : Type} (f : σ → τ) (d : Delivery σ) : Delivery τ :=
  ⟨d.chunk, f d.rest, d.events⟩

class Producer (σ : Type) where
  next : σ → Delivery σ
  /-- There is room for the next chunk. Where there is none, the chunk is empty, and the text has
  not ended for that. -/
  hasRoom : σ → Bool := fun _ => true

/-- A producer with a bound on the bytes it still has, which each chunk lowers by its length. -/
class Bounded (σ : Type) extends Producer σ where
  left : σ → Nat
  left_next (s : σ) : (next s).chunk.length + left (next s).rest ≤ left s

namespace Producer

variable {σ : Type}

/-- The next delivery, if there is room for it. -/
def attempt [Producer σ] (s : σ) : Except Fault (Delivery σ) :=
  if hasRoom s then .ok (next s) else .error .noRoom

/-- At most `n` chunks, up to the first empty one. -/
def chunksUpTo [Producer σ] : Nat → σ → List Bytes
  | 0, _ => []
  | n + 1, s =>
    let d := next s
    if d.chunk.isEmpty then [] else d.chunk :: chunksUpTo n d.rest

/-- The chunks that are left, up to the first empty one. -/
def chunks [Bounded σ] (s : σ) : List Bytes := chunksUpTo (Bounded.left s) s

end Producer

/-- A producer that also counts how often it was asked. -/
structure Counted (σ : Type) where
  inner : σ
  calls : Nat := 0

namespace Counted

variable {σ : Type}

instance [Producer σ] : Producer (Counted σ) where
  next s :=
    let d := Producer.next s.inner
    ⟨d.chunk, ⟨d.rest, s.calls + 1⟩, d.events⟩
  hasRoom s := Producer.hasRoom s.inner

instance [Bounded σ] : Bounded (Counted σ) where
  left s := Bounded.left s.inner
  left_next s := Bounded.left_next s.inner

end Counted
end EditLex
