import EditLex.Producer
import EditLex.Utf8

/-!
A source of bytes over a producer of chunks. It keeps the position of the next unread byte, asks
the producer only when nothing is left to read, and never again once the input has ended: once an
empty chunk has come for which there was room.
-/
namespace EditLex

/-- `unread` is the rest of the current chunk; `journal` holds what happened, newest first. -/
structure Source (σ : Type) where
  unread : Bytes
  position : Position
  ended : Bool := false
  producer : σ
  journal : List Event := []

namespace Source

variable {σ : Type}

/-- A source whose first bytes are `initial`, at `start` in the text. -/
def beginAt (initial : Bytes) (producer : σ) (start : Position) : Source σ :=
  { unread := initial, position := start, producer,
    journal := [.sourceMade start initial.length] }

def ofText (initial : Bytes) (producer : σ) : Source σ :=
  beginAt initial producer .start

/-- Asks the producer, past whatever is still unread. -/
def ask [Producer σ] (s : Source σ) : Bytes × Source σ :=
  let d := Producer.next s.producer
  (d.chunk, { s with producer := d.rest, journal := d.events.reverse ++ s.journal })

/-- A fresh chunk behind an empty one, unless the input has ended. -/
def load [Producer σ] (s : Source σ) : Source σ :=
  if s.ended then s
  else
    let (chunk, t) := s.ask
    if !chunk.isEmpty then
      { t with unread := chunk,
               journal := .chunkLoaded t.position.offset chunk.length :: t.journal }
    else if Producer.hasRoom s.producer then
      { t with ended := true, journal := .inputEnded t.position.offset :: t.journal }
    else t

/-- At most `n` bytes, all of one chunk. There are none only at the end of the input, if none are
wanted, or if there is no room for a chunk. -/
def pull [Producer σ] (s : Source σ) (n : Nat) : Bytes × Source σ :=
  if n = 0 then ([], s)
  else
    let s := if s.unread.isEmpty then s.load else s
    let taken := s.unread.take n
    (taken, { s with unread := s.unread.drop n, position := s.position.advance taken })

/-- Pulls of `size` bytes each until there are `need`, or until one brings none. -/
def pullAtLeast [Producer σ] (s : Source σ) (size need : Nat) : Bytes × Source σ :=
  if need = 0 then ([], s)
  else
    let first := s.pull size
    if _h : first.1 = [] then first
    else
      let more := first.2.pullAtLeast size (need - first.1.length)
      (first.1 ++ more.1, more.2)
termination_by need
decreasing_by
  have := List.length_pos_iff.2 _h
  change need - first.1.length < need
  omega

/-- A pull into a buffer of `n` zeros: how many bytes came, and the buffer. -/
def read [Producer σ] (s : Source σ) (n : Nat) : Nat × Bytes × Source σ :=
  let (taken, s) := s.pull n
  (taken.length, taken ++ List.replicate (n - taken.length) 0, s)

/-- Drops what is unread and goes on from `position`, with the producer's next chunk. -/
def moveTo (s : Source σ) (position : Position) : Source σ :=
  { s with unread := [], ended := false, position,
           journal := .sourceMoved s.position position s.unread.length :: s.journal }

/-- Goes on from `position` with `initial` as the current chunk. -/
def restart (s : Source σ) (position : Position) (initial : Bytes) : Source σ :=
  { s.moveTo position with unread := initial }

/-- What a source shows of itself: its position, whether its input has ended, and the bytes of the
current chunk that are unread. -/
structure View where
  position : Position
  ended : Bool
  unread : Bytes
  deriving DecidableEq

def view (s : Source σ) : View := ⟨s.position, s.ended, s.unread⟩

def render (s : Source σ) : String :=
  "ChunkedSource \x7b position: " ++ s.position.render ++ ", buffered: "
    ++ toString s.unread.length ++ ", exhausted: " ++ (if s.ended then "true" else "false")
    ++ ", .. \x7d"

/-- The bytes it may still deliver. -/
def left [Bounded σ] (s : Source σ) : Nat := s.unread.length + Bounded.left s.producer

theorem left_load [Bounded σ] {s : Source σ} (h : s.unread = []) : s.load.left ≤ s.left := by
  have hn := Bounded.left_next s.producer
  unfold load ask
  split
  · exact Nat.le_refl _
  · dsimp only
    split
    · simp only [left, h, List.length_nil]
      omega
    · split <;> simp only [left, h, List.length_nil] <;> omega

theorem left_pull [Bounded σ] (s : Source σ) (n : Nat) :
    (s.pull n).1.length + (s.pull n).2.left ≤ s.left := by
  unfold pull
  split
  · simp
  · have hr : (if s.unread.isEmpty then s.load else s).left ≤ s.left := by
      split
      · exact left_load (List.isEmpty_iff.1 ‹_›)
      · exact Nat.le_refl _
    simp only [left, List.length_take, List.length_drop] at hr ⊢
    omega

theorem left_pullAtLeast [Bounded σ] (s : Source σ) (size need : Nat) :
    (s.pullAtLeast size need).1.length + (s.pullAtLeast size need).2.left ≤ s.left := by
  fun_induction pullAtLeast s size need with
  | case1 => simp
  | case2 => exact left_pull _ _
  | case3 s need _ first _ more ih =>
    have hf : first.1.length + first.2.left ≤ s.left := s.left_pull size
    have hm : more.1.length + more.2.left ≤ first.2.left := ih
    simp only [List.length_append]
    omega

/-- All bytes up to the end of the input, or up to `fuel` pulls. -/
def drain [Producer σ] : Nat → Source σ → Bytes × Source σ
  | 0, s => ([], s)
  | fuel + 1, s =>
    let (taken, s) := s.pull 4096
    if taken.isEmpty then ([], s)
    else
      let (more, s) := drain fuel s
      (taken ++ more, s)

/-- All bytes up to the end of the input, or to a want of room: each pull but the last takes one at
least. -/
def readAll [Bounded σ] (s : Source σ) : Bytes × Source σ := s.drain (s.left + 1)

/-- All bytes up to the end of the input, if they are whole characters; they are gone in any
case. -/
def readText [Bounded σ] (s : Source σ) : Option Bytes × Source σ :=
  let (bytes, s) := s.readAll
  (if Utf8.Valid bytes then some bytes else none, s)

end Source
end EditLex
