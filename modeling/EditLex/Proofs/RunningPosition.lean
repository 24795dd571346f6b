import Mathlib
import EditLex.Lookahead.Op
import EditLex.Proofs.LineColumns
import EditLex.Proofs.Reading

/-!
The position that a reader has come to is the one that the table of lines finds
(`LineTable.position_passed`). A reader moves its position over each piece that it takes, in one
pull (`Source.position_pull`) or by one operation (`Lookahead.position_performUpTo`), and going over
the pieces is going over the text. The table finds the line by a search, of which no more is used
than what any search of an ascending list answers (`Search.Locates`).
-/
namespace EditLex

/-- What a search comes to: the index at which it has found something, or the index at which that
would have to be put in. -/
inductive Search where
  | hit (index : Nat)
  | miss (index : Nat)
  deriving DecidableEq

namespace Search

/-- It is a right answer for `offset` in an ascending list. -/
def Locates (starts : List Coord) (offset : Coord) : Search → Prop
  | hit i => starts[i]? = some offset
  | miss i => i ≤ starts.length ∧ (∀ s ∈ starts.take i, s < offset) ∧
      ∀ s ∈ starts.drop i, offset < s

instance (starts : List Coord) (offset : Coord) :
    (search : Search) → Decidable (search.Locates starts offset)
  | hit i => inferInstanceAs (Decidable (starts[i]? = some offset))
  | miss i => inferInstanceAs (Decidable (i ≤ starts.length ∧ (∀ s ∈ starts.take i, s < offset) ∧
      ∀ s ∈ starts.drop i, offset < s))

/-- The index of the line that an offset lies on, if this is where it is among the starts. -/
def line : Search → Nat
  | hit i => i
  | miss i => i - 1

end Search

namespace LineTable

/-- `position` by way of a search for the line. No step may leave its range. -/
def positionBy (t : LineTable) (search : Search) (offset : Coord) : Except Fault Position := do
  let place := t.clamp offset
  let column ← place.minus (t.starts[search.line]?.getD .zero)
  Position.of (.sat (search.line + 1)) column place

section
variable {text : Bytes} (h : text.length ≤ Coord.limit)
include h

theorem line_of_locates {search : Search} {place : Coord}
    (hs : search.Locates (ofText text).starts place) :
    search.line + 1 = (ofText text).linesUpTo place := by
  cases search with
  | hit i =>
    have hi : (ofText text).starts[i]? = some place := hs
    have hlower : i < (ofText text).linesUpTo place :=
      (lt_linesUpTo_iff h).2 ⟨place, hi, Nat.le_refl _⟩
    have hupper : ¬i + 1 < (ofText text).linesUpTo place := by
      rw [lt_linesUpTo_iff h]
      rintro ⟨next, hnext, hle⟩
      obtain ⟨hlen, rfl⟩ := List.getElem?_eq_some_iff.1 hi
      obtain ⟨hlen', rfl⟩ := List.getElem?_eq_some_iff.1 hnext
      have hlt := List.pairwise_iff_getElem.1 (pairwise_starts h) i (i + 1) hlen hlen'
        (Nat.lt_succ_self i)
      rw [Coord.lt_def] at hlt
      rw [Coord.le_def] at hle
      omega
    show i + 1 = _
    omega
  | miss i =>
    obtain ⟨hi, hbefore, hbehind⟩ := hs
    have hupper : ¬i < (ofText text).linesUpTo place := by
      rw [lt_linesUpTo_iff h]
      rintro ⟨next, hnext, hle⟩
      have hlt : place < next := by
        apply hbehind
        apply List.mem_of_getElem?
        rwa [List.getElem?_drop, Nat.add_zero]
      rw [Coord.lt_def] at hlt
      rw [Coord.le_def] at hle
      omega
    -- There is a line up to the place, so the search cannot have ended in front of them all.
    obtain ⟨_, hpos, -, -⟩ := exists_lineStart h place
    have hlower : i - 1 < (ofText text).linesUpTo place := by
      have hlast : i - 1 < (ofText text).starts.length := by omega
      have hget := List.getElem?_eq_getElem hlast
      have hlt : (ofText text).starts[i - 1] < place := by
        apply hbefore
        apply List.mem_of_getElem? (i := i - 1)
        rw [List.getElem?_take_of_lt (by omega), hget]
      exact (lt_linesUpTo_iff h).2 ⟨_, hget, Nat.le_of_lt hlt⟩
    show i - 1 + 1 = _
    omega

/-- Whatever the search, it leads to the position, and no step leaves its range. -/
theorem positionBy_eq {search : Search} {offset : Coord}
    (hs : search.Locates (ofText text).starts ((ofText text).clamp offset)) :
    (ofText text).positionBy search offset = .ok ((ofText text).position offset) := by
  have hline := line_of_locates h hs
  obtain ⟨s, hpos, hstart, hle⟩ := exists_lineStart h ((ofText text).clamp offset)
  have hminus : ((ofText text).clamp offset).minus s = .ok (((ofText text).clamp offset).down s) :=
    if_neg (Nat.not_lt.2 hle)
  have hnumber : Coord.sat ((ofText text).linesUpTo ((ofText text).clamp offset)) ≠ .zero := by
    rw [Ne, Coord.eq_iff_val, Coord.val_sat, Coord.val_zero, Coord.limit]
    omega
  rw [← hline, Nat.add_sub_cancel] at hstart
  rw [← hline] at hnumber
  rw [positionBy, position, ← hline, Nat.add_sub_cancel, hstart]
  simp only [Option.getD_some, hminus]
  exact if_neg hnumber

end
end LineTable

namespace Source
variable {σ : Type} [Producer σ]

theorem position_pull (s : Source σ) (n : Nat) :
    (s.pull n).2.position = s.position.advance (s.pull n).1 := by
  unfold pull
  split
  · simp
  · dsimp only
    split
    · rw [position_load]
    · rfl

/-- Pulls one after another, with what each of them brings. -/
def pulls (s : Source σ) : List Nat → List Bytes × Source σ
  | [] => ([], s)
  | n :: sizes =>
    let r := s.pull n
    let more := r.2.pulls sizes
    (r.1 :: more.1, more.2)

theorem position_pulls (s : Source σ) (sizes : List Nat) :
    (s.pulls sizes).2.position = s.position.advance (s.pulls sizes).1.flatten := by
  induction sizes generalizing s with
  | nil => simp [pulls]
  | cons n sizes ih =>
    rw [pulls, ih, position_pull, List.flatten_cons, Position.advance_append]

end Source

namespace Lookahead
variable {σ : Type} [Producer σ]

/-- The bytes that an operation has taken, as its answer tells. -/
def Op.taken : Op → Answer → Bytes
  | .take, .byte (some b) => [b]
  | .takeIf b, .flag true => [b]
  | .takeWhile _, .bytes taken => taken
  | _, _ => []

theorem peek_of_peek {s t : Lookahead σ} {b : UInt8} (h : s.peek = (some b, t)) :
    t.peek = (some b, t) := by
  have hwindow : t.window[0]? = some b := by
    unfold peek nth at h
    rw [if_neg (by decide)] at h
    split at h
    · simp_all
    · simp only [Prod.mk.injEq] at h
      rw [← h.2, h.1]
  rw [peek, nth, if_neg (by decide), hwindow]

theorem position_take (s : Lookahead σ) :
    s.take.2.position = s.position.advance s.take.1.toList := by
  have hpos : s.peek.2.position = s.position := position_nth s 0
  unfold take
  split
  · next t h => simpa [h] using hpos
  · next b t h =>
    rw [h] at hpos
    exact congrArg (Position.advance · [b]) hpos

theorem position_takeIf (s : Lookahead σ) (b : UInt8) :
    (s.takeIf b).2.position = s.position.advance (if (s.takeIf b).1 then [b] else []) := by
  have hpos : s.peek.2.position = s.position := position_nth s 0
  unfold takeIf
  rcases hpeek : s.peek with ⟨next, t⟩
  rw [hpeek] at hpos
  dsimp only
  split
  · next hb =>
    subst hb
    rw [take, peek_of_peek hpeek, if_pos rfl, ← hpos]
  · simpa using hpos

theorem position_gatherUpTo (p : Test) (fuel memory : Nat) (taken : Bytes) (s : Lookahead σ) :
    (gatherUpTo p fuel memory taken s).2.position = s.position := by
  induction fuel generalizing memory taken s with
  | zero => rfl
  | succ fuel ih =>
    have hpos : s.peek.2.position = s.position := position_nth s 0
    rw [gatherUpTo]
    split
    · next t h => rwa [h] at hpos
    · next b t h =>
      rw [h] at hpos
      split
      · exact hpos
      · exact (ih _ _ _).trans hpos

theorem position_takeWhileUpTo (p : Test) (fuel : Nat) (s : Lookahead σ) :
    (s.takeWhileUpTo fuel p).2.position = s.position.advance (s.takeWhileUpTo fuel p).1 := by
  unfold takeWhileUpTo
  dsimp only
  rw [position_gatherUpTo]

omit [Producer σ] in
/-- An answer that is no fault comes from where the operation led. -/
theorem settle_eq_ok {α : Type} {s t u : Lookahead σ} {need : Nat} {answer given : α}
    (h : s.settle t need answer = (.ok given, u)) : given = answer ∧ u = t := by
  unfold settle at h
  repeat' split at h
  all_goals simp_all

/-- An operation moves the position over the bytes that it takes. -/
theorem position_performUpTo {s t : Lookahead σ} {fuel : Nat} {op : Op} {answer : Answer}
    (h : s.performUpTo fuel op = (.ok answer, t)) :
    t.position = s.position.advance (op.taken answer) := by
  have hnth (n : Nat) : (s.nth n).2.position = s.position.advance [] :=
    (position_nth s n).trans (Position.advance_nil _).symm
  cases op with
  | peek =>
    obtain ⟨rfl, rfl⟩ := settle_eq_ok h
    exact hnth 0
  | nth n =>
    obtain ⟨rfl, rfl⟩ := settle_eq_ok h
    exact hnth n
  | take =>
    obtain ⟨rfl, rfl⟩ := settle_eq_ok h
    have htaken : Op.taken .take (.byte s.take.1) = s.take.1.toList := by
      cases s.take.1 <;> rfl
    exact (position_take s).trans (congrArg _ htaken.symm)
  | takeIf b =>
    obtain ⟨rfl, rfl⟩ := settle_eq_ok h
    have htaken (accepted : Bool) :
        Op.taken (.takeIf b) (.flag accepted) = if accepted then [b] else [] := by
      cases accepted <;> rfl
    exact (position_takeIf s b).trans (congrArg _ (htaken _).symm)
  | takeWhile p =>
    obtain ⟨rfl, rfl⟩ := settle_eq_ok h
    exact position_takeWhileUpTo p fuel s
  | atEnd =>
    obtain ⟨rfl, rfl⟩ := settle_eq_ok h
    exact hnth 0

/-- Operations without a fault move the position over all the bytes that they take. -/
theorem position_performAllUpTo {fuel : Nat} {ops : List Op} {s : Lookahead σ}
    {answers : List Answer} (h : (performAllUpTo fuel ops s).1 = answers.map .ok) :
    (performAllUpTo fuel ops s).2.position =
      s.position.advance (List.zipWith Op.taken ops answers).flatten := by
  induction ops generalizing s answers with
  | nil => simp [performAllUpTo]
  | cons op ops ih =>
    rcases hop : s.performUpTo fuel op with ⟨answer, t⟩
    simp only [performAllUpTo, hop] at h ⊢
    cases answers with
    | nil => contradiction
    | cons given answers =>
      obtain ⟨rfl, hrest⟩ := List.cons.inj h
      rw [ih hrest, position_performUpTo hop, List.zipWith_cons_cons, List.flatten_cons,
        Position.advance_append]

end Lookahead

/-- The position that the table of lines finds for an offset is the start moved across the bytes
before that, with no step out of its range; and a source or a reader that looks ahead stands there
when it has given out these bytes, in whatever pieces. -/
theorem LineTable.position_passed {text : Bytes} (h : text.length ≤ Coord.limit)
    (offset : Coord) :
    let t := ofText text
    let passed := text.take offset.val
    t.position offset = Position.start.advance passed ∧
    (∀ search : Search, search.Locates t.starts (t.clamp offset) →
      t.positionBy search offset = .ok (t.position offset)) ∧
    (∀ (σ : Type) [Producer σ] (initial : Bytes) (producer : σ) (sizes : List Nat),
      let r := (Source.ofText initial producer).pulls sizes
      r.1.flatten = passed → r.2.position = t.position offset) ∧
    ∀ (σ : Type) [Producer σ] (initial : Bytes) (producer : σ) (pullSize fuel : Nat)
      (ops : List Lookahead.Op) (answers : List Lookahead.Answer),
      let r := Lookahead.performAllUpTo fuel ops (.ofSource (.ofText initial producer) pullSize)
      r.1 = answers.map .ok → (List.zipWith Lookahead.Op.taken ops answers).flatten = passed →
        r.2.position = t.position offset := by
  intro t passed
  have hposition : t.position offset = Position.start.advance passed := position_ofText h offset
  refine ⟨hposition, fun _ => positionBy_eq h, ?source, ?reader⟩
  case source =>
    intro σ _ initial producer sizes r hr
    rw [hposition, ← hr]
    exact Source.position_pulls _ sizes
  case reader =>
    intro σ _ initial producer pullSize fuel ops answers r hr htaken
    rw [hposition, ← htaken]
    exact Lookahead.position_performAllUpTo hr

/-- The text `a`, newline, `é`, up to the middle of the accented letter: it is on the second line,
behind one byte. -/
theorem LineTable.position_passed_into_letter :
    let t := ofText [97, 10, 0xC3, 0xA9]
    let place : Position := ⟨.sat 2, .one, .sat 3⟩
    let producer : Replies := ⟨[[97, 10, 0xC3, 0xA9]]⟩
    let ops : List Lookahead.Op := [.takeIf 97, .nth 7, .takeWhile (.ofPredicate (· = 10)), .take]
    (4 ≤ Coord.limit ∧ (Search.miss 2).Locates t.starts (t.clamp (.sat 3)) ∧
        ((Source.ofText [] producer).pulls [2, 0, 1]).1.flatten = [97, 10, 0xC3]) ∧
      t.positionBy (.miss 2) (.sat 3) = .ok place ∧
      ((Source.ofText [] producer).pulls [2, 0, 1]).2.position = place ∧
      (Lookahead.performAllUpTo 4 ops (.ofSource (.ofText [] producer) 3)).2.position = place := by
  intro t place producer ops
  obtain ⟨-, hsearch, hsource, hreader⟩ :=
    @position_passed [97, 10, 0xC3, 0xA9] (by decide) (.sat 3)
  refine ⟨by decide, ?_, ?_, ?_⟩
  · exact (hsearch (.miss 2) (by decide)).trans rfl
  · exact (hsource Replies [] producer [2, 0, 1] rfl).trans rfl
  · exact (hreader Replies [] producer 3 4 ops
      [.flag true, .byte none, .bytes [10], .byte (some 0xC3)] (by cbv) rfl).trans rfl

end EditLex
