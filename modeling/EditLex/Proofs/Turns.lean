import EditLex.Lexer
import EditLex.Proofs.Reading

/-!
Turns of a lexer, over any reader. One turn of the loop is a program (`Lexer.pass`), which the loop
runs again and again (`Lexer.run_of_pass`). Whatever a program asks and whatever it is told, the
reader stands behind some of the bytes afterwards (`Scan.reads_run`), so a turn finds its unit in
the bytes that were left to read (`Lexer.reads_pass`).
-/
namespace EditLex

/-- A reader of slices stands at the front of their text, as long as a pull fits behind it. -/
theorem Lookahead.reads_slices (text : Bytes) (chunkSize : Nat) (start : Position)
    (h : text.length + defaultPullSize ≤ bufferLimit) :
    (ofSource (.beginAt [] (Slices.ofText text chunkSize) start)).Reads ⟨text, start⟩ :=
  .ofSource (Source.holds_beginAt (Slices.brings_ofText ..) [] start) h

namespace Scan
variable {α β σ : Type} [Bounded σ]

theorem run_bind (m : Scan α) (f : α → Scan β) (s : Lookahead σ) :
    (m >>= f).run s = (f (m.run s).1).run (m.run s).2 := by
  show (m.bind f).run s = _
  induction m generalizing s with
  | done a => rfl
  | nth n next ih => exact ih _ _
  | take next ih => exact ih _ _
  | takeWhile p next ih => exact ih _ _
  | lookWhile p next ih => exact ih _ _
  | position next ih => exact ih _ s
  | source next ih => exact ih _ s

@[simp] theorem run_pure (a : α) (s : Lookahead σ) : (pure a : Scan α).run s = (a, s) := rfl

@[simp] theorem run_peek (s : Lookahead σ) : peek.run s = s.peek := rfl

@[simp] theorem run_here (s : Lookahead σ) : here.run s = (s.position, s) := rfl

/-- A program leaves what lies behind the bytes it takes. -/
theorem reads_run (m : Scan α) {s : Lookahead σ} {v : Passage} (h : s.Reads v) :
    ∃ n, (m.run s).2.Reads (v.skip n) := by
  induction m generalizing s v with
  | done a => exact ⟨0, v.skip_zero.symm ▸ h⟩
  | nth n next ih => exact ih _ (h.nth n).2
  | take next ih =>
    obtain ⟨n, hn⟩ := ih s.take.1 h.take.2.1
    exact ⟨1 + n, v.skip_skip 1 n ▸ hn⟩
  | takeWhile p next ih =>
    obtain ⟨n, hn⟩ := ih (s.takeWhile p).1 (h.takeWhile p).2.1
    exact ⟨_, v.skip_skip _ n ▸ hn⟩
  | lookWhile p next ih => exact ih _ (h.lookWhile p).2.1
  | position next ih => exact ih _ h
  | source next ih => exact ih _ h

end Scan

/-- What one turn of a lexer finds: so many bytes, then a unit, and how many bytes lead up to the
end of it. -/
structure Found (U : Type) where
  gap : Nat
  value : U
  length : Nat
  deriving DecidableEq

/-- The unit found, with its positions. -/
def Passage.token {U : Type} (v : Passage) (f : Found U) : Token U :=
  ⟨f.value, (v.skip f.gap).place, (v.skip f.length).place⟩

namespace Lexer
variable {σ S U : Type}

/-- One turn of the loop as a program: the unit that it finds, if it finds one. -/
def pass (lexer : Lexer S U) (document : Option String) (state : S) :
    Scan (Option (Token U) × S) := do
  let skipped ← lexer.skip document state
  match ← Scan.peek with
  | none => return (none, skipped)
  | some _ =>
    let start ← Scan.here
    let (value, state) ← lexer.read document skipped
    let stop ← Scan.here
    return (value.bind fun value =>
      if stop.offset = start.offset then none else some ⟨value, start, stop⟩, state)

variable [Bounded σ] (lexer : Lexer S U) (document : Option String) (state : S)

theorem run_pass (reader : Lookahead σ) :
    (lexer.pass document state).run reader =
      let skipped := (lexer.skip document state).run reader
      let ahead := skipped.2.atEnd
      if ahead.1 then ((none, skipped.1), ahead.2)
      else
        let unit := (lexer.read document skipped.1).run ahead.2
        (match unit.1.1 with
          | none => (none, unit.1.2)
          | some value =>
            if unit.2.position.offset = ahead.2.position.offset then (none, unit.1.2)
            else (some ⟨value, ahead.2.position, unit.2.position⟩, unit.1.2), unit.2) := by
  rw [pass, Scan.run_bind, Scan.run_bind, Scan.run_peek]
  generalize (lexer.skip document state).run reader = skipped
  have hend : skipped.2.atEnd = (skipped.2.peek.1.isNone, skipped.2.peek.2) := rfl
  dsimp only
  rw [hend]
  generalize skipped.2.peek = ahead
  obtain ⟨_ | b, ahead⟩ := ahead
  · rfl
  · dsimp only
    rw [Scan.run_bind, Scan.run_here, Scan.run_bind, Scan.run_bind, Scan.run_here]
    generalize (lexer.read document skipped.1).run ahead = unit
    obtain ⟨⟨_ | value, after⟩, last⟩ := unit
    · rfl
    · dsimp only [Option.bind_some, Option.isNone_some]
      rw [if_neg Bool.false_ne_true]
      split <;> rfl

/-- The loop goes on with what a turn leaves, if it has found a unit. -/
theorem run_of_pass (reader : Lookahead σ) :
    let turn := (lexer.pass document state).run reader
    ((lexer.run document state reader).tokens, (lexer.run document state reader).state) =
      match turn.1.1 with
      | none => ([], turn.1.2)
      | some t =>
        let rest := lexer.run document turn.1.2 turn.2
        (t :: rest.tokens, rest.state) := by
  rw [run_pass, run]
  dsimp only
  split
  · rfl
  · cases ((lexer.read document ((lexer.skip document state).run reader).1).run
      ((lexer.skip document state).run reader).2.atEnd.2).1.1 with
    | none => rfl
    | some value =>
      dsimp only
      split <;> rfl

/-- A turn that finds a unit has passed over a gap in the bytes that are left to read, and then over
the unit, which takes a byte at least. -/
theorem reads_pass {reader next : Lookahead σ} {v : Passage} {t : Token U} {state' : S}
    (h : reader.Reads v)
    (hpass : (lexer.pass document state).run reader = ((some t, state'), next)) :
    ∃ f : Found U, f.gap < f.length ∧ f.length ≤ v.bytes.length ∧ t = v.token f ∧
      next.Reads (v.skip f.length) := by
  rw [run_pass] at hpass
  obtain ⟨m, hskip⟩ := (lexer.skip document state).reads_run h
  generalize (lexer.skip document state).run reader = skipped at hpass hskip
  obtain ⟨hend, hahead⟩ := hskip.atEnd
  dsimp only at hpass
  generalize skipped.2.atEnd = ahead at hpass hend hahead
  obtain ⟨n, hunit⟩ := (lexer.read document skipped.1).reads_run hahead
  generalize (lexer.read document skipped.1).run ahead.2 = unit at hpass hunit
  obtain ⟨⟨found, after⟩, last⟩ := unit
  rw [v.skip_skip] at hunit
  split at hpass
  · simp at hpass
  next hmore =>
  cases found with
  | none => simp at hpass
  | some value =>
    simp only [Prod.mk.injEq] at hpass
    obtain ⟨hfound, rfl⟩ := hpass
    dsimp only at hunit
    rw [hunit.position, hahead.position] at hfound
    split at hfound
    · simp at hfound
    next hoff =>
    simp only [Prod.mk.injEq, Option.some.injEq] at hfound
    obtain ⟨rfl, rfl⟩ := hfound
    have hm : m < v.bytes.length := by
      rw [hend, List.isEmpty_iff, Passage.bytes_skip, List.drop_eq_nil_iff] at hmore
      omega
    -- A unit that takes no byte leaves the place where it was.
    have hn : n ≠ 0 := by
      rintro rfl
      exact hoff rfl
    refine ⟨⟨m, value, v.bytes.length - (v.skip (m + n)).bytes.length⟩, ?_, Nat.sub_le _ _, ?_, ?_⟩
    · simp only [Passage.bytes_skip, List.length_drop]
      omega
    · simp only [Passage.token, v.skip_sub]
    · rwa [v.skip_sub]

theorem room_of_le_limit {text : Bytes} (h : text.length ≤ Coord.limit) :
    text.length + Lookahead.defaultPullSize ≤ bufferLimit := by
  simp only [Coord.limit, Lookahead.defaultPullSize, bufferLimit] at *
  omega

end Lexer
end EditLex
