import EditLex.Proofs.PlainReader
import EditLex.Proofs.Turns

/-!
Reading where want of room is a fault. As long as a pull fits behind all the bytes there are, no
program faults (`Scan.attempt_eq_run`), and neither does a lexer, whose loop ends after one turn
more than there are bytes at most (`Lexer.attemptUpTo_eq_run`).
-/
namespace EditLex

namespace Scan
variable {α σ : Type} [Bounded σ]

/-- Where there is room, a program that may fault comes to what it comes to without. -/
theorem attempt_eq_run (m : Scan α) {s : Lookahead σ} {v : Passage} (h : s.Reads v) :
    m.attempt s = (.ok (m.run s).1, (m.run s).2) := by
  induction m generalizing s v with
  | done a => rfl
  | nth n next ih =>
    simp only [attempt, run, h.toShows.settle_nth]
    exact ih _ (h.nth n).2
  | take next ih =>
    obtain ⟨-, hr, hend⟩ := h.take
    have hsettle : s.settle s.take.2 (if s.take.1.isSome then 0 else 1) s.take.1 =
        (.ok s.take.1, s.take.2) := by
      apply hr.settle s
      split
      · exact .inl (Nat.zero_le _)
      · next hn => exact .inr (hend (by simpa using hn))
    simp only [attempt, run, hsettle]
    exact ih _ hr
  | takeWhile p next ih =>
    obtain ⟨-, hr, hstop⟩ := h.takeWhile p
    simp only [attempt, run, hr.settle s hstop]
    exact ih _ hr
  | lookWhile p next ih =>
    obtain ⟨-, hr, hstop⟩ := h.lookWhile p
    simp only [attempt, run, hr.settle s hstop]
    exact ih _ hr
  | position next ih => exact ih _ h
  | source next ih => exact ih _ h

end Scan

namespace Lexer
variable {σ S U : Type}

/-- The units of a reader, read in at most so many turns. Want of room is a fault; there is nothing
where the bound is met. -/
def attemptUpTo [Bounded σ] (lexer : Lexer S U) (document : Option String) :
    Nat → S → Lookahead σ → Option (Except Fault (List (Token U)))
  | 0, _, _ => none
  | turns + 1, state, reader =>
    match (lexer.pass document state).attempt reader with
    | (.error e, _) => some (.error e)
    | (.ok (none, _), _) => some (.ok [])
    | (.ok (some t, state), reader) =>
      (attemptUpTo lexer document turns state reader).map (Except.map (t :: ·))

/-- With a turn more than there are bytes, a lexer finds its units without a fault. -/
theorem attemptUpTo_eq_run [Bounded σ] (lexer : Lexer S U) (document : Option String)
    {turns : Nat} (state : S) {reader : Lookahead σ} {v : Passage} (h : reader.Reads v)
    (hturns : v.bytes.length < turns) :
    lexer.attemptUpTo document turns state reader =
      some (.ok (lexer.run document state reader).tokens) := by
  induction turns generalizing state reader v with
  | zero => omega
  | succ turns ih =>
    have hrun := lexer.run_of_pass document state reader
    rw [attemptUpTo, Scan.attempt_eq_run _ h]
    rcases hpass : (lexer.pass document state).run reader with ⟨⟨_ | t, state'⟩, next⟩
    · rw [hpass] at hrun
      rw [(Prod.mk.inj hrun).1]
    · rw [hpass] at hrun
      obtain ⟨f, hgap, hle, -, hnext⟩ := lexer.reads_pass document state h hpass
      have hlen : (v.skip f.length).bytes.length < turns := by
        rw [Passage.bytes_skip, List.length_drop]
        omega
      rw [(Prod.mk.inj hrun).1]
      dsimp only
      rw [ih state' hnext hlen]
      rfl

end Lexer
end EditLex
