import EditLex.Lexer

/-!
What a reader does to its source: it pulls, and nothing else (`Source.Pulled`). So what a pull keeps
of a source is kept by a lexer that runs over it (`Lexer.pulled_run`).
-/
namespace EditLex

/-- `t` is `s` after some pulls. -/
inductive Source.Pulled {σ : Type} [Producer σ] : Source σ → Source σ → Prop where
  | refl (s : Source σ) : Pulled s s
  | pull {s t : Source σ} (n : Nat) (rest : Pulled (s.pull n).2 t) : Pulled s t

namespace Source
variable {σ : Type} [Producer σ] {s t u : Source σ}

theorem Pulled.trans (h : s.Pulled t) (h' : t.Pulled u) : s.Pulled u := by
  induction h with
  | refl s => exact h'
  | pull n _ ih => exact .pull n (ih h')

theorem Pulled.keeps {P : Source σ → Prop} (hpull : ∀ s n, P s → P (s.pull n).2)
    (h : s.Pulled t) (hs : P s) : P t := by
  induction h with
  | refl s => exact hs
  | pull n _ ih => exact ih (hpull _ n hs)

theorem pulled_pull (s : Source σ) (n : Nat) : s.Pulled (s.pull n).2 := .pull n (.refl _)

theorem pulled_pullAtLeast (s : Source σ) (size need : Nat) :
    s.Pulled (s.pullAtLeast size need).2 := by
  fun_induction pullAtLeast s size need with
  | case1 s => exact .refl s
  | case2 s => exact s.pulled_pull size
  | case3 s need _ first _ more ih => exact (s.pulled_pull size).trans ih

/-- The input has ended, and nothing of the last chunk is left to pull. -/
structure Drained (s : Source σ) : Prop where
  ended : s.ended = true
  unread : s.unread = []

theorem Drained.of_pulled (hs : s.Drained) (h : s.Pulled t) : t.Drained := by
  apply h.keeps _ hs
  intro s n hs
  have hload : s.load = s := if_pos hs.ended
  unfold Source.pull
  split
  · exact hs
  · rw [hs.unread, hload]
    exact ⟨hs.ended, by simp [hs.unread]⟩

end Source

namespace Lookahead
variable {σ : Type}

theorem pulled_fill [Producer σ] (s : Lookahead σ) (need : Nat) :
    s.source.Pulled (s.fill need).source := by
  unfold fill
  split
  · exact .refl _
  · exact s.source.pulled_pullAtLeast s.pullSize _

theorem pulled_nth [Producer σ] (s : Lookahead σ) (n : Nat) :
    s.source.Pulled (s.nth n).2.source := by
  unfold nth
  split
  · exact .refl _
  · split
    · exact .refl _
    · exact s.pulled_fill (n + 1)

theorem pulled_of_nth [Producer σ] {s t : Lookahead σ} {n : Nat} {b : Option UInt8}
    (h : s.nth n = (b, t)) : s.source.Pulled t.source := by
  have hnth := s.pulled_nth n
  rwa [h] at hnth

theorem pulled_take [Producer σ] (s : Lookahead σ) : s.source.Pulled s.take.2.source := by
  unfold take
  split
  · next t h => exact pulled_of_nth h
  · next b t h =>
    have ht : s.source.Pulled t.source := pulled_of_nth h
    exact ht

variable [Bounded σ]

theorem pulled_gather (p : Test) (memory : Nat) (taken : Bytes) (s : Lookahead σ) :
    s.source.Pulled (gather p memory taken s).2.source := by
  fun_induction gather p memory taken s with
  | case1 _ _ _ _ h => exact pulled_of_nth h
  | case2 _ _ _ _ _ h => exact pulled_of_nth h
  | case3 _ _ _ _ _ h _ _ ih => exact (pulled_of_nth h).trans ih

theorem pulled_takeWhile (p : Test) (s : Lookahead σ) :
    s.source.Pulled (s.takeWhile p).2.source :=
  pulled_gather p 0 [] s

theorem pulled_lookFrom (p : Test) (memory : Nat) (seen : Bytes) (s : Lookahead σ) :
    s.source.Pulled (lookFrom p memory seen s).2.source := by
  fun_induction lookFrom p memory seen s with
  | case1 _ _ _ _ h => exact pulled_of_nth h
  | case2 _ _ _ _ _ h => exact pulled_of_nth h
  | case3 _ _ _ _ _ h _ _ ih => exact (pulled_of_nth h).trans ih

theorem pulled_lookWhile (p : Test) (s : Lookahead σ) :
    s.source.Pulled (s.lookWhile p).2.source :=
  pulled_lookFrom p 0 [] s

end Lookahead

theorem Scan.pulled_run {α σ : Type} [Bounded σ] (m : Scan α) (s : Lookahead σ) :
    s.source.Pulled (m.run s).2.source := by
  induction m generalizing s with
  | done a => exact .refl _
  | nth n next ih => exact (s.pulled_nth n).trans (ih _ _)
  | take next ih => exact s.pulled_take.trans (ih _ _)
  | takeWhile p next ih => exact (s.pulled_takeWhile p).trans (ih _ _)
  | lookWhile p next ih => exact (s.pulled_lookWhile p).trans (ih _ _)
  | position next ih => exact ih _ s
  | source next ih => exact ih _ s

namespace Lexer
variable {σ S U : Type} [Bounded σ]

/-- One turn pulls for the gap, for a look at what is behind it, and for the unit. -/
theorem pulled_turn (lexer : Lexer S U) (document : Option String) (state : S)
    (reader : Lookahead σ) :
    let skipped := (lexer.skip document state).run reader
    let ahead := skipped.2.atEnd
    reader.source.Pulled ahead.2.source ∧
      reader.source.Pulled ((lexer.read document skipped.1).run ahead.2).2.source := by
  intro skipped ahead
  have hskip := (lexer.skip document state).pulled_run reader
  have hahead : reader.source.Pulled ahead.2.source := hskip.trans (skipped.2.pulled_nth 0)
  exact ⟨hahead, hahead.trans ((lexer.read document skipped.1).pulled_run ahead.2)⟩

theorem pulled_run (lexer : Lexer S U) (document : Option String) (state : S)
    (reader : Lookahead σ) :
    reader.source.Pulled (lexer.run document state reader).reader.source := by
  fun_induction lexer.run document state reader with
  | case1 state reader => exact (lexer.pulled_turn document state reader).1
  | case2 state reader => exact (lexer.pulled_turn document state reader).2
  | case3 state reader => exact (lexer.pulled_turn document state reader).2
  | case4 state reader skipped ahead _ unit _ _ _ rest ih =>
    exact (lexer.pulled_turn document state reader).2.trans ih

end Lexer
end EditLex
