import EditLex.Proofs.Attempts
import EditLex.Proofs.Boundaries
import EditLex.Proofs.Focus
import EditLex.Proofs.Places
import EditLex.Proofs.Words
import EditLex.Update

/-!
What an update makes of whatever it is given. The units, the change and the text need not belong
together: the update joins a front of the units and what the lexer finds from the end of the last of
them, or, if no character begins there, nothing and what it finds in the whole text
(`Tokenizer.update_joins`).
-/
namespace EditLex

/-- There are as many units as the walks from the focus count. -/
theorem Damage.soundPrefix_le_size {U : Type} (d : Damage) (units : Focused (Token U)) :
    d.soundPrefix units ≤ units.size := by
  have hfocus : units.focus ≤ units.size := Nat.le_add_right _ _
  have hbefore := (List.dropWhile_suffix (l := units.before.items)
    fun t => !d.spares t.stop.offset).length_le
  have hafter := (List.takeWhile_prefix (l := units.after.items)
    fun t => d.spares t.stop.offset).length_le
  have hsize : units.size = units.focus + units.after.items.length := by
    rw [← units.after.size_eq]
    rfl
  rw [← units.focus_eq] at hbefore
  unfold soundPrefix
  dsimp only
  split <;> omega

namespace Update
variable {U : Type}

/-- The update has the units of `kept` and then those of `fresh`, which were read from the end of
the last of `kept` on, and it is focused between the two. -/
structure Joins (u : Update U) (kept fresh : List (Token U)) : Prop where
  units : u.units.toList = kept ++ fresh
  resume : u.resume = Token.lastStop .start kept
  reuse : u.reuse = ⟨kept.length, fresh.length⟩
  focus : u.units.focus = u.reuse.kept
  size : u.units.size = u.reuse.kept + u.reuse.fresh
  following : u.units.following? = fresh.head?

theorem Joins.of_focus {u : Update U} {kept fresh : List (Token U)}
    (hunits : u.units.toList = kept ++ fresh) (hfocus : u.units.focus = kept.length)
    (hresume : u.resume = Token.lastStop .start kept)
    (hreuse : u.reuse = ⟨kept.length, fresh.length⟩) : u.Joins kept fresh where
  units := hunits
  resume := hresume
  reuse := hreuse
  focus := by rw [hfocus, hreuse]
  size := by rw [u.units.size_eq, hunits, List.length_append, hreuse]
  following := by
    rw [Focused.following?, Stack.peek?, u.units.after_eq, hunits, hfocus, List.drop_left]

end Update

namespace Tokenizer
variable {S U : Type}

theorem length_take_soundPrefix (d : Damage) (previous : Focused (Token U)) :
    (previous.toList.take (d.soundPrefix previous)).length = d.soundPrefix previous :=
  List.length_take_of_le (previous.size_eq ▸ d.soundPrefix_le_size previous)

theorem stop_preceding?_moveTo (units : Focused (Token U)) (n : Nat) :
    ((units.moveTo n).preceding?.map (·.stop)).getD .start =
      Token.lastStop .start (units.toList.take n) := by
  rw [Focused.preceding?_moveTo]
  rfl

section
variable (t : Tokenizer S U) (document : Option String)

/-- The units of a text that begins at `place`, read in a turn more than there are bytes at most.
Want of room is a fault; there is nothing where the bound is met. -/
def attempt (place : Position) (text : Bytes) : Option (Except Fault (List (Token U))) :=
  t.lexer.attemptUpTo document (text.length + 1) t.state
    (.ofSource (.beginAt [] (Slices.ofText text t.settings.chunkSize) place))

/-- As long as a pull fits behind the text, reading it comes to an end and is no fault. -/
theorem attempt_eq_tokensFrom (place : Position) {text : Bytes}
    (h : text.length + Lookahead.defaultPullSize ≤ bufferLimit) :
    t.attempt document place text =
      some (.ok (t.lexer.tokensFrom document t.settings t.state place text).value.1) := by
  have hreads := Lookahead.reads_slices text t.settings.chunkSize place h
  exact t.lexer.attemptUpTo_eq_run document t.state hreads (Nat.lt_succ_self _)

variable (previous : Focused (Token U)) (change : Change)

/-- Where a character begins at the end of the units kept, the lexer goes on there. -/
theorem joins_of_boundary (text : Bytes) :
    let kept := previous.toList.take ((change.damage t.settings.lookbehind).soundPrefix previous)
    let resume := Token.lastStop .start kept
    Utf8.isBoundary text resume.offset.val →
      (t.update document previous change text).value.1.Joins kept
        (t.lexer.tokensFrom document t.settings t.state resume
          (text.drop resume.offset.val)).value.1 := by
  intro kept resume hboundary
  have hlength := length_take_soundPrefix (change.damage t.settings.lookbehind) previous
  simp only [update, stop_preceding?_moveTo]
  rw [if_pos hboundary]
  simp only [Logged.value_bind, Logged.value_pure]
  apply Update.Joins.of_focus
  · rw [Focused.toList_replaceAfter, Focused.before_moveTo, List.reverse_reverse]
  · show (previous.moveTo _).focus = _
    rw [(previous.moveTo_spec _).2, hlength]
    exact Nat.min_eq_left (Damage.soundPrefix_le_size ..)
  · rfl
  · rw [hlength]

/-- Where none begins there, nothing is kept. -/
theorem joins_of_not_boundary (text : Bytes) :
    let kept := previous.toList.take ((change.damage t.settings.lookbehind).soundPrefix previous)
    ¬Utf8.isBoundary text (Token.lastStop .start kept).offset.val →
      (t.update document previous change text).value.1.Joins []
        (t.tokenize document text).value.1.toList := by
  intro kept hboundary
  simp only [update, stop_preceding?_moveTo]
  rw [if_neg hboundary]
  simp only [Logged.value_bind, Logged.value_pure]
  apply Update.Joins.of_focus
  · rfl
  · rfl
  · rfl
  · rw [Focused.size_eq]
    rfl

/-- The units of an update: those kept and those read from the place where the lexer went on, or all
of them read afresh. -/
theorem units_update (text : Bytes) :
    let keep := (change.damage t.settings.lookbehind).soundPrefix previous
    let resume := Token.lastStop .start (previous.toList.take keep)
    (t.update document previous change text).value.1.units.toList =
      if Utf8.isBoundary text resume.offset.val then
        previous.toList.take keep ++ (t.lexer.tokensFrom document t.settings t.state resume
          (text.drop resume.offset.val)).value.1
      else (t.tokenize document text).value.1.toList := by
  intro keep resume
  split
  · next hboundary => exact (t.joins_of_boundary document previous change text hboundary).units
  · next hboundary => exact (t.joins_of_not_boundary document previous change text hboundary).units

/-- Whatever the units, the change and the text are, the update keeps the units that the walk from
the focus counts and goes on behind the last of them, if that is between two characters of the text,
and else reads the whole text. No part of the text is read with a fault, or without end. -/
theorem update_joins {text : Bytes} (htext : Utf8.Valid text) :
    let keep := (change.damage t.settings.lookbehind).soundPrefix previous
    let kept := previous.toList.take keep
    let resume := Token.lastStop .start kept
    let read (place : Position) (rest : Bytes) :=
      (t.lexer.tokensFrom document t.settings t.state place rest).value.1
    let u := (t.update document previous change text).value.1
    kept.length = keep ∧
      (Utf8.Between text resume.offset.val →
        u.Joins kept (read resume (text.drop resume.offset.val))) ∧
      (¬Utf8.Between text resume.offset.val →
        u.Joins [] (t.tokenize document text).value.1.toList) ∧
      (text.length + Lookahead.defaultPullSize ≤ bufferLimit → ∀ place n,
        t.attempt document place (text.drop n) = some (.ok (read place (text.drop n)))) := by
  intro keep kept resume read u
  refine ⟨length_take_soundPrefix _ previous, ?_, ?_, ?_⟩
  · intro hbetween
    have hboundary := (Utf8.isBoundary_iff htext).2 hbetween
    exact t.joins_of_boundary document previous change text hboundary
  · intro hbetween
    have hboundary := mt (Utf8.isBoundary_iff htext).1 hbetween
    exact t.joins_of_not_boundary document previous change text hboundary
  · intro hroom place n
    apply t.attempt_eq_tokensFrom
    rw [List.length_drop]
    omega

/-- A unit of another text ends at 2, and the change lies far behind it. In `a b` the lexer goes on
there, but in `aé` it does not: 2 is inside the second character. -/
theorem update_of_strange_unit :
    let t : Tokenizer Unit Word := ⟨Word.lexer, (), { chunkSize := 1 }⟩
    let stop : Position := ⟨.sat 7, .sat 0, .sat 2⟩
    let previous : Focused (Token Word) := .ofList [⟨.punct '.', .start, stop⟩]
    let change := Change.insert (.sat 9) (.sat 0)
    let update (text : Bytes) := (t.update none previous change text).value.1
    let fresh : List (Token Word) := [⟨.ident [98], stop, ⟨.sat 7, .sat 1, .sat 3⟩⟩]
    let whole : List (Token Word) := [⟨.ident [97, 0xC3, 0xA9], .start, ⟨.one, .sat 3, .sat 3⟩⟩]
    (Utf8.Valid [97, 32, 98] ∧ (update [97, 32, 98]).Joins previous.toList fresh ∧
        t.attempt none stop [98] = some (.ok fresh)) ∧
      Utf8.Valid [97, 0xC3, 0xA9] ∧ (update [97, 0xC3, 0xA9]).Joins [] whole ∧
        t.attempt none .start [97, 0xC3, 0xA9] = some (.ok whole) := by
  intro t stop previous change update fresh whole
  have hspaced : Utf8.Valid [97, 32, 98] := by decide
  have haccented : Utf8.Valid [97, 0xC3, 0xA9] := by decide
  have hfresh : (t.lexer.tokensFrom none t.settings t.state stop [98]).value.1 = fresh := by
    have hturn : Word.lexer.turn none () ⟨[98], stop⟩ = (some ⟨0, .ident [98], 1⟩, ()) := by decide
    have hend : Word.lexer.turn none () ((⟨[98], stop⟩ : Passage).skip 1) = (none, ()) := by decide
    rw [Lexer.value_tokensFrom (Word.steady none) t.settings () _ (by decide),
      Lexer.lex_of_turn_some hturn, Lexer.lex_of_turn_none hend]
    decide
  have hwhole : (t.lexer.tokensFrom none t.settings t.state .start [97, 0xC3, 0xA9]).value.1 =
      whole := by
    have hturn : Word.lexer.turn none () ⟨[97, 0xC3, 0xA9], .start⟩ =
        (some ⟨0, .ident [97, 0xC3, 0xA9], 3⟩, ()) := by decide
    have hend : Word.lexer.turn none () ((⟨[97, 0xC3, 0xA9], .start⟩ : Passage).skip 3) =
        (none, ()) := by decide
    rw [Lexer.value_tokensFrom (Word.steady none) t.settings () _ (by decide),
      Lexer.lex_of_turn_some hturn, Lexer.lex_of_turn_none hend]
    decide
  obtain ⟨-, hon, -, hroom⟩ := t.update_joins none previous change hspaced
  obtain ⟨-, -, hover, hroom'⟩ := t.update_joins none previous change haccented
  refine ⟨⟨hspaced, ?_, ?_⟩, haccented, ?_, ?_⟩
  · exact hfresh ▸ hon (by decide)
  · exact hfresh ▸ hroom (by decide) stop 2
  · exact hwhole ▸ hover (by decide)
  · exact hwhole ▸ hroom' (by decide) .start 0

end
end Tokenizer
end EditLex
