import EditLex.Proofs.Feeds
import EditLex.Proofs.Tokenising

/-!
A lexer of words that starts anew in a gap. The words behind a gap are a split of the text from
there (`Word.Splits.drop`, `Word.Splits.of_gap`), so a lexer that starts in the gap finds them,
whatever stands before it and in whatever chunks the rest comes (`Word.run_beginAt_gap`).
-/
namespace EditLex.Word

namespace Splits
variable {text : Bytes} {n p : Nat} {words : List (Token Word)}

/-- The words from the `k`-th on are a split from the end of the one before. -/
theorem drop {start : Position} (h : Splits text start.offset.val words)
    (hdrop : Utf8.Valid (text.drop start.offset.val)) (k : Nat) :
    Splits text (Token.lastStop start (words.take k)).offset.val (words.drop k) ∧
      Utf8.Valid (text.drop (Token.lastStop start (words.take k)).offset.val) := by
  induction k generalizing start words with
  | zero => exact ⟨h, hdrop⟩
  | succ k ih =>
    cases words with
    | nil => exact ⟨h, hdrop⟩
    | cons t words =>
      rw [List.take_succ_cons, Token.lastStop_cons, List.drop_succ_cons]
      apply ih h.tail
      exact (h.valid_drop hdrop t List.mem_cons_self).2

/-- There is nothing but white space up to a place in the gap before the first word. -/
theorem isSpace_of_gap (h : Splits text n words) (hp : p ≤ text.length)
    (hfirst : ∀ t, words.head? = some t → p ≤ t.start.offset.val) {i : Nat} (hn : n ≤ i)
    (hi : i < p) : text[i]?.any isSpace = true := by
  cases words with
  | nil => exact (h.blank i hn (Nat.lt_of_lt_of_le hi hp)).2 (by simp)
  | cons t words => exact h.isSpace_gap hn (Nat.lt_of_lt_of_le hi (hfirst t rfl))

/-- From a place in the gap before the first word the split is the same. -/
theorem of_gap (h : Splits text n words) (hn : n ≤ p)
    (hfirst : ∀ t, words.head? = some t → p ≤ t.start.offset.val) : Splits text p words where
  exact := h.exact
  behind u hu := by
    cases words with
    | nil => contradiction
    | cons t words => exact Nat.le_trans (hfirst t rfl) (h.start_le_of_mem hu)
  ordered := h.ordered
  stands := h.stands
  blank i hp := h.blank i (Nat.le_trans hn hp)

end Splits

/-- A lexer that starts anew anywhere between the end of one word and the start of the next, at the
position there, finds the words that follow with the same positions. The place lies between two
characters; the rest may come in any chunks, pulled any number of bytes at a time. -/
theorem run_beginAt_gap (document other : Option String) (settings : Settings) {text : Bytes}
    (htext : Utf8.Valid text) (h : text.length ≤ Coord.limit) :
    let words := (lexer.tokens other settings () text).value.1.toList
    ∀ k p, p ≤ text.length → (Token.lastStop .start (words.take k)).offset.val ≤ p →
      (∀ t, words[k]? = some t → p ≤ t.start.offset.val) →
      Utf8.Between text p ∧
        ∀ (σ : Type) [Bounded σ] (producer : σ) (initial rest : Bytes) (pullSize : Nat),
          initial ++ rest = text.drop p → Producer.Brings producer rest →
          (text.drop p).length + max pullSize 1 ≤ bufferLimit →
          let start := Position.start.advance (text.take p)
          (lexer.run document ()
            (.ofSource (.beginAt initial producer start) pullSize)).tokens = words.drop k := by
  intro words k p hp hlast hnext
  have hsplits : Splits text Position.start.offset.val words :=
    splits_tokens other settings htext h
  obtain ⟨hbehind, hvalid⟩ := hsplits.drop htext k
  rw [← List.head?_drop] at hnext
  have hspace := fun i => hbehind.isSpace_of_gap hp hnext (i := i)
  have hdrop : Utf8.Valid (text.drop p) := valid_drop_of_isSpace hlast hspace hvalid
  refine ⟨Utf8.between_of_valid_drop htext hp hdrop, ?_⟩
  intro σ _ producer initial rest pullSize hrest hbrings hpull start
  rw [← hrest] at hpull
  rw [(Lexer.run_of_brings (steady document) () hbrings initial start hpull).1, hrest]
  exact (splits_lex document h hp hdrop).unique (hbehind.of_gap hlast hnext)

/-- In `1a+ é`, from the end of `1`, where `a` follows without a gap. -/
theorem run_beginAt_gap_of_adjoining_words :
    let text : Bytes := [49, 97, 43, 32, 195, 169]
    let words := (lexer.tokens none {} () text).value.1.toList
    let rest : Pieces := ⟨[[], [43, 32, 195], [169]]⟩
    (Utf8.Valid text ∧ text.length ≤ Coord.limit ∧ 1 ≤ text.length ∧
      (Token.lastStop .start (words.take 1)).offset.val ≤ 1 ∧
      (∀ t, words[1]? = some t → 1 ≤ t.start.offset.val) ∧
      [97] ++ [43, 32, 195, 169] = text.drop 1 ∧ Producer.Brings rest [43, 32, 195, 169] ∧
      (text.drop 1).length + max 0 1 ≤ bufferLimit) ∧
      (lexer.run (some "doc") ()
        (.ofSource (.beginAt [97] rest ⟨.one, .one, .one⟩) 0)).tokens =
          [⟨.ident [97], ⟨.one, .sat 1, .sat 1⟩, ⟨.one, .sat 2, .sat 2⟩⟩,
            ⟨.punct '+', ⟨.one, .sat 2, .sat 2⟩, ⟨.one, .sat 3, .sat 3⟩⟩,
            ⟨.ident [195, 169], ⟨.one, .sat 4, .sat 4⟩, ⟨.one, .sat 6, .sat 6⟩⟩] := by
  intro text words rest
  have hwords : words = [⟨.number [49], ⟨.one, .sat 0, .sat 0⟩, ⟨.one, .sat 1, .sat 1⟩⟩,
      ⟨.ident [97], ⟨.one, .sat 1, .sat 1⟩, ⟨.one, .sat 2, .sat 2⟩⟩,
      ⟨.punct '+', ⟨.one, .sat 2, .sat 2⟩, ⟨.one, .sat 3, .sat 3⟩⟩,
      ⟨.ident [195, 169], ⟨.one, .sat 4, .sat 4⟩, ⟨.one, .sat 6, .sat 6⟩⟩] := by
    refine (Lexer.value_tokens (steady none) {} () (by decide)).1.trans ?_
    cbv
  have htext : Utf8.Valid text := by decide
  have hlength : text.length ≤ Coord.limit := by decide
  have hlast : (Token.lastStop .start (words.take 1)).offset.val ≤ 1 := by
    rw [hwords]
    decide
  have hnext : ∀ t, words[1]? = some t → 1 ≤ t.start.offset.val := by
    rw [hwords]
    rintro t ⟨⟩
    decide
  have hrest : Producer.Brings rest [43, 32, 195, 169] := Pieces.brings _
  obtain ⟨-, hrun⟩ :=
    run_beginAt_gap (some "doc") none {} htext hlength 1 1 (by decide) hlast hnext
  refine ⟨⟨htext, hlength, by decide, hlast, hnext, rfl, hrest, by decide⟩, ?_⟩
  refine (hrun Pieces rest [97] [43, 32, 195, 169] 0 rfl hrest (by decide)).trans ?_
  exact congrArg (List.drop 1) hwords

end EditLex.Word
