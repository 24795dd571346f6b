import Mathlib
import EditLex.Proofs.LongestWords
import EditLex.Proofs.Positions

/-!
The words of a text, told without a lexer: each is the longest that begins where it begins, and all
that lies outside of them is white space (`Word.Splits`). A text has one such split
(`Word.Splits.unique`), and the lexer finds it (`Word.splits_lex`).
-/
namespace EditLex

theorem Position.ExactIn.eq_of_offset_eq {p q : Position} {text : Bytes} (hp : p.ExactIn text)
    (hq : q.ExactIn text) (h : p.offset.val = q.offset.val) : p = q := by
  rw [← hp.walk, h, hq.walk]

/-- The byte at `i` belongs to the unit. -/
def Token.Covers {U : Type} (t : Token U) (i : Nat) : Prop :=
  t.start.offset.val ≤ i ∧ i < t.stop.offset.val

namespace Word

/-- From `n` on, the words of the text are these, one behind another, with white space and nothing
else outside of them. -/
structure Splits (text : Bytes) (n : Nat) (words : List (Token Word)) : Prop where
  exact : ∀ t ∈ words, t.start.ExactIn text ∧ t.stop.ExactIn text
  behind : ∀ t ∈ words, n ≤ t.start.offset.val
  ordered : words.Pairwise fun t u => t.stop.offset.val ≤ u.start.offset.val
  stands : ∀ t ∈ words, Stands text t.start.offset.val t.stop.offset.val t.value
  blank : ∀ i, n ≤ i → i < text.length →
    (text[i]?.any isSpace = true ↔ ∀ t ∈ words, ¬t.Covers i)

/-- The text from `n` on, put together from the gaps and the words. -/
def rebuild (text : Bytes) (n : Nat) : List (Token Word) → Bytes
  | [] => text.drop n
  | t :: words =>
    text.extract n t.start.offset.val ++ t.value.spelling ++ rebuild text t.stop.offset.val words

namespace Splits
variable {text : Bytes} {n : Nat} {t : Token Word} {words : List (Token Word)}

theorem exists_covers (h : Splits text n words) {i : Nat} (hn : n ≤ i) (hi : i < text.length)
    (hspace : text[i]?.any isSpace = false) : ∃ t ∈ words, t.Covers i := by
  have := mt (h.blank i hn hi).2 (by simp [hspace])
  simpa using this

theorem lt_length (h : Splits text n words) (ht : t ∈ words) :
    t.start.offset.val < text.length := by
  have hlt := (h.stands t ht).lt
  have hle := (h.stands t ht).le_length
  omega

theorem any_isSpace_start (h : Splits text n words) (ht : t ∈ words) :
    text[t.start.offset.val]?.any isSpace = false := by
  rw [← Bool.not_eq_true, h.blank _ (h.behind t ht) (h.lt_length ht)]
  intro hcovers
  exact hcovers t ht ⟨Nat.le_refl _, (h.stands t ht).lt⟩

theorem start_le_of_mem (h : Splits text n (t :: words)) {u : Token Word}
    (hu : u ∈ t :: words) : t.start.offset.val ≤ u.start.offset.val := by
  rcases List.mem_cons.1 hu with rfl | hu
  · exact Nat.le_refl _
  · have hlt := (h.stands t List.mem_cons_self).lt
    have hle := List.rel_of_pairwise_cons h.ordered hu
    omega

theorem start_le (h : Splits text n (t :: words)) {i : Nat} (hn : n ≤ i) (hi : i < text.length)
    (hspace : text[i]?.any isSpace = false) : t.start.offset.val ≤ i := by
  obtain ⟨u, hu, hcovers⟩ := h.exists_covers hn hi hspace
  exact Nat.le_trans (h.start_le_of_mem hu) hcovers.1

theorem tail (h : Splits text n (t :: words)) : Splits text t.stop.offset.val words where
  exact u hu := h.exact u (List.mem_cons_of_mem _ hu)
  behind u hu := List.rel_of_pairwise_cons h.ordered hu
  ordered := h.ordered.of_cons
  stands u hu := h.stands u (List.mem_cons_of_mem _ hu)
  blank i hn hi := by
    have hlt := (h.stands t List.mem_cons_self).lt
    have hbehind := h.behind t List.mem_cons_self
    rw [h.blank i (by omega) hi, List.forall_mem_cons, and_iff_right]
    exact fun hcovers => Nat.not_lt.2 hn hcovers.2

/-- Nothing but white space lies before the first word. -/
theorem isSpace_gap (h : Splits text n (t :: words)) {i : Nat} (hn : n ≤ i)
    (hi : i < t.start.offset.val) : text[i]?.any isSpace = true := by
  rw [← Bool.not_eq_false]
  intro hspace
  have hlength := h.lt_length List.mem_cons_self
  have hle := h.start_le hn (by omega) hspace
  omega

theorem nil (h : ∀ i, n ≤ i → i < text.length → text[i]?.any isSpace = true) :
    Splits text n [] where
  exact := by simp
  behind := by simp
  ordered := List.Pairwise.nil
  stands := by simp
  blank i hn hi := by simp [h i hn hi]

theorem cons {i j : Nat} (hi : t.start.offset.val = i) (hj : t.stop.offset.val = j)
    (hexact : t.start.ExactIn text ∧ t.stop.ExactIn text) (hn : n ≤ i)
    (hgap : ∀ k, n ≤ k → k < i → text[k]?.any isSpace = true)
    (hfirst : text[i]?.any isSpace = false) (hstands : Stands text i j t.value)
    (h : Splits text j words) : Splits text n (t :: words) := by
  subst hi hj
  constructor
  case exact => exact List.forall_mem_cons.2 ⟨hexact, h.exact⟩
  case behind =>
    refine List.forall_mem_cons.2 ⟨hn, fun u hu => ?_⟩
    have hlt := hstands.lt
    have hle := h.behind u hu
    omega
  case ordered => exact List.pairwise_cons.2 ⟨h.behind, h.ordered⟩
  case stands => exact List.forall_mem_cons.2 ⟨hstands, h.stands⟩
  case blank =>
    intro k hk hlength
    rw [List.forall_mem_cons]
    -- A byte lies behind the first word, in it, or before it.
    by_cases hstop : t.stop.offset.val ≤ k
    · rw [h.blank k hstop hlength, and_iff_right]
      exact fun hcovers => Nat.not_lt.2 hstop hcovers.2
    have hlater : ∀ u ∈ words, ¬u.Covers k := by
      intro u hu hcovers
      exact hstop (Nat.le_trans (h.behind u hu) hcovers.1)
    rw [and_iff_left hlater]
    have hstop := Nat.lt_of_not_le hstop
    by_cases hstart : t.start.offset.val ≤ k
    · simp [hstands.any_isSpace hfirst hstart hstop, Token.Covers, hstart, hstop]
    · simp [hgap k hk (Nat.lt_of_not_le hstart), Token.Covers, hstart]

/-- Where a word of one split starts, another split has a word as well. -/
theorem exists_covers_start {other : List (Token Word)} (h : Splits text n words)
    (h' : Splits text n other) (ht : t ∈ other) : ∃ u ∈ words, u.Covers t.start.offset.val :=
  h.exists_covers (h'.behind t ht) (h'.lt_length ht) (h'.any_isSpace_start ht)

theorem start_le_start {u : Token Word} {other : List (Token Word)}
    (h : Splits text n (t :: words)) (h' : Splits text n (u :: other)) :
    t.start.offset.val ≤ u.start.offset.val := by
  obtain ⟨v, hv, hcovers⟩ := h.exists_covers_start h' List.mem_cons_self
  exact Nat.le_trans (h.start_le_of_mem hv) hcovers.1

theorem head_eq {u : Token Word} {other : List (Token Word)} (h : Splits text n (t :: words))
    (h' : Splits text n (u :: other)) : t = u := by
  have ht : t ∈ t :: words := List.mem_cons_self
  have hu : u ∈ u :: other := List.mem_cons_self
  have hstart := Nat.le_antisymm (h.start_le_start h') (h'.start_le_start h)
  obtain ⟨hstop, hvalue⟩ := (h.stands t ht).unique (hstart ▸ h'.stands u hu)
  obtain ⟨hexact_start, hexact_stop⟩ := h.exact t ht
  obtain ⟨hexact_start', hexact_stop'⟩ := h'.exact u hu
  cases t
  cases u
  obtain rfl := hexact_start.eq_of_offset_eq hexact_start' hstart
  obtain rfl := hexact_stop.eq_of_offset_eq hexact_stop' hstop
  exact congrArg (Token.mk · _ _) hvalue

/-- A text has one split. -/
theorem unique {other : List (Token Word)} (h : Splits text n words)
    (h' : Splits text n other) : words = other := by
  induction words generalizing n other with
  | nil =>
    cases other with
    | nil => rfl
    | cons u other =>
      obtain ⟨t, ht, -⟩ := h.exists_covers_start h' List.mem_cons_self
      contradiction
  | cons t words ih =>
    cases other with
    | nil =>
      obtain ⟨u, hu, -⟩ := h'.exists_covers_start h List.mem_cons_self
      contradiction
    | cons u other =>
      obtain rfl := h.head_eq h'
      rw [ih h.tail h'.tail]

/-- What follows a word is a text, and so is what begins with it. -/
theorem valid_drop (h : Splits text n words) (hdrop : Utf8.Valid (text.drop n)) :
    ∀ t ∈ words, Utf8.Valid (text.drop t.start.offset.val) ∧
      Utf8.Valid (text.drop t.stop.offset.val) := by
  induction words generalizing n with
  | nil => simp
  | cons t words ih =>
    have ht : t ∈ t :: words := List.mem_cons_self
    have hstart := valid_drop_of_isSpace (h.behind t ht) (fun _ => h.isSpace_gap) hdrop
    have hstop := (h.stands t ht).valid_drop hstart
    exact List.forall_mem_cons.2 ⟨⟨hstart, hstop⟩, ih h.tail hstop⟩

theorem rebuild_eq (h : Splits text n words) : rebuild text n words = text.drop n := by
  induction words generalizing n with
  | nil => rfl
  | cons t words ih =>
    have ht : t ∈ t :: words := List.mem_cons_self
    have hstands := h.stands t ht
    rw [rebuild, ih h.tail, hstands.spelling_eq, List.append_assoc,
      extract_append_drop (Nat.le_of_lt hstands.lt), extract_append_drop (h.behind t ht)]

end Splits

/-- A turn finds the first word behind the white space, unless nothing else is left. -/
theorem turn_skip (document : Option String) {text : Bytes} (h : text.length ≤ Coord.limit)
    {n : Nat} (hn : n ≤ text.length) (hdrop : Utf8.Valid (text.drop n)) :
    let v := (⟨text, .start⟩ : Passage).skip n
    (∀ k, n ≤ k → k < text.length → text[k]?.any isSpace = true) ∧
        lexer.turn document () v = (none, ()) ∨
      ∃ gap length word, (∀ k, n ≤ k → k < n + gap → text[k]?.any isSpace = true) ∧
        text[n + gap]?.any isSpace = false ∧ Stands text (n + gap) (n + length) word ∧
        Utf8.Valid (text.drop (n + gap)) ∧
        lexer.turn document () v = (some ⟨gap, word, length⟩, ()) := by
  intro v
  obtain ⟨gap, hgap⟩ : ∃ gap, gap = ((text.drop n).takeWhile isSpace).length := ⟨_, rfl⟩
  have hspace : ∀ k, n ≤ k → k < n + gap → text[k]?.any isSpace = true :=
    fun k hk hlt => any_of_lt_takeWhile_drop hk (hgap ▸ hlt)
  have hle : n + gap ≤ text.length := by
    have hlength := (List.takeWhile_prefix (l := text.drop n) isSpace).length_le
    rw [List.length_drop] at hlength
    omega
  rcases Nat.lt_or_eq_of_le hle with hlt | hend
  · right
    have hvalid := valid_drop_of_isSpace (Nat.le_add_right n gap) hspace hdrop
    obtain ⟨word, m, hfirst, hstands⟩ := stands_first hlt hvalid
    have hm := hstands.lt
    have hj := hstands.le_length
    rw [Nat.add_assoc] at hstands hm hj
    refine ⟨gap, gap + m, word, hspace, hgap ▸ any_length_takeWhile_drop, hstands, hvalid, ?_⟩
    refine turn_eq_some_iff.2 ⟨hgap, ⟨m, ?_, rfl⟩, ?_, by dsimp only; omega⟩
    · rw [Passage.bytes_skip, List.drop_drop]
      exact hfirst
    · dsimp only
      rw [Passage.skip_skip, Passage.skip_skip, Ne, Coord.eq_iff_val,
        Passage.offset_skip_ofText h hj, Passage.offset_skip_ofText h hle]
      omega
  · left
    refine ⟨fun k hk hlt => hspace k hk (hend ▸ hlt), ?_⟩
    rcases hturn : lexer.turn document () v with ⟨_ | f, _⟩
    · rfl
    · obtain ⟨hf, ⟨m, hfirst, -⟩, -⟩ := turn_eq_some_iff.1 hturn
      rw [Passage.bytes_skip, List.drop_drop, hf, Passage.bytes_skip, ← hgap, hend,
        List.drop_length] at hfirst
      contradiction

/-- The lexer finds the split, wherever it starts between two characters of a text. -/
theorem splits_lex (document : Option String) {text : Bytes} (h : text.length ≤ Coord.limit)
    {n : Nat} (hn : n ≤ text.length) (hdrop : Utf8.Valid (text.drop n)) :
    Splits text n (lexer.lex document () ((⟨text, .start⟩ : Passage).skip n)).1 := by
  induction hm : text.length - n using Nat.strongRecOn generalizing n with
  | ind m ih =>
    rcases turn_skip document h hn hdrop with
      ⟨hspace, hturn⟩ | ⟨gap, length, word, hspace, hstop, hstands, hvalid, hturn⟩
    · rw [Lexer.lex_of_turn_none hturn]
      exact .nil hspace
    · have hlt := hstands.lt
      have hle := hstands.le_length
      have hgap : n + gap ≤ text.length := by omega
      rw [Lexer.lex_of_turn_some hturn]
      dsimp only
      rw [Passage.token, Passage.skip_skip, Passage.skip_skip]
      apply Splits.cons (Passage.offset_skip_ofText h hgap) (Passage.offset_skip_ofText h hle) _
        (Nat.le_add_right n gap) hspace hstop hstands
      · exact ih _ (by omega) hle (hstands.valid_drop hvalid) rfl
      · exact ⟨Passage.exactIn_place_skip h hgap, Passage.exactIn_place_skip h hle⟩

theorem splits_tokens (document : Option String) (settings : Settings) {text : Bytes}
    (htext : Utf8.Valid text) (h : text.length ≤ Coord.limit) :
    Splits text 0 (lexer.tokens document settings () text).value.1.toList := by
  rw [(Lexer.value_tokens (steady document) settings () h).1]
  exact splits_lex document h (Nat.zero_le _) htext

/-- The words of a text, in any document and under any settings, are its one split, by white space,
digits, and letters, digits, underscores and what is not ASCII. Each is spelled as the text is from
its start to its end, which lie between characters, so that words and gaps make up the text. -/
theorem tokens_split (document : Option String) (settings : Settings) {text : Bytes}
    (htext : Utf8.Valid text) (h : text.length ≤ Coord.limit) :
    let words := (lexer.tokens document settings () text).value.1.toList
    (∀ b : UInt8, (isSpace b = true ↔ Char.ofNat b.toNat ∈ [' ', '\t', '\n', '\x0c', '\r']) ∧
        isDigit b = (Char.ofNat b.toNat).isDigit ∧
        (isIdentByte b = true ↔
          (Char.ofNat b.toNat).isAlphanum = true ∨ Char.ofNat b.toNat = '_' ∨ 128 ≤ b)) ∧
      Splits text 0 words ∧ (∀ other, Splits text 0 other → other = words) ∧
      (∀ t ∈ words, t.value.spelling = text.extract t.start.offset.val t.stop.offset.val ∧
        Utf8.Between text t.start.offset.val ∧ Utf8.Between text t.stop.offset.val) ∧
      rebuild text 0 words = text := by
  intro words
  have hsplits : Splits text 0 words := splits_tokens document settings htext h
  refine ⟨fun b => ⟨isSpace_iff b, isDigit_eq b, isIdentByte_iff b⟩, hsplits,
    fun other hother => hother.unique hsplits, ?_, hsplits.rebuild_eq⟩
  intro t ht
  have hstands := hsplits.stands t ht
  have hlt := hstands.lt
  have hle := hstands.le_length
  obtain ⟨hstart, hstop⟩ := hsplits.valid_drop htext t ht
  refine ⟨hstands.spelling_eq, ?_, Utf8.between_of_valid_drop htext hle hstop⟩
  exact Utf8.between_of_valid_drop htext (by omega) hstart

/-- Digits and a letter of two bytes without a gap, a vertical tab, and white space. -/
theorem tokens_split_of_adjoining_words :
    let text : Bytes := [49, 50, 195, 169, 51, 11, 32, 95]
    let words := (lexer.tokens none { chunkSize := 1 } () text).value.1.toList
    (Utf8.Valid text ∧ text.length ≤ Coord.limit) ∧ Splits text 0 words ∧
      rebuild text 0 words = text ∧
      words.map (·.value) =
        [.number [49, 50], .ident [195, 169, 51], .punct '\x0b', .ident [95]] := by
  intro text words
  have htext : Utf8.Valid text := by decide
  have hlength : text.length ≤ Coord.limit := by decide
  obtain ⟨-, hsplits, -, -, hrebuild⟩ := tokens_split none { chunkSize := 1 } htext hlength
  have hvalues : (lexer.tokens none { chunkSize := 1 } ()
      [49, 50, 195, 169, 51, 11, 32, 95]).value.1.toList.map (·.value) =
      [.number [49, 50], .ident [195, 169, 51], .punct '\x0b', .ident [95]] := by
    rw [(Lexer.value_tokens (steady none) { chunkSize := 1 } () hlength).1]
    cbv
  exact ⟨⟨htext, hlength⟩, hsplits, hrebuild, hvalues⟩

end Word
end EditLex
