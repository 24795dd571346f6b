import EditLex.Proofs.Boundaries
import EditLex.Proofs.LongestWords
import EditLex.Proofs.Reuse

/-!
Units that border characters. A word begins and ends between two characters of the text, also in a
text so long that positions stop counting (`Word.borders_lex`). A place before an edit lies in the
new text as it lay in the old one, so the end of the last word that an edit leaves alone is between
two characters of both (`Bordering.lastStop`).
-/
namespace EditLex

/-- The position is that of the place `i` of the text, which lies between two characters. -/
structure Position.Borders (p : Position) (text : Bytes) (i : Nat) : Prop where
  between : Utf8.Between text i
  walk : p = Position.start.advance (text.take i)

theorem Utf8.between_zero {text : Bytes} (h : Valid text) : Between text 0 :=
  between_iff.2 ⟨Nat.zero_le _, valid_nil, h⟩

namespace Position.Borders
variable {p : Position} {text old : Bytes} {i m : Nat}

theorem of_start (h : Utf8.Valid text) : Position.start.Borders text 0 :=
  ⟨Utf8.between_zero h, (Position.start.advance_nil).symm⟩

theorem offset (h : p.Borders text i) : p.offset.val = min i Coord.limit := by
  have hi := (Utf8.between_iff.1 h.between).1
  rw [h.walk]
  show min (0 + (text.take i).length) Coord.limit = _
  rw [List.length_take_of_le hi, Nat.zero_add]

/-- A text that begins as another does has its first places there. -/
theorem of_take_eq (h : p.Borders old i) (htext : Utf8.Valid text) (hi : i ≤ m)
    (hm : m ≤ text.length) (hshare : old.take m = text.take m) : p.Borders text i := by
  obtain ⟨-, hfront, -⟩ := Utf8.between_iff.1 h.between
  have htake : old.take i = text.take i := by
    rw [← Nat.min_eq_left hi, ← List.take_take, hshare, List.take_take]
  rw [htake] at hfront
  constructor
  · apply (Utf8.isBoundary_iff htext).1
    exact (Utf8.isBoundary_iff_valid_take htext).2 ⟨Nat.le_trans hi hm, hfront⟩
  · rw [← htake]
    exact h.walk

end Position.Borders

/-- The unit begins and ends between two characters of the text. -/
def Token.Borders {U : Type} (t : Token U) (text : Bytes) : Prop :=
  ∃ i j, i < j ∧ t.start.Borders text i ∧ t.stop.Borders text j

theorem Token.Borders.of_take_eq {U : Type} {t : Token U} {old text : Bytes} {m : Coord}
    (h : t.Borders old) (htext : Utf8.Valid text) (hstop : t.stop.offset < m)
    (hm : m.val ≤ text.length) (hshare : old.take m.val = text.take m.val) : t.Borders text := by
  obtain ⟨i, j, hij, hstart, hend⟩ := h
  have hj : j ≤ m.val := by
    have hle := m.val_le
    have hoffset := hend.offset
    rw [Coord.lt_def] at hstop
    omega
  have hi : i ≤ m.val := by omega
  exact ⟨i, j, hij, hstart.of_take_eq htext hi hm hshare, hend.of_take_eq htext hj hm hshare⟩

/-- In a text in which every offset counts, the offsets of the unit are between two characters. -/
theorem Token.Borders.between {U : Type} {t : Token U} {text : Bytes} (h : t.Borders text)
    (hlimit : text.length ≤ Coord.limit) :
    Utf8.Between text t.start.offset.val ∧ Utf8.Between text t.stop.offset.val := by
  obtain ⟨i, j, -, hstart, hstop⟩ := h
  have hi := (Utf8.between_iff.1 hstart.between).1
  have hj := (Utf8.between_iff.1 hstop.between).1
  rw [hstart.offset, hstop.offset, Nat.min_eq_left (Nat.le_trans hi hlimit),
    Nat.min_eq_left (Nat.le_trans hj hlimit)]
  exact ⟨hstart.between, hstop.between⟩

namespace Word

/-- Behind the white space that a turn skips a text begins, and behind the word another. -/
theorem valid_drop_of_turn {document : Option String} {v : Passage} {f : Found Word}
    (hturn : lexer.turn document () v = (some f, ())) (h : Utf8.Valid v.bytes) :
    Utf8.Valid (v.bytes.drop f.gap) ∧ Utf8.Valid (v.bytes.drop f.length) := by
  obtain ⟨hlt, hle⟩ := Lexer.bounds_of_turn hturn
  obtain ⟨hgap, ⟨n, hfirst, hlength⟩, -⟩ := turn_eq_some_iff.1 hturn
  have hspace : Utf8.Valid (v.bytes.drop f.gap) := by
    apply valid_drop_of_isSpace (Nat.zero_le _) _ h
    intro k _ hk
    exact any_of_lt_takeWhile (hgap ▸ hk)
  obtain ⟨word, m, hfirst', hstands⟩ := stands_first (Nat.lt_of_lt_of_le hlt hle) hspace
  rw [hfirst] at hfirst'
  cases hfirst'
  exact ⟨hspace, hlength ▸ hstands.valid_drop hspace⟩

/-- The lexer finds words that border characters, wherever it starts between two characters. -/
theorem borders_lex (document : Option String) {text : Bytes} (htext : Utf8.Valid text) {n : Nat}
    (hn : n ≤ text.length) (hdrop : Utf8.Valid (text.drop n)) :
    ∀ t ∈ (lexer.lex document () ((⟨text, .start⟩ : Passage).skip n)).1, t.Borders text := by
  induction hm : text.length - n using Nat.strongRecOn generalizing n with
  | ind m ih =>
    rcases hturn : lexer.turn document () ((⟨text, .start⟩ : Passage).skip n) with ⟨_ | f, _⟩
    · simp [Lexer.lex_of_turn_none hturn]
    · obtain ⟨hlt, hle⟩ := Lexer.bounds_of_turn hturn
      obtain ⟨hgap, hlength⟩ := valid_drop_of_turn hturn hdrop
      simp only [Passage.bytes_skip, List.drop_drop, List.length_drop] at hle hgap hlength
      rw [Lexer.lex_of_turn_some hturn, Passage.skip_skip]
      refine List.forall_mem_cons.2 ⟨?_, ih _ (by omega) (by omega) hlength rfl⟩
      refine ⟨n + f.gap, n + f.length, by omega, ⟨?_, ?_⟩, ⟨?_, ?_⟩⟩
      · exact Utf8.between_of_valid_drop htext (by omega) hgap
      · exact congrArg Passage.place (Passage.skip_skip _ n f.gap)
      · exact Utf8.between_of_valid_drop htext (by omega) hlength
      · exact congrArg Passage.place (Passage.skip_skip _ n f.length)

end Word

/-- In units that end in order, the last one ends last. -/
theorem Token.stop_le_lastStop {U : Type} {units : List (Token U)} {start : Position}
    (h : units.Pairwise fun s t => s.stop.offset.val ≤ t.stop.offset.val) {t : Token U}
    (ht : t ∈ units) : t.stop.offset.val ≤ (lastStop start units).offset.val := by
  induction units generalizing start t with
  | nil => contradiction
  | cons s units ih =>
    obtain ⟨hs, hunits⟩ := List.pairwise_cons.1 h
    rw [lastStop_cons]
    rcases List.mem_cons.1 ht with rfl | ht
    · cases units with
      | nil => exact Nat.le_refl _
      | cons u units =>
        exact Nat.le_trans (hs u List.mem_cons_self) (ih hunits List.mem_cons_self)
    · exact ih hunits ht

/-- A pull fits behind the text, which is of whole characters. -/
structure Readable (text : Bytes) : Prop where
  valid : Utf8.Valid text
  room : text.length + Lookahead.defaultPullSize ≤ bufferLimit

/-- The units border characters of the text, and end in order. -/
structure Bordering (text : Bytes) (units : List (Token Word)) : Prop where
  borders : ∀ t ∈ units, t.Borders text
  sorted : units.Pairwise fun s t => s.stop.offset.val ≤ t.stop.offset.val

namespace Bordering
variable {text old : Bytes}

theorem tokensFrom (document : Option String) (settings : Settings) (h : Readable text)
    {p : Position} {i : Nat} (hp : p.Borders text i) :
    let fresh := (Word.lexer.tokensFrom document settings () p (text.drop i)).value.1
    Bordering text fresh ∧ ∀ t ∈ fresh, p.offset.val ≤ t.stop.offset.val := by
  intro fresh
  obtain ⟨hi, -, hdrop⟩ := Utf8.between_iff.1 hp.between
  have hroom : (text.drop i).length + Lookahead.defaultPullSize ≤ bufferLimit := by
    have := h.room
    rw [List.length_drop]
    omega
  have hfresh : fresh = (Word.lexer.lex document () ((⟨text, .start⟩ : Passage).skip i)).1 := by
    rw [Passage.skip, ← hp.walk]
    exact congrArg Prod.fst
      (Lexer.value_tokensFrom_of_room (Word.steady document) settings () p hroom)
  have hlays := Word.lexer.lays_tokensFrom document settings () p hroom
  refine ⟨⟨?_, hlays.pairwise_stop⟩, fun t => hlays.offset_le_stop⟩
  rw [hfresh]
  exact Word.borders_lex document h.valid hi hdrop

theorem tokenize {t : Tokenizer Unit Word} (hlexer : t.lexer = Word.lexer)
    (document : Option String) (h : Readable text) :
    Bordering text (t.tokenize document text).value.1.toList := by
  have hall := (tokensFrom document t.settings h (.of_start h.valid)).1
  rw [← hlexer] at hall
  exact hall

section
variable {previous : Focused (Token Word)} (change : Change)
  (h : Bordering old previous.toList) (htext : Utf8.Valid text)
  (hlength : change.start.val ≤ text.length)
  (hshare : old.take change.start.val = text.take change.start.val)
include h htext hlength hshare

/-- The last unit that an edit leaves alone ends before the edit, between two characters of the old
text and of the new one. -/
theorem lastStop (hold : Utf8.Valid old) (lookbehind : Coord) :
    let resume := Token.lastStop .start
      (previous.toList.take ((change.damage lookbehind).soundPrefix previous))
    resume.offset ≤ change.start ∧ resume.Borders old resume.offset.val ∧
      resume.Borders text resume.offset.val := by
  intro resume
  unfold resume Token.lastStop
  cases hlast : (previous.toList.take
    ((change.damage lookbehind).soundPrefix previous)).getLast? with
  | none => exact ⟨Nat.zero_le _, .of_start hold, .of_start htext⟩
  | some t =>
    have ht := List.mem_of_getLast? hlast
    have hspared := Change.stop_add_lt_of_mem_take h.sorted ht
    obtain ⟨i, j, -, -, hend⟩ := h.borders t (List.mem_of_mem_take ht)
    -- A position before the edit has not stopped counting.
    have hj : j = t.stop.offset.val := by
      have hle := change.start.val_le
      have hoffset := hend.offset
      omega
    have hle : t.stop.offset.val ≤ change.start.val := by omega
    subst hj
    exact ⟨hle, hend, hend.of_take_eq htext hle hlength hshare⟩

theorem take (lookbehind : Coord) : Bordering text
    (previous.toList.take ((change.damage lookbehind).soundPrefix previous)) where
  borders t ht := by
    apply (h.borders t (List.mem_of_mem_take ht)).of_take_eq htext _ hlength hshare
    exact Nat.lt_of_le_of_lt (Nat.le_add_right _ _) (Change.stop_add_lt_of_mem_take h.sorted ht)
  sorted := h.sorted.sublist (List.take_sublist _ _)

end

end Bordering

end EditLex
