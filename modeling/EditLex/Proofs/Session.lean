import EditLex.Proofs.Reuse
import EditLex.Proofs.Runs

/-!
Units in an open document. An edit that is accepted starts and ends at boundaries of the text and
leaves one that fits (`checkEdit_eq_ok_iff`); with that, every operation leaves the units of the
current text in the document (`Document.preserves_follows`), and so does every run of a client
(`Client.run_sound`).
-/
namespace EditLex

theorem Tokenizer.value_update {U : Type} (t : Tokenizer Unit U) (document : Option String)
    (previous : Focused (Token U)) (change : Change) (text : Bytes) :
    (t.update document previous change text).value.2 = t := by
  simp only [update]
  split <;> rfl

namespace Document
variable {U : Type}

theorem length_splice {text : Bytes} {start stop : Coord} (hs : start.val ≤ stop.val)
    (ht : stop.val ≤ text.length) (replacement : Bytes) :
    (splice text start stop replacement).length =
      text.length - (stop.val - start.val) + replacement.length := by
  simp only [splice, List.length_append, List.length_take, List.length_drop]
  omega

theorem checkEdit_eq_ok_iff {text : Bytes} {start stop : Coord} {replacement : Bytes} :
    checkEdit text start stop replacement = .ok () ↔
      (start.val ≤ stop.val ∧ stop.val ≤ text.length) ∧
      (Utf8.isBoundary text start.val = true ∧ Utf8.isBoundary text stop.val = true) ∧
      (splice text start stop replacement).length ≤ Coord.limit := by
  constructor
  · intro h
    unfold checkEdit at h
    split at h
    · contradiction
    split at h
    · contradiction
    split at h
    · contradiction
    split at h
    · contradiction
    next hreversed houtside hinside hlarge =>
    have hs : start.val ≤ stop.val := Nat.le_of_not_lt hreversed
    have ht : stop.val ≤ text.length := Nat.le_of_not_lt houtside
    refine ⟨⟨hs, ht⟩, by simpa using hinside, ?_⟩
    rw [length_splice hs ht]
    exact Nat.le_of_not_lt hlarge
  · rintro ⟨⟨hs, ht⟩, ⟨hstart, hstop⟩, hfits⟩
    rw [length_splice hs ht] at hfits
    have hreversed : ¬stop < start := Nat.not_lt.2 hs
    unfold checkEdit
    rw [if_neg hreversed, if_neg (Nat.not_lt.2 ht), if_neg (by simp [hstart, hstop]),
      if_neg (Nat.not_lt.2 hfits)]

/-- `d` is open under the name and the tokenizer given and holds the units of its text. -/
structure Follows (d : Document Unit U) (name : String) (t : Tokenizer Unit U) : Prop where
  name_eq : d.name = name
  tokenizer_eq : d.tokenizer = t
  fits : d.text.value.length ≤ Coord.limit
  units_eq : d.units.toList = (t.lexer.lex (some name) () ⟨d.text.value, .start⟩).1

variable {name : String} {t : Tokenizer Unit U}

theorem follows_load (hsteady : t.lexer.Steady (some name)) {text : Snapshot}
    (h : text.value.length ≤ Coord.limit) : (load name text t).value.Follows name t :=
  ⟨rfl, rfl, h, (Lexer.value_tokens hsteady t.settings t.state h).1⟩

theorem Follows.replace {d : Document Unit U} (hd : d.Follows name t)
    (hsteady : t.lexer.Steady (some name)) {text : Snapshot}
    (h : text.value.length ≤ Coord.limit) : (d.replace text).value.Follows name t := by
  obtain ⟨rfl, rfl, _, _⟩ := hd
  exact ⟨rfl, rfl, h, (Lexer.value_tokens hsteady _ _ h).1⟩

theorem Follows.unitsOf {d : Document Unit U} (hd : d.Follows name t) (held : Nat → Bool)
    (snapshot : Snapshot) : (d.unitsOf held snapshot).value.2.Follows name t :=
  ⟨hd.name_eq, hd.tokenizer_eq, hd.fits, hd.units_eq⟩

/-- An edit keeps the units of the text, and a refused one the document. -/
theorem Follows.edit {d : Document Unit U} {k : Nat} (hd : d.Follows name t)
    (hk : t.lexer.LooksAhead (some name) k) (hback : k ≤ t.settings.lookbehind.val + 1)
    (id : Nat) (start stop : Coord) (replacement : Bytes) :
    (d.edit id start stop replacement).value.2.Follows name t := by
  unfold Document.edit
  cases h : checkEdit d.text.value start stop replacement with
  | error e => exact hd
  | ok u =>
    obtain ⟨⟨hs, hl⟩, _, hfits⟩ := checkEdit_eq_ok_iff.1 h
    obtain ⟨rfl, rfl, hold, hunits⟩ := hd
    have hstart : start.val ≤ d.text.value.length := Nat.le_trans hs hl
    obtain ⟨hlen, hshare⟩ := Tokenizer.splice_shares hstart stop replacement
    refine ⟨rfl, Tokenizer.value_update _ _ _ _ _, hfits, ?_⟩
    apply Tokenizer.toList_update hk hback hunits hstart hlen hshare hold hfits

theorem preserves_follows {k : Nat} (hk : t.lexer.LooksAhead (some name) k)
    (hback : k ≤ t.settings.lookbehind.val + 1) :
    Preserves (fun d => d.Follows name t) fun text => text.length ≤ Coord.limit where
  text _ h := h.fits
  edit _ id start stop replacement h := h.edit hk hback id start stop replacement
  replace _ _ h := h.replace hk.steady
  unitsOf _ held snapshot h := h.unitsOf held snapshot

end Document

namespace Client
variable {U : Type}

/-- The document holds the units of its text, and every text the client keeps fits a document. -/
structure Sound (c : Client Unit U) (name : String) (t : Tokenizer Unit U) : Prop where
  follows : c.document.Follows name t
  fits : ∀ e ∈ c.kept, e.2.value.length ≤ Coord.limit

variable {name : String} {t : Tokenizer Unit U}

/-- No operation of a client leaves the document with units of another text. The text of a
replacement has to fit a document; that of an edit is checked. -/
theorem run_sound {k : Nat} (hk : t.lexer.LooksAhead (some name) k)
    (hback : k ≤ t.settings.lookbehind.val + 1) {c : Client Unit U} (hc : c.Sound name t)
    {ops : List Op} (hops : ∀ text, .replace text ∈ ops → text.length ≤ Coord.limit) :
    (c.run ops).value.Sound name t := by
  have hkeeps := run_keeps (Document.preserves_follows hk hback) ⟨hc.follows, hc.fits⟩ hops
  exact ⟨hkeeps.document, hkeeps.kept⟩

/-- Whatever a client does with a document of words, its units are those of its current text, lexed
in full under any settings and in any document. -/
theorem units_run (name : String) (settings : Settings) {text : Bytes}
    (htext : text.length ≤ Coord.limit) {ops : List Op}
    (hops : ∀ text, .replace text ∈ ops → text.length ≤ Coord.limit)
    (document : Option String) (others : Settings) :
    let c := ((load name text ⟨Word.lexer, (), settings⟩).value.run ops).value
    c.document.units.toList =
      (Word.lexer.tokens document others () c.document.text.value).value.1.toList := by
  intro c
  have hload : (load name text ⟨Word.lexer, (), settings⟩).value.Sound name
      ⟨Word.lexer, (), settings⟩ :=
    ⟨Document.follows_load (Word.steady _) htext, fun e he => absurd he List.not_mem_nil⟩
  have hrun : c.document.Follows name ⟨Word.lexer, (), settings⟩ :=
    (run_sound (Word.looksAhead _) (Nat.le_add_left 1 _) hload hops).follows
  rw [hrun.units_eq, Word.lex_document (some name) document]
  exact (Lexer.value_tokens (Word.steady document) others () hrun.fits).1.symm

/-- From `a b`: `a1b` joins the words, a reversed range is refused, and a line feed parts them. -/
theorem units_run_of_joined_words :
    let ops : List Op := [.edit (.sat 1) (.sat 2) [49], .edit (.sat 3) (.sat 1) [], .units none,
      .edit (.sat 1) (.sat 1) [10]]
    let c := ((load "doc" [97, 32, 98] ⟨Word.lexer, (), { chunkSize := 0 }⟩).value.run ops).value
    ((3 ≤ Coord.limit) ∧ ∀ text, .replace text ∈ ops → text.length ≤ Coord.limit) ∧
      c.document.text.value = [97, 10, 49, 98] ∧
      c.document.units.toList =
        (Word.lexer.tokens none {} () [97, 10, 49, 98]).value.1.toList := by
  intro ops c
  have hops : ∀ text, .replace text ∈ ops → text.length ≤ Coord.limit := by
    intro text h
    simp [ops] at h
  refine ⟨⟨by decide, hops⟩, rfl, ?_⟩
  exact units_run "doc" { chunkSize := 0 } (by decide) hops none {}

end Client
end EditLex
