import EditLex.Proofs.Decoding
import EditLex.Proofs.Words

/-!
Ways for one text to come to a lexer. Pieces bring the text that they join to, and so do reads that
go on to its end (`Pieces.brings`, `Reader.brings`); the words found over a producer depend on
nothing but the text it brings (`Word.tokens_run_eq`).
-/
namespace EditLex

/-- Empty pieces are lost without a trace. -/
theorem Pieces.brings (items : List Bytes) :
    Producer.Brings (⟨items⟩ : Pieces) items.flatten := by
  induction items with
  | nil => exact ⟨[], _, .ended rfl rfl, rfl⟩
  | cons chunk items ih =>
    by_cases hc : chunk = []
    · subst hc
      obtain ⟨chunks, after, hd, hf⟩ := ih
      exact ⟨chunks, after, hd.of_next rfl rfl, hf⟩
    · have hn : Producer.next (⟨chunk :: items⟩ : Pieces) = ⟨chunk, ⟨items⟩, []⟩ :=
        if_neg (mt List.isEmpty_iff.1 hc)
      have hb : Producer.Brings (Producer.next (⟨chunk :: items⟩ : Pieces)).rest items.flatten := by
        rwa [hn]
      have hcons := hb.cons rfl (by rwa [hn])
      rwa [hn] at hcons

/-- Some bytes, or an interruption after which the reader is asked again. -/
def ReadItem.GoesOn : ReadItem → Prop
  | .bytes content => content ≠ []
  | .error e => e.kind = .interrupted

def ReadItem.given : ReadItem → Bytes
  | .bytes content => content
  | .error _ => []

theorem Script.content_eq {script : Script} (h : ∀ item ∈ script, item.GoesOn) :
    script.content = script.flatMap ReadItem.given ∧ script.failure = none := by
  induction script with
  | nil => exact ⟨rfl, rfl⟩
  | cons item script ih =>
    obtain ⟨hitem, hscript⟩ := List.forall_mem_cons.1 h
    obtain ⟨hcontent, hfailure⟩ := ih hscript
    rw [List.flatMap_cons, ← hcontent]
    cases item with
    | bytes content =>
      rw [Script.content, Script.failure, if_neg hitem, if_neg hitem]
      exact ⟨rfl, hfailure⟩
    | error e =>
      have hkind : e.kind = .interrupted := hitem
      rw [Script.content, Script.failure, if_pos hkind, if_pos hkind]
      exact ⟨rfl, hfailure⟩

/-- Reads that go on to the end of a text bring it, wherever they cut it. -/
theorem Reader.brings {script : Script} (h : ∀ item ∈ script, item.GoesOn)
    (hv : Utf8.Valid (script.flatMap ReadItem.given)) {chunkSize : Nat}
    (hr : chunkSize + 3 ≤ bufferLimit) :
    Producer.Brings (ofScript script chunkSize) (script.flatMap ReadItem.given) := by
  obtain ⟨hcontent, hfailure⟩ := Script.content_eq h
  obtain ⟨hreads, hio⟩ := script.flatten_reads (Nat.le_max_right chunkSize 1)
  obtain ⟨chunks, after, hd, -, -, hdecodes⟩ :=
    (waits_ofScript script chunkSize).yields (room_ofScript script hr)
  change Decodes 0 [] (script.reads (max chunkSize 1)).1 (script.reads (max chunkSize 1)).2
    chunks.flatten after.error at hdecodes
  have hwhole := hdecodes.whole
  rw [List.nil_append, hreads, hio, hcontent] at hwhole
  exact ⟨chunks, after, hd, (hwhole hv hfailure).1⟩

namespace Word

/-- However a text comes, and however many bytes are pulled at a time, its words are those found
with all of it at hand, under any settings. -/
theorem tokens_run_eq (document other : Option String) (settings : Settings)
    (initial rest : Bytes) (pullSize : Nat) (hinitial : Utf8.Valid initial)
    (htext : Utf8.Valid (initial ++ rest)) (hlength : (initial ++ rest).length ≤ Coord.limit)
    (hpull : (initial ++ rest).length + max pullSize 1 ≤ bufferLimit) :
    let words := (lexer.tokens other settings () (initial ++ rest)).value.1.toList
    (∀ items : List Bytes, items.flatten = rest →
      (lexer.run document ()
        (.ofSource (.ofText initial (⟨items⟩ : Pieces)) pullSize)).tokens = words) ∧
    (∀ size : Nat,
      (lexer.run document ()
        (.ofSource (.ofText initial (Slices.ofText rest size)) pullSize)).tokens = words) ∧
    ∀ (script : Script) (chunkSize : Nat), (∀ item ∈ script, item.GoesOn) →
      script.flatMap ReadItem.given = rest → chunkSize + 3 ≤ bufferLimit →
      (lexer.run document ()
        (.ofSource (.ofText initial (Reader.ofScript script chunkSize)) pullSize)).tokens =
          words := by
  intro words
  have hwords : words = (lexer.lex document () ⟨initial ++ rest, .start⟩).1 := by
    rw [lex_document document other]
    exact (Lexer.value_tokens (steady other) settings () hlength).1
  have hrun {σ : Type} [Bounded σ] {producer : σ} (h : Producer.Brings producer rest) :
      (lexer.run document () (.ofSource (.ofText initial producer) pullSize)).tokens = words :=
    (Lexer.run_of_brings (steady document) () h initial .start hpull).1.trans hwords.symm
  refine ⟨?_, fun size => hrun (Slices.brings_ofText rest size), ?_⟩
  · rintro items rfl
    exact hrun (Pieces.brings items)
  · rintro script chunkSize hgoes rfl hsize
    exact hrun (Reader.brings hgoes ((hinitial.append_iff _).1 htext) hsize)

/-- The words `a` and `é1`, the accented letter cut between two reads. -/
theorem tokens_run_of_cut_letter :
    let script : Script := [.bytes [32, 0xC3], .error ⟨.interrupted, none⟩, .bytes [0xA9, 49]]
    (Utf8.Valid [97] ∧ Utf8.Valid [97, 32, 0xC3, 0xA9, 49] ∧ 5 ≤ Coord.limit ∧
        5 + max 3 1 ≤ bufferLimit) ∧
      (lexer.run (some "doc") ()
        (.ofSource (.ofText [97] (Reader.ofScript script 1)) 3)).tokens =
          [⟨.ident [97], .start, ⟨.one, .sat 1, .sat 1⟩⟩,
            ⟨.ident [0xC3, 0xA9, 49], ⟨.one, .sat 2, .sat 2⟩, ⟨.one, .sat 5, .sat 5⟩⟩] := by
  intro script
  refine ⟨by decide, ?_⟩
  obtain ⟨-, -, hread⟩ := tokens_run_eq (some "doc") none {} [97] [32, 0xC3, 0xA9, 49] 3
    (by decide) (by decide) (by decide) (by decide)
  refine (hread script 1 ?_ rfl (by decide)).trans ?_
  · simp [script, ReadItem.GoesOn]
  · let text : Passage := ⟨[97, 32, 0xC3, 0xA9, 49], .start⟩
    have ha : lexer.turn none () text = (some ⟨0, .ident [97], 1⟩, ()) := by decide
    have he : lexer.turn none () (text.skip 1) = (some ⟨1, .ident [0xC3, 0xA9, 49], 4⟩, ()) := by
      decide
    have hend : lexer.turn none () ((text.skip 1).skip 4) = (none, ()) := by decide
    refine (Lexer.value_tokens (steady none) {} () (by decide)).1.trans ?_
    refine (congrArg Prod.fst (Lexer.lex_of_turn_some ha)).trans ?_
    rw [Lexer.lex_of_turn_some he, Lexer.lex_of_turn_none hend]
    rfl

end Word
end EditLex
