import EditLex.Lexer.Words
import EditLex.Proofs.Units

/-!
The lexer of words, told from the bytes: white space, then the longest word at the front. It looks
at one byte behind a word (`Word.looksAhead`).
-/
namespace EditLex.Word

/-- The word at the front of some bytes, and its length. -/
def first : Bytes → Option (Word × Nat)
  | [] => none
  | b :: bytes =>
    if isDigit b then
      let run := (b :: bytes).takeWhile isDigit
      some (.number (Utf8.lossy run), run.length)
    else if isIdentByte b then
      let run := (b :: bytes).takeWhile isIdentByte
      some (.ident (Utf8.lossy run), run.length)
    else some (.punct (Char.ofNat b.toNat), 1)

theorem eval_skip (v : Passage) :
    skip.eval v = ((), v.skip (v.bytes.takeWhile isSpace).length) := by
  simp [skip]

theorem eval_read (v : Passage) :
    read.eval v = match first v.bytes with
      | some (word, n) => (some word, v.skip n)
      | none => (none, v) := by
  rw [read, Scan.eval_bind, Scan.eval_peek]
  cases hv : v.bytes with
  | nil => rfl
  | cons b bytes =>
    simp only [List.getElem?_cons_zero, first]
    split
    · simp [hv]
    · split
      · simp [hv]
      · simp

/-- A run that ends before the `n`-th byte is the same for all bytes that share the first `n`. -/
theorem takeWhile_eq_of_take_eq {p : UInt8 → Bool} {x y : Bytes} {n : Nat}
    (h : x.take n = y.take n) (hn : (x.takeWhile p).length < n) :
    y.takeWhile p = x.takeWhile p := by
  have htake : (y.takeWhile p).take n = x.takeWhile p := by
    rw [List.take_takeWhile, ← h, ← List.take_takeWhile, List.take_of_length_le (by omega)]
  have hlen : (y.takeWhile p).length < n := by
    have := congrArg List.length htake
    rw [List.length_take] at this
    omega
  rw [← htake, List.take_of_length_le (by omega)]

/-- A word is decided by its bytes and one more. -/
theorem first_eq_of_take_eq {x y : Bytes} {word : Word} {n m : Nat}
    (hx : first x = some (word, n)) (hn : n < m) (h : x.take m = y.take m) :
    first y = some (word, n) := by
  cases x with
  | nil => simp [first] at hx
  | cons b x =>
    obtain ⟨m, rfl⟩ : ∃ k, m = k + 1 := ⟨m - 1, by omega⟩
    cases y with
    | nil => simp at h
    | cons c y =>
      obtain rfl : b = c := by
        rw [List.take_succ_cons, List.take_succ_cons] at h
        exact (List.cons.inj h).1
      unfold first at hx ⊢
      dsimp only at hx ⊢
      split
      · next hd =>
        rw [if_pos hd] at hx
        simp only [Option.some.injEq, Prod.mk.injEq] at hx
        rw [takeWhile_eq_of_take_eq h (by omega), hx.1, hx.2]
      · next hd =>
        rw [if_neg hd] at hx
        split
        · next hi =>
          rw [if_pos hi] at hx
          simp only [Option.some.injEq, Prod.mk.injEq] at hx
          rw [takeWhile_eq_of_take_eq h (by omega), hx.1, hx.2]
        · next hi => rwa [if_neg hi] at hx

theorem length_first {x : Bytes} {word : Word} {n : Nat} (h : first x = some (word, n)) :
    n ≤ x.length := by
  cases x with
  | nil => simp [first] at h
  | cons b x =>
    unfold first at h
    dsimp only at h
    split at h
    · simp only [Option.some.injEq, Prod.mk.injEq] at h
      exact h.2 ▸ (List.takeWhile_prefix _).length_le
    · split at h
      · simp only [Option.some.injEq, Prod.mk.injEq] at h
        exact h.2 ▸ (List.takeWhile_prefix _).length_le
      · simp only [Option.some.injEq, Prod.mk.injEq] at h
        simp [← h.2]

/-- A turn finds the white space at the front, and the first word behind it. -/
theorem turn_eq_some_iff {document : Option String} {v : Passage} {f : Found Word} :
    lexer.turn document () v = (some f, ()) ↔
      f.gap = (v.bytes.takeWhile isSpace).length ∧
        (∃ n, first (v.bytes.drop f.gap) = some (f.value, n) ∧ f.length = f.gap + n) ∧
        (v.skip f.length).place.offset ≠ (v.skip f.gap).place.offset ∧ f.gap < f.length := by
  have hspace : (v.bytes.takeWhile isSpace).length ≤ v.bytes.length :=
    (List.takeWhile_prefix _).length_le
  have hread (w : Passage) :
      (lexer.read document ()).eval w = (((read.eval w).1, ()), (read.eval w).2) := by
    simp [lexer]
  rw [Lexer.turn_eq_some_iff]
  constructor
  · rintro ⟨⟨⟩, hskip, hr, hoff, hgap, hle⟩
    change skip.eval v = _ at hskip
    rw [eval_skip, Prod.mk.injEq] at hskip
    have hg := Passage.skip_inj hspace (by omega) hskip.2
    rw [hread, eval_read] at hr
    split at hr
    · next word n hf =>
      simp only [Prod.mk.injEq, Option.some.injEq, and_true] at hr
      have hn := length_first hf
      rw [Passage.bytes_skip] at hf
      rw [Passage.bytes_skip, List.length_drop] at hn
      refine ⟨hg.symm, ⟨n, hr.1 ▸ hf, ?_⟩, hoff, hgap⟩
      rw [v.skip_skip] at hr
      exact (Passage.skip_inj (by omega) hle hr.2).symm
    · simp at hr
  · rintro ⟨hg, ⟨n, hf, hn⟩, hoff, hgap⟩
    have hle := length_first hf
    rw [List.length_drop] at hle
    refine ⟨(), ?_, ?_, hoff, hgap, by omega⟩
    · show skip.eval v = _
      rw [eval_skip, hg]
    · rw [hread, eval_read, Passage.bytes_skip, hf]
      dsimp only
      rw [v.skip_skip, hn]

theorem blind_read : read.Blind := by
  rintro (_ | b)
  · trivial
  · show Scan.Blind (if isDigit b then _ else _)
    split
    · intro text
      trivial
    · split <;> intro text <;> trivial

theorem steady (document : Option String) : lexer.Steady document := by
  apply Lexer.steady_of_blind
  · intro state gap
    trivial
  · intro state
    exact Scan.blind_bind blind_read fun _ => trivial

/-- The lexer looks at one byte behind a word. -/
theorem looksAhead (document : Option String) : lexer.LooksAhead document 1 := by
  refine ⟨steady document, ?_⟩
  intro v w f hplace hturn hv hw hshare
  have hturn : lexer.turn document () v = (some f, ()) := Prod.ext hturn rfl
  obtain ⟨hg, ⟨n, hf, hn⟩, hoff, hgap⟩ := turn_eq_some_iff.1 hturn
  suffices lexer.turn document () w = (some f, ()) by rw [this]
  refine turn_eq_some_iff.2 ⟨?_, ⟨n, ?_, hn⟩, ?_, hgap⟩
  · rw [takeWhile_eq_of_take_eq hshare (by omega), hg]
  · apply first_eq_of_take_eq hf (Nat.lt_succ_self n)
    rw [List.take_drop, List.take_drop, Nat.add_succ, ← hn, hshare]
  · rwa [← Passage.place_skip_eq hplace hshare (by omega),
      ← Passage.place_skip_eq hplace hshare (by omega)]

/-- The name of the document has no part in the words. -/
theorem lex_document (document other : Option String) (v : Passage) :
    lexer.lex document () v = lexer.lex other () v := by
  induction hn : v.bytes.length using Nat.strongRecOn generalizing v with
  | ind n ih =>
    have hsame : lexer.turn document () v = lexer.turn other () v := rfl
    rcases hturn : lexer.turn other () v with ⟨_ | f, _⟩
    · rw [Lexer.lex_of_turn_none hturn, Lexer.lex_of_turn_none (hsame.trans hturn)]
    · obtain ⟨hgap, hle⟩ := Lexer.bounds_of_turn hturn
      have hlen : (v.skip f.length).bytes.length = v.bytes.length - f.length := by
        rw [Passage.bytes_skip, List.length_drop]
      rw [Lexer.lex_of_turn_some hturn, Lexer.lex_of_turn_some (hsame.trans hturn),
        ih _ (by omega) (v.skip f.length) rfl]

end EditLex.Word
