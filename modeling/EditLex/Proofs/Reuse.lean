import EditLex.Document
import EditLex.Proofs.Splicing
import EditLex.Proofs.Words

/-!
Units kept across an edit. A lexer that looks at most `k` bytes past the end of a unit finds the
units that end `k` bytes before the edit again (`Lexer.lex_eq_take_append`), and these are what the
damage spares when the settings look back far enough. So an update leaves the units of the whole
new text (`Tokenizer.toList_update`), wherever the focus was.
-/
namespace EditLex

namespace Damage
variable {U : Type}

/-- Where what holds of an element holds of those before it, a walk from the back past the elements
it does not hold of ends where a walk from the front along the others ends. -/
theorem dropWhile_reverse {α : Type} {p : α → Bool} {items : List α}
    (h : items.Pairwise fun a b => p b = true → p a = true) :
    items.reverse.dropWhile (fun a => !p a) = (items.takeWhile p).reverse := by
  induction items with
  | nil => rfl
  | cons a items ih =>
    obtain ⟨ha, hitems⟩ := List.pairwise_cons.1 h
    rw [List.reverse_cons, List.dropWhile_append, ih hitems]
    cases hp : p a with
    | true =>
      rw [List.takeWhile_cons_of_pos hp, List.reverse_cons]
      split
      · next he =>
        rw [List.isEmpty_iff.1 he]
        simp [hp]
      · rfl
    | false =>
      have hnone : items.takeWhile p = [] := by
        cases items with
        | nil => rfl
        | cons b items =>
          apply List.takeWhile_cons_of_neg
          intro hb
          rw [ha b List.mem_cons_self hb] at hp
          contradiction
      rw [hnone, List.takeWhile_cons_of_neg (by simp [hp])]
      simp [hp]

/-- Of units that end in order, those before a sound one are sound. -/
theorem pairwise_spares (d : Damage) {units : List (Token U)}
    (h : units.Pairwise fun s t => s.stop.offset.val ≤ t.stop.offset.val) :
    units.Pairwise fun s t => d.spares t.stop.offset = true → d.spares s.stop.offset = true := by
  apply h.imp
  intro s t hst ht
  simp only [spares, decide_eq_true_eq, Coord.lt_def] at ht ⊢
  exact Nat.lt_of_le_of_lt hst ht

/-- In units that end in order, the sound ones are found from the front, wherever the focus is. -/
theorem soundPrefix_eq {d : Damage} {units : Focused (Token U)}
    (h : units.toList.Pairwise fun s t => s.stop.offset.val ≤ t.stop.offset.val) :
    d.soundPrefix units = (units.toList.takeWhile fun t => d.spares t.stop.offset).length := by
  have hsound := d.pairwise_spares h
  rw [Focused.toList] at hsound
  have hbehind : (units.before.items.dropWhile fun t => !d.spares t.stop.offset).length =
      (units.before.items.reverse.takeWhile fun t => d.spares t.stop.offset).length := by
    have hback := dropWhile_reverse (List.pairwise_append.1 hsound).1
    rw [List.reverse_reverse] at hback
    rw [hback, List.length_reverse]
  unfold soundPrefix
  dsimp only
  rw [hbehind, units.focus_eq, Focused.toList, List.takeWhile_append, List.length_reverse]
  -- Either a unit before the focus is damaged, or all of them are sound.
  have hle := (List.takeWhile_prefix (fun t : Token U => d.spares t.stop.offset)
    (l := units.before.items.reverse)).length_le
  rw [List.length_reverse] at hle
  split
  · next hlt => rw [if_neg (by omega)]
  · next hlt =>
    rw [if_pos (by omega), List.length_append, List.length_reverse]
    omega

end Damage

namespace Change

/-- Looking back to before the front of the text is looking back to the front. -/
theorem spares_damage (c : Change) (lookbehind stop : Coord) :
    (c.damage lookbehind).spares stop = decide (stop.val + lookbehind.val < c.start.val) := by
  simp only [Damage.spares, damage, Coord.lt_def, Coord.val_down, decide_eq_decide]
  omega

/-- In units that end in order, the sound prefix ends more than the lookbehind before the change. -/
theorem stop_add_lt_of_mem_take {U : Type} {c : Change} {lookbehind : Coord}
    {units : Focused (Token U)}
    (h : units.toList.Pairwise fun s t => s.stop.offset.val ≤ t.stop.offset.val) {t : Token U}
    (ht : t ∈ units.toList.take ((c.damage lookbehind).soundPrefix units)) :
    t.stop.offset.val + lookbehind.val < c.start.val := by
  rw [Damage.soundPrefix_eq h, ← List.prefix_iff_eq_take.1 (List.takeWhile_prefix _)] at ht
  have hsound := List.all_eq_true.1 List.all_takeWhile t ht
  rwa [c.spares_damage, decide_eq_true_eq] at hsound

end Change

namespace Lexer
variable {U : Type}

/-- Where `v` and `w` share their first `m` bytes, the units of `v` that end `k` bytes before that
are the first units of `w`, and the lexer finds the others from the end of the last of them. -/
theorem lex_eq_take_append {lexer : Lexer Unit U} {document : Option String} {k : Nat}
    (hk : lexer.LooksAhead document k) (n : Nat) {v w : Passage} {m : Nat} (hshare : v.Shares w m)
    (hfits : v.Fits) (hstop : ∀ t ∈ (lexer.lex document () v).1.take n,
      t.stop.offset.val + k ≤ v.place.offset.val + m) :
    ∃ c ≤ w.bytes.length,
      Token.lastStop w.place ((lexer.lex document () v).1.take n) = (w.skip c).place ∧
        (lexer.lex document () w).1 =
          (lexer.lex document () v).1.take n ++ (lexer.lex document () (w.skip c)).1 := by
  induction n generalizing v w m with
  | zero => exact ⟨0, Nat.zero_le _, by simp, by simp⟩
  | succ n ih =>
    rcases hturn : lexer.turn document () v with ⟨_ | f, _⟩
    · rw [lex_of_turn_none hturn]
      exact ⟨0, Nat.zero_le _, by simp, by simp⟩
    · obtain ⟨hgap, hle⟩ := bounds_of_turn hturn
      rw [lex_of_turn_some hturn, List.take_succ_cons] at hstop ⊢
      have hoff := hfits.offset_skip hle
      have hf : f.length + k ≤ m := by
        have hfirst : (v.skip f.length).place.offset.val + k ≤ v.place.offset.val + m :=
          hstop (v.token f) List.mem_cons_self
        omega
      have hle' := hshare.le_left
      have hw := hshare.le_right
      -- The unit and the `k` bytes behind it lie in the shared part.
      have hturn' : lexer.turn document () w = (some f, ()) :=
        Prod.ext (hk.decided v w f hshare.place_eq (by rw [hturn]) (by omega) (by omega)
          (hshare.take_le hf)) rfl
      have hskip := hshare.skip (show f.length ≤ m by omega)
      have hstop' : ∀ t ∈ (lexer.lex document () (v.skip f.length)).1.take n,
          t.stop.offset.val + k ≤ (v.skip f.length).place.offset.val + (m - f.length) := by
        intro t ht
        have := hstop t (List.mem_cons_of_mem _ ht)
        rw [hoff]
        omega
      obtain ⟨c, hc, hresume, hlex⟩ := ih hskip (hfits.skip hle) hstop'
      rw [Passage.bytes_skip, List.length_drop] at hc
      refine ⟨f.length + c, by omega, ?_, ?_⟩
      · rw [Token.lastStop_cons, ← w.skip_skip, ← hresume, ← hskip.place_eq]
        rfl
      · rw [lex_of_turn_some hturn', ← hshare.token_eq (by omega) (by omega), ← w.skip_skip,
          List.cons_append]
        exact congrArg (v.token f :: ·) hlex

end Lexer

namespace Tokenizer

variable {U : Type}

/-- An update keeps only units that the edit has not reached, so it leaves the units of the new
text: of those that end before the damage, none was decided by a byte that has changed. -/
theorem toList_update {t : Tokenizer Unit U} {document : Option String} {k : Nat}
    (hk : t.lexer.LooksAhead document k) (hback : k ≤ t.settings.lookbehind.val + 1)
    {old text : Bytes} {previous : Focused (Token U)} {change : Change}
    (hprevious : previous.toList = (t.lexer.lex document () ⟨old, .start⟩).1)
    (hold : change.start.val ≤ old.length) (hnew : change.start.val ≤ text.length)
    (hshare : old.take change.start.val = text.take change.start.val)
    (hlold : old.length ≤ Coord.limit) (hlnew : text.length ≤ Coord.limit) :
    (t.update document previous change text).value.1.units.toList =
      (t.lexer.lex document () ⟨text, .start⟩).1 := by
  have hfits := Passage.fits_ofText hlold
  have hsorted := (t.lexer.lays_tokensFrom document t.settings () .start
    (Lexer.room_of_le_limit hlold)).pairwise_stop
  rw [Lexer.value_tokensFrom hk.steady t.settings () .start hlold, ← hprevious] at hsorted
  have hstop : ∀ u ∈ previous.toList.take
      ((change.damage t.settings.lookbehind).soundPrefix previous),
      u.stop.offset.val + k ≤ 0 + change.start.val := by
    intro u hu
    have hsound := Change.stop_add_lt_of_mem_take hsorted hu
    omega
  rw [units_update]
  generalize (change.damage t.settings.lookbehind).soundPrefix previous = keep at hstop
  rw [hprevious] at hstop ⊢
  obtain ⟨c, hc, hresume, hlex⟩ := Lexer.lex_eq_take_append hk keep
    (v := ⟨old, .start⟩) (w := ⟨text, .start⟩) ⟨rfl, hold, hnew, hshare⟩ hfits hstop
  dsimp only at hresume ⊢
  rw [hresume, Passage.offset_skip_ofText hlnew hc]
  split
  · have hdrop : (text.drop c).length ≤ Coord.limit := by
      rw [List.length_drop]
      omega
    rw [Lexer.value_tokensFrom hk.steady _ _ _ hdrop, hlex]
    rfl
  · exact (Lexer.value_tokens hk.steady t.settings t.state hlnew).1

theorem splice_shares {text : Bytes} {start : Coord} (h : start.val ≤ text.length) (stop : Coord)
    (replacement : Bytes) :
    start.val ≤ (Document.splice text start stop replacement).length ∧
      text.take start.val = (Document.splice text start stop replacement).take start.val := by
  have hlen : (text.take start.val).length = start.val := List.length_take_of_le h
  constructor
  · simp only [Document.splice, List.length_append, hlen]
    omega
  · rw [Document.splice, List.append_assoc, List.take_left' hlen]

/-- Looking back by one byte less than the lexer looks ahead is enough: whatever the edit, the
settings and the focus, the units kept and read again are those of the new text. -/
theorem update_eq_tokenize {t : Tokenizer Unit U} {document : Option String} {k : Nat}
    (hk : t.lexer.LooksAhead document k) (hback : k ≤ t.settings.lookbehind.val + 1)
    (old replacement : Bytes) (start stop : Coord) (hstart : start.val ≤ old.length)
    (hold : old.length ≤ Coord.limit)
    (hnew : (Document.splice old start stop replacement).length ≤ Coord.limit)
    (previous : Focused (Token U))
    (hprevious : previous.toList = (t.tokenize document old).value.1.toList) :
    let text := Document.splice old start stop replacement
    let change := Change.ofReplacement start stop replacement
    (t.update document previous change text).value.1.units.toList =
      (t.tokenize document text).value.1.toList := by
  intro text change
  obtain ⟨hlen, hshare⟩ := splice_shares hstart stop replacement
  have holdUnits := (Lexer.value_tokens hk.steady t.settings t.state hold).1
  have hnewUnits := (Lexer.value_tokens hk.steady t.settings t.state hnew).1
  exact (toList_update hk hback (hprevious.trans holdUnits) hstart hlen hshare hold hnew).trans
    hnewUnits.symm

/-- Without looking back, for a lexer that peeks at one byte: `a b` becomes `a1b` with the focus
behind `a`, which ends where the edit begins and is read again. -/
theorem update_of_joined_words :
    let t : Tokenizer Unit Word := ⟨Word.lexer, (), { chunkSize := 0 }⟩
    let previous := (t.tokenize none [97, 32, 98]).value.1.moveTo 1
    let change := Change.ofReplacement (.sat 1) (.sat 2) [49]
    (Word.lexer.LooksAhead none 1 ∧ 1 ≤ t.settings.lookbehind.val + 1 ∧
        previous.toList = (t.tokenize none [97, 32, 98]).value.1.toList) ∧
      (t.update none previous change [97, 49, 98]).value.1.units.toList =
        [⟨.ident [97, 49, 98], .start, ⟨.one, .sat 3, .sat 3⟩⟩] := by
  intro t previous change
  have hprevious : previous.toList = (t.tokenize none [97, 32, 98]).value.1.toList :=
    (Focused.moveTo_spec _ 1).1
  refine ⟨⟨Word.looksAhead none, by decide, hprevious⟩, ?_⟩
  refine (update_eq_tokenize (Word.looksAhead none) (by decide) [97, 32, 98] [49] (.sat 1) (.sat 2)
    (by decide) (by decide) (by decide) previous hprevious).trans ?_
  have hword : Word.lexer.turn none () ⟨[97, 49, 98], .start⟩ =
      (some ⟨0, .ident [97, 49, 98], 3⟩, ()) := by decide
  have hend : Word.lexer.turn none () ((⟨[97, 49, 98], .start⟩ : Passage).skip 3) = (none, ()) := by
    decide
  refine (Lexer.value_tokens (Word.steady none) t.settings () (by decide)).1.trans ?_
  refine (congrArg Prod.fst (Lexer.lex_of_turn_some hword)).trans ?_
  rw [Lexer.lex_of_turn_none hend]
  rfl

end Tokenizer
end EditLex
