import EditLex.Proofs.Boundaries
import EditLex.Proofs.Words

/-!
The longest word that stands somewhere in a text (`Word.Stands`), told by the bytes that it takes up
and the one behind them. What is read at the front of a text is such a word (`Word.stands_first`). A
word of a text is made of whole characters, so that it is spelled as it stands there
(`Word.Stands.spelling_eq`) and what follows it is a text again (`Word.Stands.valid_drop`).
-/
namespace EditLex

theorem extract_append_drop {text : Bytes} {i j : Nat} (h : i ≤ j) :
    text.extract i j ++ text.drop j = text.drop i := by
  rw [List.extract_eq_take_drop, ← Nat.add_sub_cancel' h, Nat.add_sub_cancel_left,
    ← List.drop_drop, List.take_append_drop]

theorem extract_succ {text : Bytes} {i : Nat} {b : UInt8} (h : text[i]? = some b) :
    text.extract i (i + 1) = [b] := by
  obtain ⟨hi, rfl⟩ := List.getElem?_eq_some_iff.1 h
  rw [List.extract_eq_take_drop, Nat.add_sub_cancel_left, List.drop_eq_getElem_cons hi]
  rfl

namespace Utf8

theorem lossyFrom_of_run {s : State} {held bytes : Bytes} (hheld : s = .boundary → held = [])
    (h : run s bytes = some .boundary) : lossyFrom s held bytes = held.reverse ++ bytes := by
  induction bytes generalizing s held with
  | nil =>
    obtain rfl : s = .boundary := Option.some.inj h
    simp [lossyFrom, hheld rfl]
  | cons b bytes ih =>
    rw [run_cons] at h
    obtain ⟨t, hstep, hrest⟩ := Option.bind_eq_some_iff.1 h
    rw [lossyFrom]
    cases t with
    | boundary =>
      rw [hstep]
      dsimp only
      rw [ih (fun _ => rfl) hrest]
      rfl
    | inside more low high =>
      rw [hstep]
      dsimp only
      have hinside : State.inside more low high = .boundary → b :: held = [] := nofun
      rw [ih hinside hrest]
      simp

/-- Nothing in a text has to be replaced. -/
theorem lossy_of_valid {bytes : Bytes} (h : Valid bytes) : lossy bytes = bytes :=
  lossyFrom_of_run (fun _ => rfl) h

theorem valid_of_ascii {bytes : Bytes} (h : ∀ b ∈ bytes, b < 0x80) : Valid bytes := by
  induction bytes with
  | nil => exact valid_nil
  | cons b bytes ih =>
    have hb : opening b = some .boundary := if_pos (h b List.mem_cons_self)
    refine valid_cons_iff.2 ⟨.boundary, hb, ih ?_⟩
    intro c hc
    exact h c (List.mem_cons_of_mem _ hc)

theorem valid_drop_of_extract {text : Bytes} {i j : Nat} (hij : i ≤ j)
    (h : Valid (text.extract i j)) (hdrop : Valid (text.drop i)) : Valid (text.drop j) := by
  rw [← extract_append_drop hij] at hdrop
  exact (h.append_iff _).1 hdrop

theorem isBoundary_of_next {text : Bytes} {i : Nat} (hi : i ≤ text.length)
    (h : text[i]?.any isContinuation = false) : isBoundary text i = true := by
  rw [isBoundary]
  cases hb : text[i]? with
  | none =>
    have hend : i = text.length := Nat.le_antisymm hi (List.getElem?_eq_none_iff.1 hb)
    simp [hend]
  | some b =>
    rw [hb] at h
    simp [show isContinuation b = false from h]

/-- Where a text ends in a text, it begins between two characters. -/
theorem between_of_valid_drop {text : Bytes} (h : Valid text) {i : Nat} (hi : i ≤ text.length)
    (hdrop : Valid (text.drop i)) : Between text i := by
  refine (isBoundary_iff h).1 (isBoundary_of_next hi ?_)
  cases hb : text[i]? with
  | none => rfl
  | some b =>
    obtain ⟨hlt, rfl⟩ := List.getElem?_eq_some_iff.1 hb
    rw [List.drop_eq_getElem_cons hlt] at hdrop
    obtain ⟨_, hopening, -⟩ := valid_cons_iff.1 hdrop
    exact isContinuation_of_opening hopening

end Utf8

namespace Word

/-- From `i` up to `j`, one at least, `p` holds of all bytes, and not of a byte at `j`. -/
structure IsRun (p : UInt8 → Bool) (text : Bytes) (i j : Nat) : Prop where
  nonempty : i < j
  all : ∀ k, i ≤ k → k < j → text[k]?.any p = true
  longest : text[j]?.any p = false

/-- The word from `i` up to `j` is the longest that begins at `i`: digits, or bytes of identifiers
of which the first is no digit, or else a single byte. -/
inductive Stands (text : Bytes) (i j : Nat) : Word → Prop where
  | number (run : IsRun isDigit text i j) : Stands text i j (.number (text.extract i j))
  | ident (first : text[i]?.any isDigit = false) (run : IsRun isIdentByte text i j) :
      Stands text i j (.ident (text.extract i j))
  | punct {b : UInt8} (byte : text[i]? = some b) (first : isIdentByte b = false)
      (stop : j = i + 1) : Stands text i j (.punct (Char.ofNat b.toNat))

theorem of_all_bytes {P : UInt8 → Prop} (h : ∀ n < 256, P (UInt8.ofNat n)) (b : UInt8) : P b := by
  have hb := h b.toNat b.toNat_lt
  rwa [UInt8.ofNat_toNat] at hb

/-! The classes of bytes, by the characters of ASCII. -/

theorem isSpace_iff (b : UInt8) :
    isSpace b = true ↔ Char.ofNat b.toNat ∈ [' ', '\t', '\n', '\x0c', '\r'] := by
  apply of_all_bytes _ b
  decide +kernel

theorem isDigit_eq (b : UInt8) : isDigit b = (Char.ofNat b.toNat).isDigit := by
  apply of_all_bytes _ b
  decide +kernel

theorem isIdentByte_iff (b : UInt8) : isIdentByte b = true ↔
    (Char.ofNat b.toNat).isAlphanum = true ∨ Char.ofNat b.toNat = '_' ∨ 128 ≤ b := by
  apply of_all_bytes _ b
  decide +kernel

theorem isIdentByte_of_isDigit {b : UInt8} (h : isDigit b = true) : isIdentByte b = true := by
  simp [isIdentByte, h]

theorem lt_of_isSpace {b : UInt8} (h : isSpace b = true) : b < 0x80 := by
  simp only [isSpace, Bool.or_eq_true, decide_eq_true_eq] at h
  rcases h with (((rfl | rfl) | rfl) | rfl) | rfl <;> decide

theorem isSpace_of_isIdentByte {b : UInt8} (h : isIdentByte b = true) : isSpace b = false := by
  rw [← Bool.not_eq_true]
  intro hspace
  simp only [isSpace, Bool.or_eq_true, decide_eq_true_eq] at hspace
  rcases hspace with (((rfl | rfl) | rfl) | rfl) | rfl <;> contradiction

theorem lt_of_isDigit {b : UInt8} (h : isDigit b = true) : b < 0x80 := by
  simp only [isDigit, Bool.and_eq_true, decide_eq_true_eq] at h
  exact UInt8.lt_of_le_of_lt h.2 (by decide)

theorem lt_of_not_isIdentByte {b : UInt8} (h : isIdentByte b = false) : b < 0x80 := by
  simp only [isIdentByte, Bool.or_eq_false_iff, decide_eq_false_iff_not, UInt8.not_le] at h
  exact h.2

section Runs
variable {p : UInt8 → Bool} {text : Bytes} {i j : Nat}

theorem any_of_lt_takeWhile {k : Nat} (h : k < (text.takeWhile p).length) :
    text[k]?.any p = true := by
  induction text generalizing k with
  | nil => contradiction
  | cons b text ih =>
    rw [List.takeWhile_cons] at h
    split at h
    · next hb =>
      cases k with
      | zero => exact hb
      | succ k => exact ih (Nat.lt_of_succ_lt_succ h)
    · contradiction

theorem any_length_takeWhile : text[(text.takeWhile p).length]?.any p = false := by
  induction text with
  | nil => rfl
  | cons b text ih =>
    rw [List.takeWhile_cons]
    split
    · exact ih
    · next hb => simpa using hb

theorem any_of_lt_takeWhile_drop {k : Nat} (hk : i ≤ k)
    (h : k < i + ((text.drop i).takeWhile p).length) : text[k]?.any p = true := by
  have hany : (text.drop i)[k - i]?.any p = true := any_of_lt_takeWhile (by omega)
  rwa [List.getElem?_drop, Nat.add_sub_cancel' hk] at hany

theorem any_length_takeWhile_drop :
    text[i + ((text.drop i).takeWhile p).length]?.any p = false := by
  rw [← List.getElem?_drop]
  exact any_length_takeWhile

theorem of_mem_extract (h : ∀ k, i ≤ k → k < j → text[k]?.any p = true) {b : UInt8}
    (hb : b ∈ text.extract i j) : p b = true := by
  obtain ⟨k, hk⟩ := List.mem_iff_getElem?.1 hb
  rw [List.extract_eq_take_drop, List.getElem?_take] at hk
  split at hk
  · next hlt =>
    rw [List.getElem?_drop] at hk
    have hany := h (i + k) (Nat.le_add_right i k) (by omega)
    rwa [hk] at hany
  · contradiction

theorem extract_length_takeWhile :
    text.extract i (i + ((text.drop i).takeWhile p).length) = (text.drop i).takeWhile p := by
  rw [List.extract_eq_take_drop, Nat.add_sub_cancel_left]
  exact (List.prefix_iff_eq_take.1 (List.takeWhile_prefix p)).symm

theorem isRun_takeWhile (h : text[i]?.any p = true) :
    IsRun p text i (i + ((text.drop i).takeWhile p).length) where
  nonempty := by
    have hlength : ((text.drop i).takeWhile p).length ≠ 0 := by
      intro hzero
      have hstop : text[i + ((text.drop i).takeWhile p).length]?.any p = false :=
        any_length_takeWhile_drop
      rw [hzero, Nat.add_zero, h] at hstop
      contradiction
    omega
  all _ := any_of_lt_takeWhile_drop
  longest := any_length_takeWhile_drop

theorem IsRun.any_first (h : IsRun p text i j) : text[i]?.any p = true :=
  h.all i (Nat.le_refl i) h.nonempty

theorem IsRun.of_first (h : IsRun p text i j) {b : UInt8} (hb : text[i]? = some b) :
    p b = true := by
  have hfirst := h.any_first
  rwa [hb] at hfirst

theorem IsRun.le_length (h : IsRun p text i j) : j ≤ text.length := by
  have hij := h.nonempty
  have hlast := h.all (j - 1) (by omega) (by omega)
  obtain ⟨b, hb, -⟩ := (Option.any_eq_true _ _).1 hlast
  have := (List.getElem?_eq_some_iff.1 hb).1
  omega

theorem IsRun.le_of_isRun {j' : Nat} (h : IsRun p text i j) (h' : IsRun p text i j') : j' ≤ j := by
  refine Nat.le_of_not_lt fun hlt => ?_
  have hnext := h'.all j (Nat.le_of_lt h.nonempty) hlt
  rw [h.longest] at hnext
  contradiction

theorem IsRun.unique {j' : Nat} (h : IsRun p text i j) (h' : IsRun p text i j') : j = j' :=
  Nat.le_antisymm (h'.le_of_isRun h) (h.le_of_isRun h')

theorem IsRun.any_isSpace (h : IsRun p text i j) (hp : ∀ b, p b = true → isIdentByte b = true)
    {k : Nat} (hk : i ≤ k) (hlt : k < j) : text[k]?.any isSpace = false := by
  obtain ⟨b, hb, hpb⟩ := (Option.any_eq_true _ _).1 (h.all k hk hlt)
  rw [hb]
  exact isSpace_of_isIdentByte (hp b hpb)

end Runs

namespace Stands
variable {text : Bytes} {i j : Nat} {word : Word}

theorem lt (h : Stands text i j word) : i < j := by
  cases h with
  | number run => exact run.nonempty
  | ident _ run => exact run.nonempty
  | punct _ _ hstop => omega

theorem le_length (h : Stands text i j word) : j ≤ text.length := by
  cases h with
  | number run => exact run.le_length
  | ident _ run => exact run.le_length
  | punct hb _ hstop =>
    have := (List.getElem?_eq_some_iff.1 hb).1
    omega

/-- The first byte of a word tells its kind, and the kind how far it goes. -/
theorem unique {j' : Nat} {word' : Word} (h : Stands text i j word)
    (h' : Stands text i j' word') : j = j' ∧ word = word' := by
  cases h with
  | number run =>
    cases h' with
    | number run' =>
      obtain rfl := run.unique run'
      exact ⟨rfl, rfl⟩
    | ident hfirst' _ =>
      exact absurd run.any_first (Bool.eq_false_iff.1 hfirst')
    | punct hb hfirst' _ =>
      exact absurd (isIdentByte_of_isDigit (run.of_first hb)) (Bool.eq_false_iff.1 hfirst')
  | ident hfirst run =>
    cases h' with
    | number run' =>
      exact absurd run'.any_first (Bool.eq_false_iff.1 hfirst)
    | ident _ run' =>
      obtain rfl := run.unique run'
      exact ⟨rfl, rfl⟩
    | punct hb hfirst' _ =>
      exact absurd (run.of_first hb) (Bool.eq_false_iff.1 hfirst')
  | punct hb hfirst hstop =>
    cases h' with
    | number run' =>
      exact absurd (isIdentByte_of_isDigit (run'.of_first hb)) (Bool.eq_false_iff.1 hfirst)
    | ident _ run' =>
      exact absurd (run'.of_first hb) (Bool.eq_false_iff.1 hfirst)
    | punct hb' _ hstop' =>
      obtain rfl := Option.some.inj (hb.symm.trans hb')
      exact ⟨hstop.trans hstop'.symm, rfl⟩

/-- A word has no white space in it, unless it begins with it. -/
theorem any_isSpace (h : Stands text i j word) (hi : text[i]?.any isSpace = false) {k : Nat}
    (hk : i ≤ k) (hlt : k < j) : text[k]?.any isSpace = false := by
  cases h with
  | number run => exact run.any_isSpace (fun _ => isIdentByte_of_isDigit) hk hlt
  | ident _ run => exact run.any_isSpace (fun _ h => h) hk hlt
  | punct _ _ hstop =>
    obtain rfl : k = i := by omega
    exact hi

/-- The bytes of a word of a text are whole characters. -/
theorem valid_extract (h : Stands text i j word) (hdrop : Utf8.Valid (text.drop i)) :
    Utf8.Valid (text.extract i j) := by
  cases h with
  | number run =>
    apply Utf8.valid_of_ascii
    intro b hb
    exact lt_of_isDigit (of_mem_extract run.all hb)
  | ident _ run =>
    have hij := run.nonempty
    have hj := run.le_length
    have hlength : j - i ≤ (text.drop i).length := by
      rw [List.length_drop]
      omega
    -- A run of identifier bytes ends before a byte of ASCII.
    have hnext : (text.drop i)[j - i]?.any Utf8.isContinuation = false := by
      have hlongest := run.longest
      rw [List.getElem?_drop, Nat.add_sub_cancel' (Nat.le_of_lt hij)]
      cases hb : text[j]? with
      | none => rfl
      | some b =>
        rw [hb] at hlongest
        have hascii : b < 0x80 := lt_of_not_isIdentByte hlongest
        simp [Utf8.isContinuation, UInt8.not_le.2 hascii]
    have hboundary := Utf8.isBoundary_of_next hlength hnext
    exact ((Utf8.isBoundary_iff_valid_take hdrop).1 hboundary).2
  | punct hb hfirst hstop =>
    rw [hstop, extract_succ hb]
    apply Utf8.valid_of_ascii
    intro c hc
    obtain rfl := List.mem_singleton.1 hc
    exact lt_of_not_isIdentByte hfirst

/-- So what follows it is a text again. -/
theorem valid_drop (h : Stands text i j word) (hdrop : Utf8.Valid (text.drop i)) :
    Utf8.Valid (text.drop j) :=
  Utf8.valid_drop_of_extract (Nat.le_of_lt h.lt) (h.valid_extract hdrop) hdrop

/-- A word that stands in a text does not change when it is made valid. -/
theorem lossy {p : UInt8 → Bool} {kind : Bytes → Word}
    (h : Stands text i (i + ((text.drop i).takeWhile p).length)
      (kind (text.extract i (i + ((text.drop i).takeWhile p).length))))
    (hdrop : Utf8.Valid (text.drop i)) :
    Stands text i (i + ((text.drop i).takeWhile p).length)
      (kind (Utf8.lossy ((text.drop i).takeWhile p))) := by
  have hlossy := Utf8.lossy_of_valid (h.valid_extract hdrop)
  rw [extract_length_takeWhile] at h hlossy
  rwa [hlossy]

end Stands

/-- The bytes that a word is written as. -/
def spelling : Word → Bytes
  | ident text => text
  | number text => text
  | punct c => String.utf8EncodeChar c

theorem Stands.spelling_eq {text : Bytes} {i j : Nat} {word : Word} (h : Stands text i j word) :
    word.spelling = text.extract i j := by
  cases h with
  | number _ => rfl
  | ident _ _ => rfl
  | @punct b hb hfirst hstop =>
    have hascii := UInt8.lt_iff_toNat_lt.1 (lt_of_not_isIdentByte hfirst)
    have hchar : (Char.ofNat b.toNat).toNat = b.toNat := by
      rw [Char.ofNat, dif_pos (.inl (Nat.lt_trans hascii (by decide)))]
      rfl
    rw [hstop, extract_succ hb, spelling, Utf8.encode_eq hchar, if_pos (Nat.le_of_lt_succ hascii),
      Utf8.ofNat_eq rfl]

/-- What is read at the front of a text is the word that stands there. -/
theorem stands_first {text : Bytes} {i : Nat} (hi : i < text.length)
    (hdrop : Utf8.Valid (text.drop i)) :
    ∃ word n, first (text.drop i) = some (word, n) ∧ Stands text i (i + n) word := by
  obtain ⟨b, hb⟩ : ∃ b, text[i]? = some b := ⟨_, List.getElem?_eq_getElem hi⟩
  have hcons : text.drop i = b :: text.drop (i + 1) := by
    rw [← extract_append_drop (Nat.le_succ i), extract_succ hb]
    rfl
  have hfirst {p : UInt8 → Bool} (hp : p b = true) : text[i]?.any p = true := by rwa [hb]
  rw [hcons, first, ← hcons]
  dsimp only
  split
  · next hdigit =>
    have hstands := Stands.number (isRun_takeWhile (hfirst hdigit))
    exact ⟨_, _, rfl, hstands.lossy hdrop⟩
  · next hdigit =>
    split
    · next hident =>
      have hstands := Stands.ident (by simpa [hb] using hdigit) (isRun_takeWhile (hfirst hident))
      exact ⟨_, _, rfl, hstands.lossy hdrop⟩
    · next hident => exact ⟨_, _, rfl, .punct hb (Bool.eq_false_iff.2 hident) rfl⟩

/-- What follows white space in a text is a text. -/
theorem valid_drop_of_isSpace {text : Bytes} {i j : Nat} (hij : i ≤ j)
    (h : ∀ k, i ≤ k → k < j → text[k]?.any isSpace = true) (hdrop : Utf8.Valid (text.drop i)) :
    Utf8.Valid (text.drop j) := by
  apply Utf8.valid_drop_of_extract hij _ hdrop
  apply Utf8.valid_of_ascii
  intro b hb
  exact lt_of_isSpace (of_mem_extract h hb)

end Word
end EditLex
