import EditLex.Proofs.Characters

/-!
Boundaries of characters. In a text, the offsets that are no continuation byte's are the places
between its characters (`Utf8.isBoundary_iff`): the machine accepts a continuation byte inside a
character only.
-/
namespace EditLex.Utf8

/-- The offset `i` lies between two characters of the text or at an end of it. -/
def Between (text : Bytes) (i : Nat) : Prop :=
  ∃ front back : List Char,
    front.flatMap String.utf8EncodeChar ++ back.flatMap String.utf8EncodeChar = text ∧
      (front.flatMap String.utf8EncodeChar).length = i

theorem between_iff {text : Bytes} {i : Nat} :
    Between text i ↔ i ≤ text.length ∧ Valid (text.take i) ∧ Valid (text.drop i) := by
  constructor
  · rintro ⟨front, back, rfl, rfl⟩
    refine ⟨by simp, ?_, ?_⟩
    · rw [List.take_left]
      exact valid_iff.2 ⟨front, rfl⟩
    · rw [List.drop_left]
      exact valid_iff.2 ⟨back, rfl⟩
  · rintro ⟨hi, htake, hdrop⟩
    obtain ⟨front, hfront⟩ := valid_iff.1 htake
    obtain ⟨back, hback⟩ := valid_iff.1 hdrop
    refine ⟨front, back, ?_, ?_⟩
    · rw [hfront, hback, List.take_append_drop]
    · rw [hfront, List.length_take_of_le hi]

instance (text : Bytes) (i : Nat) : Decidable (Between text i) :=
  decidable_of_iff _ between_iff.symm

theorem isContinuation_iff {b : UInt8} :
    isContinuation b = true ↔ 0x80 ≤ b.toNat ∧ b.toNat ≤ 0xBF := by
  simp only [isContinuation, Bool.and_eq_true, decide_eq_true_eq, UInt8.le_iff_toNat_le]
  rfl

theorem isContinuation_of_opening {b : UInt8} {t : State} (h : opening b = some t) :
    isContinuation b = false := by
  rw [← Bool.not_eq_true, isContinuation_iff]
  rintro ⟨hlow, hhigh⟩
  rw [opening_eq, if_neg (by omega), if_pos (by omega)] at h
  contradiction

/-- Inside a character, only a continuation byte can come next. -/
def State.Continues : State → Prop
  | .boundary => True
  | .inside _ low high => 0x80 ≤ low.toNat ∧ high.toNat ≤ 0xBF

theorem State.Continues.of_step {s t : State} {b : UInt8} (h : step s b = some t) :
    t.Continues := by
  cases s with
  | boundary =>
    simp only [step, opening] at h
    repeat' split at h
    all_goals cases h
    all_goals simp only [State.Continues]
    all_goals decide
  | inside more low high =>
    obtain ⟨-, rfl⟩ := step_inside_iff.1 h
    cases more with
    | zero => trivial
    | succ more =>
      simp only [State.owing, State.Continues]
      decide

/-- In a text, the boundaries are where a text ends. -/
theorem isBoundary_iff_valid_take {text : Bytes} (h : Valid text) {i : Nat} :
    isBoundary text i = true ↔ i ≤ text.length ∧ Valid (text.take i) := by
  obtain ⟨s, hs, hrest⟩ : ∃ s, run .boundary (text.take i) = some s ∧
      run s (text.drop i) = some .boundary := by
    rw [Valid, ← List.take_append_drop i text, run_append] at h
    exact Option.bind_eq_some_iff.1 h
  have hvalid : Valid (text.take i) ↔ s = .boundary := by
    rw [Valid, hs, Option.some.injEq]
  rw [hvalid, isBoundary]
  cases hdrop : text.drop i with
  | nil =>
    rw [hdrop] at hrest
    have hend : s = .boundary := Option.some.inj hrest
    have hi : text.length ≤ i := List.drop_eq_nil_iff.1 hdrop
    rw [List.getElem?_eq_none hi]
    simp only [Bool.or_eq_true, beq_iff_eq, hend, and_true]
    omega
  | cons b rest =>
    rw [hdrop, run_cons] at hrest
    obtain ⟨t, hstep, -⟩ := Option.bind_eq_some_iff.1 hrest
    have hb : text[i]? = some b := by
      rw [← Nat.add_zero i, ← List.getElem?_drop, hdrop]
      rfl
    have hi : i ≤ text.length := Nat.le_of_lt (List.getElem?_eq_some_iff.1 hb).1
    rw [hb]
    cases s with
    | boundary => simp [hi, isContinuation_of_opening hstep]
    | inside more low high =>
      have hstart : State.boundary.Continues := trivial
      have hcontinues : (State.inside more low high).Continues :=
        State.of_run (fun _ _ _ => .of_step) hstart hs
      have hbounds := (step_inside_iff.1 hstep).1
      have hcont : isContinuation b = true := by
        rw [isContinuation_iff]
        exact ⟨Nat.le_trans hcontinues.1 hbounds.1, Nat.le_trans hbounds.2 hcontinues.2⟩
      have hpos : i ≠ 0 := by
        rintro rfl
        cases hs
      simp [hcont, hpos]

/-- In a text, the boundaries are the places between characters. -/
theorem isBoundary_iff {text : Bytes} (h : Valid text) {i : Nat} :
    isBoundary text i = true ↔ Between text i := by
  rw [isBoundary_iff_valid_take h, between_iff]
  constructor
  · rintro ⟨hi, htake⟩
    rw [← List.take_append_drop i text] at h
    exact ⟨hi, htake, (htake.append_iff _).1 h⟩
  · rintro ⟨hi, htake, -⟩
    exact ⟨hi, htake⟩

end EditLex.Utf8
