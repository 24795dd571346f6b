import EditLex.Lexer.Samples
import EditLex.Proofs.Reuse

/-!
The units that an edit leaves alone. If units end in order, those that end far enough before the
change are a front of them, and that front is found from any focus (`Damage.take_soundPrefix`), so
an update does not depend on the focus (`Tokenizer.update_moveTo`). Looking back further keeps no
more units, unless the text has to be read as a whole for looking back less
(`Tokenizer.Front`, `Tokenizer.Reuses`).
-/
namespace EditLex

namespace Damage
variable {U : Type}

/-- What holds of an element only where it holds of those before it holds of a front. -/
theorem takeWhile_eq_filter {α : Type} {p : α → Bool} {items : List α}
    (h : items.Pairwise fun a b => p b = true → p a = true) :
    items.takeWhile p = items.filter p := by
  induction items with
  | nil => rfl
  | cons a items ih =>
    obtain ⟨ha, hitems⟩ := List.pairwise_cons.1 h
    cases hp : p a with
    | true => rw [List.takeWhile_cons_of_pos hp, List.filter_cons_of_pos hp, ih hitems]
    | false =>
      have hnone : ∀ b ∈ items, ¬p b = true := by
        intro b hb hpb
        rw [ha b hb hpb] at hp
        contradiction
      rw [List.takeWhile_cons_of_neg (by simp [hp]), List.filter_cons_of_neg (by simp [hp]),
        List.filter_eq_nil_iff.2 hnone]

variable {d : Damage} {units : Focused (Token U)}

section
variable (h : units.toList.Pairwise fun s t => s.stop.offset ≤ t.stop.offset)
include h

/-- The sound prefix is made up of the sound units. -/
theorem take_soundPrefix : units.toList.take (d.soundPrefix units) =
    units.toList.filter fun t => d.spares t.stop.offset := by
  rw [soundPrefix_eq h, ← takeWhile_eq_filter (d.pairwise_spares h),
    ← List.prefix_iff_eq_take.1 (List.takeWhile_prefix _)]

theorem soundPrefix_eq_countP :
    d.soundPrefix units = units.toList.countP fun t => d.spares t.stop.offset := by
  rw [List.countP_eq_length_filter, ← take_soundPrefix h, Tokenizer.length_take_soundPrefix]

theorem soundPrefix_moveTo (index : Nat) :
    d.soundPrefix (units.moveTo index) = d.soundPrefix units := by
  have hl := (units.moveTo_spec index).1
  rw [soundPrefix_eq_countP h, soundPrefix_eq_countP (hl.symm ▸ h), hl]

/-- A wider damage spares no more units. -/
theorem soundPrefix_damage_anti (c : Change) {lookbehind further : Coord}
    (hle : lookbehind ≤ further) :
    (c.damage further).soundPrefix units ≤ (c.damage lookbehind).soundPrefix units := by
  rw [soundPrefix_eq_countP h, soundPrefix_eq_countP h]
  apply List.countP_mono_left
  intro t _
  simp only [c.spares_damage, decide_eq_true_eq]
  exact Nat.lt_of_le_of_lt (Nat.add_le_add_left hle _)

end
end Damage

namespace Tokenizer
variable {S U : Type}

/-- The update does not depend on the focus. -/
theorem update_moveTo (t : Tokenizer S U) (document : Option String) {previous : Focused (Token U)}
    (h : previous.toList.Pairwise fun s u => s.stop.offset ≤ u.stop.offset) (change : Change)
    (text : Bytes) (index : Nat) :
    t.update document (previous.moveTo index) change text =
      t.update document previous change text := by
  simp only [update, Damage.soundPrefix_moveTo h, Focused.moveTo_moveTo]

/-- So many units are kept as there are in the sound prefix, or none. -/
theorem kept_update (t : Tokenizer S U) (document : Option String)
    (previous : Focused (Token U)) (change : Change) (text : Bytes) :
    let keep := (change.damage t.settings.lookbehind).soundPrefix previous
    (t.update document previous change text).value.1.reuse.kept =
      if Utf8.isBoundary text (Token.lastStop .start (previous.toList.take keep)).offset.val
      then keep else 0 := by
  intro keep
  split
  · next hboundary =>
    rw [(t.joins_of_boundary document previous change text hboundary).reuse]
    exact length_take_soundPrefix _ previous
  · next hboundary =>
    rw [(t.joins_of_not_boundary document previous change text hboundary).reuse]
    rfl

/-- So many units an update keeps when it looks back so far. -/
def reused (t : Tokenizer S U) (document : Option String) (previous : Focused (Token U))
    (change : Change) (text : Bytes) (lookbehind : Coord) : Nat :=
  (({ t with settings := t.settings.withLookbehind lookbehind } : Tokenizer S U).update document
    previous change text).value.1.reuse.kept

/-- The place behind the units that the change leaves alone when looking back so far. -/
def resumeAt (previous : Focused (Token U)) (change : Change) (lookbehind : Coord) : Position :=
  Token.lastStop .start
    (previous.toList.take ((change.damage lookbehind).soundPrefix previous))

/-- The sound prefix is made up of the units that end more than the lookbehind before the change,
and looking back further makes it no longer. -/
structure Front (previous : Focused (Token U)) (change : Change) (lookbehind : Coord) : Prop where
  count : (change.damage lookbehind).soundPrefix previous =
    previous.toList.countP fun u => u.stop.offset.val + lookbehind.val < change.start.val
  units : previous.toList.take ((change.damage lookbehind).soundPrefix previous) =
    previous.toList.filter fun u => u.stop.offset.val + lookbehind.val < change.start.val
  further : ∀ further, lookbehind ≤ further →
    (change.damage further).soundPrefix previous ≤ (change.damage lookbehind).soundPrefix previous

/-- The sound prefix is kept, or nothing if no character of the text begins at the end of it; and
looking back further keeps no more than is kept where it is some. -/
structure Reuses (t : Tokenizer S U) (document : Option String) (previous : Focused (Token U))
    (change : Change) (text : Bytes) (lookbehind : Coord) : Prop where
  reused_eq : t.reused document previous change text lookbehind =
    if Utf8.isBoundary text (resumeAt previous change lookbehind).offset.val then
      (change.damage lookbehind).soundPrefix previous
    else 0
  further : ∀ further, lookbehind ≤ further →
    Utf8.isBoundary text (resumeAt previous change lookbehind).offset.val →
    t.reused document previous change text further ≤
      t.reused document previous change text lookbehind

theorem front {previous : Focused (Token U)}
    (h : previous.toList.Pairwise fun s u => s.stop.offset ≤ u.stop.offset) (change : Change)
    (lookbehind : Coord) : Front previous change lookbehind := by
  have hspares : (fun u : Token U => (change.damage lookbehind).spares u.stop.offset) =
      fun u => decide (u.stop.offset.val + lookbehind.val < change.start.val) :=
    funext fun u => change.spares_damage lookbehind u.stop.offset
  constructor
  case count => exact hspares ▸ Damage.soundPrefix_eq_countP h
  case units => exact hspares ▸ Damage.take_soundPrefix h
  case further => exact fun _ => Damage.soundPrefix_damage_anti h change

theorem reuses (t : Tokenizer S U) (document : Option String) {previous : Focused (Token U)}
    (h : previous.toList.Pairwise fun s u => s.stop.offset ≤ u.stop.offset) (change : Change)
    (text : Bytes) (lookbehind : Coord) :
    t.Reuses document previous change text lookbehind := by
  have hreused (lookbehind : Coord) : t.reused document previous change text lookbehind =
      if Utf8.isBoundary text (resumeAt previous change lookbehind).offset.val then
        (change.damage lookbehind).soundPrefix previous
      else 0 :=
    kept_update { t with settings := t.settings.withLookbehind lookbehind } document previous
      change text
  refine ⟨hreused lookbehind, ?_⟩
  intro further hle hboundary
  rw [hreused, hreused, if_pos hboundary]
  split
  · exact (front h change lookbehind).further further hle
  · exact Nat.zero_le _

/-- Of units that end in order, an update keeps those that end more than the lookbehind before the
change, wherever the focus is, or none if no character of the text begins at the end of them.
Looking back further leaves a front of them, and so keeps no more than are kept where it is some. -/
theorem update_keeps_front (t : Tokenizer S U) (document : Option String)
    {previous : Focused (Token U)}
    (h : previous.toList.Pairwise fun s u => s.stop.offset ≤ u.stop.offset) (change : Change)
    (text : Bytes) :
    (∀ index, t.update document (previous.moveTo index) change text =
      t.update document previous change text) ∧
    ∀ lookbehind, Front previous change lookbehind ∧
      t.Reuses document previous change text lookbehind :=
  ⟨t.update_moveTo document h change text,
    fun lookbehind => ⟨front h change lookbehind, t.reuses document h change text lookbehind⟩⟩

/-- Of the bytes of `abc`, all with the focus behind the second, an insertion behind the third keeps
two, and one when it looks back by a byte. -/
theorem update_keeps_bytes :
    let t : Tokenizer Nat SampleUnit := ⟨Sample.bytes.lexer, 3, {}⟩
    let place (n : Nat) : Position := ⟨.one, .sat n, .sat n⟩
    let previous : Focused (Token SampleUnit) := .ofList
      [⟨.byte 97, place 0, place 1⟩, ⟨.byte 98, place 1, place 2⟩, ⟨.byte 99, place 2, place 3⟩]
    let change := Change.insert (.sat 3) (.sat 1)
    let reused := t.reused none previous change [97, 98, 99, 100]
    (previous.toList.Pairwise fun s u => s.stop.offset ≤ u.stop.offset) ∧
      t.update none (previous.moveTo 2) change [97, 98, 99, 100] =
        t.update none previous change [97, 98, 99, 100] ∧
      reused .zero = 2 ∧ reused .one = 1 ∧ reused .one ≤ reused .zero := by
  intro t place previous change reused
  have hsorted : previous.toList.Pairwise fun s u => s.stop.offset ≤ u.stop.offset := by decide
  obtain ⟨hfocus, hback⟩ := t.update_keeps_front none hsorted change [97, 98, 99, 100]
  obtain ⟨-, hzero, hfurther⟩ := hback .zero
  obtain ⟨-, hone, -⟩ := hback .one
  refine ⟨hsorted, hfocus 2, hzero.trans (by decide), hone.trans (by decide), ?_⟩
  exact hfurther .one (by decide) (by decide)

/-- Looking back further may keep more. In `aé`, taken byte by byte, an insertion at the end leaves
two bytes alone, but a unit cannot begin between the second and the third, so none is kept; looking
back by a byte keeps the first. -/
theorem update_keeps_more_looking_back :
    let t : Tokenizer Nat SampleUnit := ⟨Sample.bytes.lexer, 3, {}⟩
    let place (n : Nat) : Position := ⟨.one, .sat n, .sat n⟩
    let previous : Focused (Token SampleUnit) := .ofList [⟨.byte 97, place 0, place 1⟩,
      ⟨.byte 0xC3, place 1, place 2⟩, ⟨.byte 0xA9, place 2, place 3⟩]
    let change := Change.insert (.sat 3) (.sat 1)
    let reused := t.reused none previous change [97, 0xC3, 0xA9, 98]
    (previous.toList.Pairwise fun s u => s.stop.offset ≤ u.stop.offset) ∧
      reused .zero = 0 ∧ reused .one = 1 ∧
      ¬∀ lookbehind further, lookbehind ≤ further → reused further ≤ reused lookbehind := by
  intro t place previous change reused
  have hzero : reused .zero = 0 := (kept_update _ none previous change _).trans (by decide)
  have hone : reused .one = 1 := (kept_update _ none previous change _).trans (by decide)
  refine ⟨by decide, hzero, hone, ?_⟩
  intro h
  have hgrows := h .zero .one (by decide)
  rw [hzero, hone] at hgrows
  exact absurd hgrows (by decide)

end Tokenizer
end EditLex
