import EditLex.LineTable

/-!
The table of lines finds the position that going over the text arrives at
(`LineTable.position_ofText`): the lines that start up to an offset are those of the text up to
there, and the last of them starts behind its last newline.
-/
namespace EditLex

theorem Position.tailLength_cons (b : UInt8) (text : Bytes) : tailLength (b :: text) =
    if newline ∈ text then tailLength text
    else if b = newline then text.length else text.length + 1 := by
  have hone : tailLength [b] = if b = newline then 0 else 1 := by
    simp only [tailLength, List.reverse_singleton, List.takeWhile_cons, bne_iff_ne, ne_eq, ite_not]
    split <;> rfl
  rw [← List.singleton_append, tailLength_append, hone]
  split
  · rfl
  · split <;> omega

theorem Position.tailLength_le (text : Bytes) : tailLength text ≤ text.length := by
  have hprefix := (List.takeWhile_prefix (· != newline) (l := text.reverse)).length_le
  rwa [List.length_reverse] at hprefix

namespace Position

/-- The position of the byte of `text` at an offset. -/
def ofOffset (text : Bytes) (i : Nat) : Position := start.advance (text.take i)

/-- As many newlines as there are numbers for lines: the two lines at the end share the last. -/
abbrev newlines : Bytes := List.replicate Coord.limit newline

theorem ofOffset_newlines {i : Nat} (hi : Coord.limit ≤ i + 1) (hlimit : i ≤ Coord.limit) :
    ofOffset newlines i = ⟨.sat Coord.limit, .zero, .sat i⟩ := by
  have hlast : 0 < i := by
    simp only [Coord.limit] at hi
    omega
  have htail : tailLength (List.replicate i newline) = 0 := by
    simp [tailLength]
  have hmem : newline ∈ List.replicate i newline := List.mem_replicate.2 ⟨by omega, rfl⟩
  rw [ofOffset, newlines, List.take_replicate, Nat.min_eq_left hlimit, advance, if_pos hmem, htail,
    List.count_replicate_self, List.length_replicate]
  simp only [mk.injEq, Coord.eq_iff_val, start, Coord.val_up, Coord.val_sat, Coord.val_one,
    Coord.val_zero]
  omega

end Position

/-- Only one text that fits has as many newlines as there are numbers for lines. -/
theorem eq_newlines_of_count {text : Bytes} (h : text.length ≤ Coord.limit) {n : Nat}
    (hcount : Coord.limit ≤ (text.take n).count newline) :
    text = List.replicate Coord.limit newline ∧ Coord.limit ≤ n := by
  have hle := List.count_le_length (a := newline) (l := text.take n)
  have htake := List.length_take (i := n) (l := text)
  have hwhole : text.take n = text := List.take_of_length_le (by omega)
  have hall : ∀ b ∈ text, newline = b := by
    rw [← List.count_eq_length, ← hwhole]
    omega
  refine ⟨List.eq_replicate_iff.2 ⟨by omega, ?_⟩, by omega⟩
  intro b hb
  exact (hall b hb).symm

namespace LineTable

theorem newlineEnds_append (i : Nat) (front back : Bytes) : newlineEnds i (front ++ back) =
    newlineEnds i front ++ newlineEnds (i + front.length) back := by
  induction front generalizing i with
  | nil => rfl
  | cons b front ih =>
    have hlen : i + 1 + front.length = i + (b :: front).length := by
      rw [List.length_cons]
      omega
    simp only [List.cons_append, newlineEnds, ih, hlen]
    split <;> rfl

theorem length_newlineEnds (i : Nat) (text : Bytes) :
    (newlineEnds i text).length = text.count newline := by
  induction text generalizing i with
  | nil => rfl
  | cons b text ih =>
    rw [newlineEnds, List.count_cons]
    split <;> simp_all

theorem bounds_of_mem_newlineEnds {i : Nat} {text : Bytes} (h : i + text.length ≤ Coord.limit)
    {s : Coord} (hs : s ∈ newlineEnds i text) : i < s.val ∧ s.val ≤ i + text.length := by
  induction text generalizing i with
  | nil => exact absurd hs List.not_mem_nil
  | cons b text ih =>
    rw [List.length_cons] at h ⊢
    have hrest (hs : s ∈ newlineEnds (i + 1) text) : i < s.val ∧ s.val ≤ i + (text.length + 1) := by
      have := ih (by omega) hs
      omega
    rw [newlineEnds] at hs
    split at hs
    · rcases List.mem_cons.1 hs with rfl | hs
      · rw [Coord.val_sat]
        omega
      · exact hrest hs
    · exact hrest hs

/-- The last line starts where the tail of the text does. -/
theorem getLast?_newlineEnds (i : Nat) (text : Bytes) : (newlineEnds i text).getLast? =
    if newline ∈ text then some (.sat (i + text.length - Position.tailLength text)) else none := by
  induction text generalizing i with
  | nil => rfl
  | cons b text ih =>
    rw [newlineEnds, Position.tailLength_cons, List.length_cons]
    by_cases hb : b = newline
    · rw [if_pos hb, List.getLast?_cons, ih, if_pos (List.mem_cons.2 (.inl hb.symm)), if_pos hb]
      split
      · rw [Option.getD_some]
        congr 2
        omega
      · rw [Option.getD_none]
        congr 2
        omega
    · have hmem : newline ∈ b :: text ↔ newline ∈ text := by simp [Ne.symm hb]
      rw [if_neg hb, ih]
      simp only [hmem]
      split
      · congr 2
        omega
      · rfl

/-- The lines that start at an offset of a text or before it are those of the text up to there. -/
theorem takeWhile_starts {text : Bytes} (h : text.length ≤ Coord.limit) {offset : Coord}
    (ho : offset.val ≤ text.length) :
    ((ofText text).starts.takeWhile fun s => decide (s ≤ offset)) =
      (ofText (text.take offset.val)).starts := by
  have hlen : (text.take offset.val).length = offset.val := List.length_take_of_le ho
  have hsplit : (ofText text).starts = (ofText (text.take offset.val)).starts ++
      newlineEnds offset.val (text.drop offset.val) := by
    conv => lhs; rw [ofText, ← List.take_append_drop offset.val text, newlineEnds_append]
    rw [hlen, Nat.zero_add]
    rfl
  have hfront : ∀ s ∈ (ofText (text.take offset.val)).starts, decide (s ≤ offset) = true := by
    intro s hs
    rw [decide_eq_true_iff, Coord.le_def]
    rcases List.mem_cons.1 hs with rfl | hs
    · exact Nat.zero_le _
    · have := (bounds_of_mem_newlineEnds (by omega) hs).2
      omega
  have hback : (newlineEnds offset.val (text.drop offset.val)).takeWhile
      (fun s => decide (s ≤ offset)) = [] := by
    cases hends : newlineEnds offset.val (text.drop offset.val) with
    | nil => rfl
    | cons s ends =>
      have hs := (bounds_of_mem_newlineEnds (by rw [List.length_drop]; omega)
        (hends ▸ List.mem_cons_self)).1
      exact List.takeWhile_cons_of_neg (by simpa [Coord.le_def] using hs)
  rw [hsplit, List.takeWhile_append_of_pos hfront, hback, List.append_nil]

theorem val_clamp_ofText {text : Bytes} (h : text.length ≤ Coord.limit) (offset : Coord) :
    ((ofText text).clamp offset).val = (text.take offset.val).length := by
  have hlen : (ofText text).length.val = text.length := Nat.min_eq_left h
  simp only [clamp, Coord.le_def, List.length_take]
  split <;> omega

/-- The table finds the position behind the bytes before an offset. Past the end it is the end. -/
theorem position_ofText {text : Bytes} (h : text.length ≤ Coord.limit) (offset : Coord) :
    (ofText text).position offset = Position.start.advance (text.take offset.val) := by
  have hclamp := val_clamp_ofText h offset
  have htake : text.take ((ofText text).clamp offset).val = text.take offset.val := by
    rw [hclamp, List.length_take, ← List.take_eq_take_min]
  rw [position, linesUpTo]
  generalize (ofText text).clamp offset = place at hclamp htake
  have hplace : place.val ≤ text.length := by
    rw [hclamp, List.length_take]
    omega
  obtain ⟨later, hlater⟩ :=
    List.takeWhile_prefix (fun s => decide (s ≤ place)) (l := (ofText text).starts)
  rw [takeWhile_starts h hplace, htake] at hlater ⊢
  generalize text.take offset.val = read at hclamp hlater
  have hline : (ofText read).starts.length = read.count newline + 1 := by
    rw [ofText, List.length_cons, length_newlineEnds]
  have hstart : (ofText text).starts[(ofText read).starts.length - 1]? = some
      (if newline ∈ read then .sat (read.length - Position.tailLength read) else .zero) := by
    rw [← hlater, List.getElem?_append_left (by omega), ← List.getLast?_eq_getElem?, ofText,
      List.getLast?_cons, getLast?_newlineEnds, Nat.zero_add]
    split <;> rfl
  have htail := Position.tailLength_le read
  have hread := hclamp ▸ place.val_le
  simp only [hstart, Option.getD_some]
  simp only [hline, Position.advance, Position.start]
  congr 1
  · apply Coord.eq_of_val_eq
    simp only [Coord.val_sat, Coord.val_up, Coord.val_one]
    omega
  · apply Coord.eq_of_val_eq
    simp only [Coord.val_down]
    split
    · simp only [Coord.val_sat]
      omega
    · simp only [Coord.val_up, Coord.val_zero]
      omega
  · apply Coord.eq_of_val_eq
    simp only [Coord.val_up, Coord.val_zero]
    omega

end LineTable
end EditLex
