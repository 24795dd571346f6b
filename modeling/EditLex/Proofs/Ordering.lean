import EditLex.Proofs.Lines

/-!
The order of the positions of a text. Going on over some bytes comes to a greater position: within a
line the column grows, and a newline raises the line before the column goes back
(`Position.compare_advance`). So the order by line and column is that of the offsets
(`Position.compare_ofOffset`), as long as there are numbers for the lines.
-/
namespace EditLex.Position

/-- By line and then by column is a linear order up to the offset. -/
instance : Std.TransCmp compare :=
  inferInstanceAs (Std.TransCmp (compareLex (compareOn fun p : Position => p.line.val)
    (compareOn fun p : Position => p.column.val)))

theorem compare_eq_lt_iff {p q : Position} :
    p.compare q = .lt ↔ p.line < q.line ∨ p.line = q.line ∧ p.column < q.column := by
  rw [compare, Ordering.then_eq_lt, Nat.compare_eq_lt, Nat.compare_eq_eq, Nat.compare_eq_lt,
    Coord.eq_iff_val]
  rfl

theorem compare_eq_eq_iff {p q : Position} :
    p.compare q = .eq ↔ p.line = q.line ∧ p.column = q.column := by
  rw [compare, Ordering.then_eq_eq, Nat.compare_eq_eq, Nat.compare_eq_eq, Coord.eq_iff_val,
    Coord.eq_iff_val]

theorem line_le_advance (p : Position) (bytes : Bytes) : p.line ≤ (p.advance bytes).line := by
  have := p.line.val_le
  simp only [Coord.le_def, advance, Coord.val_up]
  omega

/-- Going on over some bytes comes to a greater position, unless the line or the column that it
would come to has no number. -/
theorem compare_advance (p : Position) {bytes : Bytes} (hbytes : bytes ≠ [])
    (hline : newline ∈ bytes → p.line.val < Coord.limit)
    (hcolumn : newline ∉ bytes → p.column.val + bytes.length ≤ Coord.limit) :
    p.compare (p.advance bytes) = .lt := by
  rw [compare_eq_lt_iff, Coord.lt_def, Coord.eq_iff_val, Coord.lt_def]
  by_cases hmem : newline ∈ bytes
  · left
    have hroom := hline hmem
    have hcount := List.count_pos_iff.2 hmem
    simp only [advance, Coord.val_up]
    omega
  · right
    have hroom := hcolumn hmem
    have hlength := List.length_pos_iff.2 hbytes
    simp only [advance, if_neg hmem, List.count_eq_zero.2 hmem, Coord.up_zero, Coord.val_up,
      true_and]
    omega

theorem ofOffset_advance (text : Bytes) {i j : Nat} (h : i ≤ j) :
    (ofOffset text i).advance ((text.take j).drop i) = ofOffset text j := by
  have hsplit := List.take_append_drop i (text.take j)
  rw [List.take_take, Nat.min_eq_left h] at hsplit
  rw [ofOffset, ← advance_append, hsplit, ofOffset]

theorem val_line_ofOffset (text : Bytes) (i : Nat) :
    (ofOffset text i).line.val = min (1 + (text.take i).count newline) Coord.limit := rfl

theorem val_column_ofOffset_le (text : Bytes) (i : Nat) : (ofOffset text i).column.val ≤ i := by
  have htail := tailLength_le (text.take i)
  have hlength := List.length_take_le i text
  simp only [ofOffset, advance]
  split
  · rw [Coord.val_sat]
    omega
  · simp only [start, Coord.val_up, Coord.val_zero]
    omega

theorem line_ofOffset_mono (text : Bytes) {i j : Nat} (h : i ≤ j) :
    (ofOffset text i).line ≤ (ofOffset text j).line := by
  rw [← ofOffset_advance text h]
  exact line_le_advance _ _

/-- Behind a newline there is another line; only the last one of so many has no number. -/
theorem line_lt_or_newlines {text : Bytes} (h : text.length ≤ Coord.limit) {i j : Nat}
    (hij : i < j) (hmem : newline ∈ (text.take j).drop i) :
    (ofOffset text i).line.val < Coord.limit ∨ text = newlines ∧ Coord.limit ≤ i + 1 := by
  rw [Decidable.or_iff_not_imp_left, val_line_ofOffset]
  intro hline
  have hsplit := List.take_append_drop i (text.take j)
  rw [List.take_take, Nat.min_eq_left (Nat.le_of_lt hij)] at hsplit
  have hcount := congrArg (List.count newline) hsplit
  have hbehind := List.count_pos_iff.2 hmem
  have hbefore := List.count_le_length (a := newline) (l := text.take i)
  rw [List.count_append] at hcount
  rw [List.length_take] at hbefore
  exact ⟨(eq_newlines_of_count h (n := j) (by omega)).1, by omega⟩

section
variable {text : Bytes} (h : text.length ≤ Coord.limit)
include h

theorem compare_ofOffset_of_lt {i j : Nat} (hij : i < j) (hj : j ≤ text.length)
    (hnumbered : text ≠ newlines ∨ i + 1 < Coord.limit) :
    (ofOffset text i).compare (ofOffset text j) = .lt := by
  have hlength : ((text.take j).drop i).length = j - i := by
    rw [List.length_drop, List.length_take_of_le hj]
  rw [← ofOffset_advance text (Nat.le_of_lt hij)]
  apply compare_advance
  · rw [← List.length_pos_iff, hlength]
    omega
  · intro hmem
    refine (line_lt_or_newlines h hij hmem).resolve_right ?_
    rintro ⟨htext, hi⟩
    rcases hnumbered with hnumbered | hnumbered
    · exact hnumbered htext
    · omega
  · intro _
    have hcolumn := val_column_ofOffset_le text i
    rw [hlength]
    omega

theorem compare_ofOffset_eq {i j : Nat} (hi : i ≤ text.length) (hj : j ≤ text.length)
    (hnumbered : text ≠ newlines ∨ i + 1 < Coord.limit ∨ j + 1 < Coord.limit) :
    (ofOffset text i).compare (ofOffset text j) = Ord.compare i j := by
  rcases Nat.lt_trichotomy i j with hij | rfl | hij
  · rw [Nat.compare_eq_lt.2 hij]
    apply compare_ofOffset_of_lt h hij hj
    exact hnumbered.imp_right fun hroom => by omega
  · rw [Nat.compare_eq_eq.2 rfl]
    exact Std.ReflCmp.compare_self
  · rw [Nat.compare_eq_gt.2 hij, Std.OrientedCmp.gt_iff_lt]
    apply compare_ofOffset_of_lt h hij hi
    exact hnumbered.imp_right fun hroom => by omega

end

/-- Comparing two positions of a text by line and column is comparing their offsets. Only at the end
of a text of so many newlines that its last two lines share a number do two positions compare as
equal that are not. The order is linear, and lines do not go back. -/
theorem compare_ofOffset {text : Bytes} (h : text.length ≤ Coord.limit) :
    (∀ i j, i ≤ text.length → j ≤ text.length →
      text ≠ newlines ∨ i + 1 < Coord.limit ∨ j + 1 < Coord.limit →
        (ofOffset text i).compare (ofOffset text j) = Ord.compare i j ∧
          ((ofOffset text i).compare (ofOffset text j) = .eq ↔
            ofOffset text i = ofOffset text j)) ∧
    (∀ i j, text = newlines → i ≤ text.length → j ≤ text.length → Coord.limit ≤ i + 1 →
      Coord.limit ≤ j + 1 → (ofOffset text i).compare (ofOffset text j) = .eq) ∧
    (∀ p q r : Position, p.compare q = (q.compare p).swap ∧
      (p.compare q = .lt → q.compare r = .lt → p.compare r = .lt)) ∧
    ∀ i j, i ≤ j → (ofOffset text i).line ≤ (ofOffset text j).line := by
  refine ⟨?offsets, ?shared, ?linear, fun i j => line_ofOffset_mono text⟩
  case offsets =>
    intro i j hi hj hnumbered
    have hcompare := compare_ofOffset_eq h hi hj hnumbered
    refine ⟨hcompare, ?_, ?_⟩
    · rw [hcompare, Nat.compare_eq_eq]
      rintro rfl
      rfl
    · intro hsame
      rw [hsame]
      exact Std.ReflCmp.compare_self
  case shared =>
    rintro i j rfl hi hj hlast hlast'
    rw [List.length_replicate] at hi hj
    rw [ofOffset_newlines hlast hi, ofOffset_newlines hlast' hj, compare_eq_eq_iff]
    exact ⟨rfl, rfl⟩
  case linear =>
    intro p q r
    exact ⟨Std.OrientedCmp.eq_swap, Std.TransCmp.lt_trans⟩

/-- The text `a`, newline, `b`: its end and the end of its first line. -/
theorem compare_ofOffset_of_two_lines :
    let text : Bytes := [97, 10, 98]
    (text.length ≤ Coord.limit ∧ 3 ≤ text.length ∧ 1 ≤ text.length ∧
        (text ≠ newlines ∨ 3 + 1 < Coord.limit ∨ 1 + 1 < Coord.limit)) ∧
      (ofOffset text 3).compare (ofOffset text 1) = .gt ∧
      (ofOffset text 1).line ≤ (ofOffset text 3).line := by
  intro text
  have htext : text.length ≤ Coord.limit := by decide
  have hnumbered : text ≠ newlines ∨ 3 + 1 < Coord.limit ∨ 1 + 1 < Coord.limit :=
    .inr (.inl (by decide))
  obtain ⟨hoffsets, -, -, hlines⟩ := compare_ofOffset htext
  refine ⟨⟨htext, by decide, by decide, hnumbered⟩, ?_, hlines 1 3 (by decide)⟩
  exact (hoffsets 3 1 (by decide) (by decide) hnumbered).1

/-- The text fits, and its last two offsets have positions that are told apart by nothing but the
offset. -/
theorem compare_ofOffset_newlines :
    newlines.length ≤ Coord.limit ∧
      ofOffset newlines (Coord.limit - 1) = ⟨.sat Coord.limit, .zero, .sat (Coord.limit - 1)⟩ ∧
      ofOffset newlines Coord.limit = ⟨.sat Coord.limit, .zero, .sat Coord.limit⟩ ∧
      (ofOffset newlines (Coord.limit - 1)).compare (ofOffset newlines Coord.limit) = .eq ∧
      Ord.compare (Coord.limit - 1) Coord.limit = .lt ∧
      ofOffset newlines (Coord.limit - 1) ≠ ofOffset newlines Coord.limit := by
  have hbefore := ofOffset_newlines (i := Coord.limit - 1) (by omega) (by omega)
  have hend := ofOffset_newlines (i := Coord.limit) (by omega) (Nat.le_refl _)
  refine ⟨Nat.le_of_eq List.length_replicate, hbefore, hend, ?_, by decide, ?_⟩
  · rw [hbefore, hend, compare_eq_eq_iff]
    exact ⟨rfl, rfl⟩
  · rw [hbefore, hend]
    decide

end EditLex.Position
