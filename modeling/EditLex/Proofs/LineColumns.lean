import EditLex.Change
import EditLex.Proofs.Lines

/-!
Offsets by line and column. The lines of a text start in ascending order, so the line that holds an
offset is the last that starts up to there (`LineTable.lt_linesUpTo_iff`). The way from an offset to
its line and column and the way back undo each other (`LineTable.offset?_position_inverse`).
-/
namespace EditLex.LineTable

theorem bounds_of_getElem?_succ {text : Bytes} (h : text.length ≤ Coord.limit) {i : Nat}
    {s : Coord} (hs : (ofText text).starts[i + 1]? = some s) : 0 < s.val ∧ s.val ≤ text.length := by
  rw [ofText, List.getElem?_cons_succ] at hs
  have := bounds_of_mem_newlineEnds (by omega) (List.mem_of_getElem? hs)
  omega

theorem pairwise_newlineEnds {i : Nat} {text : Bytes} (h : i + text.length ≤ Coord.limit) :
    (newlineEnds i text).Pairwise (· < ·) := by
  induction text generalizing i with
  | nil => exact .nil
  | cons b text ih =>
    rw [List.length_cons] at h
    have hrest := ih (i := i + 1) (by omega)
    rw [newlineEnds]
    split
    · refine .cons ?_ hrest
      intro s hs
      have := (bounds_of_mem_newlineEnds (by omega) hs).1
      rw [Coord.lt_def, Coord.val_sat]
      omega
    · exact hrest

theorem pairwise_starts {text : Bytes} (h : text.length ≤ Coord.limit) :
    (ofText text).starts.Pairwise (· < ·) := by
  refine .cons ?_ (pairwise_newlineEnds (by omega))
  intro s hs
  exact (bounds_of_mem_newlineEnds (by omega) hs).1

/-- In an ascending list the elements up to a bound stand in front. -/
theorem lt_length_takeWhile_iff {starts : List Coord} (h : starts.Pairwise (· < ·))
    {offset : Coord} {i : Nat} :
    i < (starts.takeWhile fun s => decide (s ≤ offset)).length ↔
      ∃ s, starts[i]? = some s ∧ s ≤ offset := by
  induction starts generalizing i with
  | nil => simp
  | cons start starts ih =>
    obtain ⟨hstart, hrest⟩ := List.pairwise_cons.1 h
    by_cases hle : start ≤ offset
    · rw [List.takeWhile_cons_of_pos (by simpa using hle)]
      cases i with
      | zero => simp [hle]
      | succ i => simpa using ih hrest
    · rw [List.takeWhile_cons_of_neg (by simpa using hle)]
      simp only [List.length_nil, Nat.not_lt_zero, false_iff]
      rintro ⟨s, hs, hso⟩
      cases i with
      | zero => exact hle (Option.some.inj hs ▸ hso)
      | succ i =>
        have hlt : start < s := hstart s (List.mem_of_getElem? hs)
        rw [Coord.lt_def] at hlt
        rw [Coord.le_def] at hle hso
        omega

theorem linesUpTo_le (t : LineTable) (offset : Coord) : t.linesUpTo offset ≤ t.lineCount :=
  (List.takeWhile_prefix _).length_le

theorem linesUpTo_pos (text : Bytes) (offset : Coord) : 0 < (ofText text).linesUpTo offset := by
  have hzero : Coord.zero ≤ offset := Nat.zero_le _
  rw [linesUpTo, ofText, List.takeWhile_cons_of_pos (by simpa using hzero)]
  exact Nat.succ_pos _

theorem lineCount_ofText (text : Bytes) : (ofText text).lineCount = text.count newline + 1 := by
  rw [lineCount, ofText, List.length_cons, length_newlineEnds]

/-- The line of the offset has a number, where lines are counted from one. -/
def Numbered (t : LineTable) (offset : Coord) : Prop := t.linesUpTo offset ≤ Coord.limit

instance (t : LineTable) (offset : Coord) : Decidable (t.Numbered offset) :=
  inferInstanceAs (Decidable (t.linesUpTo offset ≤ Coord.limit))

section
variable {text : Bytes} (h : text.length ≤ Coord.limit)
include h

theorem lt_linesUpTo_iff {offset : Coord} {i : Nat} : i < (ofText text).linesUpTo offset ↔
    ∃ s, (ofText text).starts[i]? = some s ∧ s ≤ offset :=
  lt_length_takeWhile_iff (pairwise_starts h)

theorem linesUpTo_mono {offset later : Coord} (hle : offset ≤ later) :
    (ofText text).linesUpTo offset ≤ (ofText text).linesUpTo later := by
  refine Nat.le_of_not_lt fun hlt => ?_
  obtain ⟨s, hs, hso⟩ := (lt_linesUpTo_iff h).1 hlt
  have hlater : s ≤ later := Nat.le_trans hso hle
  exact Nat.lt_irrefl _ ((lt_linesUpTo_iff h).2 ⟨s, hs, hlater⟩)

theorem linesUpTo_le_count (offset : Coord) :
    (ofText text).linesUpTo offset ≤ (text.take offset.val).count newline + 1 := by
  rw [← lineCount_ofText]
  rcases Nat.le_total offset.val text.length with ho | ho
  · rw [linesUpTo, takeWhile_starts h ho]
    exact Nat.le_refl _
  · rw [List.take_of_length_le ho]
    exact linesUpTo_le _ _

/-- Before a line without a number stand as many newlines as there are numbers, so a single text has
such a line, at its end. -/
theorem numbered_or_end (offset : Coord) : (ofText text).Numbered offset ∨
    offset.val = Coord.limit ∧ text = List.replicate Coord.limit newline := by
  rw [Decidable.or_iff_not_imp_left, Numbered, Nat.not_le]
  intro hlines
  have hcount := linesUpTo_le_count h offset
  obtain ⟨htext, hle⟩ := eq_newlines_of_count h (n := offset.val) (by omega)
  exact ⟨Nat.le_antisymm offset.val_le hle, htext⟩

/-- Every offset lies on a line, which starts at it or before it. -/
theorem exists_lineStart (offset : Coord) : ∃ s, 0 < (ofText text).linesUpTo offset ∧
    (ofText text).starts[(ofText text).linesUpTo offset - 1]? = some s ∧ s ≤ offset := by
  have hpos := linesUpTo_pos text offset
  obtain ⟨s, hs, hle⟩ := (lt_linesUpTo_iff h).1 (Nat.sub_one_lt_of_lt hpos)
  exact ⟨s, hpos, hs, hle⟩

/-- A line ends before the next one starts, and the last line with the text. -/
theorem le_lineEnd_iff {offset : Coord} {i : Nat} : offset.val ≤ (ofText text).lineEnd i ↔
    offset.val ≤ text.length ∧ (ofText text).linesUpTo offset ≤ i + 1 := by
  have hlen : (ofText text).length.val = text.length := Nat.min_eq_left h
  have hlines : (ofText text).linesUpTo offset ≤ i + 1 ↔
      ¬∃ s, (ofText text).starts[i + 1]? = some s ∧ s ≤ offset := by
    rw [← lt_linesUpTo_iff h, Nat.not_lt]
  rw [hlines, lineEnd]
  cases hnext : (ofText text).starts[i + 1]? with
  | none => simp [hlen]
  | some next =>
    have hbounds := bounds_of_getElem?_succ h hnext
    simp only [Option.some.injEq, exists_eq_left', Coord.le_def]
    omega

theorem clamp_of_le {offset : Coord} (ho : offset.val ≤ text.length) :
    (ofText text).clamp offset = offset := by
  rw [Coord.eq_iff_val, val_clamp_ofText h, List.length_take_of_le ho]

/-- A line and a column of it lead to the offset so many bytes past the start of the line, if that
lies on the line. -/
theorem offset?_eq_some_iff_start {line column offset : Coord} :
    (ofText text).offset? line column = some offset ↔
      offset.val ≤ text.length ∧ (ofText text).linesUpTo offset = line.val ∧
        ∃ s, (ofText text).starts[line.val - 1]? = some s ∧ s.val + column.val = offset.val := by
  have hnum (n : Nat) : Coord.ofNat? n = some offset ↔ n = offset.val := by
    unfold Coord.ofNat?
    split
    · rw [Option.some.injEq, Coord.eq_iff_val]
    · have := offset.val_le
      simp only [reduceCtorEq, false_iff]
      omega
  obtain ⟨_, hpos, -, -⟩ := exists_lineStart h offset
  by_cases hline : line = .zero
  · simp only [offset?, if_pos hline, reduceCtorEq, false_iff]
    rintro ⟨-, hl, -⟩
    rw [hline, Coord.val_zero] at hl
    omega
  · have hline : 0 < line.val := Nat.pos_of_ne_zero fun hz => hline (Coord.eq_of_val_eq hz)
    simp only [offset?, if_neg ‹line ≠ .zero›, Option.bind_eq_bind, Option.bind_eq_some_iff]
    constructor
    · rintro ⟨s, hs, o, ho, hend⟩
      split at hend
      · next hle =>
        obtain rfl := Option.some.inj hend
        have hsum := (hnum _).1 ho
        obtain ⟨hlen, hupper⟩ := (le_lineEnd_iff h).1 hle
        have hso : s ≤ o := Coord.le_def.2 (by omega)
        have hlower := (lt_linesUpTo_iff h).2 ⟨s, hs, hso⟩
        exact ⟨hlen, by omega, s, hs, hsum⟩
      · contradiction
    · rintro ⟨hlen, hlines, s, hs, hsum⟩
      refine ⟨s, hs, offset, (hnum _).2 hsum, if_pos ((le_lineEnd_iff h).2 ⟨hlen, ?_⟩)⟩
      omega

/-- The position of an offset within the text: its line, and how far behind the start of it. -/
theorem position_of_le {offset : Coord} (ho : offset.val ≤ text.length) :
    ∃ s, (ofText text).starts[(ofText text).linesUpTo offset - 1]? = some s ∧ s ≤ offset ∧
      (ofText text).position offset =
        ⟨.sat ((ofText text).linesUpTo offset), offset.down s, offset⟩ := by
  obtain ⟨s, -, hs, hle⟩ := exists_lineStart h offset
  refine ⟨s, hs, hle, ?_⟩
  rw [position, clamp_of_le h ho]
  simp only [hs, Option.getD_some]

/-- Past the end the table answers as at the end. -/
theorem position_sat_min (offset : Coord) :
    (ofText text).position (.sat (min offset.val text.length)) = (ofText text).position offset := by
  have hplace : (ofText text).clamp offset = .sat (min offset.val text.length) := by
    have hval := val_clamp_ofText h offset
    rw [List.length_take] at hval
    exact (Coord.sat_val _).symm.trans (congrArg Coord.sat hval)
  have hle : (Coord.sat (min offset.val text.length)).val ≤ text.length := by
    rw [Coord.val_sat]
    omega
  rw [position, position, clamp_of_le h hle, hplace]

/-- There is nothing on lines that the text does not have. -/
theorem offset?_eq_none_of_missing {line column : Coord}
    (hline : line = .zero ∨ (ofText text).lineCount < line.val) :
    (ofText text).offset? line column = none := by
  rw [Option.eq_none_iff_forall_ne_some]
  intro offset hoffset
  obtain ⟨-, hlines, -⟩ := (offset?_eq_some_iff_start h).1 hoffset
  obtain ⟨_, hpos, -, -⟩ := exists_lineStart h offset
  have hle := (ofText text).linesUpTo_le offset
  rcases hline with rfl | hline
  · rw [Coord.val_zero] at hlines
    omega
  · omega

/-- A newline ends its line: all that lies behind it is on later ones. -/
theorem linesUpTo_lt_of_newline {offset later : Coord}
    (hnewline : text[offset.val]? = some newline) (hlt : offset < later) :
    (ofText text).linesUpTo offset < (ofText text).linesUpTo later := by
  obtain ⟨hlen, hget⟩ := List.getElem?_eq_some_iff.1 hnewline
  have hmem : Coord.sat (offset.val + 1) ∈ (ofText text).starts := by
    rw [ofText, ← List.take_append_drop offset.val text, newlineEnds_append,
      List.drop_eq_getElem_cons hlen, hget, newlineEnds, if_pos rfl,
      List.length_take_of_le (Nat.le_of_lt hlen), Nat.zero_add]
    exact List.mem_cons_of_mem _ (List.mem_append_right _ List.mem_cons_self)
  obtain ⟨i, hi⟩ := List.mem_iff_getElem?.1 hmem
  have hstart : (Coord.sat (offset.val + 1)).val = offset.val + 1 := by
    rw [Coord.val_sat]
    omega
  have hnot : ¬i < (ofText text).linesUpTo offset := by
    rw [lt_linesUpTo_iff h]
    rintro ⟨s, hs, hle⟩
    obtain rfl := Option.some.inj (hi.symm.trans hs)
    rw [Coord.le_def, hstart] at hle
    omega
  have hlater : i < (ofText text).linesUpTo later := by
    refine (lt_linesUpTo_iff h).2 ⟨_, hi, ?_⟩
    rw [Coord.le_def, hstart]
    exact hlt
  omega

theorem val_line_position {offset : Coord} (ho : offset.val ≤ text.length)
    (hnumbered : (ofText text).Numbered offset) :
    ((ofText text).position offset).line.val = (ofText text).linesUpTo offset := by
  obtain ⟨s, -, -, hp⟩ := position_of_le h ho
  rw [hp, Coord.val_sat]
  exact Nat.min_eq_left hnumbered

/-- Where the line has a number, the two look-ups undo each other. -/
theorem offset?_eq_some_iff {line column offset : Coord} :
    (ofText text).offset? line column = some offset ↔ offset.val ≤ text.length ∧
      ((ofText text).position offset).line = line ∧
        ((ofText text).position offset).column = column ∧ (ofText text).Numbered offset := by
  rw [offset?_eq_some_iff_start h]
  refine and_congr_right fun ho => ?_
  obtain ⟨start, hstart, hle, hp⟩ := position_of_le h ho
  rw [Coord.le_def] at hle
  have hcolumn : ((ofText text).position offset).column = column ↔
      start.val + column.val = offset.val := by
    rw [hp, Coord.eq_iff_val, Coord.val_down]
    omega
  constructor
  · rintro ⟨hline, s, hs, hsum⟩
    rw [← hline, hstart] at hs
    obtain rfl := Option.some.inj hs
    have hnumbered : (ofText text).Numbered offset := by
      rw [Numbered, hline]
      exact line.val_le
    have hval := val_line_position h ho hnumbered
    exact ⟨Coord.eq_of_val_eq (hval.trans hline), hcolumn.2 hsum, hnumbered⟩
  · rintro ⟨rfl, hsum, hnumbered⟩
    have hline := val_line_position h ho hnumbered
    exact ⟨hline.symm, start, hline ▸ hstart, hcolumn.1 hsum⟩

/-- The line of a newline has no column past it. -/
theorem offset?_eq_none_of_newline {offset column : Coord}
    (hnewline : text[offset.val]? = some newline)
    (hcolumn : ((ofText text).position offset).column < column) :
    (ofText text).offset? ((ofText text).position offset).line column = none := by
  have hlength := (List.getElem?_eq_some_iff.1 hnewline).1
  have hnumbered : (ofText text).Numbered offset :=
    (numbered_or_end h offset).resolve_right fun hend => by omega
  have hhere := (offset?_eq_some_iff h).2 ⟨Nat.le_of_lt hlength, rfl, rfl, hnumbered⟩
  obtain ⟨-, hline, s, hs, hsum⟩ := (offset?_eq_some_iff_start h).1 hhere
  rw [Option.eq_none_iff_forall_ne_some]
  intro later hlater
  obtain ⟨-, hline', s', hs', hsum'⟩ := (offset?_eq_some_iff_start h).1 hlater
  obtain rfl := Option.some.inj (hs.symm.trans hs')
  rw [Coord.lt_def] at hcolumn
  have hbehind : offset < later := Coord.lt_def.2 (by omega)
  have hlt := linesUpTo_lt_of_newline h hnewline hbehind
  omega

end

/-- The way from the offsets of a text to lines and columns and the way back undo each other; no
other line or column leads to an offset, and no step on the way back leaves its range. This takes a
line with a number, and of all texts that fit a single one, that of `Coord.limit` newlines, has
a line without one, at its end. -/
theorem offset?_position_inverse {text : Bytes} (h : text.length ≤ Coord.limit) :
    let t := ofText text
    (∀ line column offset : Coord, t.offset? line column = some offset ↔
      offset.val ≤ text.length ∧ (t.position offset).line = line ∧
        (t.position offset).column = column ∧ t.Numbered offset) ∧
    (∀ offset : Coord, t.Numbered offset ∨
      offset.val = Coord.limit ∧ text = List.replicate Coord.limit newline) ∧
    (∀ offset : Coord, t.Numbered offset →
      t.offset? (t.position offset).line (t.position offset).column =
        some (.sat (min offset.val text.length))) ∧
    (∀ line column : Coord, line = .zero ∨ t.lineCount < line.val →
      t.offset? line column = none) ∧
    (∀ last column : Coord, text[last.val]? = some newline → (t.position last).column < column →
      t.offset? (t.position last).line column = none) ∧
    (∀ (i : Nat) (next : Coord), t.starts[i + 1]? = some next →
      next.minus .one = .ok (next.down .one)) ∧
    ∀ p : Position, (t.locate? p).isSome = (t.offset? p.line p.column).isSome ∧
      ∀ q, t.locate? p = some q → q = t.position q.offset := by
  intro t
  have hiff (line column offset : Coord) := @offset?_eq_some_iff text h line column offset
  refine ⟨hiff, numbered_or_end h, ?clamped, fun _ _ => offset?_eq_none_of_missing h,
    fun _ _ => offset?_eq_none_of_newline h, ?range, ?located⟩
  case clamped =>
    intro offset hnumbered
    have hle : Coord.sat (min offset.val text.length) ≤ offset := by
      rw [Coord.le_def, Coord.val_sat]
      omega
    have hhere : t.Numbered (.sat (min offset.val text.length)) :=
      Nat.le_trans (linesUpTo_mono h hle) hnumbered
    rw [← position_sat_min h offset, hiff, Coord.val_sat]
    exact ⟨by omega, rfl, rfl, hhere⟩
  case range =>
    intro i next hnext
    have hpos := (bounds_of_getElem?_succ h hnext).1
    rw [Coord.minus, if_neg]
    rw [Coord.lt_def, Coord.val_one]
    omega
  case located =>
    intro p
    refine ⟨Option.isSome_map, ?_⟩
    intro q hq
    obtain ⟨offset, ho, rfl⟩ := Option.map_eq_some_iff.1 hq
    obtain ⟨hle, hline, hcolumn, -⟩ := (hiff _ _ _).1 ho
    obtain ⟨s, -, -, hp⟩ := position_of_le h hle
    change _ = (ofText text).position offset
    rw [← hline, ← hcolumn, hp]

/-- The lines `a`, nothing and `b`: the second holds its newline alone. -/
theorem offset?_position_inverse_of_empty_line :
    let t := ofText [97, 10, 10, 98]
    4 ≤ Coord.limit ∧ t.offset? (.sat 2) .zero = some (.sat 2) ∧
      t.offset? (.sat 2) .one = none ∧ t.offset? (.sat 3) .one = some (.sat 4) ∧
      t.offset? (.sat 4) .zero = none ∧
      t.locate? ⟨.sat 3, .zero, .zero⟩ = some ⟨.sat 3, .zero, .sat 3⟩ := by
  intro t
  obtain ⟨hiff, -, hclamped, hmissing, hpast, -, -⟩ :=
    @offset?_position_inverse [97, 10, 10, 98] (by decide)
  refine ⟨by decide, ?_, ?_, ?_, ?_, by decide⟩
  · exact (hiff _ _ _).2 (by decide)
  · exact hpast (.sat 2) .one rfl (by decide)
  · exact hclamped (.sat 9) (by decide)
  · exact hmissing _ _ (.inr (by decide))

/-- In a text of as many newlines as there are numbers for lines, the position at the end has the
line and the column of the last newline, and the way back leads to that. -/
theorem offset?_position_newlines :
    let t := ofText Position.newlines
    Position.newlines.length ≤ Coord.limit ∧
      t.position (.sat Coord.limit) = ⟨.sat Coord.limit, .zero, .sat Coord.limit⟩ ∧
      t.offset? (.sat Coord.limit) .zero = some (.sat (Coord.limit - 1)) ∧
      ¬∀ text : Bytes, text.length ≤ Coord.limit → ∀ line column offset : Coord,
        (ofText text).offset? line column = some offset ↔ offset.val ≤ text.length ∧
          ((ofText text).position offset).line = line ∧
            ((ofText text).position offset).column = column := by
  intro t
  have hlength : Position.newlines.length = Coord.limit := List.length_replicate
  have hfits : Position.newlines.length ≤ Coord.limit := Nat.le_of_eq hlength
  have hend : t.position (.sat Coord.limit) = _ := (position_ofText hfits _).trans
    (Position.ofOffset_newlines (Nat.le_succ _) (Nat.le_refl _))
  have hlast : t.position (.sat (Coord.limit - 1)) = _ := (position_ofText hfits _).trans
    (Position.ofOffset_newlines (i := Coord.limit - 1) (by decide) (by decide))
  have hnumbered : t.Numbered (.sat (Coord.limit - 1)) := by
    refine Nat.le_trans (linesUpTo_le_count hfits _) ?_
    rw [Position.newlines, List.take_replicate, List.count_replicate_self]
    decide
  have hback : t.offset? (.sat Coord.limit) .zero = some (.sat (Coord.limit - 1)) := by
    refine (offset?_eq_some_iff hfits).2 ⟨?_, ?_, ?_, hnumbered⟩
    · rw [hlength]
      decide
    · rw [hlast]
    · rw [hlast]
  refine ⟨hfits, hend, hback, ?_⟩
  intro h
  have hclaimed := (h Position.newlines hfits (.sat Coord.limit) .zero (.sat Coord.limit)).2
    ⟨Nat.le_of_eq hlength.symm, by rw [hend], by rw [hend]⟩
  rw [hback] at hclaimed
  exact absurd hclaimed (by decide)

end EditLex.LineTable
