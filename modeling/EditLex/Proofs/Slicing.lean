import EditLex.Proofs.Boundaries
import EditLex.Proofs.Delivery

/-!
Slices of a text. Each ends at the first boundary of characters from its size on, as a search from
byte to byte finds it (`Utf8.boundaryFrom`, `Slices.take_cut`); no character is longer than four
bytes, so that is at most three bytes on. The slices are a text each, and they come out of a
producer in their order (`Slices.pieces_shortest`).
-/
namespace EditLex

namespace Utf8

/-- The first boundary of `text` from `i` on, looked for byte by byte, but not past the end. -/
def boundaryFrom (text : Bytes) (i : Nat) : Nat :=
  if isBoundary text i = true ∨ text.length ≤ i then i else boundaryFrom text (i + 1)
termination_by text.length - i

theorem isBoundary_length (text : Bytes) : isBoundary text text.length = true := by
  simp [isBoundary]

theorem isBoundary_of_lt {text : Bytes} {i : Nat} (h : i < text.length) (hi : 0 < i) :
    isBoundary text i = !isContinuation text[i] := by
  have hne : (i == 0) = false := beq_eq_false_iff_ne.2 (Nat.ne_of_gt hi)
  rw [isBoundary, hne, List.getElem?_eq_getElem h, Bool.false_or]

theorem le_boundaryFrom (text : Bytes) (i : Nat) : i ≤ boundaryFrom text i := by
  fun_induction boundaryFrom text i with
  | case1 => exact Nat.le_refl _
  | case2 i _ ih => exact Nat.le_of_succ_le ih

/-- The search never passes a boundary. -/
theorem boundaryFrom_le {text : Bytes} {i j : Nat} (hij : i ≤ j) (hj : isBoundary text j = true) :
    boundaryFrom text i ≤ j := by
  fun_induction boundaryFrom text i with
  | case1 => exact hij
  | case2 i hi ih =>
    have hne : i ≠ j := by
      rintro rfl
      exact hi (.inl hj)
    exact ih (by omega)

/-- The search from within the text finds a boundary. -/
theorem isBoundary_boundaryFrom {text : Bytes} {i : Nat} (h : i ≤ text.length) :
    isBoundary text (boundaryFrom text i) = true := by
  fun_induction boundaryFrom text i with
  | case1 i hi =>
    rcases hi with hi | hi
    · exact hi
    · rw [Nat.le_antisymm h hi]
      exact isBoundary_length text
  | case2 i hi ih => exact ih (Nat.lt_of_not_le fun hle => hi (.inr hle))

/-- The search passes continuation bytes, and these alone. -/
theorem boundaryFrom_eq_add {text : Bytes} {i : Nat} (hi : 0 < i) (h : i ≤ text.length) :
    boundaryFrom text i = i + ((text.drop i).takeWhile isContinuation).length := by
  fun_induction boundaryFrom text i with
  | case1 i hstop =>
    have hnone : (text.drop i).takeWhile isContinuation = [] := by
      rcases Nat.lt_or_ge i text.length with hlt | hge
      · have hbyte := hstop.resolve_right (Nat.not_le.2 hlt)
        rw [isBoundary_of_lt hlt hi] at hbyte
        rw [List.drop_eq_getElem_cons hlt, List.takeWhile_cons_of_neg (by simpa using hbyte)]
      · rw [List.drop_eq_nil_of_le hge, List.takeWhile_nil]
    rw [hnone, List.length_nil, Nat.add_zero]
  | case2 i hgo ih =>
    obtain ⟨hbyte, hle⟩ := not_or.1 hgo
    have hlt : i < text.length := Nat.lt_of_not_le hle
    rw [isBoundary_of_lt hlt hi] at hbyte
    rw [ih (Nat.succ_pos i) hlt, List.drop_eq_getElem_cons hlt,
      List.takeWhile_cons_of_pos (by simpa using hbyte), List.length_cons]
    omega

/-- From everywhere in a text it is at most three bytes to the end of a character. -/
theorem exists_valid_take {text : Bytes} (h : Valid text) {i : Nat} (hi : i ≤ text.length) :
    ∃ j, i ≤ j ∧ j ≤ i + 3 ∧ j ≤ text.length ∧ Valid (text.take j) := by
  obtain ⟨chars, rfl⟩ := valid_iff.1 h
  clear h
  induction chars generalizing i with
  | nil =>
    refine ⟨i, Nat.le_refl i, Nat.le_add_right i 3, hi, ?_⟩
    rw [List.flatMap_nil, List.take_nil]
    exact valid_nil
  | cons char chars ih =>
    rw [List.flatMap_cons, List.length_append] at hi
    have hlength := String.length_utf8EncodeChar char
    have hsize := char.utf8Size_le_four
    rw [List.flatMap_cons]
    by_cases hzero : i = 0
    · exact ⟨0, by omega, by omega, Nat.zero_le _, valid_nil⟩
    by_cases hin : i ≤ (String.utf8EncodeChar char).length
    · refine ⟨(String.utf8EncodeChar char).length, hin, by omega, ?_, ?_⟩
      · rw [List.length_append]
        omega
      · rw [List.take_left]
        exact valid_encode char
    · have hrest : i - (String.utf8EncodeChar char).length ≤
          (chars.flatMap String.utf8EncodeChar).length := by omega
      obtain ⟨j, hij, hj, hlen, hvalid⟩ := ih hrest
      refine ⟨(String.utf8EncodeChar char).length + j, by omega, by omega, ?_, ?_⟩
      · rw [List.length_append]
        omega
      · rw [List.take_length_add_append]
        exact ((valid_encode char).append_iff _).2 hvalid

theorem boundaryFrom_le_add_three {text : Bytes} (h : Valid text) {i : Nat} (hi : i ≤ text.length) :
    boundaryFrom text i ≤ i + 3 := by
  obtain ⟨j, hij, hj, hlen, hvalid⟩ := exists_valid_take h hi
  have hboundary := (isBoundary_iff_valid_take h).2 ⟨hlen, hvalid⟩
  exact Nat.le_trans (boundaryFrom_le hij hboundary) hj

end Utf8

namespace Producer
variable {σ : Type}

theorem Delivers.cons [Producer σ] {s rest t : σ} {chunk : Bytes} {chunks : List Bytes}
    {events : List Event} (room : hasRoom s = true) (hnext : next s = ⟨chunk, rest, events⟩)
    (hchunk : chunk ≠ []) (h : Delivers rest chunks t) : Delivers s (chunk :: chunks) t := by
  obtain rfl : (next s).chunk = chunk := by rw [hnext]
  obtain rfl : (next s).rest = rest := by rw [hnext]
  exact .more room hchunk h

theorem chunksUpTo_of_delivers [Producer σ] {s t : σ} {chunks : List Bytes}
    (h : Delivers s chunks t) {n : Nat} (hn : chunks.length ≤ n) : chunksUpTo n s = chunks := by
  induction h generalizing n with
  | ended _ empty => cases n <;> simp [chunksUpTo, empty]
  | more _ nonempty _ ih =>
    obtain ⟨n, rfl⟩ := Nat.exists_eq_add_one.2 (Nat.lt_of_lt_of_le (Nat.succ_pos _) hn)
    rw [chunksUpTo, if_neg (mt List.isEmpty_iff.1 nonempty), ih (Nat.le_of_succ_le_succ hn)]

theorem Delivers.length_le [Bounded σ] {s t : σ} {chunks : List Bytes} (h : Delivers s chunks t) :
    chunks.length ≤ Bounded.left s := by
  induction h with
  | ended => exact Nat.zero_le _
  | @more s _ _ _ nonempty _ ih =>
    have hleft := Bounded.left_next s
    have hlength := List.length_pos_iff.2 nonempty
    rw [List.length_cons]
    omega

/-- What a producer delivers are all its chunks. -/
theorem chunks_of_delivers [Bounded σ] {s t : σ} {chunks : List Bytes} (h : Delivers s chunks t) :
    Producer.chunks s = chunks :=
  chunksUpTo_of_delivers h h.length_le

end Producer

theorem Pieces.delivers {items : List Bytes} (h : ∀ item ∈ items, item ≠ []) :
    Producer.Delivers (⟨items⟩ : Pieces) items ⟨[]⟩ := by
  induction items with
  | nil => exact .ended rfl rfl
  | cons item items ih =>
    obtain ⟨hitem, hitems⟩ := List.forall_mem_cons.1 h
    have hnext : Producer.next (⟨item :: items⟩ : Pieces) = ⟨item, ⟨items⟩, []⟩ :=
      if_neg (mt List.isEmpty_iff.1 hitem)
    exact .cons rfl hnext hitem (ih hitems)

namespace Slices

/-- Where the first slice of a text ends: at the first boundary from its size on, or with the
text. -/
def stop (size : Nat) (text : Bytes) : Nat :=
  Utf8.boundaryFrom text (min (max size 1) text.length)

theorem stop_pos (size : Nat) {text : Bytes} (h : text ≠ []) : 0 < stop size text := by
  have hlength := List.length_pos_iff.2 h
  have hle := Utf8.le_boundaryFrom text (min (max size 1) text.length)
  rw [stop]
  omega

/-- The slices of a text, each up to the boundary that a search has found. -/
def pieces (size : Nat) (text : Bytes) : List Bytes :=
  if _h : text = [] then []
  else text.take (stop size text) :: pieces size (text.drop (stop size text))
termination_by text.length
decreasing_by
  have hpos := stop_pos size _h
  have hlength := List.length_pos_iff.2 _h
  rw [List.length_drop]
  omega

/-- A producer of slices cuts where the search for a boundary ends. -/
theorem take_cut (size : Nat) {text : Bytes} (h : text ≠ []) :
    text.take (ofText text size).cut = text.take (stop size text) ∧
      text.drop (ofText text size).cut = text.drop (stop size text) := by
  have hlength := List.length_pos_iff.2 h
  have hstart : 0 < min (max size 1) text.length := by omega
  have hstop := Utf8.boundaryFrom_eq_add hstart (Nat.min_le_right _ _)
  rw [← stop] at hstop
  simp only [cut, ofText]
  by_cases hsize : max size 1 ≤ text.length
  · rw [Nat.min_eq_left hsize] at hstop
    rw [hstop]
    exact ⟨rfl, rfl⟩
  · have hend : text.length ≤ stop size text := by omega
    have hcut : text.length ≤
        max size 1 + ((text.drop (max size 1)).takeWhile Utf8.isContinuation).length := by omega
    rw [List.take_of_length_le hcut, List.take_of_length_le hend, List.drop_eq_nil_of_le hcut,
      List.drop_eq_nil_of_le hend]
    exact ⟨rfl, rfl⟩

theorem delivers_pieces (size : Nat) (text : Bytes) :
    Producer.Delivers (ofText text size) (pieces size text) ⟨[], max size 1⟩ := by
  fun_induction pieces size text with
  | case1 =>
    have hended := Producer.Delivers.ended (s := ofText [] size) rfl (by rw [ofText, next_nil])
    rwa [ofText, next_nil] at hended
  | case2 text htext ih =>
    obtain ⟨htake, hdrop⟩ := take_cut size htext
    have hnext : Producer.next (ofText text size) =
        ⟨text.take (stop size text), ofText (text.drop (stop size text)) size, []⟩ := by
      rw [← htake, ← hdrop]
      rfl
    have hpos := stop_pos size htext
    refine .cons rfl hnext ?_ ih
    rw [Ne, List.take_eq_nil_iff]
    rintro (hzero | hnil)
    · omega
    · exact htext hnil

theorem flatten_pieces (size : Nat) (text : Bytes) : (pieces size text).flatten = text := by
  fun_induction pieces size text with
  | case1 => rfl
  | case2 text _ ih => rw [List.flatten_cons, ih, List.take_append_drop]

theorem valid_stop (size : Nat) {text : Bytes} (h : Utf8.Valid text) :
    Utf8.Valid (text.take (stop size text)) ∧ Utf8.Valid (text.drop (stop size text)) := by
  have hboundary := Utf8.isBoundary_boundaryFrom (Nat.min_le_right (max size 1) text.length)
  obtain ⟨-, htake⟩ := (Utf8.isBoundary_iff_valid_take h).1 hboundary
  rw [← List.take_append_drop (stop size text) text] at h
  exact ⟨htake, (htake.append_iff _).1 h⟩

/-- Each slice is the first one of what is left of the text. -/
theorem exists_rest {size : Nat} {text : Bytes} (h : Utf8.Valid text) {front back : List Bytes}
    {piece : Bytes} (hpieces : pieces size text = front ++ piece :: back) :
    ∃ rest, rest ≠ [] ∧ Utf8.Valid rest ∧ piece = rest.take (stop size rest) ∧
      back = pieces size (rest.drop (stop size rest)) := by
  induction front generalizing text with
  | nil =>
    rw [pieces] at hpieces
    split at hpieces
    · contradiction
    · next htext =>
      obtain ⟨hpiece, hback⟩ := List.cons.inj hpieces
      exact ⟨text, htext, h, hpiece.symm, hback.symm⟩
  | cons first front ih =>
    rw [pieces] at hpieces
    split at hpieces
    · contradiction
    · exact ih (valid_stop size h).2 (List.cons.inj hpieces).2

/-- A text cut into slices comes out whole, each slice a text. All but the last have the size and at
most three bytes more, and each of them is the shortest that has the size and ends between two
characters. They come from the producer in their order, as from one that passes over empty pieces,
and behind them there is nothing. -/
theorem pieces_shortest {text : Bytes} (h : Utf8.Valid text) (size : Nat) :
    let least := max size 1
    (pieces size text).flatten = text ∧
    (∀ piece ∈ pieces size text, piece ≠ [] ∧ Utf8.Valid piece) ∧
    (∀ front piece back, pieces size text = front ++ piece :: back → back ≠ [] →
      least ≤ piece.length ∧ piece.length ≤ least + 3 ∧
        Utf8.Between (piece ++ back.flatten) piece.length ∧
        ∀ n, least ≤ n → Utf8.Between (piece ++ back.flatten) n → piece.length ≤ n) ∧
    Producer.chunks (ofText text size) = pieces size text ∧
    Producer.Delivers (ofText text size) (pieces size text) ⟨[], least⟩ ∧
    Producer.next (⟨[], least⟩ : Slices) = ⟨[], ⟨[], least⟩, []⟩ ∧
    Producer.Delivers (⟨pieces size text⟩ : Pieces) (pieces size text) ⟨[]⟩ ∧
    Producer.next (⟨[]⟩ : Pieces) = ⟨[], ⟨[]⟩, []⟩ := by
  intro least
  have hdelivers := delivers_pieces size text
  refine ⟨flatten_pieces size text, ?texts, ?shortest, Producer.chunks_of_delivers hdelivers,
    hdelivers, next_nil least, Pieces.delivers fun _ => hdelivers.nonempty, rfl⟩
  case texts =>
    intro piece hpiece
    obtain ⟨front, back, hpieces⟩ := List.append_of_mem hpiece
    obtain ⟨rest, -, hrest, rfl, -⟩ := exists_rest h hpieces
    exact ⟨hdelivers.nonempty hpiece, (valid_stop size hrest).1⟩
  case shortest =>
    intro front piece back hpieces hback
    obtain ⟨rest, -, hrest, rfl, rfl⟩ := exists_rest h hpieces
    have hbehind : rest.drop (stop size rest) ≠ [] := by
      intro hnil
      apply hback
      rw [hnil, pieces, dif_pos rfl]
    rw [Ne, List.drop_eq_nil_iff, Nat.not_le] at hbehind
    have hstart : min (max size 1) rest.length ≤ rest.length := Nat.min_le_right _ _
    have hlow := Utf8.le_boundaryFrom rest (min (max size 1) rest.length)
    have hhigh := Utf8.boundaryFrom_le_add_three hrest hstart
    have hstop := Utf8.isBoundary_boundaryFrom hstart
    rw [← stop] at hlow hhigh hstop
    rw [flatten_pieces, List.take_append_drop, List.length_take_of_le (Nat.le_of_lt hbehind)]
    refine ⟨by omega, by omega, (Utf8.isBoundary_iff hrest).1 hstop, ?_⟩
    intro n hn hbetween
    exact Utf8.boundaryFrom_le (by omega) ((Utf8.isBoundary_iff hrest).2 hbetween)

/-- Slices of two bytes of `a`, the euro sign and `b`: the first is cut behind the sign. -/
theorem pieces_shortest_of_euro :
    let text : Bytes := [97, 0xE2, 0x82, 0xAC, 98]
    Utf8.Valid text ∧ [[98]] ≠ ([] : List Bytes) ∧
      pieces 2 text = [] ++ [97, 0xE2, 0x82, 0xAC] :: [[98]] ∧
      [97, 0xE2, 0x82, 0xAC].length ≤ 2 + 3 ∧
      Producer.chunks (ofText text 2) = [[97, 0xE2, 0x82, 0xAC], [98]] := by
  intro text
  have htext : Utf8.Valid text := by decide
  have hpieces : pieces 2 text = [] ++ [97, 0xE2, 0x82, 0xAC] :: [[98]] := by cbv
  obtain ⟨-, -, hshortest, hchunks, -⟩ := pieces_shortest htext 2
  obtain ⟨-, hle, -⟩ := hshortest _ _ _ hpieces (by decide)
  exact ⟨htext, by decide, hpieces, hle, hchunks.trans hpieces⟩

end Slices
end EditLex
