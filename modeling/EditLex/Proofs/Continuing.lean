import EditLex.Proofs.PlainReader
import EditLex.Proofs.RunningPosition

/-!
A reader stopped and taken up again. While it looks ahead, its source stands as far on as the window
reaches, whatever is done with it (`Lookahead.Leads`). What it will answer depends on nothing but
the bytes it has left and their place, so any reader of the same bytes at the same place goes on as
it would have (`Lookahead.Reads.continues`), and the position is all that has to be kept of it.
-/
namespace EditLex.Lookahead
variable {σ τ : Type} [Producer σ] [Producer τ]

/-- The window begins at `place` and the source stands at its end. The input comes to an end, and
there is room for a pull. -/
structure Leads (s : Lookahead σ) (place : Position) : Prop where
  pulls : 0 < s.pullSize
  room : s.pullSize ≤ bufferLimit
  holds : ∃ rest, s.source.Holds rest
  behind : s.source.position = place.advance s.window

/-- The byte found next is the first of the window. -/
theorem peek_eq_window (s : Lookahead σ) : s.peek.1 = s.peek.2.window[0]? := by
  unfold peek nth
  rw [if_neg (by decide)]
  split
  · next b h => exact h.symm
  · rfl

namespace Leads
variable {s : Lookahead σ} {place : Position}

theorem fill (h : s.Leads place) (need : Nat) : (s.fill need).Leads place ∧
    (need ≤ (s.fill need).window.length ∨ (s.fill need).source.ended = true) := by
  obtain ⟨rest, hrest⟩ := h.holds
  obtain ⟨rest', hg, hn⟩ := hrest.pullAtLeast h.pulls (need - s.window.length)
  rw [Lookahead.fill, if_neg (Nat.not_lt.2 h.room)]
  refine ⟨⟨h.pulls, h.room, ⟨rest', hg.holds⟩, ?_⟩, ?_⟩
  · rw [hg.position, h.behind, Position.advance_append]
  · rw [List.length_append]
    rcases hn with hn | ⟨-, he⟩
    · exact .inl (by omega)
    · exact .inr he

theorem nth (h : s.Leads place) (n : Nat) : (s.nth n).2.Leads place ∧
    (n < maxCount → n + 1 ≤ (s.nth n).2.window.length ∨ (s.nth n).2.source.ended = true) := by
  unfold Lookahead.nth
  split
  · next hn => exact ⟨h, fun hlt => absurd hlt (Nat.not_lt.2 hn)⟩
  · split
    · next b hb => exact ⟨h, fun _ => .inl (List.getElem?_eq_some_iff.1 hb).1⟩
    · exact ⟨(h.fill (n + 1)).1, fun _ => (h.fill (n + 1)).2⟩

/-- The first byte of the window is let go; the position of the reader does not matter. -/
theorem drop (h : s.Leads place) {b : UInt8} {w : Bytes} (hw : s.window = b :: w)
    (position : Position) :
    ({ s with window := w, position } : Lookahead σ).Leads (place.advance [b]) where
  pulls := h.pulls
  room := h.room
  holds := h.holds
  behind := by
    show s.source.position = _
    rw [h.behind, hw, ← Position.advance_append, List.singleton_append]

/-- Without a next byte the input has ended. -/
theorem peek_none (h : s.Leads place) {t : Lookahead σ} (hp : s.peek = (none, t)) :
    t.Leads place ∧ t.source.ended = true := by
  obtain ⟨ht, hstop⟩ := h.nth 0
  have hw := s.peek_eq_window
  rw [show s.nth 0 = (none, t) from hp] at ht hstop
  rw [hp] at hw
  refine ⟨ht, (hstop (by decide)).resolve_left ?_⟩
  exact Nat.not_le.2 (Nat.lt_succ_of_le (List.getElem?_eq_none_iff.1 hw.symm))

theorem peek_some (h : s.Leads place) {t : Lookahead σ} {b : UInt8} (hp : s.peek = (some b, t)) :
    t.Leads place ∧ t.window = b :: t.window.tail := by
  have ht := (h.nth 0).1
  have hw := s.peek_eq_window
  rw [show s.nth 0 = (some b, t) from hp] at ht
  rw [hp] at hw
  refine ⟨ht, ?_⟩
  cases hwindow : t.window with
  | nil => simp [hwindow] at hw
  | cons c w => simp_all

theorem take (h : s.Leads s.position) :
    s.take.2.Leads s.take.2.position ∧ (s.take.1 = none → s.take.2.source.ended = true) := by
  have hpos := position_nth s 0
  unfold Lookahead.take
  split
  · next t hp =>
    obtain ⟨ht, he⟩ := h.peek_none hp
    rw [show s.nth 0 = (none, t) from hp] at hpos
    exact ⟨hpos ▸ ht, fun _ => he⟩
  · next b t hp =>
    obtain ⟨ht, hw⟩ := h.peek_some hp
    rw [show s.nth 0 = (some b, t) from hp] at hpos
    refine ⟨?_, fun hn => nomatch hn⟩
    rw [← hpos] at ht
    exact ht.drop hw _

theorem takeIf (h : s.Leads s.position) (b : UInt8) :
    (s.takeIf b).2.Leads (s.takeIf b).2.position ∧
      ((s.takeIf b).1 = false →
        1 ≤ (s.takeIf b).2.window.length ∨ (s.takeIf b).2.source.ended = true) := by
  obtain ⟨ht, hstop⟩ := h.nth 0
  have hpeek : s.peek.2.Leads s.peek.2.position := (position_nth s 0).symm ▸ ht
  unfold Lookahead.takeIf
  dsimp only
  split
  · exact ⟨hpeek.take.1, fun hf => nomatch hf⟩
  · exact ⟨hpeek, fun _ => hstop (by decide)⟩

/-- Gathering moves the window over the bytes it takes, and the position not at all. -/
theorem gatherUpTo (p : Test) (fuel memory : Nat) {taken : Bytes}
    (h : s.Leads (place.advance taken.reverse)) :
    let r := Lookahead.gatherUpTo p fuel memory taken s
    r.2.Leads (place.advance r.1.reverse) ∧
      (r.1.length < taken.length + fuel → 1 ≤ r.2.window.length ∨ r.2.source.ended = true) := by
  dsimp only
  induction fuel generalizing s memory taken with
  | zero => exact ⟨h, fun hlt => absurd hlt (Nat.lt_irrefl _)⟩
  | succ fuel ih =>
    rw [Lookahead.gatherUpTo]
    split
    · next t hp =>
      obtain ⟨ht, he⟩ := h.peek_none hp
      exact ⟨ht, fun _ => .inr he⟩
    · next b t hp =>
      obtain ⟨ht, hw⟩ := h.peek_some hp
      split
      · refine ⟨ht, fun _ => .inl ?_⟩
        rw [hw]
        exact Nat.succ_pos _
      · have hnext := ht.drop hw t.position
        rw [← Position.advance_append, ← List.reverse_cons] at hnext
        obtain ⟨hu, hstop⟩ := ih _ hnext
        refine ⟨hu, fun hlt => hstop ?_⟩
        rw [List.length_cons]
        omega

theorem takeWhileUpTo (h : s.Leads s.position) (p : Test) (fuel : Nat) :
    let r := s.takeWhileUpTo fuel p
    r.2.Leads r.2.position ∧
      (r.1.length < fuel → 1 ≤ r.2.window.length ∨ r.2.source.ended = true) := by
  have hstart : s.Leads (s.position.advance ([] : Bytes).reverse) := by simpa using h
  obtain ⟨ht, hstop⟩ := hstart.gatherUpTo p fuel 0
  have hpos := position_gatherUpTo p fuel 0 [] s
  unfold Lookahead.takeWhileUpTo
  refine ⟨⟨ht.pulls, ht.room, ht.holds, ?_⟩, ?_⟩
  · dsimp only
    rw [hpos]
    exact ht.behind
  · simpa using hstop

/-- Whatever is done, the source stays ahead by the window. -/
theorem performUpTo (h : s.Leads s.position) (fuel : Nat) (op : Op) :
    (s.performUpTo fuel op).2.Leads (s.performUpTo fuel op).2.position := by
  have hnth (n : Nat) (a : Answer) :
      (s.settle (s.nth n).2 (if n < maxCount then n + 1 else 0) a).2.Leads
        (s.settle (s.nth n).2 (if n < maxCount then n + 1 else 0) a).2.position := by
    obtain ⟨ht, hstop⟩ := h.nth n
    rw [settle_of_enough ht.room s]
    · exact (position_nth s n).symm ▸ ht
    · split
      · exact hstop (by assumption)
      · exact .inl (Nat.zero_le _)
  cases op with
  | peek => exact hnth 0 _
  | nth n => exact hnth n _
  | take =>
    obtain ⟨ht, he⟩ := h.take
    simp only [Lookahead.performUpTo]
    rw [settle_of_enough ht.room s]
    · exact ht
    · split
      · exact .inl (Nat.zero_le _)
      · next hn => exact .inr (he (by simpa using hn))
  | takeIf b =>
    obtain ⟨ht, hstop⟩ := h.takeIf b
    simp only [Lookahead.performUpTo]
    rw [settle_of_enough ht.room s]
    · exact ht
    · split
      · exact .inl (Nat.zero_le _)
      · next hn => exact hstop (by simpa using hn)
  | takeWhile p =>
    obtain ⟨ht, hstop⟩ := h.takeWhileUpTo p fuel
    simp only [Lookahead.performUpTo]
    rw [settle_of_enough ht.room s]
    · exact ht
    · split
      · exact hstop (by assumption)
      · exact .inl (Nat.zero_le _)
  | atEnd => exact hnth 0 _

theorem performAllUpTo (h : s.Leads s.position) (fuel : Nat) (ops : List Op) :
    (performAllUpTo fuel ops s).2.Leads (performAllUpTo fuel ops s).2.position := by
  induction ops generalizing s with
  | nil => exact h
  | cons op ops ih => exact ih (h.performUpTo fuel op)

end Leads

/-- Without room for a pull nothing ever comes into the window, and nothing moves. -/
theorem performUpTo_of_lt_pullSize {s : Lookahead σ} (h : bufferLimit < s.pullSize)
    (hw : s.window = []) (fuel : Nat) (op : Op) : (s.performUpTo fuel op).2 = s := by
  have hnth (n : Nat) : s.nth n = (none, s) := by simp [nth, fill, h, hw]
  have hpeek : s.peek = (none, s) := hnth 0
  have htake : s.take = (none, s) := by simp [take, hpeek]
  have htakeIf (b : UInt8) : s.takeIf b = (false, s) := by simp [takeIf, hpeek]
  have hwhile (p : Test) : s.takeWhileUpTo fuel p = ([], s) := by
    cases fuel <;> simp [takeWhileUpTo, gatherUpTo, hpeek]
  have hsettle (need : Nat) (a : Answer) : (s.settle s need a).2 = s := by
    simp only [settle, if_pos h]
    split <;> rfl
  cases op with
  | peek => simp only [performUpTo, hpeek, hsettle]
  | nth n => simp only [performUpTo, hnth, hsettle]
  | take => simp only [performUpTo, htake, hsettle]
  | takeIf b => simp only [performUpTo, htakeIf, hsettle]
  | takeWhile p => simp only [performUpTo, hwhile, hsettle]
  | atEnd => simp only [performUpTo, atEnd, hpeek, hsettle]

theorem performAllUpTo_of_lt_pullSize {s : Lookahead σ} (h : bufferLimit < s.pullSize)
    (hw : s.window = []) (fuel : Nat) (ops : List Op) : (performAllUpTo fuel ops s).2 = s := by
  induction ops with
  | nil => rfl
  | cons op ops ih =>
    simp only [performAllUpTo, performUpTo_of_lt_pullSize h hw fuel op]
    exact ih

/-- Whatever the size of the pulls, there being room for them or not. -/
theorem position_source_performAllUpTo {source : Source σ} {content : Bytes}
    (h : source.Holds content) (pullSize fuel : Nat) (ops : List Op) :
    let stopped := (performAllUpTo fuel ops (ofSource source pullSize)).2
    stopped.source.position = stopped.position.advance stopped.window := by
  dsimp only
  by_cases hroom : max pullSize 1 ≤ bufferLimit
  · have hleads : (ofSource source pullSize).Leads (ofSource source pullSize).position :=
      ⟨Nat.lt_of_lt_of_le Nat.one_pos (Nat.le_max_right _ _), hroom, ⟨content, h⟩, by
        simp [ofSource]⟩
    exact (hleads.performAllUpTo fuel ops).behind
  · rw [performAllUpTo_of_lt_pullSize (Nat.not_le.1 hroom) rfl]
    simp [ofSource]

/-- The bytes that operations have taken, as their answers tell. With a fault none is taken. -/
def takenBy (ops : List Op) (answers : List (Except Fault Answer)) : Bytes :=
  (List.zipWith (fun op answer => (answer.toOption.map op.taken).getD []) ops answers).flatten

namespace Plain

/-- What an operation leaves is what was left, without the bytes that it has taken. -/
theorem drop_perform (r : Plain) (op : Op) : r.content.drop r.taken =
    op.taken (r.perform op).1 ++ r.content.drop (r.perform op).2.taken := by
  have hcons {b : UInt8} (hb : r.content[r.taken]? = some b) :
      r.content.drop r.taken = [b] ++ r.content.drop (r.taken + 1) := by
    obtain ⟨hlt, rfl⟩ := List.getElem?_eq_some_iff.1 hb
    exact List.drop_eq_getElem_cons hlt
  cases op with
  | take =>
    simp only [perform]
    split
    · next b hb => exact hcons hb
    · rfl
  | takeIf b =>
    simp only [perform]
    split
    · next hb => exact hcons hb
    · rfl
  | takeWhile p =>
    have hspan := List.prefix_iff_eq_append.1 (p.span_prefix 0 (r.content.drop r.taken))
    rw [List.drop_drop] at hspan
    exact hspan.symm
  | _ => rfl

/-- Operations leave what was left, without all the bytes that they have taken. -/
theorem drop_performAll (r : Plain) (ops : List Op) : r.content.drop r.taken =
    takenBy ops ((performAll ops r).1.map .ok) ++ r.content.drop (performAll ops r).2.taken := by
  induction ops generalizing r with
  | nil => rfl
  | cons op ops ih =>
    have hrest := ih (r.perform op).2
    rw [r.content_perform op] at hrest
    rw [r.drop_perform op, hrest, ← List.append_assoc]
    rfl

/-- The plain reader of what a passage holds. -/
theorem passage_mk (v : Passage) : (⟨v.bytes, 0⟩ : Plain).passage v.place = v := v.skip_zero

end Plain

/-- Whatever is asked of them, `t` answers as `s` does and comes to the same positions. -/
def Continues (fuel : Nat) (s : Lookahead σ) (t : Lookahead τ) : Prop :=
  ∀ ops, (performAllUpTo fuel ops t).1 = (performAllUpTo fuel ops s).1 ∧
    (performAllUpTo fuel ops t).2.position = (performAllUpTo fuel ops s).2.position

/-- Readers of the same bytes at the same place go on alike. -/
theorem Reads.continues {s : Lookahead σ} {t : Lookahead τ} {v : Passage} (hs : s.Reads v)
    (ht : t.Reads v) {fuel : Nat} (hf : v.bytes.length < fuel) : s.Continues fuel t := by
  intro ops
  have hplain := Plain.passage_mk v
  obtain ⟨s', hrun, hs'⟩ := Reads.performAllUpTo (hplain.symm ▸ hs) hf ops
  obtain ⟨t', hrun', ht'⟩ := Reads.performAllUpTo (hplain.symm ▸ ht) hf ops
  rw [hrun, hrun']
  exact ⟨rfl, ht'.position.trans hs'.position.symm⟩

/-- The source of a reader is always ahead of it by just the bytes in the window. Wherever a reader
has stopped, the bytes it has not taken are read as it would have gone on to read them by any reader
that begins at its position: over a new source, or over its own source moved back, with the same
bytes to come in any chunks. -/
theorem continues_from_position {source : Source σ} {content : Bytes} (h : source.Holds content)
    (pullSize : Nat) {fuel : Nat} (hf : content.length < fuel) (ops : List Op) :
    let run := performAllUpTo fuel ops (ofSource source pullSize)
    let stopped := run.2
    let taken := takenBy ops run.1
    stopped.source.position = stopped.position.advance stopped.window ∧
    (content.length + max pullSize 1 ≤ bufferLimit →
      (∃ answers : List Answer, run.1 = answers.map .ok) ∧ taken <+: content ∧
      ∀ initial text, initial ++ text = content.drop taken.length →
      ∀ size, (initial ++ text).length + max size 1 ≤ bufferLimit →
        (∀ (τ : Type) [Producer τ] (producer : τ), Producer.Brings producer text →
          stopped.Continues fuel (ofSource (.beginAt initial producer stopped.position) size)) ∧
        (Producer.Brings stopped.source.producer text →
          stopped.Continues fuel
            (ofSource (stopped.source.restart stopped.position initial) size))) := by
  intro run stopped taken
  refine ⟨position_source_performAllUpTo h pullSize fuel ops, ?_⟩
  intro hroom
  obtain ⟨t, hrun, ht⟩ := (Plain.reads_ofSource h hroom).performAllUpTo hf ops
  have hstopped : stopped = t := congrArg Prod.snd hrun
  have hanswers : run.1 = (Plain.performAll ops ⟨content, 0⟩).1.map .ok := congrArg Prod.fst hrun
  have hsplit := Plain.drop_performAll ⟨content, 0⟩ ops
  have hcontent := (Plain.performAll_invariant (r := ⟨content, 0⟩) (Nat.zero_le _) ops).1
  generalize Plain.performAll ops ⟨content, 0⟩ = plain at ht hanswers hsplit hcontent
  have hsplit : content = taken ++ content.drop plain.2.taken := by
    show content = takenBy ops run.1 ++ _
    rw [hanswers]
    exact hsplit
  have hrest : content.drop taken.length = content.drop plain.2.taken :=
    (congrArg (List.drop taken.length) hsplit).trans List.drop_left
  have hbytes : (plain.2.passage source.position).bytes = content.drop taken.length := by
    rw [Plain.bytes_passage, hcontent, hrest]
  generalize plain.2.passage source.position = v at ht hbytes
  rw [hstopped]
  refine ⟨⟨plain.1, hanswers⟩, ⟨_, hsplit.symm⟩, ?_⟩
  intro initial text hjoin size hsize
  rw [← hjoin] at hbytes
  have hfuel : v.bytes.length < fuel := by
    rw [hbytes, hjoin, List.length_drop]
    omega
  have hcontinues {τ : Type} [Producer τ] {s : Source τ} (hs : s.Holds (initial ++ text))
      (hpos : s.position = t.position) : t.Continues fuel (ofSource s size) := by
    have hresumed := Reads.ofSource hs hsize
    rw [hpos, ht.position, ← hbytes] at hresumed
    exact ht.continues hresumed hfuel
  constructor
  · intro τ _ producer hbrings
    exact hcontinues (Source.holds_beginAt hbrings initial t.position) rfl
  · rintro ⟨chunks, after, hdelivers, rfl⟩
    exact hcontinues ⟨chunks, ⟨after, hdelivers⟩, rfl⟩ rfl

/-- `aé`, newline, `b`, stopped behind the first letter with half of the second in the window, and
taken up again over other chunks, or from its own source. -/
theorem continues_from_position_before_letter :
    let source : Source Replies := .ofText [97, 0xC3, 0xA9, 10, 98] ⟨[]⟩
    let stopped := (performAllUpTo 6 [.take, .peek] (ofSource source 1)).2
    let place : Position := ⟨.one, .one, .one⟩
    let rest : Bytes := [0xC3, 0xA9, 10, 98]
    let ops : List Op := [.takeWhile (.ofPredicate (· ≠ 98)), .atEnd, .take, .atEnd]
    let answers : List (Except Fault Answer) :=
      [.ok (.bytes [0xC3, 0xA9, 10]), .ok (.flag false), .ok (.byte (some 98)), .ok (.flag true)]
    let moved := performAllUpTo 6 ops (ofSource (.beginAt [] (Slices.ofText rest 1) place) 3)
    let back := performAllUpTo 6 ops (ofSource (stopped.source.restart place rest) 2)
    (source.Holds [97, 0xC3, 0xA9, 10, 98] ∧ 5 < 6 ∧ 5 + max 1 1 ≤ bufferLimit ∧
        4 + max 3 1 ≤ bufferLimit ∧ Producer.Brings (Slices.ofText rest 1) rest ∧
        Producer.Brings stopped.source.producer []) ∧
      (stopped.position = place ∧ stopped.source.position = place.advance [0xC3]) ∧
      (moved.1 = answers ∧ back.1 = answers) ∧
      moved.2.position = ⟨.sat 2, .one, .sat 5⟩ ∧ back.2.position = ⟨.sat 2, .one, .sat 5⟩ := by
  intro source stopped place rest ops answers moved back
  have hnone : Producer.Brings (⟨[]⟩ : Replies) [] := ⟨[], _, .ended rfl rfl, rfl⟩
  have hholds : source.Holds [97, 0xC3, 0xA9, 10, 98] := Source.holds_beginAt hnone _ .start
  have hslices := Slices.brings_ofText rest 1
  have hplace : stopped.position = place := by
    simp only [stopped, source, place]
    cbv
  have hahead : stopped.source.position = place.advance [0xC3] := by
    simp only [stopped, source, place]
    cbv
  have hproducer : stopped.source.producer = ⟨[]⟩ := by
    simp only [stopped, source]
    cbv
  have hrun : (performAllUpTo 6 ops stopped).1 = answers ∧
      (performAllUpTo 6 ops stopped).2.position = ⟨.sat 2, .one, .sat 5⟩ := by
    simp only [ops, answers, stopped, source]
    constructor <;> cbv
  have htaken : takenBy [.take, .peek] (performAllUpTo 6 [.take, .peek] (ofSource source 1)).1 =
      [97] := by
    simp only [source]
    cbv
  obtain ⟨-, hcontinues⟩ := continues_from_position hholds 1 (by decide : 5 < 6) [.take, .peek]
  obtain ⟨-, -, hcontinues⟩ := hcontinues (by decide)
  rw [htaken, hplace] at hcontinues
  have hspent : Producer.Brings stopped.source.producer [] := by
    rw [hproducer]
    exact hnone
  have hmoved : stopped.Continues 6 (ofSource (.beginAt [] (Slices.ofText rest 1) place) 3) :=
    (hcontinues [] rest rfl 3 (by decide)).1 Slices _ hslices
  have hback : stopped.Continues 6 (ofSource (stopped.source.restart place rest) 2) :=
    (hcontinues rest [] rfl 2 (by decide)).2 hspent
  obtain ⟨hanswers, hend⟩ := hrun
  simp only [moved, back, ← hanswers, ← hend]
  exact ⟨⟨hholds, by decide, by decide, by decide, hslices, hspent⟩, ⟨hplace, hahead⟩,
    ⟨(hmoved ops).1, (hback ops).1⟩, (hmoved ops).2, (hback ops).2⟩

end EditLex.Lookahead
