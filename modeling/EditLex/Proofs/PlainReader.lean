import EditLex.Lookahead.Op
import EditLex.Proofs.Reading

/-!
A reader that looks ahead answers like a plain one, which holds the whole content and counts the
bytes taken (`Lookahead.performAllUpTo_eq_plain`). One operation is followed step by step
(`Lookahead.Reads.performUpTo`), and a run is the induction over it.
-/
namespace EditLex.Lookahead

/-- A reader of bytes that are all there, of which `taken` have been taken. -/
structure Plain where
  content : Bytes
  taken : Nat
  deriving DecidableEq

namespace Plain

def skip (r : Plain) (n : Nat) : Plain := { r with taken := r.taken + n }

def perform (r : Plain) : Op → Answer × Plain
  | .peek => (.byte r.content[r.taken]?, r)
  | .nth n => (.byte r.content[r.taken + n]?, r)
  | .take =>
    match r.content[r.taken]? with
    | some b => (.byte (some b), r.skip 1)
    | none => (.byte none, r)
  | .takeIf b => if r.content[r.taken]? = some b then (.flag true, r.skip 1) else (.flag false, r)
  | .takeWhile p =>
    let taken := p.span 0 (r.content.drop r.taken)
    (.bytes taken, r.skip taken.length)
  | .atEnd => (.flag (decide (r.content.length ≤ r.taken)), r)

def performAll : List Op → Plain → List Answer × Plain
  | [], r => ([], r)
  | op :: ops, r =>
    let (answer, r) := r.perform op
    let (answers, r) := performAll ops r
    (answer :: answers, r)

/-- Also for a predicate that goes by all the bytes it was asked about, it takes those accepted. -/
theorem perform_takeWhile_ofHistory (r : Plain) (p : Bytes → UInt8 → Bool) :
    r.perform (.takeWhile (.ofHistory p)) =
      (.bytes (Test.accepted p [] (r.content.drop r.taken)),
        r.skip (Test.accepted p [] (r.content.drop r.taken)).length) := by
  rw [← Test.span_ofHistory]
  rfl

/-- What is left, if the content begins at `start`. -/
def passage (r : Plain) (start : Position) : Passage :=
  (⟨r.content, start⟩ : Passage).skip r.taken

theorem passage_skip (r : Plain) (start : Position) (n : Nat) :
    (r.skip n).passage start = (r.passage start).skip n :=
  (Passage.skip_skip _ _ _).symm

@[simp] theorem bytes_passage (r : Plain) (start : Position) :
    (r.passage start).bytes = r.content.drop r.taken := rfl

theorem getElem?_passage (r : Plain) (start : Position) (n : Nat) :
    (r.passage start).bytes[n]? = r.content[r.taken + n]? := by
  rw [bytes_passage, List.getElem?_drop]

theorem content_perform (r : Plain) (op : Op) : (r.perform op).2.content = r.content := by
  cases op <;> simp only [perform] <;> (try split) <;> rfl

/-- No operation takes more bytes than there are. -/
theorem taken_perform_le {r : Plain} (h : r.taken ≤ r.content.length) (op : Op) :
    (r.perform op).2.taken ≤ r.content.length := by
  have hlt {b : UInt8} (hb : r.content[r.taken]? = some b) : r.taken + 1 ≤ r.content.length :=
    (List.getElem?_eq_some_iff.1 hb).1
  cases op with
  | take =>
    simp only [perform]
    split
    · next b hb => exact hlt hb
    · exact h
  | takeIf b =>
    simp only [perform]
    split
    · next hb => exact hlt hb
    · exact h
  | takeWhile p =>
    have hl := (p.span_prefix 0 (r.content.drop r.taken)).length_le
    rw [List.length_drop] at hl
    simp only [perform, skip]
    omega
  | _ => exact h

theorem performAll_invariant {r : Plain} (h : r.taken ≤ r.content.length) (ops : List Op) :
    (performAll ops r).2.content = r.content ∧ (performAll ops r).2.taken ≤ r.content.length := by
  induction ops generalizing r with
  | nil => exact ⟨rfl, h⟩
  | cons op ops ih =>
    have hc := r.content_perform op
    have := ih (r := (r.perform op).2) (hc ▸ taken_perform_le h op)
    rw [hc] at this
    exact this

end Plain

variable {σ : Type} [Producer σ]

omit [Producer σ] in
/-- There is no fault where there is room for each pull: a short window means an ended input. -/
theorem settle_of_enough {α : Type} {t : Lookahead σ} (hp : t.pullSize ≤ bufferLimit)
    (s : Lookahead σ) {need : Nat} (hn : need ≤ t.window.length ∨ t.source.ended = true)
    (answer : α) : s.settle t need answer = (.ok answer, t) := by
  unfold Lookahead.settle
  split
  · rfl
  · next hlt => rw [if_neg (Nat.not_lt.2 hp), if_pos (hn.resolve_left hlt)]

theorem Shows.settle {α : Type} {t : Lookahead σ} {v : Passage} (h : t.Shows v) (s : Lookahead σ)
    {need : Nat} (hn : need ≤ t.window.length ∨ t.source.ended = true) (answer : α) :
    s.settle t need answer = (.ok answer, t) :=
  settle_of_enough h.pullSize_le s hn answer

/-- Looking ahead does not fault. -/
theorem Shows.settle_nth {α : Type} {s : Lookahead σ} {v : Passage} (h : s.Shows v) (n : Nat)
    (answer : α) :
    s.settle (s.nth n).2 (if n < maxCount then n + 1 else 0) answer =
      (.ok answer, (s.nth n).2) := by
  obtain ⟨-, ht, hn⟩ := h.nth n
  apply ht.settle s
  split
  · next hlt => exact (hn hlt).imp_right And.right
  · exact .inl (Nat.zero_le _)

/-- The operation answers as it does for the plain reader, and leaves the bytes that this leaves. -/
def Agrees (s : Lookahead σ) (fuel : Nat) (r : Plain) (start : Position) (op : Op) : Prop :=
  ∃ t, s.performUpTo fuel op = (.ok (r.perform op).1, t) ∧
    t.Reads ((r.perform op).2.passage start)

namespace Reads
variable {s : Lookahead σ} {r : Plain} {start : Position} (h : s.Reads (r.passage start))
  (fuel : Nat)
include h

theorem agrees_nth (n : Nat) : s.Agrees fuel r start (.nth n) := by
  obtain ⟨hb, ht⟩ := h.nth n
  refine ⟨(s.nth n).2, ?_, ht⟩
  simp only [Lookahead.performUpTo, h.toShows.settle_nth n, hb, r.getElem?_passage start n]
  rfl

theorem agrees_take : s.Agrees fuel r start .take := by
  obtain ⟨hb, ht, he⟩ := h.take
  rw [r.getElem?_passage start 0, Nat.add_zero] at hb
  refine ⟨s.take.2, ?_, ?_⟩
  · simp only [Lookahead.performUpTo]
    rw [ht.settle]
    · simp only [Plain.perform, hb]
      split <;> simp_all
    · split
      · exact .inl (Nat.zero_le _)
      · next hn => exact .inr (he (by simpa using hn))
  · simp only [Plain.perform]
    split
    · rwa [Plain.passage_skip]
    · next hn =>
      have hl : r.content.drop r.taken = [] :=
        List.drop_eq_nil_of_le (List.getElem?_eq_none_iff.1 hn)
      have hskip : (r.passage start).skip 1 = r.passage start := by
        simp [Passage.skip, hl, Plain.passage]
      rwa [hskip] at ht

theorem agrees_takeIf (b : UInt8) : s.Agrees fuel r start (.takeIf b) := by
  obtain ⟨hb, ht, he⟩ := h.takeIf b
  rw [r.getElem?_passage start 0, Nat.add_zero] at hb ht
  refine ⟨(s.takeIf b).2, ?_, ?_⟩
  · simp only [Lookahead.performUpTo]
    rw [ht.settle]
    · simp only [Plain.perform, hb]
      split <;> simp_all
    · cases hc : (s.takeIf b).1 with
      | true => exact .inl (Nat.zero_le _)
      | false => exact he hc
  · simp only [Plain.perform]
    split
    · next hb =>
      rw [if_pos hb] at ht
      rwa [Plain.passage_skip]
    · next hb => rwa [if_neg hb, Passage.skip_zero] at ht

theorem agrees_takeWhile {fuel : Nat} (hf : r.content.length < fuel) (p : Test) :
    s.Agrees fuel r start (.takeWhile p) := by
  have hl : (r.passage start).bytes.length < fuel := by
    rw [Plain.bytes_passage, List.length_drop]
    omega
  obtain ⟨hb, ht, he⟩ := h.takeWhileUpTo p hl
  refine ⟨(s.takeWhileUpTo fuel p).2, ?_, ?_⟩
  · simp only [Lookahead.performUpTo]
    rw [ht.settle, hb]
    · rfl
    · split
      · exact he
      · exact .inl (Nat.zero_le _)
  · rwa [Plain.perform, Plain.passage_skip]

theorem agrees_atEnd : s.Agrees fuel r start .atEnd := by
  obtain ⟨hb, ht⟩ := h.nth 0
  have hend : (s.nth 0).1.isNone = decide (r.content.length ≤ r.taken) := by
    rw [hb, r.getElem?_passage start 0, Bool.eq_iff_iff, Option.isNone_iff_eq_none,
      List.getElem?_eq_none_iff, decide_eq_true_iff, Nat.add_zero]
  refine ⟨(s.nth 0).2, ?_, ht⟩
  simp only [Lookahead.performUpTo, Lookahead.atEnd, Lookahead.peek, hend]
  exact h.toShows.settle_nth 0 _

end Reads

/-- One operation of a reader that stands where a plain reader stands. -/
theorem Reads.performUpTo {s : Lookahead σ} {r : Plain} {start : Position}
    (h : s.Reads (r.passage start)) {fuel : Nat} (hf : r.content.length < fuel) (op : Op) :
    s.Agrees fuel r start op := by
  cases op with
  | peek => exact h.agrees_nth fuel 0
  | nth n => exact h.agrees_nth fuel n
  | take => exact h.agrees_take fuel
  | takeIf b => exact h.agrees_takeIf fuel b
  | takeWhile p => exact h.agrees_takeWhile hf p
  | atEnd => exact h.agrees_atEnd fuel

/-- A run of a reader that stands where a plain reader stands. -/
theorem Reads.performAllUpTo {s : Lookahead σ} {r : Plain} {start : Position}
    (h : s.Reads (r.passage start)) {fuel : Nat} (hf : r.content.length < fuel) (ops : List Op) :
    ∃ t, Lookahead.performAllUpTo fuel ops s = ((Plain.performAll ops r).1.map .ok, t) ∧
      t.Reads ((Plain.performAll ops r).2.passage start) := by
  induction ops generalizing s r with
  | nil => exact ⟨s, rfl, h⟩
  | cons op ops ih =>
    obtain ⟨t, hp, ht⟩ := h.performUpTo hf op
    obtain ⟨u, hps, hu⟩ := ih ht (by rwa [r.content_perform op])
    exact ⟨u, by simp only [Lookahead.performAllUpTo, hp, hps]; rfl, hu⟩

/-- A fresh reader stands where the plain reader of its source's bytes begins. -/
theorem Plain.reads_ofSource {source : Source σ} {content : Bytes} (h : source.Holds content)
    {pullSize : Nat} (hr : content.length + max pullSize 1 ≤ bufferLimit) :
    (ofSource source pullSize).Reads ((⟨content, 0⟩ : Plain).passage source.position) := by
  rw [Plain.passage, Passage.skip_zero]
  exact .ofSource h hr

/-- Over a producer that ends, no bound is needed. -/
theorem Reads.perform {σ : Type} [Bounded σ] {s : Lookahead σ} {r : Plain} {start : Position}
    (h : s.Reads (r.passage start)) (op : Op) :
    ∃ t, s.perform op = (.ok (r.perform op).1, t) ∧ t.Reads ((r.perform op).2.passage start) := by
  have hleft : s.left < s.left + r.content.length + 1 := by omega
  have hcontent : r.content.length < s.left + r.content.length + 1 := by omega
  rw [perform_eq_performUpTo hleft op]
  exact h.performUpTo hcontent op

/-- Over a producer that ends, a run answers like the plain reader, and leaves the bytes that this
leaves. -/
theorem Reads.performAll {σ : Type} [Bounded σ] {s : Lookahead σ} {r : Plain} {start : Position}
    (h : s.Reads (r.passage start)) (ops : List Op) :
    ∃ t, Lookahead.performAll ops s = ((Plain.performAll ops r).1.map .ok, t) ∧
      t.Reads ((Plain.performAll ops r).2.passage start) := by
  induction ops generalizing s r with
  | nil => exact ⟨s, rfl, h⟩
  | cons op ops ih =>
    obtain ⟨t, hp, ht⟩ := h.perform op
    obtain ⟨u, hps, hu⟩ := ih ht
    exact ⟨u, by simp only [Lookahead.performAll, hp, hps]; rfl, hu⟩

/-- The reader stands where the plain reader has come to: its position is the start moved across the
bytes taken, and its window and its source hold all the others, in order. The window has room for
one more pull. -/
structure StandsAt (s : Lookahead σ) (r : Plain) (start : Position) : Prop where
  taken_le : r.taken ≤ r.content.length
  position : s.position = start.advance (r.content.take r.taken)
  holds : ∃ rest, s.source.Holds rest ∧ s.window ++ rest = r.content.drop r.taken
  room : s.window.length + s.pullSize ≤ bufferLimit

theorem Reads.standsAt {s : Lookahead σ} {r : Plain} {start : Position}
    (h : s.Reads (r.passage start)) (htaken : r.taken ≤ r.content.length) :
    s.StandsAt r start := by
  obtain ⟨rest, hrest, hsplit⟩ := h.holds
  refine ⟨htaken, h.position, ⟨rest, hrest, hsplit.symm⟩, ?_⟩
  calc s.window.length + s.pullSize
      ≤ (s.window ++ rest).length + s.pullSize := by
        rw [List.length_append]
        omega
    _ ≤ bufferLimit := hsplit ▸ h.room

/-- Whatever the chunks and the size of the pulls, a reader over a source of finitely many bytes
answers each operation like the plain reader of these bytes, and stands where that does
(`StandsAt`). The predicates of `takeWhile` may go by all that they were asked before. Over a
producer that ends, the operations need no bound. -/
theorem performAllUpTo_eq_plain {producer after : σ} {chunks : List Bytes}
    (hd : Producer.Delivers producer chunks after) (initial : Bytes) (start : Position)
    (pullSize fuel : Nat) (hs : max pullSize 1 + (initial ++ chunks.flatten).length ≤ bufferLimit)
    (hf : (initial ++ chunks.flatten).length < fuel) (ops : List Op) :
    let content := initial ++ chunks.flatten
    let run := performAllUpTo fuel ops (ofSource (.beginAt initial producer start) pullSize)
    let plain := Plain.performAll ops ⟨content, 0⟩
    plain.2.content = content ∧
      (run.1 = plain.1.map .ok ∧ run.2.StandsAt plain.2 start) ∧
      (∀ (p : Bytes → UInt8 → Bool) (r : Plain),
        let taken := Test.accepted p [] (r.content.drop r.taken)
        r.perform (.takeWhile (.ofHistory p)) = (.bytes taken, r.skip taken.length)) ∧
      ∀ (τ : Type) [Bounded τ] (source : Source τ), source.Holds content →
        source.position = start →
        let run := performAll ops (ofSource source pullSize)
        run.1 = plain.1.map .ok ∧ run.2.StandsAt plain.2 start := by
  intro content run plain
  have hroom : content.length + max pullSize 1 ≤ bufferLimit := by rwa [Nat.add_comm]
  have hsource : (Source.beginAt initial producer start).Holds content :=
    ⟨chunks, ⟨after, hd⟩, rfl⟩
  obtain ⟨hcontent, htaken⟩ :=
    Plain.performAll_invariant (r := ⟨content, 0⟩) (Nat.zero_le _) ops
  have htaken : plain.2.taken ≤ plain.2.content.length := hcontent.symm ▸ htaken
  refine ⟨hcontent, ?_, fun p r => r.perform_takeWhile_ofHistory p, ?_⟩
  · obtain ⟨t, hrun, ht⟩ := (Plain.reads_ofSource hsource hroom).performAllUpTo hf ops
    have hrun' : run = (plain.1.map .ok, t) := hrun
    rw [hrun']
    exact ⟨rfl, Reads.standsAt ht htaken⟩
  · rintro τ _ source hholds rfl
    obtain ⟨t, hrun, ht⟩ := (Plain.reads_ofSource hholds hroom).performAll ops
    rw [hrun]
    exact ⟨rfl, ht.standsAt htaken⟩

/-- A window of two bytes over the chunks `ab`, newline, `c`: the look past the end leaves it
intact. -/
theorem performAllUpTo_over_three_chunks :
    let producer : Replies := ⟨[[97, 98], [10], [99]]⟩
    let ops : List Op := [.nth 9, .take, .takeWhile (.ofPredicate (· ≠ 99)), .takeIf 98, .atEnd]
    let run := performAllUpTo 9 ops (ofSource (.beginAt [] producer .start) 2)
    run.1 = [.ok (.byte none), .ok (.byte (some 97)), .ok (.bytes [98, 10]), .ok (.flag false),
        .ok (.flag false)] ∧
      run.2.position = ⟨.sat 2, .zero, .sat 3⟩ := by
  have hd : Producer.Delivers (⟨[[97, 98], [10], [99]]⟩ : Replies) [[97, 98], [10], [99]] ⟨[]⟩ :=
    .more rfl (by decide) (.more rfl (by decide) (.more rfl (by decide) (.ended rfl rfl)))
  obtain ⟨-, ⟨ha, hstands⟩, -⟩ := performAllUpTo_eq_plain hd [] .start 2 9 (by decide) (by decide)
    [.nth 9, .take, .takeWhile (.ofPredicate (· ≠ 99)), .takeIf 98, .atEnd]
  exact ⟨ha.trans rfl, hstands.position.trans rfl⟩

end EditLex.Lookahead
