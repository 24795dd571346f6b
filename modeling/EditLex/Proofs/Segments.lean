import EditLex.Source.Op
import EditLex.Proofs.Delivery

/-!
What a source delivers, told by segments. A segment begins where the source is made, moved or
restarted; what has been pulled in it is held against its first bytes and the chunks that the
producer has answered with since. The producer itself keeps the record of those chunks (`Recorded`),
and the source is what it would be without (`Source.bare_run`).
-/
namespace EditLex

/-- A producer that keeps what each call came to, oldest first. -/
structure Recorded (σ : Type) where
  inner : σ
  calls : List (Except Fault Bytes) := []

namespace Recorded
variable {σ : Type} [Producer σ]

/-- What the next call comes to: a chunk, unless there is no room for one. -/
def outcome (r : Recorded σ) : Except Fault Bytes :=
  let chunk := (Producer.next r.inner).chunk
  if chunk.isEmpty && !Producer.hasRoom r.inner then .error .noRoom else .ok chunk

instance : Producer (Recorded σ) where
  next r :=
    let d := Producer.next r.inner
    ⟨d.chunk, ⟨d.rest, r.calls ++ [r.outcome]⟩, d.events⟩
  hasRoom r := Producer.hasRoom r.inner

end Recorded

namespace Source
variable {σ : Type}

/-- What moves a source on, or to another segment. -/
inductive Act where
  | pull (n : Nat)
  | moveTo (position : Position)
  | restart (position : Position) (initial : Bytes)

/-- Takes `n` bytes of the chunk at hand. -/
def take (s : Source σ) (n : Nat) : Source σ :=
  { s with unread := s.unread.drop n, position := s.position.advance (s.unread.take n) }

/-- The source without the record of its producer. -/
def bare (s : Source (Recorded σ)) : Source σ := { s with producer := s.producer.inner }

variable [Producer σ]

def act (s : Source σ) : Act → Source σ
  | .pull n => (s.pull n).2
  | .moveTo position => s.moveTo position
  | .restart position initial => s.restart position initial

def run (s : Source σ) (acts : List Act) : Source σ := acts.foldl act s

/-- What a pull of `n` bytes answers: a fault, if there is no room for the chunk. -/
def answer (s : Source σ) (n : Nat) : Except Fault Answer :=
  let (taken, t) := s.pull n
  (t.settle (n ≠ 0 && taken.isEmpty) (.bytes taken)).1

/-- The source with a chunk at hand, if it can have one. -/
def ready (s : Source σ) : Source σ := if s.unread.isEmpty then s.load else s

/-- With a buffer of that size at hand, it is the answer of the operation. -/
theorem pull_zero (s : Source σ) : s.pull 0 = ([], s) := by
  rw [pull, if_pos rfl]

theorem pull_eq_take {n : Nat} (hn : n ≠ 0) (s : Source σ) :
    s.pull n = (s.ready.unread.take n, s.ready.take n) := by
  rw [pull, if_neg hn]
  rfl

theorem ready_of_unread {s : Source σ} (h : s.unread ≠ []) : s.ready = s := by
  rw [ready, if_neg (by simpa using h)]

theorem ready_of_ended {s : Source σ} (h : s.ended = true) : s.ready = s := by
  rw [ready, load, if_pos h, ite_self]

theorem position_ready (s : Source σ) : s.ready.position = s.position := by
  unfold ready
  split
  · exact s.position_load
  · rfl

theorem answer_eq_nil_iff {n : Nat} (hn : n ≠ 0) (s : Source σ) :
    s.answer n = .ok (.bytes []) ↔ s.ready.unread = [] ∧ s.ready.ended = true := by
  rw [answer, pull_eq_take hn]
  by_cases hu : s.ready.unread = []
  · by_cases he : s.ready.ended = true <;> simp [settle, take, hn, hu, he]
  · simp [settle, hn, hu]

/-- A source that has not ended, with nothing unread, calls its producer once. -/
theorem ready_of_called {s : Source (Recorded σ)} (hu : s.unread = []) (he : s.ended = false) :
    s.ready.producer.calls = s.producer.calls ++ [s.producer.outcome] ∧
      s.ready.unread = s.producer.outcome.toOption.getD [] ∧
      (s.ready.ended = true ↔ s.producer.outcome = .ok []) := by
  rw [ready, if_pos (by simpa using hu), load, if_neg (by simpa using he)]
  simp only [ask, Recorded.outcome, Producer.next, Producer.hasRoom]
  by_cases hc : (Producer.next s.producer.inner).chunk = []
  · by_cases hr : Producer.hasRoom s.producer.inner = true <;>
      simp [hc, hr, hu, he, Except.toOption]
  · simp [hc, he, Except.toOption]

theorem bare_load (s : Source (Recorded σ)) : s.bare.load = s.load.bare := by
  by_cases he : s.ended = true
  · simp [load, bare, he]
  · by_cases hc : (Producer.next s.producer.inner).chunk = []
    · by_cases hr : Producer.hasRoom s.producer.inner = true <;>
        simp [load, ask, bare, Producer.next, Producer.hasRoom, he, hc, hr]
    · simp [load, ask, bare, Producer.next, he, hc]

theorem bare_pull (s : Source (Recorded σ)) (n : Nat) :
    s.bare.pull n = ((s.pull n).1, (s.pull n).2.bare) := by
  by_cases hn : n = 0
  · rw [hn, pull_zero, pull_zero]
  · have hready : s.bare.ready = s.ready.bare := by
      unfold ready
      split
      · rw [if_pos (by assumption), bare_load]
      · rw [if_neg (by assumption)]
    rw [pull_eq_take hn, pull_eq_take hn, hready]
    rfl

theorem bare_act (s : Source (Recorded σ)) (a : Act) : s.bare.act a = (s.act a).bare := by
  cases a with
  | pull n => exact congrArg Prod.snd (s.bare_pull n)
  | moveTo position => rfl
  | restart position initial => rfl

/-- The record has no part in what the source does. -/
theorem bare_run (s : Source (Recorded σ)) (acts : List Act) :
    s.bare.run acts = (s.run acts).bare := by
  induction acts generalizing s with
  | nil => rfl
  | cons a acts ih => exact (congrArg (run · acts) (s.bare_act a)).trans (ih (s.act a))

theorem bare_answer (s : Source (Recorded σ)) (n : Nat) : s.bare.answer n = s.answer n := by
  rw [answer, bare_pull]
  rfl

end Source

/-- A source in its present segment. -/
structure Segment (σ : Type) where
  source : Source (Recorded σ)
  start : Position
  initial : Bytes
  /-- How many calls of the producer came before the segment. -/
  since : Nat
  pulled : Bytes := []

namespace Segment
variable {σ : Type}

/-- The segment that begins with `source`. -/
def ofSource (source : Source (Recorded σ)) (start : Position) (initial : Bytes) : Segment σ :=
  { source, start, initial, since := source.producer.calls.length }

def beginAt (initial : Bytes) (producer : σ) (start : Position) : Segment σ :=
  ofSource (.beginAt initial ⟨producer, []⟩ start) start initial

/-- The calls made in the segment. -/
def calls (w : Segment σ) : List (Except Fault Bytes) := w.source.producer.calls.drop w.since

/-- The chunks that the producer answered with. -/
def replies (w : Segment σ) : List Bytes := w.calls.filterMap Except.toOption

/-- The first bytes, and the replies up to the first empty one. -/
def chunks (w : Segment σ) : List Bytes := w.initial :: w.replies.takeWhile (!·.isEmpty)

/-- The last of the chunks. -/
def current (w : Segment σ) : Bytes := w.chunks.getLast (List.cons_ne_nil _ _)

def content (w : Segment σ) : Bytes := w.chunks.flatten

def take (w : Segment σ) (n : Nat) : Segment σ :=
  { w with source := w.source.take n, pulled := w.pulled ++ w.source.unread.take n }

/-- The account of a segment: its content is what has been pulled and, within the last chunk, what
is unread. -/
structure Accounted (w : Segment σ) : Prop where
  since : w.since ≤ w.source.producer.calls.length
  content : w.content = w.pulled ++ w.source.unread
  unread : w.source.unread <:+ w.current
  position : w.source.position = w.start.advance w.pulled
  ended : w.source.ended = true ↔ [] ∈ w.replies
  spent : w.source.ended = true → w.source.unread = []

theorem Accounted.ofSource {source : Source (Recorded σ)} {initial : Bytes} {start : Position}
    (hu : source.unread = initial) (he : source.ended = false) (hp : source.position = start) :
    (ofSource source start initial).Accounted where
  since := Nat.le_refl _
  content := by simp [Segment.ofSource, Segment.content, chunks, replies, calls, hu]
  unread := by simp [Segment.ofSource, current, chunks, replies, calls, hu]
  position := by simp [Segment.ofSource, hp]
  ended := by simp [Segment.ofSource, replies, calls, he]
  spent := by simp [Segment.ofSource, he]

theorem Accounted.take {w : Segment σ} (h : w.Accounted) (n : Nat) : (w.take n).Accounted where
  since := h.since
  content := by
    show w.content = (w.pulled ++ _) ++ w.source.unread.drop n
    rw [h.content, List.append_assoc, List.take_append_drop]
  unread := (List.drop_suffix n _).trans h.unread
  position := by
    show w.source.position.advance _ = w.start.advance (w.pulled ++ _)
    rw [h.position, Position.advance_append]
  ended := h.ended
  spent he := by
    show w.source.unread.drop n = []
    rw [h.spent he, List.drop_nil]

theorem Accounted.pulled_eq_iff {w : Segment σ} (h : w.Accounted) :
    w.pulled = w.content ↔ w.source.unread = [] := by
  rw [h.content, List.self_eq_append_right]

/-- Where all is delivered and the input goes on, the next chunk is due. -/
theorem Accounted.due {w : Segment σ} (h : w.Accounted)
    (hc : w.pulled = w.content ∧ [] ∉ w.replies) :
    w.source.unread = [] ∧ w.source.ended = false := by
  refine ⟨h.pulled_eq_iff.1 hc.1, Bool.eq_false_iff.2 ?_⟩
  intro he
  exact hc.2 (h.ended.1 he)

variable [Producer σ]

def act (w : Segment σ) (a : Source.Act) : Segment σ :=
  let source := w.source.act a
  match a with
  | .pull n => { w with source, pulled := w.pulled ++ (w.source.pull n).1 }
  | .moveTo position => ofSource source position []
  | .restart position initial => ofSource source position initial

def run (w : Segment σ) (acts : List Source.Act) : Segment σ := acts.foldl act w

/-- The same segment with a chunk at hand. -/
def ready (w : Segment σ) : Segment σ := { w with source := w.source.ready }

theorem act_pull_zero (w : Segment σ) : w.act (.pull 0) = w := by
  simp [act, Source.act, Source.pull_zero]

theorem act_pull {n : Nat} (hn : n ≠ 0) (w : Segment σ) : w.act (.pull n) = w.ready.take n := by
  simp only [act, Source.act, Source.pull_eq_take hn]
  rfl

theorem source_run (w : Segment σ) (acts : List Source.Act) :
    (w.run acts).source = w.source.run acts := by
  induction acts generalizing w with
  | nil => rfl
  | cons a acts ih =>
    have ha : (w.act a).source = w.source.act a := by cases a <;> rfl
    exact (ih (w.act a)).trans (congrArg (Source.run · acts) ha)

namespace Accounted
variable {w : Segment σ}

/-- Unless all is delivered and the input may go on, the chunk at hand stays. -/
theorem ready_eq (h : w.Accounted) (hc : ¬(w.pulled = w.content ∧ [] ∉ w.replies)) :
    w.ready = w := by
  suffices w.source.ready = w.source by rw [Segment.ready, this]
  by_cases hu : w.source.unread = []
  · have hend : [] ∈ w.replies := by simpa [h.pulled_eq_iff, hu] using hc
    exact Source.ready_of_ended (h.ended.2 hend)
  · exact Source.ready_of_unread hu

theorem calls_ready (h : w.Accounted) :
    w.ready.calls = w.calls ++
      if w.pulled = w.content ∧ [] ∉ w.replies then [w.source.producer.outcome] else [] := by
  by_cases hc : w.pulled = w.content ∧ [] ∉ w.replies
  · obtain ⟨hu, he⟩ := h.due hc
    rw [if_pos hc]
    show w.source.ready.producer.calls.drop w.since = _
    rw [(Source.ready_of_called hu he).1, List.drop_append_of_le_length h.since]
    rfl
  · rw [if_neg hc, List.append_nil, h.ready_eq hc]

theorem replies_ready (h : w.Accounted) (hc : w.pulled = w.content ∧ [] ∉ w.replies) :
    w.ready.replies = w.replies ++ w.source.producer.outcome.toOption.toList := by
  rw [replies, h.calls_ready, if_pos hc, List.filterMap_append]
  cases w.source.producer.outcome <;> rfl

/-- While the input goes on, the answer to a call is the next chunk, unless it is empty. -/
theorem chunks_ready (h : w.Accounted) (hc : w.pulled = w.content ∧ [] ∉ w.replies) :
    w.ready.chunks =
      w.chunks ++ w.source.producer.outcome.toOption.toList.takeWhile (!·.isEmpty) := by
  have hall : ∀ chunk ∈ w.replies, (!chunk.isEmpty) = true := by
    intro chunk hm
    simpa using fun hn : chunk = [] => hc.2 (hn ▸ hm)
  have hself : w.replies.takeWhile (!·.isEmpty) = w.replies := by
    have htw := @List.takeWhile_append_of_pos _ _ _ [] hall
    simpa using htw
  rw [chunks, h.replies_ready hc, List.takeWhile_append_of_pos hall, chunks, hself]
  rfl

theorem ready (h : w.Accounted) : w.ready.Accounted := by
  by_cases hc : w.pulled = w.content ∧ [] ∉ w.replies
  · obtain ⟨hu, he⟩ := h.due hc
    obtain ⟨hcalls, hunread, hended⟩ := Source.ready_of_called hu he
    have hchunks := h.chunks_ready hc
    have hreplies := h.replies_ready hc
    refine ⟨?since, ?content, ?unread, w.source.position_ready.trans h.position, ?ended, ?spent⟩
    case since =>
      show w.since ≤ w.source.ready.producer.calls.length
      rw [hcalls, List.length_append]
      exact Nat.le_add_right_of_le h.since
    case content =>
      show w.ready.chunks.flatten = w.pulled ++ w.source.ready.unread
      rw [hchunks, hunread, hc.1, Segment.content, List.flatten_append]
      rcases w.source.producer.outcome with _ | _ | _ <;> simp [Except.toOption]
    case unread =>
      show w.source.ready.unread <:+ w.ready.chunks.getLast _
      rw [hunread]
      rcases ho : w.source.producer.outcome with _ | _ | ⟨b, chunk⟩
      · exact List.nil_suffix
      · exact List.nil_suffix
      · simp [hchunks, ho, Except.toOption]
    case ended =>
      show w.source.ready.ended = true ↔ _
      rw [hended, hreplies]
      rcases w.source.producer.outcome with _ | _ | _ <;> simp [Except.toOption, hc.2]
    case spent =>
      intro hend
      show w.source.ready.unread = []
      rw [hunread, hended.1 hend]
      rfl
  · rwa [h.ready_eq hc]

theorem act (h : w.Accounted) (a : Source.Act) : (w.act a).Accounted := by
  cases a with
  | pull n =>
    by_cases hn : n = 0
    · rwa [hn, act_pull_zero]
    · rw [act_pull hn]
      exact h.ready.take n
  | moveTo position => exact .ofSource rfl rfl rfl
  | restart position initial => exact .ofSource rfl rfl rfl

theorem run (h : w.Accounted) (acts : List Source.Act) : (w.run acts).Accounted := by
  induction acts generalizing w with
  | nil => exact h
  | cons a acts ih => exact ih (h.act a)

/-- A pull takes the front of what is unread, within the last chunk. -/
theorem split_pull (h : w.Accounted) (n : Nat) :
    ∃ before rest, (w.act (.pull n)).current = before ++ ((w.source.pull n).1 ++ rest) ∧
      (w.act (.pull n)).content = w.pulled ++ ((w.source.pull n).1 ++ rest) ∧
      (w.source.pull n).1.length = min n ((w.source.pull n).1 ++ rest).length := by
  by_cases hn : n = 0
  · subst hn
    obtain ⟨before, hb⟩ := h.unread
    rw [act_pull_zero, Source.pull_zero]
    exact ⟨before, w.source.unread, hb.symm, h.content, by simp⟩
  · rw [act_pull hn, Source.pull_eq_take hn]
    obtain ⟨before, hb⟩ := h.ready.unread
    refine ⟨before, w.source.ready.unread.drop n, ?_⟩
    rw [List.take_append_drop]
    exact ⟨hb.symm, h.ready.content, List.length_take⟩

theorem calls_pull (h : w.Accounted) (n : Nat) :
    (w.act (.pull n)).calls = w.calls ++
      if n ≠ 0 ∧ w.pulled = w.content ∧ [] ∉ w.replies then [w.source.producer.outcome]
      else [] := by
  by_cases hn : n = 0
  · rw [if_neg (fun hc => hc.1 hn), hn, act_pull_zero, List.append_nil]
  · simp only [act_pull hn, ne_eq, hn, not_false_eq_true, true_and]
    exact h.calls_ready

/-- A pull answers with no bytes only where all is delivered and the input has ended. -/
theorem answer_eq_nil_iff (h : w.Accounted) (n : Nat) :
    w.source.answer n = .ok (.bytes []) ↔
      n = 0 ∨ (w.act (.pull n)).pulled = (w.act (.pull n)).content ∧
        [] ∈ (w.act (.pull n)).replies := by
  by_cases hn : n = 0
  · simp [hn, Source.answer, Source.pull_zero, Source.settle]
  · have hr := h.ready
    have hrest := (hr.take n).pulled_eq_iff
    have hend := (hr.take n).ended
    rw [act_pull hn, Source.answer_eq_nil_iff hn, hrest, ← hend, or_iff_right hn]
    constructor
    · rintro ⟨hu, he⟩
      exact ⟨(congrArg (List.drop n) hu).trans List.drop_nil, he⟩
    · rintro ⟨-, he⟩
      exact ⟨hr.spent he, he⟩

end Accounted

/-- Whatever has been done with a source, in its present segment the bytes pulled are the front of
the content, one chunk at a time, the position has moved across just them, and the producer is
called only where all of them are delivered and it has not ended the input. -/
theorem delivers_in_order (initial : Bytes) (producer : σ) (start : Position)
    (acts : List Source.Act) (n : Nat) :
    let s : Source σ := (Source.beginAt initial producer start).run acts
    let w : Segment σ := (beginAt initial producer start).run acts
    let taken := (s.pull n).1
    let w' := w.act (.pull n)
    w.source.bare = s ∧
    (w.pulled <+: w.content ∧ w'.pulled = w.pulled ++ taken ∧
      ∃ before rest, w'.current = before ++ (taken ++ rest) ∧
        w'.content = w.pulled ++ (taken ++ rest) ∧ taken.length = min n (taken ++ rest).length) ∧
    s.position = w.start.advance w.pulled ∧
    (s.answer n = .ok (.bytes []) ↔ n = 0 ∨ w'.pulled = w'.content ∧ [] ∈ w'.replies) ∧
    w'.calls = w.calls ++
      (if n ≠ 0 ∧ w.pulled = w.content ∧ [] ∉ w.replies then [w.source.producer.outcome] else []) ∧
    w.act (.pull 0) = w := by
  intro s w taken w'
  have hs : w.source.bare = s := by
    show ((beginAt initial producer start).run acts).source.bare = s
    rw [source_run, ← Source.bare_run]
    rfl
  have h : w.Accounted := .run (.ofSource rfl rfl rfl) acts
  have ht : (w.source.pull n).1 = taken := by
    show _ = (s.pull n).1
    rw [← hs, Source.bare_pull]
  have hpulled : w'.pulled = w.pulled ++ taken := by rw [← ht]; rfl
  refine ⟨hs, ⟨⟨_, h.content.symm⟩, hpulled, ?_⟩, ?_, ?_, h.calls_pull n, act_pull_zero w⟩
  · rw [← ht]
    exact h.split_pull n
  · rw [← hs]
    exact h.position
  · rw [← hs, Source.bare_answer]
    exact h.answer_eq_nil_iff n

/-- An empty chunk ends the input until the source is moved. -/
example :
    let w := (beginAt [] (⟨[[97, 98], [], [99]]⟩ : Replies) .start).run
      [.pull 1, .pull 4, .pull 4, .pull 4]
    w.pulled = [97, 98] ∧ w.calls = [.ok [97, 98], .ok []] ∧
      ((w.act (.moveTo .start)).act (.pull 4)).calls = [.ok [99]] :=
  ⟨rfl, rfl, rfl⟩

end Segment
end EditLex
