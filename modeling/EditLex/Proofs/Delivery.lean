import EditLex.Producer.Pieces
import EditLex.Source

/-!
What a source still has to give, told from the chunks that its producer will hand out. A pull takes
its bytes from the front of that (`Source.Holds.pull`), and pulls up to a number of bytes fall short
only when nothing is left and the input has ended (`Source.Holds.pullAtLeast`).
-/
namespace EditLex

namespace Producer
variable {σ : Type} [Producer σ]

/-- Asked again and again, `s` hands out `chunks`, none of them empty, then an empty one, and is
left as `t`. There is room for each of them. -/
inductive Delivers : σ → List Bytes → σ → Prop where
  | ended {s : σ} (room : hasRoom s = true) (empty : (next s).chunk = []) :
      Delivers s [] (next s).rest
  | more {s t : σ} {chunks : List Bytes} (room : hasRoom s = true)
      (nonempty : (next s).chunk ≠ []) (rest : Delivers (next s).rest chunks t) :
      Delivers s ((next s).chunk :: chunks) t

theorem Delivers.room {s t : σ} {chunks : List Bytes} (h : Delivers s chunks t) :
    hasRoom s = true := by
  cases h <;> assumption

theorem Delivers.next_nil {s t : σ} (h : Delivers s [] t) :
    (next s).chunk = [] ∧ (next s).rest = t := by
  cases h with
  | ended _ empty => exact ⟨empty, rfl⟩

theorem Delivers.next_cons {s t : σ} {chunk : Bytes} {chunks : List Bytes}
    (h : Delivers s (chunk :: chunks) t) :
    (next s).chunk = chunk ∧ chunk ≠ [] ∧ Delivers (next s).rest chunks t := by
  cases h with
  | more _ nonempty rest => exact ⟨rfl, nonempty, rest⟩

theorem Delivers.of_next {s s' t : σ} {chunks : List Bytes} (h : Delivers s chunks t)
    (room : hasRoom s' = true) (hn : next s' = next s) : Delivers s' chunks t := by
  cases h with
  | ended _ empty => exact hn ▸ .ended room (hn ▸ empty)
  | more _ nonempty rest => exact hn ▸ .more room (hn ▸ nonempty) (hn ▸ rest)

theorem Delivers.nonempty {s t : σ} {chunks : List Bytes} (h : Delivers s chunks t) {chunk : Bytes}
    (hc : chunk ∈ chunks) : chunk ≠ [] := by
  induction h with
  | ended _ _ => exact absurd hc List.not_mem_nil
  | more _ nonempty _ ih =>
    rcases List.mem_cons.1 hc with rfl | hc
    · exact nonempty
    · exact ih hc

/-- Its chunks join to `text`, with room for each of them, and then the input ends. -/
def Brings (producer : σ) (text : Bytes) : Prop :=
  ∃ chunks after, Delivers producer chunks after ∧ chunks.flatten = text

theorem Brings.cons {s : σ} {text : Bytes} (room : hasRoom s = true)
    (nonempty : (next s).chunk ≠ []) (h : Brings (next s).rest text) :
    Brings s ((next s).chunk ++ text) := by
  obtain ⟨chunks, after, hd, rfl⟩ := h
  exact ⟨_, after, .more room nonempty hd, List.flatten_cons⟩

end Producer

namespace Slices

theorem next_nil (size : Nat) :
    Producer.next (⟨[], size⟩ : Slices) = ⟨[], ⟨[], size⟩, []⟩ := by
  show next _ = _
  simp [next]

/-- A text cut into slices comes out whole. -/
theorem brings {size : Nat} (hs : 0 < size) (text : Bytes) :
    Producer.Brings (⟨text, size⟩ : Slices) text := by
  by_cases ht : text = []
  · subst ht
    exact ⟨[], _, .ended rfl (by rw [next_nil]), rfl⟩
  · have hc : 0 < (⟨text, size⟩ : Slices).cut := Nat.lt_of_lt_of_le hs (Nat.le_add_right _ _)
    have hl : 0 < text.length := List.length_pos_iff.2 ht
    have hn : (Producer.next (⟨text, size⟩ : Slices)).chunk ≠ [] := by
      show text.take _ ≠ []
      simp [ht]
      omega
    have hcons := Producer.Brings.cons rfl hn
      (brings hs (text.drop (⟨text, size⟩ : Slices).cut))
    rwa [show (Producer.next (⟨text, size⟩ : Slices)).chunk = text.take _ from rfl,
      List.take_append_drop] at hcons
termination_by text.length
decreasing_by
  rw [List.length_drop]
  omega

theorem brings_ofText (text : Bytes) (size : Nat) : Producer.Brings (ofText text size) text :=
  brings (Nat.le_max_right size 1) text

end Slices

namespace Source
variable {σ : Type} [Producer σ]

/-- The chunks still to come, behind what is unread. -/
def Awaits (s : Source σ) (chunks : List Bytes) : Prop :=
  if s.ended then chunks = [] else ∃ t, Producer.Delivers s.producer chunks t

/-- The bytes it will deliver before the input ends. -/
def Holds (s : Source σ) (rest : Bytes) : Prop :=
  ∃ chunks, s.Awaits chunks ∧ rest = s.unread ++ chunks.flatten

/-- `r`, some bytes and what is left of the source, is what `s` gives of `rest`, with `rest'` to
come. -/
structure Gives (s : Source σ) (rest : Bytes) (r : Bytes × Source σ) (rest' : Bytes) : Prop where
  split : rest = r.1 ++ rest'
  holds : r.2.Holds rest'
  position : r.2.position = s.position.advance r.1

/-- Behind a first chunk, a source holds all that its producer brings. -/
theorem holds_beginAt {producer : σ} {text : Bytes} (h : Producer.Brings producer text)
    (initial : Bytes) (start : Position) :
    (beginAt initial producer start).Holds (initial ++ text) := by
  obtain ⟨chunks, after, hd, rfl⟩ := h
  exact ⟨chunks, ⟨after, hd⟩, rfl⟩

theorem position_load (s : Source σ) : s.load.position = s.position := by
  unfold load ask
  split
  · rfl
  · dsimp only
    split
    · rfl
    · split <;> rfl

theorem ended_of_awaits {s : Source σ} (h : s.Awaits []) (hu : s.unread = []) :
    s.load.unread = [] ∧ s.load.ended = true := by
  by_cases he : s.ended = true
  · simp [load, he, hu]
  · simp only [Awaits, if_neg he] at h
    obtain ⟨t, hd⟩ := h
    simp [load, he, ask, hd.next_nil.1, hd.room, hu]

theorem loaded_of_awaits {s : Source σ} {chunk : Bytes} {chunks : List Bytes}
    (h : s.Awaits (chunk :: chunks)) :
    s.load.unread = chunk ∧ chunk ≠ [] ∧ s.load.Awaits chunks := by
  by_cases he : s.ended = true
  · simp [Awaits, he] at h
  · have h' := h
    simp only [Awaits, if_neg he] at h'
    obtain ⟨t, hd⟩ := h'
    obtain ⟨hc, hn, hr⟩ := hd.next_cons
    have hl : s.load.ended = s.ended := by simp [load, ask, he, hc, hn]
    refine ⟨by simp [load, ask, he, hc, hn], hn, ?_⟩
    rw [Awaits, hl, if_neg he]
    exact ⟨t, by simpa [load, ask, he, hc, hn] using hr⟩

/-- A pull brings nothing only if nothing is left, and then the input has ended. -/
theorem Holds.pull {s : Source σ} {rest : Bytes} (h : s.Holds rest) {n : Nat} (hn : 0 < n) :
    ∃ rest', s.Gives rest (s.pull n) rest' ∧
      ((s.pull n).1 = [] → rest = [] ∧ (s.pull n).2.ended = true) := by
  obtain ⟨chunks, ha, rfl⟩ := h
  have htake (bytes : Bytes) (hb : bytes ≠ []) : bytes.take n ≠ [] := by
    rw [Ne, List.take_eq_nil_iff]
    intro h
    rcases h with h | h
    · omega
    · exact hb h
  unfold Source.pull
  rw [if_neg (by omega)]
  by_cases hu : s.unread = []
  · simp only [hu, List.isEmpty_nil, if_true, List.nil_append]
    cases chunks with
    | nil =>
      obtain ⟨hl, he⟩ := ended_of_awaits ha hu
      refine ⟨[], ⟨by simp [hl], ⟨[], by simp [Awaits, he], by simp [hl]⟩, ?_⟩, ?_⟩
      · simp [hl, position_load]
      · intro _
        exact ⟨rfl, he⟩
    | cons chunk chunks =>
      obtain ⟨hl, hne, hw⟩ := loaded_of_awaits ha
      refine ⟨chunk.drop n ++ chunks.flatten, ⟨?_, ⟨chunks, hw, by simp [hl]⟩, ?_⟩, ?_⟩
      · rw [hl, ← List.append_assoc, List.take_append_drop, List.flatten_cons]
      · rw [position_load]
      · intro ht
        exact absurd (hl ▸ ht) (htake chunk hne)
  · simp only [List.isEmpty_eq_false_iff.2 hu, Bool.false_eq_true, if_false]
    refine ⟨s.unread.drop n ++ chunks.flatten, ⟨?_, ⟨chunks, ha, rfl⟩, rfl⟩, ?_⟩
    · rw [← List.append_assoc, List.take_append_drop]
    · intro ht
      exact absurd ht (htake _ hu)

/-- Pulls up to `need` bytes fall short only if they take all there is; then the input has
ended. -/
theorem Holds.pullAtLeast {s : Source σ} {rest : Bytes} (h : s.Holds rest) {size : Nat}
    (hs : 0 < size) (need : Nat) :
    ∃ rest', s.Gives rest (s.pullAtLeast size need) rest' ∧
      (need ≤ (s.pullAtLeast size need).1.length ∨
        rest' = [] ∧ (s.pullAtLeast size need).2.ended = true) := by
  induction need using Nat.strongRecOn generalizing s rest with
  | ind need ih =>
    rw [Source.pullAtLeast]
    split
    · exact ⟨rest, ⟨rfl, h, by simp⟩, .inl (by omega)⟩
    · obtain ⟨rest', hg, he⟩ := h.pull hs
      dsimp only
      split
      · next hf =>
        obtain ⟨hr, hend⟩ := he hf
        exact ⟨rest', hg, .inr ⟨(List.append_eq_nil_iff.1 (hg.split.symm.trans hr)).2, hend⟩⟩
      · next hf =>
        have hl := List.length_pos_iff.2 hf
        obtain ⟨rest'', hg', hn⟩ := ih (need - (s.pull size).1.length) (by omega) hg.holds
        refine ⟨rest'', ⟨?_, hg'.holds, ?_⟩, ?_⟩
        · rw [hg.split, List.append_assoc, ← hg'.split]
        · rw [Position.advance_append, ← hg.position, ← hg'.position]
        · rw [List.length_append]
          apply hn.imp_left
          intro hl
          omega

end Source
end EditLex
