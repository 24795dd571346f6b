import Mathlib.Order.Bounds.Basic
import EditLex.Proofs.Segments

/-!
What a producer brings with each call, and how often it is asked. A number of calls covers a number
of bytes if these come with it or the input ends before (`Supply.Covers`). A source that pulls until
it has a number of bytes makes no call more than the least number that covers them
(`Source.Supplied.pullAtLeast`); the producer may be an endless one.
-/
namespace EditLex

namespace Producer
variable {σ : Type} [Producer σ]

/-- The producer after so many calls. -/
def after : Nat → σ → σ
  | 0, s => s
  | n + 1, s => after n (next s).rest

theorem after_succ (n : Nat) (s : σ) : after (n + 1) s = (next (after n s)).rest := by
  induction n generalizing s with
  | zero => rfl
  | succ n ih => exact ih (next s).rest

theorem length_chunksUpTo_le (n : Nat) (s : σ) : (chunksUpTo n s).length ≤ n := by
  induction n generalizing s with
  | zero => exact Nat.le_refl _
  | succ n ih =>
    rw [chunksUpTo]
    split
    · exact Nat.zero_le _
    · exact Nat.succ_le_succ (ih _)

theorem chunksUpTo_of_empty (n : Nat) {s : σ} (h : (next s).chunk.isEmpty = true) :
    chunksUpTo (n + 1) s = [] := if_pos h

theorem chunksUpTo_of_nonempty (n : Nat) {s : σ} (h : ¬(next s).chunk.isEmpty = true) :
    chunksUpTo (n + 1) s = (next s).chunk :: chunksUpTo n (next s).rest := if_neg h

/-- Behind an empty chunk there is nothing more. -/
theorem chunksUpTo_succ_of_lt {n : Nat} {s : σ} (h : (chunksUpTo n s).length < n) :
    chunksUpTo (n + 1) s = chunksUpTo n s := by
  induction n generalizing s with
  | zero => contradiction
  | succ n ih =>
    by_cases hc : (next s).chunk.isEmpty = true
    · rw [chunksUpTo_of_empty _ hc, chunksUpTo_of_empty _ hc]
    · rw [chunksUpTo_of_nonempty _ hc] at h
      rw [chunksUpTo_of_nonempty _ hc, chunksUpTo_of_nonempty _ hc, ih (Nat.lt_of_succ_lt_succ h)]

/-- While no chunk has been empty, one call more brings the next one. -/
theorem chunksUpTo_succ_of_eq {n : Nat} {s : σ} (h : (chunksUpTo n s).length = n) :
    chunksUpTo (n + 1) s = chunksUpTo n s ++
      if (next (after n s)).chunk.isEmpty then [] else [(next (after n s)).chunk] := by
  induction n generalizing s with
  | zero => rfl
  | succ n ih =>
    by_cases hc : (next s).chunk.isEmpty = true
    · rw [chunksUpTo_of_empty _ hc] at h
      contradiction
    · rw [chunksUpTo_of_nonempty _ hc] at h
      rw [chunksUpTo_of_nonempty _ hc, ih (Nat.succ.inj h), chunksUpTo_of_nonempty _ hc]
      rfl

end Producer

/-- The bytes that a source has at first, and the producer of the others. -/
structure Supply (σ : Type) where
  initial : Bytes
  producer : σ

namespace Supply
variable {σ : Type} [Producer σ] {u : Supply σ} {k m need : Nat}

/-- The bytes that come with so many calls. -/
def content (u : Supply σ) (calls : Nat) : Bytes :=
  u.initial ++ (Producer.chunksUpTo calls u.producer).flatten

/-- One of so many calls brings an empty chunk. -/
def Ended (u : Supply σ) (calls : Nat) : Prop :=
  (Producer.chunksUpTo calls u.producer).length < calls

instance (u : Supply σ) (calls : Nat) : Decidable (u.Ended calls) :=
  inferInstanceAs (Decidable (_ < _))

/-- So many calls bring `need` bytes, or the end of the input. -/
def Covers (u : Supply σ) (need calls : Nat) : Prop :=
  need ≤ (u.content calls).length ∨ u.Ended calls

instance (u : Supply σ) (need calls : Nat) : Decidable (u.Covers need calls) :=
  inferInstanceAs (Decidable (_ ∨ _))

/-- Each of so many calls has room for its chunk. -/
def HasRoom (u : Supply σ) (calls : Nat) : Prop :=
  ∀ before < calls, Producer.hasRoom (Producer.after before u.producer) = true

/-- The chunk that the next call brings. -/
def following (u : Supply σ) (calls : Nat) : Bytes :=
  (Producer.next (Producer.after calls u.producer)).chunk

theorem not_ended_iff : ¬u.Ended k ↔ (Producer.chunksUpTo k u.producer).length = k := by
  have hle := Producer.length_chunksUpTo_le k u.producer
  unfold Ended
  omega

theorem Ended.succ (h : u.Ended k) : u.Ended (k + 1) ∧ u.content (k + 1) = u.content k := by
  have hsame := Producer.chunksUpTo_succ_of_lt h
  constructor
  · rw [Ended, hsame]
    exact Nat.lt_succ_of_lt h
  · rw [content, hsame, content]

theorem succ_of_not_ended (h : ¬u.Ended k) :
    (u.Ended (k + 1) ↔ u.following k = []) ∧ u.content (k + 1) = u.content k ++ u.following k := by
  rw [not_ended_iff] at h
  have hnext := Producer.chunksUpTo_succ_of_eq h
  unfold Ended content
  rw [hnext, following]
  split
  · next hc =>
    rw [List.isEmpty_iff] at hc
    simp [hc, h]
  · next hc =>
    rw [List.isEmpty_iff] at hc
    simp [hc, h]

theorem ended_mono (hle : k ≤ m) (h : u.Ended k) : u.Ended m ∧ u.content m = u.content k := by
  induction hle with
  | refl => exact ⟨h, rfl⟩
  | step _ ih => exact ⟨ih.1.succ.1, ih.1.succ.2.trans ih.2⟩

theorem content_prefix (u : Supply σ) (hle : k ≤ m) : u.content k <+: u.content m := by
  induction hle with
  | refl => exact List.prefix_rfl
  | @step m _ ih =>
    apply ih.trans
    by_cases h : u.Ended m
    · exact h.succ.2.symm ▸ List.prefix_rfl
    · rw [(succ_of_not_ended h).2]
      exact List.prefix_append _ _

theorem Covers.mono (h : u.Covers need k) (hle : k ≤ m) : u.Covers need m :=
  h.imp (fun h => Nat.le_trans h (u.content_prefix hle).length_le) fun h => (ended_mono hle h).1

theorem Covers.of_le {less : Nat} (h : u.Covers need k) (hle : less ≤ need) : u.Covers less k :=
  h.imp_left (Nat.le_trans hle)

theorem Covers.max {other : Nat} (h : u.Covers need k) (h' : u.Covers other k) :
    u.Covers (max need other) k := by
  rcases h with h | h
  · exact h'.imp_left (Nat.max_le.2 ⟨h, ·⟩)
  · exact .inr h

/-- Bytes that have come stay where they are. -/
theorem take_drop_content {i n : Nat} (hle : k ≤ m) (hn : i + n ≤ (u.content k).length) :
    ((u.content m).drop i).take n = ((u.content k).drop i).take n := by
  obtain ⟨more, hmore⟩ := u.content_prefix hle
  have hdrop : n ≤ ((u.content k).drop i).length := by
    rw [List.length_drop]
    omega
  rw [← hmore, List.drop_append_of_le_length (by omega), List.take_append_of_le_length hdrop]

/-- Calls that bring a byte, or the end before it, tell what it is. -/
theorem Covers.getElem?_content {i : Nat} (h : u.Covers (i + 1) k) (hle : k ≤ m) :
    (u.content m)[i]? = (u.content k)[i]? := by
  rcases h with h | h
  · obtain ⟨more, hmore⟩ := u.content_prefix hle
    rw [← hmore, List.getElem?_append_left h]
  · rw [(ended_mono hle h).2]

/-- With `before` calls made, `calls` are the least that cover `need` bytes. -/
def Asks (u : Supply σ) (before need calls : Nat) : Prop :=
  IsLeast {k | before ≤ k ∧ u.Covers need k} calls

namespace Asks
variable {before calls later other : Nat}

theorem refl (h : u.Covers need k) : u.Asks k need k :=
  ⟨⟨Nat.le_refl k, h⟩, fun _ h => h.1⟩

theorem le_of_covers (h : u.Asks before need calls) (hle : before ≤ k) (hk : u.Covers need k) :
    calls ≤ k := h.2 ⟨hle, hk⟩

theorem trans (h : u.Asks before need calls) (h' : u.Asks calls other later) :
    u.Asks before (Max.max need other) later := by
  constructor
  · exact ⟨Nat.le_trans h.1.1 h'.1.1, (h.1.2.mono h'.1.1).max h'.1.2⟩
  · rintro k ⟨hle, hk⟩
    have hcalls := h.le_of_covers hle (hk.of_le (Nat.le_max_left _ _))
    exact h'.le_of_covers hcalls (hk.of_le (Nat.le_max_right _ _))

theorem more (h : u.Asks before need calls) (hle : need ≤ other) (hc : u.Covers other calls) :
    u.Asks before other calls := by
  refine ⟨⟨h.1.1, hc⟩, ?_⟩
  rintro k ⟨hk, hcovers⟩
  exact h.le_of_covers hk (hcovers.of_le hle)

/-- What comes with the calls already made asks for no other. -/
theorem of_max (h : u.Asks before (Max.max other need) calls) (hother : u.Covers other before) :
    u.Asks before need calls := by
  constructor
  · exact ⟨h.1.1, h.1.2.of_le (Nat.le_max_right _ _)⟩
  · rintro k ⟨hle, hk⟩
    exact h.le_of_covers hle ((hother.mono hle).max hk)

end Asks
end Supply

namespace Source
variable {σ : Type} [Producer σ]

/-- The source has given `pulled` bytes of the supply; what has come with the calls made and was not
pulled is unread. -/
structure Supplied (s : Source (Counted σ)) (u : Supply σ) (pulled : Nat) : Prop where
  inner : s.producer.inner = Producer.after s.producer.calls u.producer
  unread : (u.content s.producer.calls).drop pulled = s.unread
  le : pulled ≤ (u.content s.producer.calls).length
  ended : s.ended = true ↔ u.Ended s.producer.calls

/-- With `pulled` bytes given, `r` has brought `need` bytes more or all there are, for the least
number of calls. -/
structure Brings (s : Source (Counted σ)) (u : Supply σ) (pulled need : Nat)
    (r : Bytes × Source (Counted σ)) : Prop where
  supplied : r.2.Supplied u (pulled + r.1.length)
  bytes : ((u.content r.2.producer.calls).drop pulled).take r.1.length = r.1
  asks : u.Asks s.producer.calls (pulled + need) r.2.producer.calls
  enough : need ≤ r.1.length ∨ r.2.ended = true ∧ r.2.unread = []

variable {u : Supply σ} {s : Source (Counted σ)} {pulled : Nat}

theorem supplied_beginAt (u : Supply σ) (start : Position) :
    (beginAt u.initial (⟨u.producer, 0⟩ : Counted σ) start).Supplied u 0 where
  inner := rfl
  unread := by simp [beginAt, Supply.content, Producer.chunksUpTo]
  le := Nat.zero_le _
  ended := by simp [beginAt, Supply.Ended]

namespace Supplied

/-- A source that has not ended, with nothing unread, makes one call. -/
theorem ready_of_called (h : s.Supplied u pulled)
    (hr : Producer.hasRoom (Producer.after s.producer.calls u.producer) = true)
    (hu : s.unread = []) (he : s.ended = false) :
    s.ready.producer = ⟨Producer.after (s.producer.calls + 1) u.producer, s.producer.calls + 1⟩ ∧
      s.ready.unread = u.following s.producer.calls ∧
      (s.ready.ended = true ↔ u.following s.producer.calls = []) := by
  rw [← h.inner] at hr
  rw [ready, if_pos (by simpa using hu), load, if_neg (by simpa using he), Producer.after_succ,
    Supply.following, ← h.inner]
  simp only [ask, Producer.next, Producer.hasRoom]
  by_cases hc : (Producer.next s.producer.inner).chunk = []
  · simp [hc, hr, hu]
  · simp [hc, he]

/-- A source gets a chunk, if it has none, for one call, unless the input has ended. -/
theorem ready (h : s.Supplied u pulled) {m : Nat} (hroom : u.HasRoom m)
    (hm : u.Covers (pulled + 1) m) :
    s.ready.Supplied u pulled ∧ u.Asks s.producer.calls (pulled + 1) s.ready.producer.calls ∧
      (s.ready.unread = [] → s.ready.ended = true) := by
  by_cases hu : s.unread = []
  · have hall : (u.content s.producer.calls).length ≤ pulled :=
      List.drop_eq_nil_iff.1 (h.unread.trans hu)
    cases he : s.ended with
    | true =>
      have hended := h.ended.1 he
      rw [Source.ready_of_ended he]
      exact ⟨h, .refl (.inr hended), fun _ => he⟩
    | false =>
      have hended : ¬u.Ended s.producer.calls := by simp [← h.ended, he]
      -- The calls made so far cover neither another byte nor the end.
      have hnot : ¬u.Covers (pulled + 1) s.producer.calls :=
        fun hk => hk.elim (fun hk => Nat.not_succ_le_self _ (Nat.le_trans hk hall)) hended
      have hlt : s.producer.calls < m := Nat.lt_of_not_le fun hle => hnot (hm.mono hle)
      obtain ⟨hproducer, hunread, hend⟩ := h.ready_of_called (hroom _ hlt) hu he
      obtain ⟨hended', hcontent⟩ := Supply.succ_of_not_ended hended
      have hcalls := congrArg Counted.calls hproducer
      refine ⟨⟨?_, ?_, ?_, ?_⟩, ?_, ?_⟩
      · rw [hproducer]
      · rw [hcalls, hcontent, hunread, Nat.le_antisymm h.le hall, List.drop_left]
      · rw [hcalls, hcontent, List.length_append]
        exact Nat.le_add_right_of_le h.le
      · rw [hcalls, hended']
        exact hend
      · rw [hcalls]
        constructor
        · refine ⟨Nat.le_succ _, ?_⟩
          by_cases hc : u.following s.producer.calls = []
          · exact .inr (hended'.2 hc)
          · left
            have hpos := List.length_pos_iff.2 hc
            have hle := h.le
            rw [hcontent, List.length_append]
            omega
        · rintro k ⟨hle, hk⟩
          apply Nat.lt_of_le_of_ne hle
          rintro rfl
          exact hnot hk
      · rw [hunread]
        exact hend.2
  · rw [Source.ready_of_unread hu]
    refine ⟨h, .refl (.inl ?_), fun hn => absurd hn hu⟩
    have hlength := congrArg List.length h.unread
    have hpos := List.length_pos_iff.2 hu
    rw [List.length_drop] at hlength
    omega

theorem take (h : s.Supplied u pulled) (n : Nat) :
    (s.take n).Supplied u (pulled + (s.unread.take n).length) where
  inner := h.inner
  unread := by
    show (u.content s.producer.calls).drop _ = s.unread.drop n
    rw [← List.drop_drop, h.unread, List.length_take]
    by_cases hn : n ≤ s.unread.length
    · rw [Nat.min_eq_left hn]
    · rw [Nat.min_eq_right (by omega), List.drop_length, List.drop_eq_nil_of_le (by omega)]
  le := by
    have hlength := congrArg List.length h.unread
    have hle := h.le
    show _ ≤ (u.content s.producer.calls).length
    rw [List.length_drop] at hlength
    rw [List.length_take]
    omega
  ended := h.ended

theorem pull (h : s.Supplied u pulled) {m : Nat} (hroom : u.HasRoom m)
    (hm : u.Covers (pulled + 1) m) {n : Nat} (hn : 0 < n) : s.Brings u pulled 1 (s.pull n) := by
  obtain ⟨hready, hasks, hend⟩ := h.ready hroom hm
  rw [Source.pull_eq_take (Nat.ne_of_gt hn)]
  refine ⟨hready.take n, ?_, hasks, ?_⟩
  · show ((u.content s.ready.producer.calls).drop pulled).take _ = _
    rw [hready.unread, List.length_take, ← List.take_eq_take_min]
  · cases hu : s.ready.unread with
    | nil =>
      right
      refine ⟨hend hu, ?_⟩
      show s.ready.unread.drop n = []
      rw [hu, List.drop_nil]
    | cons b bytes =>
      left
      rw [List.length_take, List.length_cons]
      omega

/-- Pulls that go on until there are `need` bytes make no call more than these take. -/
theorem pullAtLeast {m : Nat} (hroom : u.HasRoom m) {size : Nat} (hsize : 0 < size)
    (s : Source (Counted σ)) (need : Nat) : ∀ pulled, s.Supplied u pulled →
      s.producer.calls ≤ m → u.Covers (pulled + need) m →
        s.Brings u pulled need (s.pullAtLeast size need) := by
  fun_induction s.pullAtLeast size need with
  | case1 s =>
    intro pulled h _ _
    exact ⟨h, rfl, .refl (.inl h.le), .inl (Nat.zero_le _)⟩
  | case2 s need hneed first hfirst =>
    intro pulled h _ hm
    obtain ⟨hsupplied, hbytes, hasks, henough⟩ := h.pull hroom (hm.of_le (by omega)) hsize
    have hend : first.2.ended = true ∧ first.2.unread = [] :=
      henough.resolve_left fun hle => by simp [first, hfirst] at hle
    have hended := hsupplied.ended.1 hend.1
    exact ⟨hsupplied, hbytes, hasks.more (by omega) (.inr hended), .inr hend⟩
  | case3 s need hneed first hfirst more ih =>
    intro pulled h hle hm
    have hone : u.Covers (pulled + 1) m := hm.of_le (by omega)
    obtain ⟨hsupplied, hbytes, hasks, -⟩ := h.pull hroom hone hsize
    have hcalls := hasks.le_of_covers hle hone
    have hgiven : u.Covers (pulled + first.1.length) first.2.producer.calls := .inl hsupplied.le
    have hmax : pulled + first.1.length + (need - first.1.length) =
        max (pulled + first.1.length) (pulled + need) := by omega
    have hmore : first.2.Brings u (pulled + first.1.length) (need - first.1.length) more :=
      ih _ hsupplied hcalls (hmax ▸ (hgiven.mono hcalls).max hm)
    obtain ⟨hsupplied', hbytes', hasks', henough⟩ := hmore
    refine ⟨?_, ?_, ?_, ?_⟩
    · rw [List.length_append, ← Nat.add_assoc]
      exact hsupplied'
    · rw [List.length_append, List.take_add, List.drop_drop, hbytes',
        Supply.take_drop_content hasks'.1.1 hsupplied.le, hbytes]
    · rw [hmax] at hasks'
      have htrans := hasks.trans (hasks'.of_max hgiven)
      rwa [Nat.max_eq_right (by omega)] at htrans
    · rw [List.length_append]
      exact henough.imp_left fun hle => by omega

end Supplied
end Source
end EditLex
