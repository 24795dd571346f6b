import EditLex.Lookahead.Bounded
import EditLex.Proofs.Delivery

/-!
A reader that looks ahead, seen as the bytes that are left to read and their place
(`Lookahead.Reads`). Each operation answers from these bytes alone, whatever the chunks of the
source, the size of the pulls and the bytes in the window.
-/
namespace EditLex

/-- Bytes to read, and the place of the first of them. -/
structure Passage where
  bytes : Bytes
  place : Position
  deriving DecidableEq

namespace Passage

/-- What is left behind the first `n` bytes. -/
def skip (v : Passage) (n : Nat) : Passage := ⟨v.bytes.drop n, v.place.advance (v.bytes.take n)⟩

@[simp] theorem bytes_skip (v : Passage) (n : Nat) : (v.skip n).bytes = v.bytes.drop n := rfl

@[simp] theorem skip_zero (v : Passage) : v.skip 0 = v := by simp [skip]

theorem skip_skip (v : Passage) (m n : Nat) : (v.skip m).skip n = v.skip (m + n) := by
  simp only [skip, List.drop_drop, ← Position.advance_append, List.take_add]

theorem skip_inj {v : Passage} {m n : Nat} (hm : m ≤ v.bytes.length) (hn : n ≤ v.bytes.length)
    (h : v.skip m = v.skip n) : m = n := by
  have hlen := congrArg (·.bytes.length) h
  simp only [bytes_skip, List.length_drop] at hlen
  omega

theorem place_skip_eq {v w : Passage} (hplace : v.place = w.place) {m n : Nat}
    (h : v.bytes.take m = w.bytes.take m) (hn : n ≤ m) : (v.skip n).place = (w.skip n).place := by
  have htake : v.bytes.take n = w.bytes.take n := by
    rw [← Nat.min_eq_left hn, ← List.take_take, h, List.take_take]
  simp only [skip, hplace, htake]

/-- How many bytes were skipped shows in how many are left. -/
theorem skip_sub (v : Passage) (n : Nat) :
    v.skip (v.bytes.length - (v.skip n).bytes.length) = v.skip n := by
  rw [bytes_skip, List.length_drop]
  by_cases hn : n ≤ v.bytes.length
  · rw [Nat.sub_sub_self hn]
  · have hle : v.bytes.length ≤ n := by omega
    have hsub : v.bytes.length - (v.bytes.length - n) = v.bytes.length := by omega
    simp [hsub, skip, List.take_of_length_le hle, List.drop_eq_nil_of_le hle]

end Passage

namespace Lookahead

/-- The bytes from the front that `p` accepts, each asked about once, in order, until one is
rejected. -/
def Test.span (p : Test) : Nat → Bytes → Bytes
  | _, [] => []
  | memory, b :: bytes =>
    match p memory b with
    | none => []
    | some memory => b :: span p memory bytes

theorem Test.span_prefix (p : Test) (memory : Nat) (bytes : Bytes) :
    p.span memory bytes <+: bytes := by
  induction bytes generalizing memory with
  | nil => exact List.prefix_rfl
  | cons b bytes ih =>
    rw [Test.span]
    split
    · exact List.nil_prefix
    · exact List.cons_prefix_cons.2 ⟨rfl, ih _⟩

/-- Bytes behind the first that is rejected do not matter. -/
theorem Test.span_append_of_lt (p : Test) {memory : Nat} {bytes : Bytes}
    (h : (p.span memory bytes).length < bytes.length) (more : Bytes) :
    p.span memory (bytes ++ more) = p.span memory bytes := by
  induction bytes generalizing memory with
  | nil => contradiction
  | cons b bytes ih =>
    rw [List.cons_append, Test.span, Test.span]
    cases hp : p memory b with
    | none => rfl
    | some memory' =>
      rw [Test.span, hp] at h
      exact congrArg (b :: ·) (ih (Nat.lt_of_succ_lt_succ h))

theorem Test.span_ofPredicate (p : UInt8 → Bool) (memory : Nat) (bytes : Bytes) :
    (Test.ofPredicate p).span memory bytes = bytes.takeWhile p := by
  induction bytes with
  | nil => rfl
  | cons b bytes ih =>
    rw [Test.span, List.takeWhile_cons]
    cases hp : p b <;> simp [Test.ofPredicate, hp, ih]

/-- The bytes accepted so far, newest first, as one number. -/
def Test.code : Bytes → Nat
  | [] => 0
  | b :: seen => code seen * 256 + b.toNat + 1

def Test.decode : Nat → Bytes
  | 0 => []
  | n + 1 => UInt8.ofNat (n % 256) :: decode (n / 256)
decreasing_by exact Nat.lt_succ_of_le (Nat.div_le_self n 256)

theorem Test.decode_code (seen : Bytes) : decode (code seen) = seen := by
  induction seen with
  | nil => rw [code, decode]
  | cons b seen ih =>
    have hb := b.toNat_lt
    have hlast : (code seen * 256 + b.toNat) % 256 = b.toNat := by omega
    have hseen : (code seen * 256 + b.toNat) / 256 = code seen := by omega
    rw [code, decode, hlast, hseen, UInt8.ofNat_toNat, ih]

/-- A test that goes by all the bytes before. One number is memory enough for it. -/
def Test.ofHistory (p : Bytes → UInt8 → Bool) : Test := fun memory b =>
  if p (decode memory) b then some (code (b :: decode memory)) else none

/-- The bytes from the front that `p` accepts, each by those before it, newest first. -/
def Test.accepted (p : Bytes → UInt8 → Bool) : Bytes → Bytes → Bytes
  | _, [] => []
  | seen, b :: bytes => if p seen b then b :: accepted p (b :: seen) bytes else []

theorem Test.span_ofHistory (p : Bytes → UInt8 → Bool) (seen bytes : Bytes) :
    (ofHistory p).span (code seen) bytes = accepted p seen bytes := by
  induction bytes generalizing seen with
  | nil => rfl
  | cons b bytes ih =>
    rw [span, ofHistory, decode_code, accepted, ← ih]
    cases p seen b <;> rfl

section Producer
variable {σ : Type} [Producer σ]

/-- The window and the source together hold the bytes of `v`, and there will be room for each pull.
The position may lag behind. -/
structure Shows (s : Lookahead σ) (v : Passage) : Prop where
  pulls : 0 < s.pullSize
  room : v.bytes.length + s.pullSize ≤ bufferLimit
  holds : ∃ rest, s.source.Holds rest ∧ v.bytes = s.window ++ rest
  behind : s.source.position = v.place.advance s.window

/-- The reader stands at the first byte of `v`. -/
structure Reads (s : Lookahead σ) (v : Passage) : Prop extends Shows s v where
  position : s.position = v.place

/-- A fresh reader stands at the first byte of its source. -/
theorem Reads.ofSource {source : Source σ} {rest : Bytes} (h : source.Holds rest) {pullSize : Nat}
    (hr : rest.length + max pullSize 1 ≤ bufferLimit) :
    (Lookahead.ofSource source pullSize).Reads ⟨rest, source.position⟩ where
  pulls := by
    simp only [Lookahead.ofSource]
    omega
  room := hr
  holds := ⟨rest, h, rfl⟩
  behind := by simp [Lookahead.ofSource]
  position := rfl

theorem Shows.pullSize_le {s : Lookahead σ} {v : Passage} (h : s.Shows v) :
    s.pullSize ≤ bufferLimit := by
  have := h.room
  omega

/-- A reader that has fewer than `need` bytes in its window after filling it has all there are. -/
theorem Shows.fill {s : Lookahead σ} {v : Passage} (h : s.Shows v) (need : Nat) :
    (s.fill need).Shows v ∧
      (need ≤ (s.fill need).window.length ∨
        (s.fill need).window = v.bytes ∧ (s.fill need).source.ended = true) := by
  obtain ⟨rest, hs, hv⟩ := h.holds
  obtain ⟨rest', hg, hn⟩ := hs.pullAtLeast h.pulls (need - s.window.length)
  rw [Lookahead.fill, if_neg (Nat.not_lt.2 h.pullSize_le)]
  refine ⟨⟨h.pulls, h.room, ⟨rest', hg.holds, ?_⟩, ?_⟩, ?_⟩
  · rw [hv, hg.split, List.append_assoc]
  · rw [hg.position, h.behind, Position.advance_append]
  · rcases hn with hn | ⟨rfl, he⟩
    · exact .inl (by rw [List.length_append]; omega)
    · exact .inr ⟨by rw [hv, hg.split, List.append_nil], he⟩

/-- Looking `n` bytes on finds the byte there, and leaves `n + 1` bytes in the window or all there
are. -/
theorem Shows.nth {s : Lookahead σ} {v : Passage} (h : s.Shows v) (n : Nat) :
    (s.nth n).1 = v.bytes[n]? ∧ (s.nth n).2.Shows v ∧
      (n < maxCount → n + 1 ≤ (s.nth n).2.window.length ∨
        (s.nth n).2.window = v.bytes ∧ (s.nth n).2.source.ended = true) := by
  have hroom := h.room
  obtain ⟨rest, -, hv⟩ := h.holds
  unfold Lookahead.nth
  split
  · next hn =>
    have hl : v.bytes.length ≤ n := by
      simp only [maxCount, bufferLimit] at hn hroom
      omega
    refine ⟨(List.getElem?_eq_none hl).symm, h, ?_⟩
    intro hlt
    omega
  · split
    · next b hb =>
      have hlt := (List.getElem?_eq_some_iff.1 hb).1
      exact ⟨by rw [hv, List.getElem?_append_left hlt, hb], h, fun _ => .inl hlt⟩
    · obtain ⟨hf, hn⟩ := h.fill (n + 1)
      obtain ⟨rest', -, hv'⟩ := hf.holds
      refine ⟨?_, hf, ?_⟩
      · rcases hn with hn | ⟨hw, -⟩
        · rw [hv', List.getElem?_append_left hn]
        · rw [← hw]
      · intro _
        exact hn

/-- A look no further than past the last byte fills the window up to there, or ends the input. -/
theorem Shows.nth_stops {s : Lookahead σ} {v : Passage} (h : s.Shows v) {n : Nat}
    (hn : n ≤ v.bytes.length) :
    n + 1 ≤ (s.nth n).2.window.length ∨ (s.nth n).2.source.ended = true := by
  have hroom := h.room
  obtain ⟨-, -, hstop⟩ := h.nth n
  refine (hstop ?_).imp_right And.right
  simp only [maxCount, bufferLimit] at hroom ⊢
  omega

theorem position_nth (s : Lookahead σ) (n : Nat) : (s.nth n).2.position = s.position := by
  unfold Lookahead.nth Lookahead.fill
  split
  · rfl
  · split
    · rfl
    · dsimp only
      split <;> rfl

theorem Reads.nth {s : Lookahead σ} {v : Passage} (h : s.Reads v) (n : Nat) :
    (s.nth n).1 = v.bytes[n]? ∧ (s.nth n).2.Reads v :=
  ⟨(h.toShows.nth n).1, (h.toShows.nth n).2.1, (position_nth s n).trans h.position⟩

/-- At the end of the bytes there is no next one, and the input has ended. -/
theorem Shows.peek_nil {s : Lookahead σ} {v : Passage} (h : s.Shows v) (hv : v.bytes = []) :
    ∃ t, s.peek = (none, t) ∧ t.Shows v ∧ t.position = s.position ∧ t.source.ended = true := by
  obtain ⟨hb, ht, hn⟩ := h.nth 0
  obtain ⟨rest, -, hr⟩ := ht.holds
  rw [hv] at hb
  refine ⟨(s.nth 0).2, Prod.ext hb rfl, ht, position_nth s 0, ?_⟩
  rcases hn (by decide) with hn | hn
  · rw [(List.append_eq_nil_iff.1 (hr.symm.trans hv)).1] at hn
    exact absurd hn (by simp)
  · exact hn.2

/-- Before the end the next byte is the first of the bytes, and it stands in the window. -/
theorem Shows.peek_cons {s : Lookahead σ} {v : Passage} (h : s.Shows v) {b : UInt8} {bytes : Bytes}
    (hv : v.bytes = b :: bytes) :
    ∃ t w, s.peek = (some b, t) ∧ t.Shows v ∧ t.position = s.position ∧ t.window = b :: w := by
  obtain ⟨hb, ht, hn⟩ := h.nth 0
  obtain ⟨rest, -, hr⟩ := ht.holds
  rw [hv] at hb hn hr
  have hw : ∃ w, (s.nth 0).2.window = b :: w := by
    rcases hn (by decide) with hn | hn
    · cases hw : (s.nth 0).2.window with
      | nil => simp [hw] at hn
      | cons c w => exact ⟨w, by rw [hw, List.cons_append] at hr; rw [(List.cons.inj hr).1]⟩
    · exact ⟨bytes, hn.1⟩
  obtain ⟨w, hw⟩ := hw
  exact ⟨(s.nth 0).2, w, Prod.ext hb rfl, ht, position_nth s 0, hw⟩

/-- The first byte of the window is let go; the position does not matter. -/
theorem Shows.drop {s : Lookahead σ} {v : Passage} (h : s.Shows v) {b : UInt8} {w : Bytes}
    (hw : s.window = b :: w) (position : Position) :
    ({ s with window := w, position } : Lookahead σ).Shows (v.skip 1) := by
  obtain ⟨rest, hs, hv⟩ := h.holds
  rw [hw, List.cons_append] at hv
  refine ⟨h.pulls, ?_, ⟨rest, hs, ?_⟩, ?_⟩
  · have := h.room
    simp only [Passage.bytes_skip, List.length_drop]
    omega
  · simp [hv]
  · rw [h.behind, hw, Passage.skip, ← Position.advance_append]
    simp [hv]

theorem Reads.take {s : Lookahead σ} {v : Passage} (h : s.Reads v) :
    s.take.1 = v.bytes[0]? ∧ s.take.2.Reads (v.skip 1) ∧
      (s.take.1 = none → s.take.2.source.ended = true) := by
  unfold Lookahead.take
  cases hv : v.bytes with
  | nil =>
    obtain ⟨t, hp, ht, hpos, he⟩ := h.peek_nil hv
    have hskip : v.skip 1 = v := by
      cases v
      simp_all [Passage.skip]
    rw [hp, hskip]
    exact ⟨rfl, ⟨ht, hpos.trans h.position⟩, fun _ => he⟩
  | cons b bytes =>
    obtain ⟨t, w, hp, ht, hpos, hw⟩ := h.peek_cons hv
    rw [hp]
    refine ⟨rfl, ⟨?_, ?_⟩, ?_⟩
    · simp only [hw, List.tail_cons]
      exact ht.drop hw _
    · simp [Passage.skip, hv, hpos, h.position]
    · intro hn
      contradiction

theorem Reads.takeIf {s : Lookahead σ} {v : Passage} (h : s.Reads v) (b : UInt8) :
    (s.takeIf b).1 = decide (v.bytes[0]? = some b) ∧
      (s.takeIf b).2.Reads (v.skip (if v.bytes[0]? = some b then 1 else 0)) ∧
      ((s.takeIf b).1 = false →
        1 ≤ (s.takeIf b).2.window.length ∨ (s.takeIf b).2.source.ended = true) := by
  obtain ⟨hb, ht, hn⟩ := h.toShows.nth 0
  have ht' := (h.nth 0).2
  unfold Lookahead.takeIf Lookahead.peek
  dsimp only
  rw [hb]
  split
  · next hv => exact ⟨by simp [hv], ht'.take.2.1, fun hf => absurd hf (by simp)⟩
  · next hv =>
    refine ⟨by simp [hv], by simpa [hv] using ht', ?_⟩
    intro _
    exact (hn (by decide)).imp_right And.right

theorem Reads.atEnd {s : Lookahead σ} {v : Passage} (h : s.Reads v) :
    s.atEnd.1 = v.bytes.isEmpty ∧ s.atEnd.2.Reads v := by
  refine ⟨?_, (h.nth 0).2⟩
  show (s.nth 0).1.isNone = _
  rw [(h.nth 0).1]
  cases v.bytes <;> rfl

/-- With more looks than bytes, gathering takes the bytes up to the first that is rejected. The
position stays behind. -/
theorem Shows.gatherUpTo (p : Test) {fuel : Nat} {s : Lookahead σ} {v : Passage} (h : s.Shows v)
    (hf : v.bytes.length < fuel) (memory : Nat) (taken : Bytes) :
    ∃ t, Lookahead.gatherUpTo p fuel memory taken s =
        ((p.span memory v.bytes).reverse ++ taken, t) ∧
      t.Shows (v.skip (p.span memory v.bytes).length) ∧ t.position = s.position ∧
      (1 ≤ t.window.length ∨ t.source.ended = true) := by
  induction fuel generalizing s v memory taken with
  | zero => omega
  | succ fuel ih =>
    rw [Lookahead.gatherUpTo]
    cases hv : v.bytes with
    | nil =>
      obtain ⟨t, hp, ht, hpos, he⟩ := h.peek_nil hv
      exact ⟨t, by rw [hp]; rfl, by simpa [Test.span] using ht, hpos, .inr he⟩
    | cons b bytes =>
      obtain ⟨t, w, hp, ht, hpos, hw⟩ := h.peek_cons hv
      rw [hp, Test.span]
      cases hm : p memory b with
      | none => exact ⟨t, by simp [hm], by simpa using ht, hpos, .inl (by simp [hw])⟩
      | some memory' =>
        have hlen : (v.skip 1).bytes.length < fuel := by
          rw [hv, List.length_cons] at hf
          simp only [Passage.bytes_skip, hv, List.drop_one, List.tail_cons]
          omega
        obtain ⟨u, hg, hu, hpos', hend⟩ := ih (ht.drop hw t.position) hlen memory' (b :: taken)
        have hb : (v.skip 1).bytes = bytes := by simp [hv]
        rw [hb] at hg hu
        refine ⟨u, ?_, ?_, hpos'.trans hpos, hend⟩
        · simp only [hm, hw, List.tail_cons]
          rw [hg]
          simp
        · rw [Passage.skip_skip] at hu
          simpa only [List.length_cons, Nat.add_comm] using hu

theorem Reads.takeWhileUpTo (p : Test) {fuel : Nat} {s : Lookahead σ} {v : Passage}
    (h : s.Reads v) (hf : v.bytes.length < fuel) :
    (s.takeWhileUpTo fuel p).1 = p.span 0 v.bytes ∧
      (s.takeWhileUpTo fuel p).2.Reads (v.skip (p.span 0 v.bytes).length) ∧
      (1 ≤ (s.takeWhileUpTo fuel p).2.window.length ∨
        (s.takeWhileUpTo fuel p).2.source.ended = true) := by
  obtain ⟨t, hg, ht, hpos, hend⟩ := h.gatherUpTo p hf 0 []
  have htake := List.prefix_iff_eq_take.1 (p.span_prefix 0 v.bytes)
  unfold Lookahead.takeWhileUpTo
  rw [hg]
  simp only [List.append_nil, List.reverse_reverse]
  refine ⟨trivial, ⟨⟨ht.pulls, ht.room, ht.holds, ht.behind⟩, ?_⟩, hend⟩
  rw [Passage.skip, ← htake, hpos, h.position]

end Producer

section Bounded
variable {σ : Type} [Bounded σ]

theorem Reads.takeWhile (p : Test) {s : Lookahead σ} {v : Passage} (h : s.Reads v) :
    (s.takeWhile p).1 = p.span 0 v.bytes ∧
      (s.takeWhile p).2.Reads (v.skip (p.span 0 v.bytes).length) ∧
      (1 ≤ (s.takeWhile p).2.window.length ∨ (s.takeWhile p).2.source.ended = true) := by
  have hleft : s.left < s.left + v.bytes.length + 1 := by omega
  have hbytes : v.bytes.length < s.left + v.bytes.length + 1 := by omega
  rw [← takeWhileUpTo_eq_takeWhile p hleft]
  exact h.takeWhileUpTo p hbytes

/-- Looking ends at a byte that stands in the window, or with the input. -/
theorem Reads.lookFrom (p : Test) (memory : Nat) (seen : Bytes) {s : Lookahead σ} {v : Passage}
    (h : s.Reads v) (hseen : seen.length ≤ v.bytes.length) :
    let r := Lookahead.lookFrom p memory seen s
    r.1 = (p.span memory (v.bytes.drop seen.length)).reverse ++ seen ∧ r.2.Reads v ∧
      (r.1.length + 1 ≤ r.2.window.length ∨ r.2.source.ended = true) := by
  dsimp only
  fun_induction Lookahead.lookFrom p memory seen s with
  | case1 memory seen s t hn =>
    obtain ⟨hb, hr⟩ := h.nth seen.length
    have hstop := h.toShows.nth_stops hseen
    rw [hn] at hb hr hstop
    exact ⟨by simp [List.drop_eq_nil_of_le (List.getElem?_eq_none_iff.1 hb.symm), Test.span], hr,
      hstop⟩
  | case2 memory seen s b t hn hm =>
    obtain ⟨hb, hr⟩ := h.nth seen.length
    have hstop := h.toShows.nth_stops hseen
    rw [hn] at hb hr hstop
    obtain ⟨hl, hb⟩ := List.getElem?_eq_some_iff.1 hb.symm
    exact ⟨by simp [List.drop_eq_getElem_cons hl, hb, Test.span, hm], hr, hstop⟩
  | case3 memory seen s b t hn memory' hm ih =>
    obtain ⟨hb, hr⟩ := h.nth seen.length
    rw [hn] at hb hr
    obtain ⟨hl, hb⟩ := List.getElem?_eq_some_iff.1 hb.symm
    obtain ⟨hbytes, hrest⟩ := ih hr hl
    refine ⟨?_, hrest⟩
    rw [hbytes, List.drop_eq_getElem_cons hl, hb]
    simp [Test.span, hm]

theorem Reads.lookWhile (p : Test) {s : Lookahead σ} {v : Passage} (h : s.Reads v) :
    (s.lookWhile p).1 = p.span 0 v.bytes ∧ (s.lookWhile p).2.Reads v ∧
      ((s.lookWhile p).1.length + 1 ≤ (s.lookWhile p).2.window.length ∨
        (s.lookWhile p).2.source.ended = true) := by
  obtain ⟨hb, hr, hstop⟩ := Reads.lookFrom p 0 [] h (Nat.zero_le _)
  unfold Lookahead.lookWhile
  exact ⟨by simp [hb], hr, by simpa using hstop⟩

end Bounded
end Lookahead
end EditLex
