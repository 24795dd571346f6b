import EditLex.Lookahead

/-!
Looking ahead over producers that end. Reading while a predicate holds needs no bound there: each
byte taken leaves one less (`left_peek`), and looking ahead ends with the bytes there are.
-/
namespace EditLex.Lookahead

variable {σ : Type}

/-- The bytes it may still deliver. -/
def left [Bounded σ] (s : Lookahead σ) : Nat := s.window.length + s.source.left

/-- `t` is `s` after some bytes: none, with the position where it was, or one at least. -/
def Behind [Bounded σ] (s t : Lookahead σ) : Prop :=
  t.left < s.left ∨ t.left ≤ s.left ∧ t.position = s.position

namespace Behind

variable [Bounded σ] {s t u : Lookahead σ}

theorem refl (s : Lookahead σ) : Behind s s := .inr ⟨Nat.le_refl _, rfl⟩

theorem left_le (h : Behind s t) : t.left ≤ s.left := h.elim Nat.le_of_lt And.left

theorem trans (h : Behind s t) (h' : Behind t u) : Behind s u := by
  rcases h with h | ⟨h, hp⟩
  · exact .inl (Nat.lt_of_le_of_lt h'.left_le h)
  · rcases h' with h' | ⟨h', hp'⟩
    · exact .inl (Nat.lt_of_lt_of_le h' h)
    · exact .inr ⟨Nat.le_trans h' h, hp'.trans hp⟩

theorem left_lt (h : Behind s t) (hp : t.position ≠ s.position) : t.left < s.left :=
  h.resolve_right fun h' => hp h'.2

end Behind

variable [Bounded σ]

theorem left_fill (s : Lookahead σ) (need : Nat) : (s.fill need).left ≤ s.left := by
  unfold fill
  split
  · exact Nat.le_refl _
  · have := s.source.left_pullAtLeast s.pullSize (need - s.window.length)
    simp only [left, List.length_append]
    omega

theorem position_fill (s : Lookahead σ) (need : Nat) : (s.fill need).position = s.position := by
  unfold fill
  split <;> rfl

theorem behind_nth (s : Lookahead σ) (n : Nat) : Behind s (s.nth n).2 := by
  unfold nth
  split
  · exact .refl s
  · split
    · exact .refl s
    · exact .inr ⟨left_fill s _, position_fill s _⟩

theorem window_peek {s t : Lookahead σ} {b : UInt8} (h : s.peek = (some b, t)) :
    t.window = b :: t.window.tail := by
  have key : t.window[0]? = some b := by
    unfold peek nth at h
    rw [if_neg (by decide)] at h
    split at h
    · simp_all
    · simp only [Prod.mk.injEq] at h
      rw [← h.2, h.1]
  cases hw : t.window with
  | nil => simp [hw] at key
  | cons c w => simp_all

theorem left_peek {s t : Lookahead σ} {b : UInt8} (h : s.peek = (some b, t)) :
    ({ t with window := t.window.tail } : Lookahead σ).left < s.left := by
  have hb := (behind_nth s 0).left_le
  rw [show s.nth 0 = (some b, t) from h] at hb
  have hw := congrArg List.length (window_peek h)
  rw [List.length_cons] at hw
  simp only [left] at hb ⊢
  omega

theorem behind_take (s : Lookahead σ) : Behind s s.take.2 := by
  unfold take
  split
  · next t h => exact (congrArg Prod.snd h) ▸ behind_nth s 0
  · next b t h => exact .inl (left_peek h)

theorem lt_left_nth {s t : Lookahead σ} {n : Nat} {b : UInt8}
    (h : s.nth n = (some b, t)) : n < t.left := by
  have key : t.window[n]? = some b := by
    unfold nth at h
    split at h
    · simp at h
    · split at h
      · simp_all
      · simp only [Prod.mk.injEq] at h
        rw [← h.2, h.1]
  have := (List.getElem?_eq_some_iff.1 key).1
  simp only [left]
  omega

/-- Takes bytes from the window while `p` accepts them; the position stays behind. The bytes
before, `taken`, and the answer are newest first. -/
def gather (p : Test) (memory : Nat) (taken : Bytes) (s : Lookahead σ) : Bytes × Lookahead σ :=
  match _h : s.peek with
  | (none, t) => (taken, t)
  | (some b, t) =>
    match p memory b with
    | none => (taken, t)
    | some memory => gather p memory (b :: taken) { t with window := t.window.tail }
termination_by s.left
decreasing_by exact left_peek _h

/-- Takes bytes while `p` accepts them. -/
def takeWhile (p : Test) (s : Lookahead σ) : Bytes × Lookahead σ :=
  let (taken, s) := gather p 0 [] s
  (taken.reverse, { s with position := s.position.advance taken.reverse })

/-- The bytes ahead that `p` accepts, none of them taken. The bytes before, `seen`, and the answer
are newest first. -/
def lookFrom (p : Test) (memory : Nat) (seen : Bytes) (s : Lookahead σ) : Bytes × Lookahead σ :=
  match _h : s.nth seen.length with
  | (none, t) => (seen, t)
  | (some b, t) =>
    match p memory b with
    | none => (seen, t)
    | some memory => lookFrom p memory (b :: seen) t
termination_by s.left - seen.length
decreasing_by
  have hn := lt_left_nth _h
  have hl := (behind_nth s seen.length).left_le
  rw [_h] at hl
  change t.left ≤ s.left at hl
  rw [List.length_cons]
  omega

/-- The bytes ahead that `p` accepts, none of them taken. -/
def lookWhile (p : Test) (s : Lookahead σ) : Bytes × Lookahead σ :=
  let (seen, s) := lookFrom p 0 [] s
  (seen.reverse, s)

theorem position_peek (s : Lookahead σ) : s.peek.2.position = s.position := by
  unfold peek nth
  split
  · rfl
  · split
    · rfl
    · exact position_fill s _

theorem left_gather (p : Test) (memory : Nat) (taken : Bytes) (s : Lookahead σ) :
    (gather p memory taken s).2.position = s.position ∧
      (gather p memory taken s).1.length + (gather p memory taken s).2.left
        ≤ taken.length + s.left := by
  fun_induction gather p memory taken s with
  | case1 _ taken s t h =>
    have hb := (behind_nth s 0).left_le
    have hp := s.position_peek
    rw [show s.nth 0 = (none, t) from h] at hb
    rw [h] at hp
    exact ⟨hp, Nat.add_le_add_left hb _⟩
  | case2 _ taken s b t h =>
    have hb := (behind_nth s 0).left_le
    have hp := s.position_peek
    rw [show s.nth 0 = (some b, t) from h] at hb
    rw [h] at hp
    exact ⟨hp, Nat.add_le_add_left hb _⟩
  | case3 _ taken s b t h _ _ ih =>
    have hl := left_peek h
    have hp := s.position_peek
    rw [h] at hp
    refine ⟨ih.1.trans hp, ?_⟩
    rw [List.length_cons] at ih
    omega

theorem behind_takeWhile (p : Test) (s : Lookahead σ) : Behind s (s.takeWhile p).2 := by
  obtain ⟨hpos, hl⟩ := left_gather p 0 [] s
  unfold takeWhile
  rw [List.length_nil, Nat.zero_add] at hl
  generalize gather p 0 [] s = r at hpos hl
  rcases r with ⟨_ | ⟨b, taken⟩, t⟩
  · exact .inr ⟨by simpa using hl, by simpa using hpos⟩
  · refine .inl ?_
    simp only [List.length_cons] at hl
    change t.left < s.left
    omega

theorem behind_lookFrom (p : Test) (memory : Nat) (seen : Bytes) (s : Lookahead σ) :
    Behind s (lookFrom p memory seen s).2 := by
  fun_induction lookFrom p memory seen s with
  | case1 _ seen s t h => exact (congrArg Prod.snd h) ▸ behind_nth s seen.length
  | case2 _ seen s b t h => exact (congrArg Prod.snd h) ▸ behind_nth s seen.length
  | case3 _ seen s b t h _ _ ih =>
    have hb := behind_nth s seen.length
    rw [h] at hb
    exact hb.trans ih

theorem behind_lookWhile (p : Test) (s : Lookahead σ) : Behind s (s.lookWhile p).2 :=
  behind_lookFrom p 0 [] s

/-- With more looks than there are bytes, the bound on them is never met. -/
theorem gatherUpTo_eq_gather (p : Test) {fuel memory : Nat} {taken : Bytes} {s : Lookahead σ}
    (h : s.left < fuel) : gatherUpTo p fuel memory taken s = gather p memory taken s := by
  induction fuel generalizing memory taken s with
  | zero => omega
  | succ fuel ih =>
    rw [gatherUpTo, gather]
    rcases hp : s.peek with ⟨_ | b, t⟩
    · rfl
    · cases hm : p memory b with
      | none => simp only [hm]
      | some _ =>
        simp only [hm]
        exact ih (by have := left_peek hp; omega)

theorem takeWhileUpTo_eq_takeWhile (p : Test) {fuel : Nat} {s : Lookahead σ} (h : s.left < fuel) :
    s.takeWhileUpTo fuel p = s.takeWhile p := by
  rw [takeWhileUpTo, takeWhile, gatherUpTo_eq_gather p h]

end EditLex.Lookahead
