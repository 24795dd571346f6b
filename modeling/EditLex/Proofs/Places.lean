import EditLex.Proofs.Turns

/-!
Where units lie. Whatever a lexer finds, its units lie in the bytes one behind another, at the
places they name (`Lexer.lays_run`), and it takes a turn more than there are bytes at most
(`Lexer.runUpTo_eq_run`). Places are counted from the front of the text, so units lie in another
text as well that is the same up to the end of them (`Passage.Lays.take_append`).
-/
namespace EditLex

/-- Where the last of some units ends, or else where they begin. -/
def Token.lastStop {U : Type} (start : Position) (units : List (Token U)) : Position :=
  (units.getLast?.map (·.stop)).getD start

@[simp] theorem Token.lastStop_nil {U : Type} (start : Position) :
    lastStop start ([] : List (Token U)) = start := rfl

theorem Token.lastStop_cons {U : Type} (start : Position) (t : Token U) (units : List (Token U)) :
    lastStop start (t :: units) = lastStop t.stop units := by
  rw [lastStop, lastStop, List.getLast?_cons]
  cases units.getLast? <;> rfl

namespace Passage
variable {U : Type}

/-- No offset in the bytes is past the limit. -/
def Fits (v : Passage) : Prop := v.place.offset.val + v.bytes.length ≤ Coord.limit

theorem Fits.offset_skip {v : Passage} (h : v.Fits) {n : Nat} (hn : n ≤ v.bytes.length) :
    (v.skip n).place.offset.val = v.place.offset.val + n := by
  unfold Fits at h
  simp only [skip, Position.advance, Coord.val_up, List.length_take]
  omega

theorem Fits.skip {v : Passage} (h : v.Fits) {n : Nat} (hn : n ≤ v.bytes.length) :
    (v.skip n).Fits := by
  unfold Fits
  rw [h.offset_skip hn, Passage.bytes_skip, List.length_drop]
  unfold Fits at h
  omega

theorem fits_ofText {text : Bytes} (h : text.length ≤ Coord.limit) :
    (⟨text, .start⟩ : Passage).Fits := by
  show 0 + text.length ≤ _
  omega

theorem offset_skip_ofText {text : Bytes} (h : text.length ≤ Coord.limit) {n : Nat}
    (hn : n ≤ text.length) : ((⟨text, .start⟩ : Passage).skip n).place.offset.val = n :=
  ((fits_ofText h).offset_skip hn).trans (Nat.zero_add n)

/-- The two stand at one place and have their first `m` bytes in common. -/
structure Shares (v w : Passage) (m : Nat) : Prop where
  place_eq : v.place = w.place
  le_left : m ≤ v.bytes.length
  le_right : m ≤ w.bytes.length
  take_eq : v.bytes.take m = w.bytes.take m

namespace Shares
variable {v w : Passage} {m n : Nat}

theorem take_le (h : v.Shares w m) (hn : n ≤ m) : v.bytes.take n = w.bytes.take n := by
  rw [← Nat.min_eq_left hn, ← List.take_take, h.take_eq, List.take_take]

theorem place_skip (h : v.Shares w m) (hn : n ≤ m) : (v.skip n).place = (w.skip n).place :=
  place_skip_eq h.place_eq h.take_eq hn

theorem skip (h : v.Shares w m) (hn : n ≤ m) : (v.skip n).Shares (w.skip n) (m - n) where
  place_eq := h.place_skip hn
  le_left := by
    rw [bytes_skip, List.length_drop]
    exact Nat.sub_le_sub_right h.le_left n
  le_right := by
    rw [bytes_skip, List.length_drop]
    exact Nat.sub_le_sub_right h.le_right n
  take_eq := by simp only [bytes_skip, ← List.drop_take, h.take_eq]

theorem token_eq (h : v.Shares w m) {f : Found U} (hgap : f.gap ≤ m) (hlength : f.length ≤ m) :
    v.token f = w.token f := by
  simp only [token, h.place_skip hgap, h.place_skip hlength]

end Shares

/-- The units lie in the bytes one behind another, each of one byte at least, at the places that
they name. -/
inductive Lays : Passage → List (Token U) → Prop where
  | nil (v : Passage) : Lays v []
  | cons {v : Passage} {f : Found U} {units : List (Token U)} (gap_lt : f.gap < f.length)
      (length_le : f.length ≤ v.bytes.length) (rest : Lays (v.skip f.length) units) :
      Lays v (v.token f :: units)

theorem Lays.of_mem {v : Passage} {units : List (Token U)} (h : v.Lays units) {t : Token U}
    (ht : t ∈ units) : ∃ i j, i < j ∧ j ≤ v.bytes.length ∧
      t.start = (v.skip i).place ∧ t.stop = (v.skip j).place := by
  induction h with
  | nil v => exact absurd ht List.not_mem_nil
  | @cons v f units hgap hle rest ih =>
    rcases List.mem_cons.1 ht with rfl | ht
    · exact ⟨f.gap, f.length, hgap, hle, rfl, rfl⟩
    · obtain ⟨i, j, hij, hj, hstart, hstop⟩ := ih ht
      rw [bytes_skip, List.length_drop] at hj
      refine ⟨f.length + i, f.length + j, by omega, by omega, ?_, ?_⟩
      · rw [hstart, skip_skip]
      · rw [hstop, skip_skip]

theorem offset_le_skip (v : Passage) (n : Nat) :
    v.place.offset.val ≤ (v.skip n).place.offset.val := by
  have hle := v.place.offset.val_le
  simp only [skip, Position.advance, Coord.val_up]
  omega

theorem Lays.offset_le_stop {v : Passage} {units : List (Token U)} (h : v.Lays units) {t : Token U}
    (ht : t ∈ units) : v.place.offset.val ≤ t.stop.offset.val := by
  obtain ⟨_, j, -, -, -, hstop⟩ := h.of_mem ht
  rw [hstop]
  exact v.offset_le_skip j

/-- Units end in order, also past the limit. -/
theorem Lays.pairwise_stop {v : Passage} {units : List (Token U)} (h : v.Lays units) :
    units.Pairwise fun s t => s.stop.offset.val ≤ t.stop.offset.val := by
  induction h with
  | nil v => exact List.Pairwise.nil
  | cons _ _ rest ih => exact List.Pairwise.cons (fun _ => rest.offset_le_stop) ih

theorem Lays.length_le {v : Passage} {units : List (Token U)} (h : v.Lays units) :
    units.length ≤ v.bytes.length := by
  induction h with
  | nil v => exact Nat.zero_le _
  | @cons v f units hgap hle rest ih =>
    rw [bytes_skip, List.length_drop] at ih
    rw [List.length_cons]
    omega

end Passage

namespace Lexer
variable {σ S U : Type}

/-- What a lexer finds over a reader lies in the bytes that are left to read, whatever it looks at
and whatever it keeps. -/
theorem lays_run [Bounded σ] (lexer : Lexer S U) (document : Option String) (state : S)
    {reader : Lookahead σ} {v : Passage} (h : reader.Reads v) :
    v.Lays (lexer.run document state reader).tokens := by
  induction hn : v.bytes.length using Nat.strongRecOn generalizing v state reader with
  | ind n ih =>
    have hrun := lexer.run_of_pass document state reader
    rcases hpass : (lexer.pass document state).run reader with ⟨⟨_ | t, state'⟩, next⟩
    · rw [hpass] at hrun
      rw [(Prod.mk.inj hrun).1]
      exact .nil v
    · rw [hpass] at hrun
      obtain ⟨f, hgap, hle, rfl, hnext⟩ := lexer.reads_pass document state h hpass
      have hlen : (v.skip f.length).bytes.length < n := by
        rw [Passage.bytes_skip, List.length_drop]
        omega
      rw [(Prod.mk.inj hrun).1]
      exact .cons hgap hle (ih _ hlen state' hnext rfl)

/-- The units of a text lie in it, however it is cut into chunks. -/
theorem lays_tokensFrom (lexer : Lexer S U) (document : Option String) (settings : Settings)
    (state : S) (start : Position) {text : Bytes}
    (h : text.length + Lookahead.defaultPullSize ≤ bufferLimit) :
    (⟨text, start⟩ : Passage).Lays
      (lexer.tokensFrom document settings state start text).value.1 :=
  lexer.lays_run document state (Lookahead.reads_slices text settings.chunkSize start h)

end Lexer
end EditLex
