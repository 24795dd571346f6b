import EditLex.Utf8

/-!
What texts begin with. Some text begins with the bytes that the machine does not refuse
(`begins_iff`). The verdict on bytes gives the longest text at their front
(`isLongestValid_check`), and why it ends tells whether more bytes could make up a text
(`ending_check`).
-/
namespace EditLex.Utf8

theorem run_append (s : State) (a b : Bytes) :
    run s (a ++ b) = (run s a).bind fun t => run t b := by
  unfold run
  exact List.foldlM_append

theorem run_cons (s : State) (b : UInt8) (bytes : Bytes) :
    run s (b :: bytes) = (step s b).bind fun t => run t bytes := by
  unfold run
  exact List.foldlM_cons

theorem valid_nil : Valid [] := rfl

theorem Valid.append_iff {front : Bytes} (h : Valid front) (bytes : Bytes) :
    Valid (front ++ bytes) ↔ Valid bytes := by
  have hrun : run .boundary front = some .boundary := h
  unfold Valid
  rw [run_append, hrun]
  rfl

/-- Some text begins with these bytes. -/
def Begins (bytes : Bytes) : Prop := ∃ more, Valid (bytes ++ more)

theorem Valid.begins {bytes : Bytes} (h : Valid bytes) : Begins bytes :=
  ⟨[], by rwa [List.append_nil]⟩

theorem Begins.of_append {front bytes : Bytes} (h : Begins (front ++ bytes)) : Begins front := by
  obtain ⟨more, h⟩ := h
  exact ⟨bytes ++ more, by rwa [← List.append_assoc]⟩

theorem Valid.begins_append_iff {front : Bytes} (h : Valid front) (bytes : Bytes) :
    Begins (front ++ bytes) ↔ Begins bytes := by
  unfold Begins
  simp only [List.append_assoc, h.append_iff]

/-- Some byte can come next. -/
def State.Open : State → Prop
  | .boundary => True
  | .inside _ low high => low ≤ high

theorem State.Open.of_step {s t : State} {b : UInt8} (h : step s b = some t) : t.Open := by
  cases s with
  | boundary =>
    simp only [step, opening] at h
    repeat' split at h
    all_goals cases h
    all_goals simp only [State.Open]
    all_goals decide
  | inside more low high =>
    simp only [step] at h
    split at h
    · cases more with
      | zero =>
        cases h
        trivial
      | succ more =>
        cases h
        simp only [State.Open]
        decide
    · contradiction

/-- What holds of a state and is true after every step holds after a run. -/
theorem State.of_run {P : State → Prop} (hstep : ∀ s b t, step s b = some t → P t) {s t : State}
    (hs : P s) {bytes : Bytes} (h : run s bytes = some t) : P t := by
  induction bytes generalizing s with
  | nil =>
    cases h
    exact hs
  | cons b bytes ih =>
    rw [run_cons] at h
    obtain ⟨u, hu, h⟩ := Option.bind_eq_some_iff.1 h
    exact ih (hstep s b u hu) h

theorem State.Open.of_run {s t : State} (hs : s.Open) {bytes : Bytes} (h : run s bytes = some t) :
    t.Open :=
  State.of_run (fun _ _ _ => .of_step) hs h

theorem State.Open.finish {s : State} (h : s.Open) : ∃ more, run s more = some .boundary := by
  cases s with
  | boundary => exact ⟨[], rfl⟩
  | inside more low high =>
    have hlow : low ≤ low ∧ low ≤ high := ⟨UInt8.le_refl low, h⟩
    induction more generalizing low high with
    | zero => exact ⟨[low], by simp [step, hlow, run]⟩
    | succ more ih =>
      obtain ⟨bytes, hbytes⟩ := ih 0x80 0xBF (show (0x80 : UInt8) ≤ 0xBF by decide)
        ⟨by decide, by decide⟩
      exact ⟨low :: bytes, by simp [run_cons, step, hlow, hbytes]⟩

theorem begins_iff {bytes : Bytes} : Begins bytes ↔ ∃ s, run .boundary bytes = some s := by
  constructor
  · rintro ⟨more, h⟩
    unfold Valid at h
    rw [run_append] at h
    obtain ⟨s, hs, -⟩ := Option.bind_eq_some_iff.1 h
    exact ⟨s, hs⟩
  · rintro ⟨s, hs⟩
    have hopen : State.boundary.Open := trivial
    obtain ⟨more, hmore⟩ := (hopen.of_run hs).finish
    refine ⟨more, ?_⟩
    unfold Valid
    rw [run_append, hs]
    exact hmore

/-- `front` is the longest text at the front of `bytes`. -/
structure IsLongestValid (front bytes : Bytes) : Prop where
  starts : front <+: bytes
  valid : Valid front
  longest : ∀ other, other <+: bytes → Valid other → other.length ≤ front.length

namespace IsLongestValid
variable {front bytes : Bytes}

theorem of_valid (h : Valid bytes) : IsLongestValid bytes bytes := by
  constructor
  · exact List.prefix_rfl
  · exact h
  · intro other hp _
    exact hp.length_le

theorem eq_of_valid (h : IsLongestValid front bytes) (hv : Valid bytes) : front = bytes :=
  h.starts.eq_of_length_le (h.longest bytes List.prefix_rfl hv)

theorem unique {other : Bytes} (h : IsLongestValid front bytes) (h' : IsLongestValid other bytes) :
    front = other := by
  have hlen : front.length = other.length :=
    Nat.le_antisymm (h'.longest front h.starts h.valid) (h.longest other h'.starts h'.valid)
  rw [List.prefix_iff_eq_take.1 h.starts, List.prefix_iff_eq_take.1 h'.starts, hlen]

/-- One more byte that does not end a character changes nothing. -/
theorem snoc (h : IsLongestValid front bytes) {b : UInt8} (hb : ¬Valid (bytes ++ [b])) :
    IsLongestValid front (bytes ++ [b]) := by
  constructor
  · exact h.starts.trans (List.prefix_append _ _)
  · exact h.valid
  · intro other hp hv
    rcases List.prefix_concat_iff.1 hp with rfl | hp
    · exact absurd hv hb
    · exact h.longest other hp hv

/-- Nothing behind bytes that no text begins with adds to the text at their front. -/
theorem append (h : IsLongestValid front bytes) (hb : ¬Begins bytes) (more : Bytes) :
    IsLongestValid front (bytes ++ more) := by
  constructor
  · exact h.starts.trans (List.prefix_append _ _)
  · exact h.valid
  · intro other hp hv
    rcases List.prefix_or_prefix_of_prefix hp (List.prefix_append bytes more) with hp | ⟨rest, rfl⟩
    · exact h.longest other hp hv
    · exact absurd hv.begins.of_append hb

theorem append_left (h : IsLongestValid front bytes) {text : Bytes} (ht : Valid text) :
    IsLongestValid (text ++ front) (text ++ bytes) := by
  constructor
  · exact (List.prefix_append_right_inj text).2 h.starts
  · exact (ht.append_iff front).2 h.valid
  · intro other hp hv
    rcases List.prefix_or_prefix_of_prefix hp (List.prefix_append text bytes) with hp' | ⟨rest, rfl⟩
    · have := hp'.length_le
      rw [List.length_append]
      omega
    · have := h.longest rest ((List.prefix_append_right_inj text).1 hp) ((ht.append_iff rest).1 hv)
      simp only [List.length_append]
      omega

theorem rest (h : IsLongestValid front bytes) {more : Bytes} (hb : bytes = front ++ more) :
    IsLongestValid [] more := by
  subst hb
  constructor
  · exact List.nil_prefix
  · exact valid_nil
  · intro other hp hv
    have := h.longest (front ++ other) ((List.prefix_append_right_inj front).2 hp)
      ((h.valid.append_iff other).2 hv)
    rw [List.length_append] at this
    rw [List.length_nil]
    omega

end IsLongestValid

/-- The verdict behind a text `front` and the beginning `part` of a character. -/
theorem isLongestValid_checkFrom {s : State} (front part bytes : Bytes)
    (hfront : IsLongestValid front (front ++ part)) (hrun : run .boundary part = some s) :
    let v := checkFrom s front.length part.length bytes
    IsLongestValid ((front ++ part ++ bytes).take v.valid) (front ++ part ++ bytes) := by
  induction bytes generalizing s front part with
  | nil => simpa [checkFrom] using hfront
  | cons b bytes ih =>
    have hsplit : front ++ part ++ b :: bytes = front ++ (part ++ [b]) ++ bytes := by simp
    have hstep : run .boundary (part ++ [b]) = step s b := by
      rw [run_append, hrun]
      simp [run]
    have hvalid : Valid (front ++ (part ++ [b])) ↔ step s b = some .boundary := by
      rw [hfront.valid.append_iff, ← hstep]
      rfl
    unfold checkFrom
    cases hb : step s b with
    | none =>
      have hnone : ¬Begins (front ++ (part ++ [b])) := by
        rw [hfront.valid.begins_append_iff, begins_iff, hstep, hb]
        simp
      have hsnoc := hfront.snoc (b := b) (by rw [List.append_assoc, hvalid, hb]; simp)
      rw [List.append_assoc] at hsnoc
      have := hsnoc.append hnone bytes
      rw [hsplit]
      simpa using this
    | some t =>
      cases t with
      | boundary =>
        have htext := hvalid.2 hb
        have hself : IsLongestValid (front ++ (part ++ [b])) (front ++ (part ++ [b]) ++ []) := by
          rw [List.append_nil]
          exact .of_valid htext
        have := ih _ [] hself rfl
        rw [hsplit]
        simpa [Nat.add_assoc] using this
      | inside more low high =>
        have hsnoc := hfront.snoc (b := b) (by rw [List.append_assoc, hvalid, hb]; simp)
        rw [List.append_assoc] at hsnoc
        have := ih front _ hsnoc (hstep.trans hb)
        rw [hsplit]
        simpa using this

theorem isLongestValid_check (bytes : Bytes) :
    IsLongestValid (bytes.take (check bytes).valid) bytes :=
  isLongestValid_checkFrom [] [] bytes (.of_valid valid_nil) rfl

theorem valid_checkFrom_le (s : State) (valid held : Nat) (bytes : Bytes) :
    (checkFrom s valid held bytes).valid ≤ valid + held + bytes.length := by
  fun_induction checkFrom s valid held bytes <;> simp only [List.length_cons] at * <;> omega

theorem length_take_check (bytes : Bytes) :
    (bytes.take (check bytes).valid).length = (check bytes).valid := by
  have := valid_checkFrom_le .boundary 0 0 bytes
  rw [List.length_take, check]
  omega

theorem ending_checkFrom (s : State) (valid held : Nat) (bytes : Bytes) :
    (checkFrom s valid held bytes).ending = match run s bytes with
      | none => .malformed
      | some .boundary => .whole
      | some (.inside ..) => .truncated := by
  induction bytes generalizing s valid held with
  | nil => cases s <;> rfl
  | cons b bytes ih =>
    rw [run_cons, checkFrom]
    cases step s b with
    | none => rfl
    | some t => cases t <;> exact ih _ _ _

/-- What the reason for the end of the longest text says about the bytes. -/
theorem ending_check (bytes : Bytes) :
    match (check bytes).ending with
    | .whole => Valid bytes
    | .malformed => ¬Begins bytes
    | .truncated => Begins bytes ∧ ¬Valid bytes := by
  rw [check, ending_checkFrom, begins_iff]
  unfold Valid
  cases run .boundary bytes with
  | none => simp
  | some s => cases s <;> simp

/-- Behind the text at the front of bytes that are cut short, a character begins and none ends. -/
theorem cut_of_check {bytes : Bytes} {valid : Nat} (h : check bytes = ⟨valid, .truncated⟩) :
    Begins (bytes.drop valid) ∧ IsLongestValid [] (bytes.drop valid) := by
  have hending := ending_check bytes
  have hlongest := isLongestValid_check bytes
  have hsplit := (List.take_append_drop valid bytes).symm
  rw [h] at hending hlongest
  refine ⟨?_, hlongest.rest hsplit⟩
  rw [← hlongest.valid.begins_append_iff, ← hsplit]
  exact hending.1

end EditLex.Utf8
