import EditLex.Proofs.ValidPrefix

/-!
The machine reads UTF-8: the bytes it finds valid are the encodings of texts (`Utf8.valid_iff`), one
character after the other, and what it finds cut short is the beginning of one character
(`Utf8.exists_char_of_begins`).
-/
namespace EditLex.Utf8

theorem opening_eq (b : UInt8) : opening b =
    if b.toNat < 0x80 then some .boundary
    else if b.toNat < 0xC2 then none
    else if b.toNat < 0xE0 then some (.inside 0 0x80 0xBF)
    else if b.toNat = 0xE0 then some (.inside 1 0xA0 0xBF)
    else if b.toNat = 0xED then some (.inside 1 0x80 0x9F)
    else if b.toNat < 0xF0 then some (.inside 1 0x80 0xBF)
    else if b.toNat = 0xF0 then some (.inside 2 0x90 0xBF)
    else if b.toNat < 0xF4 then some (.inside 2 0x80 0xBF)
    else if b.toNat = 0xF4 then some (.inside 2 0x80 0x8F)
    else none := by
  simp only [opening, UInt8.lt_iff_toNat_lt, ← UInt8.toNat_inj]
  rfl

theorem valid_cons_iff {b : UInt8} {bytes : Bytes} :
    Valid (b :: bytes) ↔ ∃ s, opening b = some s ∧ run s bytes = some .boundary := by
  unfold Valid
  rw [run_cons, Option.bind_eq_some_iff]
  rfl

/-- The state before `n` continuation bytes. -/
def State.owing : Nat → State
  | 0 => .boundary
  | n + 1 => .inside n 0x80 0xBF

theorem step_inside_iff {more : Nat} {low high b : UInt8} {t : State} :
    step (.inside more low high) b = some t ↔
      (low.toNat ≤ b.toNat ∧ b.toNat ≤ high.toNat) ∧ t = .owing more := by
  simp only [step, ← UInt8.le_iff_toNat_le]
  split
  · next h => cases more <;> simp [h, State.owing, eq_comm]
  · next h => simp [h]

theorem exists_of_run_inside {more : Nat} {low high : UInt8} {bytes : Bytes}
    (h : run (.inside more low high) bytes = some .boundary) :
    ∃ b rest, bytes = b :: rest ∧ (low.toNat ≤ b.toNat ∧ b.toNat ≤ high.toNat) ∧
      run (.owing more) rest = some .boundary := by
  cases bytes with
  | nil => cases h
  | cons b rest =>
    rw [run_cons] at h
    obtain ⟨t, ht, h⟩ := Option.bind_eq_some_iff.1 h
    obtain ⟨hb, rfl⟩ := step_inside_iff.1 ht
    exact ⟨b, rest, rfl, hb, h⟩

theorem run_inside_cons {more : Nat} (low high : UInt8) {b : UInt8} {bytes : Bytes}
    (h : low.toNat ≤ b.toNat ∧ b.toNat ≤ high.toNat) :
    run (.inside more low high) (b :: bytes) = run (.owing more) bytes := by
  rw [run_cons, step_inside_iff.2 ⟨h, rfl⟩]
  rfl

theorem ofNat_eq {n : Nat} {b : UInt8} (h : n = b.toNat) : UInt8.ofNat n = b := by
  rw [h, UInt8.ofNat_toNat]

/-- The encoding of the character with the number `n`. -/
theorem encode_eq {c : Char} {n : Nat} (h : c.toNat = n) : String.utf8EncodeChar c =
    if n ≤ 0x7F then [UInt8.ofNat n]
    else if n ≤ 0x7FF then [UInt8.ofNat (n / 64 % 32 + 0xC0), UInt8.ofNat (n % 64 + 0x80)]
    else if n ≤ 0xFFFF then
      [UInt8.ofNat (n / 4096 % 16 + 0xE0), UInt8.ofNat (n / 64 % 64 + 0x80),
        UInt8.ofNat (n % 64 + 0x80)]
    else
      [UInt8.ofNat (n / 262144 % 8 + 0xF0), UInt8.ofNat (n / 4096 % 64 + 0x80),
        UInt8.ofNat (n / 64 % 64 + 0x80), UInt8.ofNat (n % 64 + 0x80)] := by
  subst h
  rfl

theorem exists_char {n : Nat} (h : n.isValidChar) : ∃ c : Char, c.toNat = n :=
  ⟨.ofNatAux n h, rfl⟩

theorem exists_encode_one {a : UInt8} (ha : a.toNat < 0x80) :
    ∃ char, String.utf8EncodeChar char = [a] := by
  obtain ⟨char, hchar⟩ := exists_char (n := a.toNat) (.inl (by omega))
  refine ⟨char, (encode_eq hchar).trans ?_⟩
  rw [if_pos (by omega), ofNat_eq rfl]

theorem exists_encode_two {a b : UInt8} (ha : 0xC2 ≤ a.toNat ∧ a.toNat < 0xE0)
    (hb : 0x80 ≤ b.toNat ∧ b.toNat ≤ 0xBF) : ∃ char, String.utf8EncodeChar char = [a, b] := by
  obtain ⟨n, hn⟩ : ∃ n, n = (a.toNat - 0xC0) * 64 + (b.toNat - 0x80) := ⟨_, rfl⟩
  obtain ⟨char, hchar⟩ := exists_char (n := n) (.inl (by omega))
  refine ⟨char, (encode_eq hchar).trans ?_⟩
  rw [if_neg (by omega), if_pos (by omega), ofNat_eq (b := a) (by omega),
    ofNat_eq (b := b) (by omega)]

theorem exists_encode_three {a b c : UInt8} (ha : 0xE0 ≤ a.toNat ∧ a.toNat < 0xF0)
    (hb : 0x80 ≤ b.toNat ∧ b.toNat ≤ 0xBF) (hc : 0x80 ≤ c.toNat ∧ c.toNat ≤ 0xBF)
    (hlong : a.toNat = 0xE0 → 0xA0 ≤ b.toNat) (hsurrogate : a.toNat = 0xED → b.toNat ≤ 0x9F) :
    ∃ char, String.utf8EncodeChar char = [a, b, c] := by
  obtain ⟨n, hn⟩ : ∃ n, n =
      (a.toNat - 0xE0) * 4096 + (b.toNat - 0x80) * 64 + (c.toNat - 0x80) := ⟨_, rfl⟩
  have hvalid : n.isValidChar := by
    unfold Nat.isValidChar
    omega
  obtain ⟨char, hchar⟩ := exists_char hvalid
  refine ⟨char, (encode_eq hchar).trans ?_⟩
  rw [if_neg (by omega), if_neg (by omega), if_pos (by omega), ofNat_eq (b := a) (by omega),
    ofNat_eq (b := b) (by omega), ofNat_eq (b := c) (by omega)]

theorem exists_encode_four {a b c d : UInt8} (ha : 0xF0 ≤ a.toNat ∧ a.toNat ≤ 0xF4)
    (hb : 0x80 ≤ b.toNat ∧ b.toNat ≤ 0xBF) (hc : 0x80 ≤ c.toNat ∧ c.toNat ≤ 0xBF)
    (hd : 0x80 ≤ d.toNat ∧ d.toNat ≤ 0xBF) (hlong : a.toNat = 0xF0 → 0x90 ≤ b.toNat)
    (hlarge : a.toNat = 0xF4 → b.toNat ≤ 0x8F) :
    ∃ char, String.utf8EncodeChar char = [a, b, c, d] := by
  obtain ⟨n, hn⟩ : ∃ n, n = (a.toNat - 0xF0) * 262144 + (b.toNat - 0x80) * 4096 +
      (c.toNat - 0x80) * 64 + (d.toNat - 0x80) := ⟨_, rfl⟩
  obtain ⟨char, hchar⟩ := exists_char (n := n) (.inr (by omega))
  refine ⟨char, (encode_eq hchar).trans ?_⟩
  rw [if_neg (by omega), if_neg (by omega), if_neg (by omega), ofNat_eq (b := a) (by omega),
    ofNat_eq (b := b) (by omega), ofNat_eq (b := c) (by omega), ofNat_eq (b := d) (by omega)]

theorem valid_two {a b : UInt8} (ha : 0xC2 ≤ a.toNat ∧ a.toNat < 0xE0)
    (hb : 0x80 ≤ b.toNat ∧ b.toNat ≤ 0xBF) : Valid [a, b] := by
  rw [valid_cons_iff, opening_eq, if_neg (by omega), if_neg (by omega), if_pos (by omega)]
  exact ⟨.inside 0 0x80 0xBF, rfl, run_inside_cons 0x80 0xBF hb⟩

theorem valid_three {a b c : UInt8} (ha : 0xE0 ≤ a.toNat ∧ a.toNat < 0xF0)
    (hb : 0x80 ≤ b.toNat ∧ b.toNat ≤ 0xBF) (hc : 0x80 ≤ c.toNat ∧ c.toNat ≤ 0xBF)
    (hlong : a.toNat = 0xE0 → 0xA0 ≤ b.toNat) (hsurrogate : a.toNat = 0xED → b.toNat ≤ 0x9F) :
    Valid [a, b, c] := by
  rw [valid_cons_iff, opening_eq, if_neg (by omega), if_neg (by omega), if_neg (by omega)]
  by_cases hE0 : a.toNat = 0xE0
  · rw [if_pos hE0]
    exact ⟨.inside 1 0xA0 0xBF, rfl,
      (run_inside_cons 0xA0 0xBF ⟨hlong hE0, hb.2⟩).trans (run_inside_cons 0x80 0xBF hc)⟩
  by_cases hED : a.toNat = 0xED
  · rw [if_neg hE0, if_pos hED]
    exact ⟨.inside 1 0x80 0x9F, rfl,
      (run_inside_cons 0x80 0x9F ⟨hb.1, hsurrogate hED⟩).trans (run_inside_cons 0x80 0xBF hc)⟩
  · rw [if_neg hE0, if_neg hED, if_pos ha.2]
    exact ⟨.inside 1 0x80 0xBF, rfl,
      (run_inside_cons 0x80 0xBF hb).trans (run_inside_cons 0x80 0xBF hc)⟩

theorem valid_four {a b c d : UInt8} (ha : 0xF0 ≤ a.toNat ∧ a.toNat ≤ 0xF4)
    (hb : 0x80 ≤ b.toNat ∧ b.toNat ≤ 0xBF) (hc : 0x80 ≤ c.toNat ∧ c.toNat ≤ 0xBF)
    (hd : 0x80 ≤ d.toNat ∧ d.toNat ≤ 0xBF) (hlong : a.toNat = 0xF0 → 0x90 ≤ b.toNat)
    (hlarge : a.toNat = 0xF4 → b.toNat ≤ 0x8F) : Valid [a, b, c, d] := by
  have hrest : run (.owing 2) [c, d] = some .boundary :=
    (run_inside_cons 0x80 0xBF hc).trans (run_inside_cons 0x80 0xBF hd)
  rw [valid_cons_iff, opening_eq, if_neg (by omega), if_neg (by omega), if_neg (by omega),
    if_neg (by omega), if_neg (by omega), if_neg (by omega)]
  by_cases hF0 : a.toNat = 0xF0
  · rw [if_pos hF0]
    exact ⟨.inside 2 0x90 0xBF, rfl, (run_inside_cons 0x90 0xBF ⟨hlong hF0, hb.2⟩).trans hrest⟩
  by_cases hF4 : a.toNat = 0xF4
  · rw [if_neg hF0, if_neg (by omega), if_pos hF4]
    exact ⟨.inside 2 0x80 0x8F, rfl, (run_inside_cons 0x80 0x8F ⟨hb.1, hlarge hF4⟩).trans hrest⟩
  · rw [if_neg hF0, if_pos (by omega)]
    exact ⟨.inside 2 0x80 0xBF, rfl, (run_inside_cons 0x80 0xBF hb).trans hrest⟩

theorem valid_encode (char : Char) : Valid (String.utf8EncodeChar char) := by
  have hvalid : char.toNat.isValidChar := char.valid
  have htoNat {n : Nat} (h : n < 256) : (UInt8.ofNat n).toNat = n := UInt8.toNat_ofNat_of_lt' h
  have htail (n : Nat) : 0x80 ≤ (UInt8.ofNat (n % 64 + 0x80)).toNat ∧
      (UInt8.ofNat (n % 64 + 0x80)).toNat ≤ 0xBF := by
    rw [htoNat (by omega)]
    omega
  generalize hn : char.toNat = n at hvalid
  rw [encode_eq hn]
  unfold Nat.isValidChar at hvalid
  split
  · rw [valid_cons_iff, opening_eq, htoNat (by omega), if_pos (by omega)]
    exact ⟨_, rfl, rfl⟩
  split
  · apply valid_two _ (htail n)
    rw [htoNat (by omega)]
    omega
  split
  · apply valid_three _ (htail _) (htail n)
    · rw [htoNat (by omega), htoNat (by omega)]
      omega
    · rw [htoNat (by omega), htoNat (by omega)]
      omega
    · rw [htoNat (by omega)]
      omega
  · apply valid_four _ (htail _) (htail _) (htail n)
    · rw [htoNat (by omega), htoNat (by omega)]
      omega
    · rw [htoNat (by omega), htoNat (by omega)]
      omega
    · rw [htoNat (by omega)]
      omega

/-- These bytes are those of a character and then of a text. -/
def Leads (bytes : Bytes) : Prop :=
  ∃ char text, bytes = String.utf8EncodeChar char ++ text ∧ Valid text

theorem leads_one {a : UInt8} {bytes : Bytes} (ha : a.toNat < 0x80) (h : Valid bytes) :
    Leads (a :: bytes) := by
  obtain ⟨char, hchar⟩ := exists_encode_one ha
  exact ⟨char, bytes, by rw [hchar]; rfl, h⟩

theorem leads_two {a : UInt8} {bytes : Bytes} (ha : 0xC2 ≤ a.toNat ∧ a.toNat < 0xE0)
    (h : run (.inside 0 0x80 0xBF) bytes = some .boundary) : Leads (a :: bytes) := by
  obtain ⟨b, text, rfl, hb, h⟩ := exists_of_run_inside h
  obtain ⟨char, hchar⟩ := exists_encode_two ha hb
  exact ⟨char, text, by rw [hchar]; rfl, h⟩

theorem leads_three {a low high : UInt8} {bytes : Bytes} (ha : 0xE0 ≤ a.toNat ∧ a.toNat < 0xF0)
    (hl : 0x80 ≤ low.toNat) (hh : high.toNat ≤ 0xBF) (hlong : a.toNat = 0xE0 → 0xA0 ≤ low.toNat)
    (hsurrogate : a.toNat = 0xED → high.toNat ≤ 0x9F)
    (h : run (.inside 1 low high) bytes = some .boundary) : Leads (a :: bytes) := by
  obtain ⟨b, _, rfl, hb, h⟩ := exists_of_run_inside h
  obtain ⟨c, text, rfl, hc, h⟩ := exists_of_run_inside h
  obtain ⟨char, hchar⟩ := exists_encode_three (b := b) ha (by omega) hc (by omega) (by omega)
  exact ⟨char, text, by rw [hchar]; rfl, h⟩

theorem leads_four {a low high : UInt8} {bytes : Bytes} (ha : 0xF0 ≤ a.toNat ∧ a.toNat ≤ 0xF4)
    (hl : 0x80 ≤ low.toNat) (hh : high.toNat ≤ 0xBF) (hlong : a.toNat = 0xF0 → 0x90 ≤ low.toNat)
    (hlarge : a.toNat = 0xF4 → high.toNat ≤ 0x8F)
    (h : run (.inside 2 low high) bytes = some .boundary) : Leads (a :: bytes) := by
  obtain ⟨b, _, rfl, hb, h⟩ := exists_of_run_inside h
  obtain ⟨c, _, rfl, hc, h⟩ := exists_of_run_inside h
  obtain ⟨d, text, rfl, hd, h⟩ := exists_of_run_inside h
  obtain ⟨char, hchar⟩ := exists_encode_four (b := b) ha (by omega) hc hd (by omega) (by omega)
  exact ⟨char, text, by rw [hchar]; rfl, h⟩

theorem Valid.leads {a : UInt8} {bytes : Bytes} (h : Valid (a :: bytes)) : Leads (a :: bytes) := by
  obtain ⟨s, hs, hrun⟩ := valid_cons_iff.1 h
  rw [opening_eq] at hs
  -- One case for each row of the table of first bytes.
  repeat' split at hs
  all_goals cases hs
  · exact leads_one ‹_› hrun
  · exact leads_two (by omega) hrun
  · exact leads_three (by omega) (by decide) (by decide) (fun _ => by decide) (by omega) hrun
  · exact leads_three (by omega) (by decide) (by decide) (by omega) (fun _ => by decide) hrun
  · exact leads_three (by omega) (by decide) (by decide) (by omega) (by omega) hrun
  · exact leads_four (by omega) (by decide) (by decide) (fun _ => by decide) (by omega) hrun
  · exact leads_four (by omega) (by decide) (by decide) (by omega) (by omega) hrun
  · exact leads_four (by omega) (by decide) (by decide) (by omega) (fun _ => by decide) hrun

/-- Valid bytes are the encoding of a text. -/
theorem valid_iff {bytes : Bytes} :
    Valid bytes ↔ ∃ text : List Char, text.flatMap String.utf8EncodeChar = bytes := by
  constructor
  · intro h
    induction hn : bytes.length using Nat.strongRecOn generalizing bytes with
    | ind n ih =>
      cases bytes with
      | nil => exact ⟨[], rfl⟩
      | cons a bytes =>
        obtain ⟨char, rest, hsplit, hrest⟩ := h.leads
        have hlen := congrArg List.length hsplit
        have hpos := char.utf8Size_pos
        rw [List.length_append, String.length_utf8EncodeChar] at hlen
        obtain ⟨text, htext⟩ := ih rest.length (by omega) hrest rfl
        exact ⟨char :: text, by rw [List.flatMap_cons, htext, hsplit]⟩
  · rintro ⟨text, rfl⟩
    induction text with
    | nil => exact valid_nil
    | cons char text ih => exact ((valid_encode char).append_iff _).2 ih

/-- Bytes that begin a text, but with no whole character, are the beginning of one character. -/
theorem exists_char_of_begins {bytes : Bytes} (hbegins : Begins bytes)
    (hlongest : IsLongestValid [] bytes) (hne : bytes ≠ []) :
    ∃ char rest, rest ≠ [] ∧ bytes ++ rest = String.utf8EncodeChar char := by
  obtain ⟨more, hmore⟩ := hbegins
  obtain ⟨b, tail, rfl⟩ := List.exists_cons_of_ne_nil hne
  obtain ⟨char, text, hsplit, -⟩ := Valid.leads hmore
  refine ⟨char, ?_⟩
  have hchar : ¬String.utf8EncodeChar char <+: b :: tail := by
    intro hp
    have hlength := hlongest.longest _ hp (valid_encode char)
    have hpos := char.utf8Size_pos
    rw [String.length_utf8EncodeChar, List.length_nil] at hlength
    omega
  have hwhole : b :: tail <+: String.utf8EncodeChar char ++ text := ⟨more, hsplit⟩
  rcases List.prefix_or_prefix_of_prefix hwhole (List.prefix_append _ text) with hp | hp
  · obtain ⟨rest, hrest⟩ := hp
    refine ⟨rest, ?_, hrest⟩
    rintro rfl
    rw [List.append_nil] at hrest
    exact hchar (hrest ▸ List.prefix_rfl)
  · exact absurd hp hchar

end EditLex.Utf8
