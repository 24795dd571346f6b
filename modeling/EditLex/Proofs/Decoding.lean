import EditLex.Producer.Reader
import EditLex.Proofs.Characters
import EditLex.Proofs.Delivery

/-!
Decoding a stream of bytes. What a script gives in all does not depend on the size of the reads
(`Script.flatten_reads`), and what a reader hands out of it is the longest text before the read
that fails, with an error that names the length of the longest text there is (`Reader.decodes`).
-/
namespace EditLex

namespace Script

/-- The bytes up to the first empty answer or failure. Interruptions are passed over. -/
def content : Script → Bytes
  | [] => []
  | .error e :: s => if e.kind = .interrupted then content s else []
  | .bytes bytes :: s => if bytes = [] then [] else bytes ++ content s

/-- The failure behind these bytes, if it is one that ends them. -/
def failure : Script → Option IoError
  | [] => none
  | .error e :: s => if e.kind = .interrupted then failure s else some e
  | .bytes bytes :: s => if bytes = [] then none else failure s

/-- What reads of at most `n` bytes give one after the other until one is empty or fails, and the
failure. -/
def reads (n : Nat) (s : Script) : List Bytes × Option IoError :=
  match _h : s.read n with
  | (.error e, _) => ([], some e)
  | (.ok got, s') =>
    if _hg : got = [] then ([], none) else (got :: (reads n s').1, (reads n s').2)
termination_by s.byteCount
decreasing_by
  all_goals
    have hb := byteCount_read _h
    have hl := List.length_pos_iff.2 _hg
    omega

theorem reads_of_error {n : Nat} {s s' : Script} {e : IoError} (h : s.read n = (.error e, s')) :
    s.reads n = ([], some e) := by
  unfold reads
  split <;> simp_all

theorem reads_of_nil {n : Nat} {s s' : Script} (h : s.read n = (.ok [], s')) :
    s.reads n = ([], none) := by
  unfold reads
  split <;> simp_all

theorem reads_of_bytes {n : Nat} {s s' : Script} {got : Bytes} (h : s.read n = (.ok got, s'))
    (hg : got ≠ []) : s.reads n = (got :: (s'.reads n).1, (s'.reads n).2) := by
  rw [reads]
  split <;> simp_all

theorem content_of_error {n : Nat} {s s' : Script} {e : IoError} (h : s.read n = (.error e, s')) :
    s.content = [] ∧ s.failure = some e := by
  induction s with
  | nil => simp [read] at h
  | cons item s ih =>
    cases item with
    | bytes bytes => simp [read] at h
    | error e' =>
      unfold read at h
      simp only [content, failure]
      split at h
      · next hk =>
        rw [if_pos hk, if_pos hk]
        exact ih h
      · next hk =>
        simp only [Prod.mk.injEq, Except.error.injEq] at h
        rw [if_neg hk, if_neg hk, h.1]
        exact ⟨rfl, rfl⟩

theorem content_of_bytes {n : Nat} (hn : 0 < n) {s s' : Script} {got : Bytes}
    (h : s.read n = (.ok got, s')) :
    s.content = (if got = [] then [] else got ++ s'.content) ∧
      s.failure = if got = [] then none else s'.failure := by
  induction s with
  | nil =>
    simp only [read, Prod.mk.injEq, Except.ok.injEq] at h
    rw [if_pos h.1.symm, if_pos h.1.symm]
    exact ⟨rfl, rfl⟩
  | cons item s ih =>
    cases item with
    | error e =>
      unfold read at h
      simp only [content, failure]
      split at h
      · next hk =>
        rw [if_pos hk, if_pos hk]
        exact ih h
      · simp at h
    | bytes bytes =>
      simp only [read, Prod.mk.injEq, Except.ok.injEq] at h
      obtain ⟨rfl, rfl⟩ := h
      simp only [content, failure, List.take_eq_nil_iff, Nat.ne_of_gt hn, false_or]
      by_cases hb : bytes = []
      · rw [if_pos hb, if_pos hb, if_pos hb, if_pos hb]
        exact ⟨rfl, rfl⟩
      · rw [if_neg hb, if_neg hb, if_neg hb, if_neg hb]
        have hsplit := List.take_append_drop n bytes
        split
        · next hd =>
          rw [hd, List.append_nil] at hsplit
          rw [hsplit]
          exact ⟨rfl, rfl⟩
        · next hd =>
          simp only [content, failure]
          rw [if_neg hd, if_neg hd, ← List.append_assoc, hsplit]
          exact ⟨rfl, rfl⟩

/-- However large the reads, they give the same bytes and the same failure. -/
theorem flatten_reads {n : Nat} (hn : 0 < n) (s : Script) :
    (s.reads n).1.flatten = s.content ∧ (s.reads n).2 = s.failure := by
  induction hc : s.byteCount using Nat.strongRecOn generalizing s with
  | ind count ih =>
    rcases h : s.read n with ⟨e | got, s'⟩
    · obtain ⟨hcontent, hfailure⟩ := content_of_error h
      rw [reads_of_error h, hcontent, hfailure]
      exact ⟨rfl, rfl⟩
    · obtain ⟨hcontent, hfailure⟩ := content_of_bytes hn h
      by_cases hg : got = []
      · subst hg
        rw [reads_of_nil h, hcontent, hfailure]
        exact ⟨rfl, rfl⟩
      · have hcount := byteCount_read h
        have hpos := List.length_pos_iff.2 hg
        obtain ⟨hi, hi'⟩ := ih s'.byteCount (by omega) s' rfl
        rw [reads_of_bytes h hg, hcontent, hfailure, if_neg hg, if_neg hg, ← hi, ← hi']
        exact ⟨rfl, rfl⟩

end Script

namespace Reader

/-- The reader can go on: what it has kept back begins a character and ends none. -/
structure Waits (r : Reader) : Prop where
  active : r.ended = false
  clean : r.error = none
  begins : Utf8.Begins r.held
  longest : Utf8.IsLongestValid [] r.held

theorem waits_ofScript (script : Script) (chunkSize : Nat) : (ofScript script chunkSize).Waits where
  active := rfl
  clean := rfl
  begins := Utf8.valid_nil.begins
  longest := .of_valid Utf8.valid_nil

theorem room_ofScript (script : Script) {chunkSize : Nat} (h : chunkSize + 3 ≤ bufferLimit) :
    (ofScript script chunkSize).chunkSize + 3 ≤ bufferLimit := by
  simp only [ofScript, bufferLimit] at *
  omega

theorem call_of_ended {r : Reader} (h : r.ended = true) : r.call = .ok ⟨[], r, []⟩ := by
  rw [call, if_pos h]

theorem next_of_ended {r : Reader} (h : r.ended = true) : next r = ⟨[], r, []⟩ := by
  rw [next, call_of_ended h]
  rfl

/-- Where there is no room for a buffer a call reads nothing. -/
theorem call_of_large {r : Reader} (h : r.ended = false)
    (hlarge : bufferLimit < r.held.length + r.chunkSize) :
    r.call = .error { r with held := [] } := by
  rw [call, if_neg (by simp [h]), if_pos hlarge]

namespace Waits
variable {r : Reader} {script : Script}

/-- What is held is the beginning of a character. -/
theorem exists_char (w : r.Waits) (h : r.held ≠ []) :
    ∃ char rest, rest ≠ [] ∧ r.held ++ rest = String.utf8EncodeChar char :=
  Utf8.exists_char_of_begins w.begins w.longest h

theorem length_held_le (w : r.Waits) : r.held.length ≤ 3 := by
  by_cases h : r.held = []
  · rw [h]
    exact Nat.zero_le 3
  · obtain ⟨char, rest, hrest, hchar⟩ := w.exists_char h
    have hlength := congrArg List.length hchar
    have hsize := char.utf8Size_le_four
    have hpos := List.length_pos_iff.2 hrest
    rw [List.length_append, String.length_utf8EncodeChar] at hlength
    omega

section
variable (w : r.Waits) (hroom : r.held.length + r.chunkSize ≤ bufferLimit)
include w hroom

theorem call_of_error {e : IoError} (h : r.script.read r.chunkSize = (.error e, script)) :
    r.call = .ok (stop { r with script, held := [] } (.io e.text)) := by
  rw [call, if_neg (by simp [w.active]), if_neg (Nat.not_lt.2 hroom)]
  split <;> simp_all

theorem call_of_nil (h : r.script.read r.chunkSize = (.ok [], script)) :
    r.call = if r.held.isEmpty then .ok ⟨[], { r with script, ended := true }, []⟩
      else .ok (stop { r with script, held := [] } (.invalidUtf8 r.given)) := by
  rw [call, if_neg (by simp [w.active]), if_neg (Nat.not_lt.2 hroom)]
  split <;> simp_all

theorem call_of_bytes {got : Bytes} (h : r.script.read r.chunkSize = (.ok got, script))
    (hg : got ≠ []) :
    r.call = match Utf8.check (r.held ++ got) with
      | ⟨_, .whole⟩ => .ok (handOut { r with script, held := [] } (r.held ++ got))
      | ⟨valid, .malformed⟩ =>
        .ok (stop { r with script, held := [] } (.invalidUtf8 (r.given + valid)))
      | ⟨valid, .truncated⟩ =>
        let r' := { r with script, held := (r.held ++ got).drop valid }
        if valid = 0 then r'.call else .ok (handOut r' ((r.held ++ got).take valid)) := by
  have hvalid := (Utf8.isLongestValid_check (r.held ++ got)).valid
  rw [call, if_neg (by simp [w.active]), if_neg (Nat.not_lt.2 hroom)]
  split
  · simp_all
  · next h' =>
    rw [h, Prod.mk.injEq, Except.ok.injEq] at h'
    obtain ⟨rfl, rfl⟩ := h'
    rw [dif_neg hg]
    dsimp only
    rcases hc : Utf8.check (r.held ++ got) with ⟨valid, _ | _ | _⟩
    · rfl
    · rfl
    · rw [hc] at hvalid
      simp only [if_pos hvalid]

end
end Waits

/-- What `held` and the reads behind it have to give, `base` bytes having been handed out: the texts
in `given`, and the failure that ends them. -/
structure Decodes (base : Nat) (held : Bytes) (reads : List Bytes) (io : Option IoError)
    (given : Bytes) (failure : Option ReadFailure) : Prop where
  whole : Utf8.Valid (held ++ reads.flatten) → io = none →
    given = held ++ reads.flatten ∧ failure = none
  /-- The read that brings the byte in question gives nothing, not even what precedes that byte. -/
  refused : ¬Utf8.Begins (held ++ reads.flatten) → ∃ before got after text,
    reads = before ++ got :: after ∧ Utf8.Begins (held ++ before.flatten) ∧
      ¬Utf8.Begins (held ++ before.flatten ++ got) ∧
      Utf8.IsLongestValid given (held ++ before.flatten) ∧
      Utf8.IsLongestValid text (held ++ before.flatten ++ got) ∧
      failure = some (.invalidUtf8 (base + text.length))
  cut : Utf8.Begins (held ++ reads.flatten) → ¬Utf8.Valid (held ++ reads.flatten) →
    io = none → Utf8.IsLongestValid given (held ++ reads.flatten) ∧
      failure = some (.invalidUtf8 (base + given.length))
  failed : ∀ e, Utf8.Begins (held ++ reads.flatten) → io = some e →
    Utf8.IsLongestValid given (held ++ reads.flatten) ∧ failure = some (.io e.text)

namespace Decodes
variable {base : Nat} {held got : Bytes} {reads : List Bytes} {io : Option IoError}

theorem of_end (base : Nat) : Decodes base [] [] none [] none where
  whole _ _ := ⟨rfl, rfl⟩
  refused h := absurd Utf8.valid_nil.begins h
  cut _ h := absurd Utf8.valid_nil h
  failed _ _ h := nomatch h

theorem of_error (base : Nat) (hb : Utf8.Begins held) (hl : Utf8.IsLongestValid [] held)
    (e : IoError) : Decodes base held [] (some e) [] (some (.io e.text)) := by
  have hall : held ++ ([] : List Bytes).flatten = held := List.append_nil held
  constructor
  · intro _ hio
    contradiction
  · intro h
    exfalso
    apply h
    rw [hall]
    exact hb
  · intro _ _ hio
    contradiction
  · rintro _ _ ⟨rfl⟩
    rw [hall]
    exact ⟨hl, rfl⟩

theorem of_cut (base : Nat) (hb : Utf8.Begins held) (hl : Utf8.IsLongestValid [] held)
    (hne : held ≠ []) : Decodes base held [] none [] (some (.invalidUtf8 base)) := by
  have hall : held ++ ([] : List Bytes).flatten = held := List.append_nil held
  constructor
  · intro hv _
    rw [hall] at hv
    exact absurd (hl.eq_of_valid hv).symm hne
  · intro h
    exfalso
    apply h
    rw [hall]
    exact hb
  · intro _ _ _
    rw [hall]
    exact ⟨hl, rfl⟩
  · intro _ _ hio
    contradiction

theorem of_refused (base : Nat) (hb : Utf8.Begins held) (hl : Utf8.IsLongestValid [] held)
    (hg : ¬Utf8.Begins (held ++ got)) {text : Bytes} (ht : Utf8.IsLongestValid text (held ++ got)) :
    Decodes base held (got :: reads) io [] (some (.invalidUtf8 (base + text.length))) := by
  have hall : ¬Utf8.Begins (held ++ (got :: reads).flatten) := by
    rw [List.flatten_cons, ← List.append_assoc]
    intro h
    apply hg
    exact h.of_append
  have hnil : held ++ ([] : List Bytes).flatten = held := List.append_nil held
  constructor
  · intro hv _
    exact absurd hv.begins hall
  · intro _
    refine ⟨[], got, reads, text, rfl, ?_, ?_, ?_, ?_, rfl⟩ <;> rwa [hnil]
  · intro h _ _
    exact absurd h hall
  · intro _ h _
    exact absurd h hall

/-- A read that completes `text` and leaves `rest` behind it. -/
theorem cons {text rest given : Bytes} {failure : Option ReadFailure} (ht : Utf8.Valid text)
    (hsplit : held ++ got = text ++ rest)
    (h : Decodes (base + text.length) rest reads io given failure) :
    Decodes base held (got :: reads) io (text ++ given) failure := by
  have hall (more : Bytes) : held ++ (got ++ more) = text ++ (rest ++ more) := by
    rw [← List.append_assoc, hsplit, List.append_assoc]
  constructor
  · intro hv hio
    rw [List.flatten_cons, hall, ht.append_iff] at hv
    obtain ⟨rfl, hfailure⟩ := h.whole hv hio
    exact ⟨by rw [List.flatten_cons, hall], hfailure⟩
  · intro hb
    rw [List.flatten_cons, hall, ht.begins_append_iff] at hb
    obtain ⟨before, last, after, decoded, hreads, hbefore, hlast, hgiven, hdecoded, hfailure⟩ :=
      h.refused hb
    refine ⟨got :: before, last, after, text ++ decoded, by rw [hreads]; rfl, ?_, ?_, ?_, ?_, ?_⟩
    · rwa [List.flatten_cons, hall, ht.begins_append_iff]
    · rwa [List.flatten_cons, hall, List.append_assoc, ht.begins_append_iff]
    · rw [List.flatten_cons, hall]
      exact hgiven.append_left ht
    · rw [List.flatten_cons, hall, List.append_assoc]
      exact hdecoded.append_left ht
    · rw [hfailure, List.length_append, Nat.add_assoc]
  · intro hb hv hio
    rw [List.flatten_cons, hall] at hb hv ⊢
    obtain ⟨hgiven, hfailure⟩ := h.cut ((ht.begins_append_iff _).1 hb)
      (fun h => hv ((ht.append_iff _).2 h)) hio
    exact ⟨hgiven.append_left ht, by rw [hfailure, List.length_append, Nat.add_assoc]⟩
  · intro e hb hio
    rw [List.flatten_cons, hall] at hb ⊢
    obtain ⟨hgiven, hfailure⟩ := h.failed e ((ht.begins_append_iff _).1 hb) hio
    exact ⟨hgiven.append_left ht, hfailure⟩

end Decodes

/-- A call that comes back is a delivery for which there was room. -/
theorem room_of_call {r : Reader} {d : Delivery Reader} (h : r.call = .ok d) :
    Producer.hasRoom r = true ∧ Producer.next r = d :=
  ⟨congrArg Except.isOk h, congrArg delivery h⟩

theorem delivers_nil {r : Reader} {d : Delivery Reader} (h : r.call = .ok d) (hd : d.chunk = []) :
    Producer.Delivers r [] d.rest := by
  obtain ⟨hroom, rfl⟩ := room_of_call h
  exact .ended hroom hd

theorem delivers_cons {r t : Reader} {d : Delivery Reader} {chunks : List Bytes}
    (h : r.call = .ok d) (hd : d.chunk ≠ []) (ht : Producer.Delivers d.rest chunks t) :
    Producer.Delivers r (d.chunk :: chunks) t := by
  obtain ⟨hroom, rfl⟩ := room_of_call h
  exact .more hroom hd ht

namespace Waits
variable {r : Reader}

/-- There is always room if there is room behind three bytes. -/
theorem room (w : r.Waits) (hsize : r.chunkSize + 3 ≤ bufferLimit) :
    r.held.length + r.chunkSize ≤ bufferLimit := by
  have := w.length_held_le
  omega

theorem keep (w : r.Waits) (script : Script) (given : Nat) {held : Bytes}
    (hbegins : Utf8.Begins held) (hlongest : Utf8.IsLongestValid [] held) :
    ({ r with script, held, given } : Reader).Waits :=
  ⟨w.active, w.clean, hbegins, hlongest⟩

end Waits

/-- Asked until a chunk is empty, the reader has handed out these texts, which are what it had to
give, and has come to its end as `t`. -/
structure Yields (r t : Reader) (chunks : List Bytes) : Prop where
  delivers : Producer.Delivers r chunks t
  ended : t.ended = true
  valid : ∀ chunk ∈ chunks, Utf8.Valid chunk
  decodes : Decodes r.given r.held (r.script.reads r.chunkSize).1 (r.script.reads r.chunkSize).2
    chunks.flatten t.error

namespace Yields
variable {r t : Reader} {script : Script} {got held text : Bytes} {chunks : List Bytes}

theorem of_stop {d : Delivery Reader} (hcall : r.call = .ok d) (hchunk : d.chunk = [])
    (hended : d.rest.ended = true)
    (hdecodes : Decodes r.given r.held (r.script.reads r.chunkSize).1
      (r.script.reads r.chunkSize).2 [] d.rest.error) : r.Yields d.rest [] where
  delivers := delivers_nil hcall hchunk
  ended := hended
  valid _ h := absurd h List.not_mem_nil
  decodes := hdecodes

variable (hread : r.script.read r.chunkSize = (.ok got, script)) (hgot : got ≠ [])
include hread hgot

/-- The call hands out a text and leaves `held` behind it. -/
theorem handOut (hcall : r.call = .ok (Reader.handOut { r with script, held } text))
    (htext : Utf8.Valid text) (hne : text ≠ []) (hsplit : r.held ++ got = text ++ held)
    (h : Yields { r with script, held, given := r.given + text.length } t chunks) :
    r.Yields t (text :: chunks) where
  delivers := delivers_cons hcall hne h.delivers
  ended := h.ended
  valid := List.forall_mem_cons.2 ⟨htext, h.valid⟩
  decodes := by
    rw [Script.reads_of_bytes hread hgot]
    exact h.decodes.cons htext hsplit

/-- The call reads again, with all that it has read so far. -/
theorem again (hcall : r.call = Reader.call { r with script, held := r.held ++ got })
    (h : Yields { r with script, held := r.held ++ got } t chunks) : r.Yields t chunks where
  delivers :=
    h.delivers.of_next ((congrArg Except.isOk hcall).trans h.delivers.room)
      (congrArg delivery hcall)
  ended := h.ended
  valid := h.valid
  decodes := by
    rw [Script.reads_of_bytes hread hgot]
    exact h.decodes.cons Utf8.valid_nil rfl

end Yields

namespace Waits
variable {r : Reader} {script : Script} (w : r.Waits)
  (hroom : r.held.length + r.chunkSize ≤ bufferLimit)
include w hroom

theorem yields_of_error {e : IoError} (hread : r.script.read r.chunkSize = (.error e, script)) :
    ∃ t, r.Yields t [] := by
  refine ⟨_, .of_stop (w.call_of_error hroom hread) rfl rfl ?_⟩
  rw [Script.reads_of_error hread]
  exact .of_error r.given w.begins w.longest e

/-- The stream ends, behind a whole character or within one. -/
theorem yields_of_nil (hread : r.script.read r.chunkSize = (.ok [], script)) :
    ∃ t, r.Yields t [] := by
  have hcall := w.call_of_nil hroom hread
  by_cases hheld : r.held = []
  · rw [if_pos (List.isEmpty_iff.2 hheld)] at hcall
    refine ⟨_, .of_stop hcall rfl rfl ?_⟩
    rw [Script.reads_of_nil hread, hheld]
    simp only [w.clean]
    exact .of_end r.given
  · rw [if_neg (mt List.isEmpty_iff.1 hheld)] at hcall
    refine ⟨_, .of_stop hcall rfl rfl ?_⟩
    rw [Script.reads_of_nil hread]
    exact .of_cut r.given w.begins w.longest hheld

omit hroom in
/-- A reader that can go on decodes what it holds and the reads to come, by induction on the bytes
it has not read. -/
theorem yields (hsize : r.chunkSize + 3 ≤ bufferLimit) : ∃ chunks t, r.Yields t chunks := by
  induction hc : r.script.byteCount using Nat.strongRecOn generalizing r with
  | ind count ih =>
    have hroom := w.room hsize
    rcases hread : r.script.read r.chunkSize with ⟨e | got, script⟩
    · exact ⟨[], w.yields_of_error hroom hread⟩
    by_cases hgot : got = []
    · exact ⟨[], w.yields_of_nil hroom (hgot ▸ hread)⟩
    have hcall := w.call_of_bytes hroom hread hgot
    have hlongest := Utf8.isLongestValid_check (r.held ++ got)
    have hlength := Utf8.length_take_check (r.held ++ got)
    have hending := Utf8.ending_check (r.held ++ got)
    have hless : script.byteCount < count := by
      have hcount := Script.byteCount_read hread
      have hpos := List.length_pos_iff.2 hgot
      omega
    rcases hcheck : Utf8.check (r.held ++ got) with ⟨valid, _ | _ | _⟩ <;>
      rw [hcheck] at hcall hlongest hlength hending <;> dsimp only at hcall hlongest hlength hending
    · -- A text.
      have hempty := Utf8.valid_nil
      have w' := w.keep script (r.given + (r.held ++ got).length) hempty.begins (.of_valid hempty)
      obtain ⟨chunks, t, h⟩ := ih _ hless w' hsize rfl
      exact ⟨_, t, .handOut hread hgot hcall hending (by simp [hgot]) (List.append_nil _).symm h⟩
    · -- No text begins so.
      refine ⟨[], _, .of_stop hcall rfl rfl ?_⟩
      rw [Script.reads_of_bytes hread hgot]
      show Decodes _ _ (got :: _) _ [] (some (.invalidUtf8 (r.given + valid)))
      rw [← hlength]
      exact .of_refused r.given w.begins w.longest hending hlongest
    · -- The last character is cut short.
      obtain ⟨hbegins, hrest⟩ := Utf8.cut_of_check hcheck
      by_cases hzero : valid = 0
      · subst hzero
        rw [if_pos rfl] at hcall
        obtain ⟨chunks, t, h⟩ := ih _ hless (w.keep script r.given hbegins hrest) hsize rfl
        exact ⟨chunks, t, .again hread hgot hcall h⟩
      · rw [if_neg hzero] at hcall
        have hne : (r.held ++ got).take valid ≠ [] := List.length_pos_iff.1 (by omega)
        have w' := w.keep script (r.given + ((r.held ++ got).take valid).length) hbegins hrest
        obtain ⟨chunks, t, h⟩ := ih _ hless w' hsize rfl
        exact ⟨_, t, .handOut hread hgot hcall hlongest.valid hne
          (List.take_append_drop valid _).symm h⟩

end Waits

/-- However a stream is cut into reads, as long as a buffer has room for one behind three bytes of a
character, asking for chunks until one is empty gives texts. A stream that is a text comes out
whole. Bytes that no text begins with are refused by the read that brings
them: the texts before that read come out, and the failure names the length of the longest text at
the front of the stream. A character that the end of the stream or a failed read cuts short is left
out. After that nothing is read again. -/
theorem decodes (script : Script) {chunkSize : Nat} (h : chunkSize + 3 ≤ bufferLimit) :
    ∃ chunks r, Producer.Delivers (ofScript script chunkSize) chunks r ∧
      (∀ chunk ∈ chunks, chunk ≠ [] ∧ Utf8.Valid chunk) ∧
      (Utf8.Valid script.content → script.failure = none →
        chunks.flatten = script.content ∧ r.takeFailure.1 = none) ∧
      (¬Utf8.Begins script.content → ∃ before got after text,
        (script.reads (max chunkSize 1)).1 = before ++ got :: after ∧
          Utf8.Begins before.flatten ∧ ¬Utf8.Begins (before.flatten ++ got) ∧
          Utf8.IsLongestValid chunks.flatten before.flatten ∧
          Utf8.IsLongestValid text (before.flatten ++ got) ∧
          Utf8.IsLongestValid text script.content ∧
          r.takeFailure.1 = some (.invalidUtf8 text.length)) ∧
      (Utf8.Begins script.content → ¬Utf8.Valid script.content → script.failure = none →
        Utf8.IsLongestValid chunks.flatten script.content ∧
          r.takeFailure.1 = some (.invalidUtf8 chunks.flatten.length)) ∧
      (∀ e, Utf8.Begins script.content → script.failure = some e →
        Utf8.IsLongestValid chunks.flatten script.content ∧ r.takeFailure.1 = some (.io e.text)) ∧
      ∀ later, let ended := { r with script := later }
        next ended = ⟨[], ended, []⟩ ∧
          next ended.takeFailure.2 = ⟨[], ended.takeFailure.2, []⟩ := by
  obtain ⟨chunks, r, hdelivers, hended, hvalid, hdecodes⟩ :=
    (waits_ofScript script chunkSize).yields (room_ofScript script h)
  obtain ⟨hcontent, hfailure⟩ := script.flatten_reads (show 0 < max chunkSize 1 by omega)
  change Decodes 0 [] (script.reads (max chunkSize 1)).1 (script.reads (max chunkSize 1)).2
    chunks.flatten r.error at hdecodes
  have hwhole := hdecodes.whole
  have hrefused := hdecodes.refused
  have hcut := hdecodes.cut
  have hfailed := hdecodes.failed
  simp only [List.nil_append, Nat.zero_add, hcontent, hfailure] at hwhole hrefused hcut hfailed
  refine ⟨chunks, r, hdelivers, ?_, hwhole, ?_, hcut, hfailed, ?_⟩
  · intro chunk hchunk
    exact ⟨hdelivers.nonempty hchunk, hvalid chunk hchunk⟩
  · intro hb
    obtain ⟨before, got, after, text, hreads, hbefore, hgot, hgiven, htext, herror⟩ := hrefused hb
    refine ⟨before, got, after, text, hreads, hbefore, hgot, hgiven, htext, ?_, herror⟩
    have hall : script.content = before.flatten ++ got ++ after.flatten := by
      rw [← hcontent, hreads, List.flatten_append, List.flatten_cons, List.append_assoc]
    rw [hall]
    exact htext.append hgot after.flatten
  · intro later ended
    exact ⟨next_of_ended hended, next_of_ended hended⟩

/-- Read byte by byte, a character loses its last byte: what precedes it comes out. -/
theorem decodes_character_cut_short :
    let script : Script := [.bytes [0x61, 0xE2], .error ⟨.interrupted, none⟩, .bytes [0x82]]
    0 + 3 ≤ bufferLimit ∧ ∃ chunks r, Producer.Delivers (ofScript script 0) chunks r ∧
      chunks.flatten = [0x61] ∧ r.takeFailure.1 = some (.invalidUtf8 1) := by
  intro script
  have hsize : 0 + 3 ≤ bufferLimit := by decide
  obtain ⟨chunks, r, hdelivers, -, -, -, hcut, -⟩ := decodes script hsize
  obtain ⟨hgiven, hfailure⟩ := hcut (Utf8.begins_iff.2 ⟨_, rfl⟩) (by decide) rfl
  have hlongest := hgiven.unique (Utf8.isLongestValid_check _)
  have hflatten : chunks.flatten = [0x61] := hlongest.trans (by decide)
  rw [hflatten] at hfailure
  exact ⟨hsize, chunks, r, hdelivers, hflatten, hfailure⟩

end Reader
end EditLex
