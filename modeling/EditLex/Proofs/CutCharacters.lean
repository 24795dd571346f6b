import EditLex.Proofs.Decoding
import EditLex.Proofs.Supply

/-!
Characters that a read cuts short. What a reader keeps back is less than one character, and each
turn of its loop that hands out nothing makes it longer, so that a call is over after four reads
(`Reader.Waits.call_eq_trace`). Until a failure, and as long as there is room, the bytes handed out
and those kept back are all that was read (`Reader.held_is_short`).
-/
namespace EditLex
namespace Reader

/-- The bytes that a read gives. -/
def bytesOf : Except IoError Bytes → Bytes
  | .ok got => got
  | .error _ => []

/-- What a turn of the loop comes to: the delivery that ends the call, or the reader that is to read
again. -/
inductive Turn where
  | done (d : Delivery Reader)
  | again (r : Reader)

/-- The reader after a turn. -/
def Turn.rest : Turn → Reader
  | done d => d.rest
  | again r => r

/-- One turn of the loop, and the read that it takes. The text in front of a character that was cut
short goes out without another look. -/
def turn (r : Reader) : Except IoError Bytes × Turn :=
  match r.script.read r.chunkSize with
  | (.error e, script) => (.error e, .done (stop { r with script, held := [] } (.io e.text)))
  | (.ok got, script) =>
    (.ok got,
      if got = [] then
        if r.held.isEmpty then .done ⟨[], { r with script, ended := true }, []⟩
        else .done (stop { r with script, held := [] } (.invalidUtf8 r.given))
      else
        match Utf8.check (r.held ++ got) with
        | ⟨_, .whole⟩ => .done (handOut { r with script, held := [] } (r.held ++ got))
        | ⟨valid, .malformed⟩ =>
          .done (stop { r with script, held := [] } (.invalidUtf8 (r.given + valid)))
        | ⟨valid, .truncated⟩ =>
          let r' := { r with script, held := (r.held ++ got).drop valid }
          if valid = 0 then .again r' else .done (handOut r' ((r.held ++ got).take valid)))

/-- A turn that does not end the call has put what it read behind what was held, and that is still
less than a character. -/
theorem turn_eq_again {r r' : Reader} {read : Except IoError Bytes}
    (h : r.turn = (read, .again r')) : ∃ got script, r.script.read r.chunkSize = (.ok got, script) ∧
      read = .ok got ∧ got ≠ [] ∧ Utf8.check (r.held ++ got) = ⟨0, .truncated⟩ ∧
      r' = { r with script, held := r.held ++ got } := by
  rw [turn] at h
  rcases hread : r.script.read r.chunkSize with ⟨e | got, script⟩ <;> rw [hread] at h
  · simp at h
  · by_cases hg : got = []
    · simp only [hg, if_true, Prod.mk.injEq] at h
      split at h <;> simp at h
    · rcases hcheck : Utf8.check (r.held ++ got) with ⟨valid, _ | _ | _⟩ <;>
        simp only [hg, if_false, hcheck, Prod.mk.injEq, reduceCtorEq, and_false] at h
      obtain ⟨hok, hagain⟩ := h
      split at hagain
      · next hzero =>
        subst hzero
        refine ⟨got, script, rfl, hok.symm, hg, hcheck, ?_⟩
        simpa using (Turn.again.inj hagain).symm
      · contradiction

/-- A call, as the reads that it takes and what it comes to. -/
def trace (r : Reader) : List (Except IoError Bytes) × Except Reader (Delivery Reader) :=
  if r.ended then ([], .ok ⟨[], r, []⟩)
  else if bufferLimit < r.held.length + r.chunkSize then ([], .error { r with held := [] })
  else
    match _h : r.turn with
    | (read, .done d) => ([read], .ok d)
    | (read, .again r') => (read :: (trace r').1, (trace r').2)
termination_by r.script.byteCount
decreasing_by
  all_goals
    obtain ⟨got, script, hread, -, hne, -, rfl⟩ := turn_eq_again _h
    have hcount := Script.byteCount_read hread
    have hpos := List.length_pos_iff.2 hne
    show script.byteCount < r.script.byteCount
    omega

theorem trace_of_ended {r : Reader} (h : r.ended = true) : r.trace = ([], .ok ⟨[], r, []⟩) := by
  rw [trace, if_pos h]

theorem trace_of_large {r : Reader} (h : r.ended = false)
    (hlarge : bufferLimit < r.held.length + r.chunkSize) :
    r.trace = ([], .error { r with held := [] }) := by
  rw [trace, if_neg (by simp [h]), if_pos hlarge]

namespace Waits
variable {r r' : Reader} {read : Except IoError Bytes}

/-- After a turn that hands out nothing the reader waits with more bytes than before. -/
theorem again (w : r.Waits) (h : r.turn = (read, .again r')) : r'.Waits ∧
    r'.chunkSize = r.chunkSize ∧ r'.given = r.given ∧ r'.held = r.held ++ bytesOf read ∧
    bytesOf read ≠ [] := by
  obtain ⟨got, script, -, rfl, hne, hcheck, rfl⟩ := turn_eq_again h
  obtain ⟨hbegins, hlongest⟩ := Utf8.cut_of_check hcheck
  exact ⟨w.keep script r.given hbegins hlongest, rfl, rfl, rfl, hne⟩

/-- What the loop makes of a turn is what a call does: the look at the text in front of a character
that was cut short finds nothing wrong. -/
theorem call_eq_turn (w : r.Waits) (hroom : r.held.length + r.chunkSize ≤ bufferLimit) :
    r.call = match r.turn.2 with
      | .done d => .ok d
      | .again r' => r'.call := by
  rcases hread : r.script.read r.chunkSize with ⟨e | got, script⟩
  · rw [w.call_of_error hroom hread, turn, hread]
  · by_cases hg : got = []
    · subst hg
      rw [w.call_of_nil hroom hread, turn, hread]
      simp only [if_true]
      split <;> rfl
    · rw [w.call_of_bytes hroom hread hg, turn, hread]
      simp only [if_neg hg]
      rcases Utf8.check (r.held ++ got) with ⟨valid, _ | _ | _⟩
      · rfl
      · rfl
      · dsimp only
        split <;> rfl

/-- A call goes through its turns, and each but the last adds to what is held. -/
theorem call_eq_trace (w : r.Waits) :
    r.call = r.trace.2 ∧ r.trace.1.length + r.held.length ≤ 4 := by
  fun_induction trace r with
  | case1 _ hended => exact absurd hended (by simp [w.active])
  | case2 r _ hlarge =>
    have hheld := w.length_held_le
    refine ⟨call_of_large w.active hlarge, ?_⟩
    rw [List.length_nil]
    omega
  | case3 r _ hroom read d hturn =>
    have hcall := w.call_eq_turn (Nat.not_lt.1 hroom)
    have hheld := w.length_held_le
    rw [hturn] at hcall
    refine ⟨hcall, ?_⟩
    rw [List.length_singleton]
    omega
  | case4 r _ hroom read r' hturn ih =>
    have hcall := w.call_eq_turn (Nat.not_lt.1 hroom)
    rw [hturn] at hcall
    obtain ⟨w', -, -, hmore, hne⟩ := w.again hturn
    obtain ⟨htrace, hle⟩ := ih w'
    have hlength := congrArg List.length hmore
    have hpos := List.length_pos_iff.2 hne
    rw [List.length_append] at hlength
    refine ⟨hcall.trans htrace, ?_⟩
    rw [List.length_cons]
    omega

/-- If there is room behind three bytes, every call comes back. -/
theorem returns (w : r.Waits) (hsize : r.chunkSize + 3 ≤ bufferLimit) : ∃ d, r.call = .ok d := by
  rw [w.call_eq_trace.1]
  fun_induction trace r with
  | case1 => exact ⟨_, rfl⟩
  | case2 r _ hlarge => exact absurd (w.room hsize) (Nat.not_le.2 hlarge)
  | case3 r _ _ read d => exact ⟨d, rfl⟩
  | case4 r _ _ read r' hturn ih =>
    obtain ⟨w', hsame, -⟩ := w.again hturn
    exact ih w' (hsame ▸ hsize)

end Waits

/-- How a reader that has read `count` bytes stands between two calls: it goes on, or it does
nothing any more and holds nothing. If there was `room` for all calls, what it holds and what it has
handed out are these bytes, unless it has failed. -/
inductive Stands (room : Prop) (count : Nat) (r : Reader) : Prop where
  | waits (waits : r.Waits) (account : room → r.given + r.held.length = count)
  | rests (ended : r.ended = true) (held : r.held = [])
      (account : room → r.error = none → r.given = count)

/-- The turn that ends a call. -/
theorem Waits.done {r : Reader} {read : Except IoError Bytes} {d : Delivery Reader} (w : r.Waits)
    {room : Prop} {count : Nat} (account : room → r.given + r.held.length = count)
    (h : r.turn = (read, .done d)) : d.rest.Stands room (count + (bytesOf read).length) := by
  have hfailed {s : Reader} (hheld : s.held = []) (failure : ReadFailure) (count : Nat) :
      (stop s failure).rest.Stands room count :=
    .rests rfl hheld fun _ hclean => by simp [stop] at hclean
  rw [turn] at h
  rcases hread : r.script.read r.chunkSize with ⟨e | got, script⟩ <;> rw [hread] at h
  · obtain ⟨-, hd⟩ := Prod.mk.inj h
    exact Turn.done.inj hd ▸ hfailed rfl _ _
  obtain ⟨rfl, hd⟩ := Prod.mk.inj h
  by_cases hg : got = []
  · subst hg
    rw [if_pos rfl] at hd
    split at hd
    · next hheld =>
      rw [List.isEmpty_iff] at hheld
      rw [hheld] at account
      exact Turn.done.inj hd ▸ .rests rfl hheld fun hroom _ => account hroom
    · exact Turn.done.inj hd ▸ hfailed rfl _ _
  · rw [if_neg hg] at hd
    rcases hcheck : Utf8.check (r.held ++ got) with ⟨valid, _ | _ | _⟩ <;>
      rw [hcheck] at hd <;> dsimp only at hd
    · have hempty := Utf8.valid_nil
      refine Turn.done.inj hd ▸ .waits (w.keep _ _ hempty.begins (.of_valid hempty)) fun hroom => ?_
      rw [← account hroom]
      simp [handOut, bytesOf, Nat.add_assoc]
    · exact Turn.done.inj hd ▸ hfailed rfl _ _
    · split at hd
      · contradiction
      · obtain ⟨hbegins, hlongest⟩ := Utf8.cut_of_check hcheck
        refine Turn.done.inj hd ▸ .waits (w.keep _ _ hbegins hlongest) fun hroom => ?_
        have hall := congrArg List.length (List.take_append_drop valid (r.held ++ got)).symm
        rw [List.length_append, List.length_append] at hall
        rw [← account hroom]
        simp only [handOut, bytesOf]
        omega

namespace Stands
variable {room : Prop} {count : Nat} {r : Reader}

theorem mono {room' : Prop} (himp : room' → room) (h : r.Stands room count) :
    r.Stands room' count := by
  cases h with
  | waits w account => exact .waits w fun hroom => account (himp hroom)
  | rests ended held account => exact .rests ended held fun hroom => account (himp hroom)

theorem call_eq_trace (h : r.Stands room count) :
    r.call = r.trace.2 ∧ r.trace.1.length + r.held.length ≤ 4 := by
  cases h with
  | waits w _ => exact w.call_eq_trace
  | rests ended held _ =>
    rw [call_of_ended ended, trace_of_ended ended, held]
    exact ⟨rfl, Nat.zero_le 4⟩

/-- A call accounts for the bytes of all its reads, if there was room for it. -/
theorem call (h : r.Stands room count) :
    (next r).rest.Stands (room ∧ r.hasRoom = true)
      (count + (r.trace.1.flatMap bytesOf).length) := by
  rw [next, hasRoom, h.call_eq_trace.1]
  cases h with
  | rests ended held account =>
    rw [trace_of_ended ended]
    exact .rests ended held fun hroom => account hroom.1
  | waits w account =>
    fun_induction trace r generalizing count with
    | case1 _ hended => exact absurd hended (by simp [w.active])
    | case2 r _ hlarge =>
      refine .waits ⟨w.active, w.clean, Utf8.valid_nil.begins, .of_valid Utf8.valid_nil⟩ ?_
      intro hroom
      exact absurd hroom.2 (by simp [Except.isOk, Except.toBool])
    | case3 r _ _ read d hturn =>
      rw [List.flatMap_singleton]
      exact w.done (fun hroom => account hroom.1) hturn
    | case4 r _ _ read r' hturn ih =>
      obtain ⟨w', -, hgiven, hmore, -⟩ := w.again hturn
      have hlength := congrArg List.length hmore
      rw [List.length_append] at hlength
      rw [List.flatMap_cons, List.length_append, ← Nat.add_assoc]
      apply ih w'
      intro hroom
      have := account hroom
      omega

end Stands

/-- The reads of so many calls. -/
def log (r : Reader) : Nat → List (Except IoError Bytes)
  | 0 => []
  | n + 1 => r.log n ++ (Producer.after n r).trace.1

/-- There was room for so many calls. -/
def Roomy (r : Reader) (calls : Nat) : Prop :=
  ∀ n < calls, Producer.hasRoom (Producer.after n r) = true

/-- By induction on the calls, each of them taking what it reads from the script. -/
theorem stands_after (script : Script) (chunkSize calls : Nat) :
    let r := ofScript script chunkSize
    (Producer.after calls r).Stands (r.Roomy calls) ((r.log calls).flatMap bytesOf).length := by
  intro r
  induction calls with
  | zero => exact .waits (waits_ofScript script chunkSize) fun _ => rfl
  | succ n ih =>
    rw [Producer.after_succ, log, List.flatMap_append, List.length_append]
    apply ih.call.mono
    intro hroom
    exact ⟨fun m hm => hroom m (Nat.lt_succ_of_lt hm), hroom n (Nat.lt_succ_self n)⟩

/-- A turn takes one read, and leaves the script where that leaves it. -/
theorem read_eq_turn (r : Reader) :
    r.script.read r.chunkSize = (r.turn.1, r.turn.2.rest.script) := by
  rw [turn]
  rcases r.script.read r.chunkSize with ⟨e | got, script⟩
  · rfl
  · dsimp only
    split
    · split <;> rfl
    · rcases Utf8.check (r.held ++ got) with ⟨valid, _ | _ | _⟩
      · rfl
      · rfl
      · dsimp only
        split <;> rfl

theorem byteCount_turn (r : Reader) :
    (bytesOf r.turn.1).length + r.turn.2.rest.script.byteCount = r.script.byteCount := by
  have hread := r.read_eq_turn
  cases hturn : r.turn.1 with
  | error e =>
    rw [hturn] at hread
    rw [Script.byteCount_read_error hread]
    exact Nat.zero_add _
  | ok got =>
    rw [hturn] at hread
    exact Script.byteCount_read hread

theorem byteCount_trace (r : Reader) :
    (r.trace.1.flatMap bytesOf).length + (delivery r.trace.2).rest.script.byteCount =
      r.script.byteCount := by
  fun_induction trace r with
  | case1 => exact Nat.zero_add _
  | case2 => exact Nat.zero_add _
  | case3 r _ _ read d h =>
    have hturn := r.byteCount_turn
    rw [h] at hturn
    rwa [List.flatMap_singleton]
  | case4 r _ _ read r' h ih =>
    have hturn := r.byteCount_turn
    rw [h] at hturn
    rw [List.flatMap_cons, List.length_append, Nat.add_assoc, ih]
    exact hturn

theorem byteCount_after (script : Script) (chunkSize calls : Nat) :
    (((ofScript script chunkSize).log calls).flatMap bytesOf).length +
      (Producer.after calls (ofScript script chunkSize)).script.byteCount = script.byteCount := by
  induction calls with
  | zero => exact Nat.zero_add _
  | succ n ih =>
    have hnext : (Producer.next (Producer.after n (ofScript script chunkSize))) =
        delivery (Producer.after n (ofScript script chunkSize)).trace.2 :=
      congrArg delivery (stands_after script chunkSize n).call_eq_trace.1
    rw [Producer.after_succ, log, List.flatMap_append, List.length_append, Nat.add_assoc, hnext,
      byteCount_trace]
    exact ih

theorem chunkSize_next (r : Reader) : (next r).rest.chunkSize = r.chunkSize := by
  unfold next
  fun_induction Reader.call r with
  | case8 _ _ _ _ _ _ _ _ _ _ ih => exact ih
  | _ => rfl

theorem chunkSize_after (r : Reader) (calls : Nat) :
    (Producer.after calls r).chunkSize = r.chunkSize := by
  induction calls with
  | zero => rfl
  | succ n ih =>
    rw [Producer.after_succ]
    exact (chunkSize_next _).trans ih

/-- A reader between two calls, `count` bytes having been read: until it fails, it holds nothing or
one to three bytes of a character that is longer, and if there was `room` for the calls before,
these and the bytes handed out are all that was read. The next call takes at most as many reads as
are missing to four, with the interruptions before a read not counted, and its loop never finds
fault with the text in front of a character that was cut short. -/
structure Between (r : Reader) (room : Prop) (count : Nat) : Prop where
  part : r.error = none → r.held = [] ∨ r.held.length ∈ [1, 2, 3] ∧
    ∃ char rest, rest ≠ [] ∧ r.held ++ rest = String.utf8EncodeChar char
  account : r.error = none → room → r.given + r.held.length = count
  clean : r.error = none → r.takeFailure = (none, r)
  reads_le : r.trace.1.length + r.held.length ≤ 4
  call_eq : r.call = r.trace.2

theorem Stands.between {r : Reader} {room : Prop} {count : Nat} (h : r.Stands room count) :
    r.Between room count where
  part _ := by
    cases h with
    | rests _ held _ => exact .inl held
    | waits w _ =>
      by_cases hheld : r.held = []
      · exact .inl hheld
      · have hpos := List.length_pos_iff.2 hheld
        have hle := w.length_held_le
        refine .inr ⟨?_, w.exists_char hheld⟩
        simp only [List.mem_cons, List.not_mem_nil, or_false]
        omega
  account hclean hroom := by
    cases h with
    | rests _ held account =>
      rw [held, List.length_nil, Nat.add_zero]
      exact account hroom hclean
    | waits _ account => exact account hroom
  clean hclean := by rw [takeFailure, hclean, ← hclean]
  reads_le := h.call_eq_trace.2
  call_eq := h.call_eq_trace.1

/-- A reader that reads more than there can be room for stays as it is. -/
theorem after_of_large {r : Reader} (h : r.ended = false) (hheld : r.held = [])
    (hlarge : bufferLimit < r.chunkSize) (calls : Nat) : Producer.after calls r = r := by
  have hcall : r.call = .error { r with held := [] } :=
    call_of_large h (Nat.lt_of_lt_of_le hlarge (Nat.le_add_left _ _))
  induction calls with
  | zero => rfl
  | succ n ih =>
    have hnext : Producer.next r = delivery (.error { r with held := [] }) :=
      congrArg delivery hcall
    rw [Producer.after_succ, ih, hnext, ← hheld]
    rfl

theorem attempt_of_large {r : Reader} (h : r.ended = false)
    (hlarge : bufferLimit < r.held.length + r.chunkSize) :
    Producer.attempt r = .error .noRoom := by
  have hroom : Producer.hasRoom r = false := congrArg Except.isOk (call_of_large h hlarge)
  rw [Producer.attempt, hroom]
  rfl

/-- Between two calls a reader holds less than a character and has lost nothing, and the next call
is over after four reads (`Between`). It comes back if there is room for a read behind three bytes;
where there is no room for a read at all it is a fault, and reads nothing. -/
theorem held_is_short (script : Script) (chunkSize calls : Nat) :
    let start := ofScript script chunkSize
    let r := Producer.after calls start
    let read := (start.log calls).flatMap bytesOf
    r.Between (start.Roomy calls) read.length ∧
      read.length + r.script.byteCount = script.byteCount ∧
      (chunkSize + 3 ≤ bufferLimit → start.Roomy calls ∧ ∃ d, Producer.attempt r = .ok d) ∧
      (bufferLimit < chunkSize → r.trace.1 = [] ∧ Producer.attempt r = .error .noRoom) ∧
      ∀ bytes : Bytes, Utf8.Valid (bytes.take (Utf8.check bytes).valid) := by
  intro start r read
  refine ⟨(stands_after script chunkSize calls).between, byteCount_after script chunkSize calls,
    ?_, ?_, ?_⟩
  · intro hsize
    have hroom (n : Nat) : Producer.hasRoom (Producer.after n start) = true := by
      have hsize' := (chunkSize_after start n).symm ▸ room_ofScript script hsize
      cases stands_after script chunkSize n with
      | waits w _ =>
        obtain ⟨d, hd⟩ := w.returns hsize'
        exact (room_of_call hd).1
      | rests ended _ _ => exact (room_of_call (call_of_ended ended)).1
    exact ⟨fun n _ => hroom n, _, if_pos (hroom calls)⟩
  · intro hlarge
    have hsize : bufferLimit < start.chunkSize := Nat.lt_of_lt_of_le hlarge (Nat.le_max_left _ _)
    have hsize' : bufferLimit < start.held.length + start.chunkSize := by
      rwa [show start.held.length = 0 from rfl, Nat.zero_add]
    have hsame : r = start := after_of_large rfl rfl hsize calls
    rw [hsame, trace_of_large rfl hsize']
    exact ⟨rfl, attempt_of_large rfl hsize'⟩
  · intro bytes
    exact (Utf8.isLongestValid_check bytes).valid

/-- Two bytes at a time, the first call ends with one byte of a character of four. -/
theorem held_is_short_of_cut_character :
    let start := ofScript [.bytes [0x61, 0xF0, 0x9F, 0x98, 0x80]] 2
    let r := Producer.after 1 start
    r.error = none ∧ r.held = [0xF0] ∧ r.given = 1 ∧
      ((start.log 1).flatMap bytesOf).length = 2 ∧ r.trace.1.length ≤ 3 ∧
      ∃ d, Producer.attempt r = .ok d := by
  intro start r
  have hr : r = ⟨[.bytes [0x9F, 0x98, 0x80]], 2, [0xF0], 1, none, false⟩ := by
    show Producer.after 1 (ofScript [.bytes [0x61, 0xF0, 0x9F, 0x98, 0x80]] 2) = _
    cbv
  have hclean : r.error = none := congrArg Reader.error hr
  have hheld : r.held = [0xF0] := congrArg held hr
  have hgiven : r.given = 1 := congrArg given hr
  obtain ⟨hbetween, -, hreturns, -⟩ :=
    held_is_short [.bytes [0x61, 0xF0, 0x9F, 0x98, 0x80]] 2 1
  obtain ⟨hroom, hreturn⟩ := hreturns (by decide)
  have hcount := hbetween.account hclean hroom
  have hreads := hbetween.reads_le
  change r.given + r.held.length = _ at hcount
  change r.trace.1.length + r.held.length ≤ 4 at hreads
  rw [hgiven, hheld] at hcount
  rw [hheld] at hreads
  exact ⟨hclean, hheld, hgiven, hcount.symm, Nat.le_of_succ_le_succ hreads, hreturn⟩

/-- A call does not come back for reads of more bytes than there can be room for. -/
theorem attempt_of_unbounded_reads :
    Producer.attempt (ofScript [.bytes [97, 98, 99]] 9223372036854775808) = .error .noRoom ∧
      ¬∀ script chunkSize calls,
        ∃ d, Producer.attempt (Producer.after calls (ofScript script chunkSize)) = .ok d := by
  have hlarge : bufferLimit < 0 + max 9223372036854775808 1 := by decide
  have hattempt :
      Producer.attempt (ofScript [.bytes [97, 98, 99]] 9223372036854775808) = .error .noRoom :=
    attempt_of_large rfl hlarge
  refine ⟨hattempt, ?_⟩
  intro h
  obtain ⟨d, hd⟩ := h [.bytes [97, 98, 99]] 9223372036854775808 0
  rw [Producer.after, hattempt] at hd
  contradiction

end Reader
end EditLex
