import EditLex.Proofs.Pulls
import EditLex.Proofs.Turns

/-!
The units of a text as a function of its bytes. A program finds over a reader that has pulled
everything, or over any reader if it never looks at the source, what it finds in the bytes alone
(`Scan.run_eq_eval`). So a lexer that does not go by how the bytes come (`Lexer.Steady`) finds the
same units over every reader (`Lexer.run_eq_lex`), and the chunks of a text are not seen in them
(`Lexer.value_tokensFrom`).
-/
namespace EditLex

namespace Lookahead
variable {σ : Type} [Producer σ] {s : Lookahead σ} {v w : Passage}

/-- When everything has been pulled, the window holds all the bytes. -/
theorem Shows.window_of_drained (h : s.Shows v) (hs : s.source.Drained) : s.window = v.bytes := by
  obtain ⟨_, ⟨chunks, hawaits, rfl⟩, hv⟩ := h.holds
  rw [Source.Awaits, if_pos hs.ended] at hawaits
  rw [hv, hs.unread, hawaits]
  simp

theorem Shows.view_of_drained (h : s.Shows v) (hs : s.source.Drained) :
    s.source.view = ⟨v.place.advance v.bytes, true, []⟩ := by
  rw [Source.view, h.behind, h.window_of_drained hs, hs.ended, hs.unread]

theorem Reads.unique_of_drained (h : s.Reads v) (h' : s.Reads w) (hs : s.source.Drained) :
    v = w := by
  obtain ⟨bytes, place⟩ := v
  obtain ⟨bytes', place'⟩ := w
  have hbytes : bytes = bytes' :=
    (h.window_of_drained hs).symm.trans (h'.window_of_drained hs)
  have hplace : place = place' := h.position.symm.trans h'.position
  rw [hbytes, hplace]

/-- The bytes of `v` in the window of a reader, over a source that has nothing more. -/
def drained (v : Passage) : Lookahead Pieces where
  source :=
    { unread := [], position := v.place.advance v.bytes, ended := true, producer := ⟨[]⟩ }
  window := v.bytes
  position := v.place
  pullSize := 1

theorem drained_drained (v : Passage) : (drained v).source.Drained := ⟨rfl, rfl⟩

theorem reads_drained (h : v.bytes.length + 1 ≤ bufferLimit) : (drained v).Reads v where
  pulls := Nat.one_pos
  room := h
  holds := ⟨[], ⟨[], rfl, rfl⟩, (List.append_nil _).symm⟩
  behind := rfl
  position := rfl

end Lookahead

namespace Scan
variable {α β σ : Type}

/-- The program never looks at the source. -/
def Blind : Scan α → Prop
  | done _ => True
  | nth _ next => ∀ b, (next b).Blind
  | take next => ∀ b, (next b).Blind
  | takeWhile _ next => ∀ taken, (next taken).Blind
  | lookWhile _ next => ∀ seen, (next seen).Blind
  | position next => ∀ place, (next place).Blind
  | source _ => False

theorem blind_bind {m : Scan α} {f : α → Scan β} (hm : m.Blind) (hf : ∀ a, (f a).Blind) :
    (m >>= f).Blind := by
  show (m.bind f).Blind
  induction m with
  | done a => exact hf a
  | nth n next ih => exact fun b => ih b (hm b)
  | take next ih => exact fun b => ih b (hm b)
  | takeWhile p next ih => exact fun taken => ih taken (hm taken)
  | lookWhile p next ih => exact fun seen => ih seen (hm seen)
  | position next ih => exact fun place => ih place (hm place)
  | source next ih => exact absurd hm id

/-- The result of a program over bytes that have all been pulled, and the bytes it leaves. -/
def eval : Scan α → Passage → α × Passage
  | done a, v => (a, v)
  | nth n next, v => (next v.bytes[n]?).eval v
  | take next, v => (next v.bytes[0]?).eval (v.skip 1)
  | takeWhile p next, v =>
    let taken := p.span 0 v.bytes
    (next taken).eval (v.skip taken.length)
  | lookWhile p next, v => (next (p.span 0 v.bytes)).eval v
  | position next, v => (next v.place).eval v
  | source next, v => (next ⟨v.place.advance v.bytes, true, []⟩).eval v

/-- Nothing but the source tells one reader of the same bytes from another, and it tells nothing if
the program does not ask or everything has been pulled. -/
theorem run_eq_eval [Bounded σ] (m : Scan α) {s : Lookahead σ} {v : Passage} (h : s.Reads v)
    (hm : m.Blind ∨ s.source.Drained) :
    (m.run s).1 = (m.eval v).1 ∧ (m.run s).2.Reads (m.eval v).2 := by
  induction m generalizing s v with
  | done a => exact ⟨rfl, h⟩
  | nth n next ih =>
    obtain ⟨hb, hr⟩ := h.nth n
    rw [run, eval, ← hb]
    exact ih _ hr (hm.imp (· _) (·.of_pulled (s.pulled_nth n)))
  | take next ih =>
    obtain ⟨hb, hr, -⟩ := h.take
    rw [run, eval, ← hb]
    exact ih _ hr (hm.imp (· _) (·.of_pulled s.pulled_take))
  | takeWhile p next ih =>
    obtain ⟨hb, hr, -⟩ := h.takeWhile p
    rw [← hb] at hr
    rw [run, eval, ← hb]
    exact ih _ hr (hm.imp (· _) (·.of_pulled (s.pulled_takeWhile p)))
  | lookWhile p next ih =>
    obtain ⟨hb, hr, -⟩ := h.lookWhile p
    rw [run, eval, ← hb]
    exact ih _ hr (hm.imp (· _) (·.of_pulled (s.pulled_lookWhile p)))
  | position next ih =>
    rw [run, eval, h.position]
    exact ih _ h (hm.imp (· _) id)
  | source next ih =>
    have hs := hm.resolve_left id
    rw [run, eval, ← h.view_of_drained hs]
    exact ih _ h (.inr hs)

/-- A program leaves what lies behind the bytes it takes. -/
theorem eval_skip (m : Scan α) (v : Passage) : ∃ n, (m.eval v).2 = v.skip n := by
  induction m generalizing v with
  | done a => exact ⟨0, v.skip_zero.symm⟩
  | nth n next ih => exact ih _ v
  | take next ih =>
    obtain ⟨n, hn⟩ := ih v.bytes[0]? (v.skip 1)
    exact ⟨1 + n, hn.trans (v.skip_skip 1 n)⟩
  | takeWhile p next ih =>
    obtain ⟨n, hn⟩ := ih (p.span 0 v.bytes) (v.skip (p.span 0 v.bytes).length)
    exact ⟨_, hn.trans (v.skip_skip _ n)⟩
  | lookWhile p next ih => exact ih _ v
  | position next ih => exact ih _ v
  | source next ih => exact ih _ v

@[simp] theorem eval_pure (a : α) (v : Passage) : (pure a : Scan α).eval v = (a, v) := rfl

@[simp] theorem eval_bind (m : Scan α) (f : α → Scan β) (v : Passage) :
    (m >>= f).eval v = (f (m.eval v).1).eval (m.eval v).2 := by
  show (m.bind f).eval v = _
  induction m generalizing v with
  | done a => rfl
  | nth n next ih => exact ih _ v
  | take next ih => exact ih _ _
  | takeWhile p next ih => exact ih _ _
  | lookWhile p next ih => exact ih _ v
  | position next ih => exact ih _ v
  | source next ih => exact ih _ v

@[simp] theorem eval_peek (v : Passage) : peek.eval v = (v.bytes[0]?, v) := rfl

@[simp] theorem eval_byte (v : Passage) : byte.eval v = (v.bytes[0]?, v.skip 1) := rfl

@[simp] theorem eval_here (v : Passage) : here.eval v = (v.place, v) := rfl

@[simp] theorem eval_span (p : UInt8 → Bool) (v : Passage) :
    (span p).eval v = (v.bytes.takeWhile p, v.skip (v.bytes.takeWhile p).length) := by
  show ((Lookahead.Test.ofPredicate p).span 0 v.bytes,
    v.skip ((Lookahead.Test.ofPredicate p).span 0 v.bytes).length) = _
  rw [Lookahead.Test.span_ofPredicate]

end Scan

namespace Lexer
variable {σ S U : Type}

/-- One turn of the lexer's loop over bytes that are all there: it finds a unit, unless it is at the
end, stops, or takes no byte for the unit. -/
def turn (lexer : Lexer S U) (document : Option String) (state : S) (v : Passage) :
    Option (Found U) × S :=
  let skipped := (lexer.skip document state).eval v
  if skipped.2.bytes = [] then (none, skipped.1)
  else
    let unit := (lexer.read document skipped.1).eval skipped.2
    match unit.1.1 with
    | none => (none, unit.1.2)
    | some value =>
      if unit.2.place.offset = skipped.2.place.offset then (none, unit.1.2)
      else
        (some ⟨v.bytes.length - skipped.2.bytes.length, value,
          v.bytes.length - unit.2.bytes.length⟩, unit.1.2)

/-- A turn that finds a unit skips a gap, reads the unit behind it, and takes a byte at least. -/
theorem turn_eq_some_iff {lexer : Lexer S U} {document : Option String} {state state' : S}
    {v : Passage} {f : Found U} :
    lexer.turn document state v = (some f, state') ↔
      ∃ skipped, (lexer.skip document state).eval v = (skipped, v.skip f.gap) ∧
        (lexer.read document skipped).eval (v.skip f.gap) =
          ((some f.value, state'), v.skip f.length) ∧
        (v.skip f.length).place.offset ≠ (v.skip f.gap).place.offset ∧
        f.gap < f.length ∧ f.length ≤ v.bytes.length := by
  constructor
  · intro h
    simp only [turn] at h
    obtain ⟨m, hm⟩ := (lexer.skip document state).eval_skip v
    rcases hskip : (lexer.skip document state).eval v with ⟨skipped, w⟩
    simp only [hskip] at h hm
    subst hm
    obtain ⟨n, hn⟩ := (lexer.read document skipped).eval_skip (v.skip m)
    rcases hread : (lexer.read document skipped).eval (v.skip m) with ⟨⟨found, state''⟩, u⟩
    simp only [hread] at h hn
    rw [v.skip_skip] at hn
    subst hn
    split at h
    · simp at h
    · cases found with
      | none => simp at h
      | some value =>
        dsimp only at h
        split at h
        · simp at h
        · next hoff =>
          simp only [Prod.mk.injEq, Option.some.injEq] at h
          obtain ⟨rfl, rfl⟩ := h
          dsimp only
          rw [v.skip_sub, v.skip_sub]
          refine ⟨skipped, rfl, hread, hoff, ?_, Nat.sub_le _ _⟩
          -- A unit that leaves as many bytes as there were leaves the place where it was.
          have hne : (v.skip (m + n)).bytes.length ≠ (v.skip m).bytes.length := by
            intro he
            rw [← v.skip_sub (m + n), he, v.skip_sub] at hoff
            exact hoff rfl
          simp only [Passage.bytes_skip, List.length_drop] at hne ⊢
          omega
  · rintro ⟨skipped, hskip, hread, hoff, hgap, hle⟩
    have hbytes : (v.skip f.gap).bytes ≠ [] := by
      rw [Passage.bytes_skip, Ne, List.drop_eq_nil_iff]
      omega
    simp only [turn, hskip, hread, if_neg hbytes, if_neg hoff]
    simp only [Passage.bytes_skip, List.length_drop]
    rw [Nat.sub_sub_self (by omega), Nat.sub_sub_self hle]

theorem bounds_of_turn {lexer : Lexer S U} {document : Option String} {state state' : S}
    {v : Passage} {f : Found U} (h : lexer.turn document state v = (some f, state')) :
    f.gap < f.length ∧ f.length ≤ v.bytes.length := by
  obtain ⟨_, -, -, -, hb⟩ := turn_eq_some_iff.1 h
  exact hb

/-- The units of bytes that are all there, and the state they leave. -/
def lex (lexer : Lexer S U) (document : Option String) (state : S) (v : Passage) :
    List (Token U) × S :=
  match _h : lexer.turn document state v with
  | (none, state) => ([], state)
  | (some f, state) =>
    let rest := lexer.lex document state (v.skip f.length)
    (v.token f :: rest.1, rest.2)
termination_by v.bytes.length
decreasing_by
  obtain ⟨hlt, hle⟩ := bounds_of_turn _h
  rw [Passage.bytes_skip, List.length_drop]
  omega

theorem lex_of_turn_none {lexer : Lexer S U} {document : Option String} {state state' : S}
    {v : Passage} (h : lexer.turn document state v = (none, state')) :
    lexer.lex document state v = ([], state') := by
  rw [lex]
  split
  · next h' => rw [h] at h'; cases h'; rfl
  · next h' => rw [h] at h'; cases h'

theorem lex_of_turn_some {lexer : Lexer S U} {document : Option String} {state state' : S}
    {v : Passage} {f : Found U} (h : lexer.turn document state v = (some f, state')) :
    lexer.lex document state v =
      (v.token f :: (lexer.lex document state' (v.skip f.length)).1,
        (lexer.lex document state' (v.skip f.length)).2) := by
  rw [lex]
  split
  · next h' => rw [h] at h'; cases h'
  · next h' => rw [h] at h'; cases h'; rfl

theorem eval_pass_of_turn_some {lexer : Lexer S U} {document : Option String} {state state' : S}
    {v : Passage} {f : Found U} (h : lexer.turn document state v = (some f, state')) :
    (lexer.pass document state).eval v = ((some (v.token f), state'), v.skip f.length) := by
  obtain ⟨skipped, hskip, hread, hoff, hgap, hle⟩ := turn_eq_some_iff.1 h
  have hlen : 0 < (v.skip f.gap).bytes.length := by
    rw [Passage.bytes_skip, List.length_drop]
    omega
  have hnext := List.getElem?_eq_getElem hlen
  simp only [pass, Scan.eval_bind, hskip, Scan.eval_peek, hnext, Scan.eval_here, hread]
  simp [hoff, Passage.token]

theorem eval_pass_of_turn_none {lexer : Lexer S U} {document : Option String} {state state' : S}
    {v : Passage} (h : lexer.turn document state v = (none, state')) :
    ((lexer.pass document state).eval v).1 = (none, state') := by
  rcases hskip : (lexer.skip document state).eval v with ⟨skipped, ⟨bytes, place⟩⟩
  simp only [turn, hskip] at h
  simp only [pass, Scan.eval_bind, hskip, Scan.eval_peek]
  cases bytes with
  | nil => simpa using h
  | cons b bytes =>
    rcases hread : (lexer.read document skipped).eval ⟨b :: bytes, place⟩ with ⟨⟨value, after⟩, u⟩
    simp only [hread, List.cons_ne_nil, if_false] at h
    simp only [List.getElem?_cons_zero, Scan.eval_bind, Scan.eval_here, hread]
    cases value with
    | none => simpa using h
    | some value =>
      dsimp only at h
      split at h
      · next hoff => simpa [hoff] using h
      · cases h

/-- A turn does not go by how the bytes come: over two readers of the same bytes it finds the same,
and leaves the same bytes behind a unit. -/
def Steady (lexer : Lexer S U) (document : Option String) : Prop :=
  ∀ {σ τ : Type} [Bounded σ] [Bounded τ] (state : S) {s : Lookahead σ} {t : Lookahead τ}
    {v : Passage}, s.Reads v → t.Reads v →
    let turn := (lexer.pass document state).run s
    let turn' := (lexer.pass document state).run t
    turn.1 = turn'.1 ∧
      (turn.1.1.isSome → ∃ n, turn.2.Reads (v.skip n) ∧ turn'.2.Reads (v.skip n))

/-- A lexer that never looks at the source is steady. -/
theorem steady_of_blind {lexer : Lexer S U} {document : Option String}
    (hskip : ∀ state, (lexer.skip document state).Blind)
    (hread : ∀ state, (lexer.read document state).Blind) : lexer.Steady document := by
  intro σ τ _ _ state s t v hs ht
  have hpass : (lexer.pass document state).Blind := by
    apply Scan.blind_bind (hskip state)
    intro skipped b
    cases b with
    | none => trivial
    | some b =>
      intro start
      show (lexer.read document skipped >>= _).Blind
      exact Scan.blind_bind (hread skipped) fun _ _ => trivial
  obtain ⟨hfound, hnext⟩ := Scan.run_eq_eval _ hs (.inl hpass)
  obtain ⟨hfound', hnext'⟩ := Scan.run_eq_eval _ ht (.inl hpass)
  obtain ⟨n, hn⟩ := (lexer.pass document state).eval_skip v
  exact ⟨hfound.trans hfound'.symm, fun _ => ⟨n, hn ▸ hnext, hn ▸ hnext'⟩⟩

section Reader
variable [Bounded σ] {lexer : Lexer S U} {document : Option String}
  (hsteady : lexer.Steady document) (state : S) {reader : Lookahead σ} {v : Passage}
include hsteady

/-- A turn of a steady lexer finds what it finds in the bytes when they have all been pulled. -/
theorem Steady.run_pass (h : reader.Reads v) :
    let turn := (lexer.pass document state).run reader
    turn.1 = ((lexer.pass document state).eval v).1 ∧
      (turn.1.1.isSome → turn.2.Reads ((lexer.pass document state).eval v).2) := by
  intro turn
  have hroom : v.bytes.length + 1 ≤ bufferLimit := by
    have := h.room
    have := h.pulls
    omega
  have hdrained := Lookahead.reads_drained hroom
  have hsource := Lookahead.drained_drained v
  obtain ⟨hfound, hnext⟩ :=
    Scan.run_eq_eval (lexer.pass document state) hdrained (.inr hsource)
  obtain ⟨hsame, hleft⟩ := hsteady state h hdrained
  refine ⟨hsame.trans hfound, ?_⟩
  intro hsome
  obtain ⟨n, hn, hn'⟩ := hleft hsome
  have hafter := hsource.of_pulled (Scan.pulled_run (lexer.pass document state) _)
  rwa [hnext.unique_of_drained hn' hafter]

/-- A steady lexer finds over a reader the units of the bytes that are left to read. -/
theorem run_eq_lex (h : reader.Reads v) :
    (lexer.run document state reader).tokens = (lexer.lex document state v).1 ∧
      (lexer.run document state reader).state = (lexer.lex document state v).2 := by
  rw [← Prod.mk.injEq]
  induction hn : v.bytes.length using Nat.strongRecOn generalizing v state reader with
  | ind n ih =>
    obtain ⟨hfound, hnext⟩ := hsteady.run_pass state h
    rw [run_of_pass]
    rcases hturn : lexer.turn document state v with ⟨_ | f, state'⟩
    · rw [eval_pass_of_turn_none hturn] at hfound
      rw [hfound, lex_of_turn_none hturn]
    · rw [eval_pass_of_turn_some hturn] at hfound hnext
      obtain ⟨hlt, hle⟩ := bounds_of_turn hturn
      have hless : (v.skip f.length).bytes.length < n := by
        rw [Passage.bytes_skip, List.length_drop]
        omega
      rw [hfound] at hnext ⊢
      obtain ⟨htokens, hstate⟩ := Prod.mk.inj (ih _ hless state' (hnext rfl) rfl)
      dsimp only at htokens hstate ⊢
      rw [lex_of_turn_some hturn, htokens, hstate]

/-- The units of a text that comes in two parts, as a first chunk and over a producer. -/
theorem run_of_brings {producer : σ} {text : Bytes} (h : Producer.Brings producer text)
    (initial : Bytes) (start : Position) {pullSize : Nat}
    (hp : (initial ++ text).length + max pullSize 1 ≤ bufferLimit) :
    let run := lexer.run document state (.ofSource (.beginAt initial producer start) pullSize)
    run.tokens = (lexer.lex document state ⟨initial ++ text, start⟩).1 ∧
      run.state = (lexer.lex document state ⟨initial ++ text, start⟩).2 :=
  run_eq_lex hsteady state (.ofSource (Source.holds_beginAt h initial start) hp)

end Reader

section
variable {lexer : Lexer S U} {document : Option String} (hsteady : lexer.Steady document)
  (settings : Settings) (state : S)
include hsteady

/-- The units of a text are those of its bytes, in chunks of any size, as long as a pull fits behind
it. -/
theorem value_tokensFrom_of_room (start : Position) {text : Bytes}
    (h : text.length + Lookahead.defaultPullSize ≤ bufferLimit) :
    (lexer.tokensFrom document settings state start text).value =
      lexer.lex document state ⟨text, start⟩ := by
  have hreads := Lookahead.reads_slices text settings.chunkSize start h
  obtain ⟨ht, hs⟩ := run_eq_lex hsteady state hreads
  exact Prod.ext ht hs

theorem value_tokensFrom (start : Position) {text : Bytes} (h : text.length ≤ Coord.limit) :
    (lexer.tokensFrom document settings state start text).value =
      lexer.lex document state ⟨text, start⟩ :=
  value_tokensFrom_of_room hsteady settings state start (room_of_le_limit h)

theorem value_tokens {text : Bytes} (h : text.length ≤ Coord.limit) :
    (lexer.tokens document settings state text).value.1.toList =
        (lexer.lex document state ⟨text, .start⟩).1 ∧
      (lexer.tokens document settings state text).value.2 =
        (lexer.lex document state ⟨text, .start⟩).2 := by
  rw [tokens, Logged.value_bind, value_tokensFrom hsteady settings state .start h]
  exact ⟨by simp [Focused.toList, Focused.ofList], rfl⟩

end

/-- A turn goes by the bytes, and what it finds is decided by those up to the end of the unit and
`k` more: other bytes at the same place that begin with these have the same gap, unit and end. -/
structure LooksAhead (lexer : Lexer Unit U) (document : Option String) (k : Nat) : Prop where
  steady : lexer.Steady document
  decided : ∀ (v w : Passage) (f : Found U), v.place = w.place →
    (lexer.turn document () v).1 = some f →
    f.length + k ≤ v.bytes.length → f.length + k ≤ w.bytes.length →
    v.bytes.take (f.length + k) = w.bytes.take (f.length + k) →
    (lexer.turn document () w).1 = some f

end Lexer
end EditLex
