import EditLex.Document.Client
import EditLex.Proofs.Pulls
import EditLex.Proofs.RunningPosition
import EditLex.Proofs.Runs
import EditLex.Proofs.Splicing
import EditLex.Source.Op
import EditLex.Wire

/-!
Where positions come from. Sources, readers and lexers take the positions that they are given onward
over bytes (`Position.Onward`), so none of them loses its line; the table of lines and what makes a
position from coordinates put it on a line. Only a position that is read as it was written may be on
no line, and then others come from it (`Position.lineless_arises_iff`).
-/
namespace EditLex

namespace Position

/-- `q` is `p` moved across some bytes. -/
def Onward (p q : Position) : Prop := ∃ bytes, q = p.advance bytes

theorem Onward.refl (p : Position) : p.Onward p := ⟨[], p.advance_nil.symm⟩

theorem Onward.of_eq {p q : Position} (h : q = p) : p.Onward q := h ▸ .refl p

theorem Onward.trans {p q r : Position} (h : p.Onward q) (h' : q.Onward r) : p.Onward r := by
  obtain ⟨bytes, rfl⟩ := h
  obtain ⟨more, rfl⟩ := h'
  exact ⟨bytes ++ more, (p.advance_append bytes more).symm⟩

/-- Lines are counted from one. -/
def OnLine (p : Position) : Prop := p.line ≠ .zero

theorem onLine_iff {p : Position} : p.OnLine ↔ 1 ≤ p.line.val := by
  rw [OnLine, Ne, Coord.eq_iff_val, Coord.val_zero]
  omega

theorem OnLine.onward {p q : Position} (hp : p.OnLine) (h : p.Onward q) : q.OnLine := by
  obtain ⟨bytes, rfl⟩ := h
  rw [onLine_iff] at hp ⊢
  have := p.line.val_le
  simp only [advance, Coord.val_up]
  omega

theorem onLine_start : start.OnLine := by
  unfold OnLine
  decide

/-- Before the start there is nothing but the positions on no line. -/
theorem compare_start_eq_lt_iff {p : Position} : p.compare .start = .lt ↔ ¬p.OnLine := by
  have hcolumn : ¬p.column.val < start.column.val := Nat.not_lt_zero _
  have hline : start.line.val = 1 := rfl
  rw [compare, Ordering.then_eq_lt, Nat.compare_eq_lt, Nat.compare_eq_eq, Nat.compare_eq_lt,
    onLine_iff]
  omega

theorem onLine_of_of {line column offset : Coord} {p : Position}
    (h : of line column offset = .ok p) : p.OnLine := by
  unfold of at h
  split at h
  · contradiction
  · next hline =>
    cases h
    exact hline

theorem onLine_of_checked {line column offset : Coord} {p : Position}
    (h : checked line column offset = .ok p) : p.OnLine := by
  unfold checked at h
  split at h
  · contradiction
  · next hline =>
    cases h
    exact hline

end Position

namespace LineTable

theorem onLine_position (text : Bytes) (offset : Coord) :
    ((ofText text).position offset).OnLine := by
  have hpos := linesUpTo_pos text ((ofText text).clamp offset)
  rw [Position.onLine_iff]
  simp only [position, Coord.val_sat, Coord.limit]
  omega

theorem onLine_of_locate? {t : LineTable} {p q : Position} (h : t.locate? p = some q) :
    q.OnLine := by
  obtain ⟨offset, hoffset, rfl⟩ := Option.map_eq_some_iff.1 h
  intro hzero
  have hline : p.line = .zero := hzero
  rw [offset?, if_pos hline] at hoffset
  contradiction

end LineTable

namespace Source
variable {σ : Type}

/-- Where an operation moves a source to. -/
def Op.goal? : Op → Option Position
  | .moveTo place => some place
  | .restart place _ => some place
  | _ => none

theorem Pulled.onward [Producer σ] {s t : Source σ} (h : s.Pulled t) :
    s.position.Onward t.position := by
  apply h.keeps (P := fun u => s.position.Onward u.position) _ (.refl _)
  intro u n hu
  exact hu.trans ⟨_, u.position_pull n⟩

theorem pulled_drain [Producer σ] (s : Source σ) (fuel : Nat) :
    s.Pulled (s.drain fuel).2 := by
  induction fuel generalizing s with
  | zero => exact .refl s
  | succ fuel ih =>
    have hpull := s.pulled_pull 4096
    rw [drain]
    dsimp only
    split
    · exact hpull
    · exact hpull.trans (ih _)

/-- An operation takes a source onward, or to where it is told to go. -/
theorem onward_perform [Bounded σ] (s : Source σ) (op : Op) :
    match op.goal? with
    | some place => (s.perform op).2.position = place
    | none => s.position.Onward (s.perform op).2.position := by
  have hdrain : s.position.Onward s.readAll.2.position := (s.pulled_drain _).onward
  cases op with
  | pull n =>
    simp only [Op.goal?, perform]
    split
    · exact .refl _
    · exact (s.pulled_pull n).onward
  | read n =>
    simp only [Op.goal?, perform]
    split
    · exact .refl _
    · exact (s.pulled_pull n).onward
  | readAll => exact hdrain
  | readText => exact hdrain
  | ask => exact .refl _
  | moveTo place => rfl
  | restart place initial => rfl

end Source

namespace Lookahead
variable {σ : Type}

/-- The positions of a reader and of the source that it pulls from. -/
def places (s : Lookahead σ) : List Position := [s.position, s.source.position]

/-- `t` is `s` after some operations. -/
structure LeadsTo [Producer σ] (s t : Lookahead σ) : Prop where
  position : s.position.Onward t.position
  source : s.source.Pulled t.source

section
variable [Producer σ] {s t u : Lookahead σ}

theorem LeadsTo.refl (s : Lookahead σ) : s.LeadsTo s := ⟨.refl _, .refl _⟩

theorem LeadsTo.trans (h : s.LeadsTo t) (h' : t.LeadsTo u) : s.LeadsTo u :=
  ⟨h.position.trans h'.position, h.source.trans h'.source⟩

theorem LeadsTo.onLine (h : s.LeadsTo t) (hs : ∀ p ∈ s.places, p.OnLine) :
    ∀ p ∈ t.places, p.OnLine := by
  simp only [places, List.forall_mem_cons] at hs ⊢
  exact ⟨hs.1.onward h.position, hs.2.1.onward h.source.onward, hs.2.2⟩

theorem LeadsTo.settle (h : s.LeadsTo t) {α : Type} (need : Nat) (answer : α) :
    s.LeadsTo (s.settle t need answer).2 := by
  unfold Lookahead.settle
  repeat' split
  · exact h
  · exact ⟨.refl _, h.source⟩
  · exact h
  · exact ⟨.refl _, h.source⟩

theorem leadsTo_nth (s : Lookahead σ) (n : Nat) : s.LeadsTo (s.nth n).2 :=
  ⟨.of_eq (position_nth s n), s.pulled_nth n⟩

theorem leadsTo_take (s : Lookahead σ) : s.LeadsTo s.take.2 :=
  ⟨⟨_, s.position_take⟩, s.pulled_take⟩

theorem leadsTo_takeIf (s : Lookahead σ) (b : UInt8) : s.LeadsTo (s.takeIf b).2 := by
  refine ⟨⟨_, s.position_takeIf b⟩, ?_⟩
  have hpeek : s.source.Pulled s.peek.2.source := s.pulled_nth 0
  unfold takeIf
  dsimp only
  split
  · exact hpeek.trans s.peek.2.pulled_take
  · exact hpeek

theorem pulled_gatherUpTo (p : Test) (fuel memory : Nat) (taken : Bytes) (s : Lookahead σ) :
    s.source.Pulled (gatherUpTo p fuel memory taken s).2.source := by
  induction fuel generalizing memory taken s with
  | zero => exact .refl _
  | succ fuel ih =>
    rw [gatherUpTo]
    split
    · next t h => exact pulled_of_nth h
    · next b t h =>
      split
      · exact pulled_of_nth h
      · have hnth : s.source.Pulled t.source := pulled_of_nth h
        exact hnth.trans (ih _ _ { t with window := t.window.tail })

theorem leadsTo_takeWhileUpTo (p : Test) (fuel : Nat) (s : Lookahead σ) :
    s.LeadsTo (s.takeWhileUpTo fuel p).2 :=
  ⟨⟨_, position_takeWhileUpTo p fuel s⟩, pulled_gatherUpTo p fuel 0 [] s⟩

theorem leadsTo_performUpTo (fuel : Nat) (s : Lookahead σ) (op : Op) :
    s.LeadsTo (s.performUpTo fuel op).2 := by
  cases op with
  | peek => exact (s.leadsTo_nth 0).settle _ _
  | nth n => exact (s.leadsTo_nth n).settle _ _
  | take => exact s.leadsTo_take.settle _ _
  | takeIf b => exact (s.leadsTo_takeIf b).settle _ _
  | takeWhile p => exact (leadsTo_takeWhileUpTo p fuel s).settle _ _
  | atEnd => exact (s.leadsTo_nth 0).settle _ _

end

variable [Bounded σ]

theorem leadsTo_takeWhile (p : Test) (s : Lookahead σ) : s.LeadsTo (s.takeWhile p).2 := by
  refine ⟨⟨(s.takeWhile p).1, ?_⟩, s.pulled_takeWhile p⟩
  rw [takeWhile]
  dsimp only
  rw [(left_gather p 0 [] s).1]

theorem position_lookFrom (p : Test) (memory : Nat) (seen : Bytes) (s : Lookahead σ) :
    (lookFrom p memory seen s).2.position = s.position := by
  fun_induction lookFrom p memory seen s with
  | case1 _ seen s t h =>
    have hpos := position_nth s seen.length
    rwa [h] at hpos
  | case2 _ seen s b t h =>
    have hpos := position_nth s seen.length
    rwa [h] at hpos
  | case3 _ seen s b t h _ _ ih =>
    have hpos := position_nth s seen.length
    rw [h] at hpos
    exact ih.trans hpos

theorem leadsTo_lookWhile (p : Test) (s : Lookahead σ) : s.LeadsTo (s.lookWhile p).2 :=
  ⟨.of_eq (position_lookFrom p 0 [] s), s.pulled_lookWhile p⟩

end Lookahead

theorem Scan.leadsTo_run {α σ : Type} [Bounded σ] (m : Scan α) (s : Lookahead σ) :
    s.LeadsTo (m.run s).2 := by
  induction m generalizing s with
  | done a => exact .refl s
  | nth n next ih => exact (s.leadsTo_nth n).trans (ih _ _)
  | take next ih => exact s.leadsTo_take.trans (ih _ _)
  | takeWhile p next ih => exact (s.leadsTo_takeWhile p).trans (ih _ _)
  | lookWhile p next ih => exact (s.leadsTo_lookWhile p).trans (ih _ _)
  | position next ih => exact ih _ s
  | source next ih => exact ih _ s

section
variable {σ S U : Type}

/-- The positions of a unit. -/
def Token.places (t : Token U) : List Position := [t.start, t.stop]

/-- The positions of some units. -/
def Token.allPlaces (units : List (Token U)) : List Position := units.flatMap Token.places

/-- The positions that a lexer leaves. -/
def Lexing.places (r : Lexing σ S U) : List Position :=
  r.reader.places ++ r.stall.toList ++ Token.allPlaces r.tokens

/-- The positions of an update. -/
def Update.places (u : Update U) : List Position := u.resume :: Token.allPlaces u.units.toList

theorem Token.onLine_lastStop {kept : List (Token U)} (h : ∀ p ∈ allPlaces kept, p.OnLine) :
    (lastStop .start kept).OnLine := by
  rw [lastStop]
  cases hlast : kept.getLast? with
  | none => exact Position.onLine_start
  | some t =>
    apply h
    rw [allPlaces, List.mem_flatMap]
    exact ⟨t, List.mem_of_getLast? hlast, by simp [places]⟩

theorem Lexer.onLine_run [Bounded σ] (lexer : Lexer S U) (document : Option String) (state : S)
    {reader : Lookahead σ} (h : ∀ p ∈ reader.places, p.OnLine) :
    ∀ p ∈ (lexer.run document state reader).places, p.OnLine := by
  have hskip (state : S) (reader : Lookahead σ) :
      reader.LeadsTo ((lexer.skip document state).run reader).2.atEnd.2 :=
    (Scan.leadsTo_run _ reader).trans (Lookahead.leadsTo_nth _ 0)
  have hread (state : S) (reader : Lookahead σ) :
      let skipped := (lexer.skip document state).run reader
      reader.LeadsTo ((lexer.read document skipped.1).run skipped.2.atEnd.2).2 :=
    (hskip state reader).trans (Scan.leadsTo_run _ _)
  fun_induction lexer.run document state reader with
  | case1 state reader =>
    simpa [Lexing.places, Token.allPlaces] using (hskip state reader).onLine h
  | case2 state reader =>
    have hunit := (hread state reader).onLine h
    simpa [Lexing.places, Token.allPlaces] using hunit
  | case3 state reader =>
    have hahead := (hskip state reader).onLine h
    have hunit := (hread state reader).onLine h
    have hstall := hahead _ List.mem_cons_self
    simp only [Lexing.places, Token.allPlaces, List.flatMap_nil, List.append_nil,
      Option.toList_some, List.mem_append, List.mem_singleton]
    rintro p (hp | rfl)
    · exact hunit p hp
    · exact hstall
  | case4 state reader _ _ _ _ _ _ _ _ ih =>
    have hahead := (hskip state reader).onLine h
    have hunit := (hread state reader).onLine h
    have hrest := ih hunit
    have hstart := hahead _ List.mem_cons_self
    have hstop := hunit _ List.mem_cons_self
    simp only [Lexing.places, Token.allPlaces, List.flatMap_cons, Token.places, List.mem_append,
      List.mem_cons, List.not_mem_nil, or_false] at hrest ⊢
    rintro p (hp | (rfl | rfl) | hp)
    · exact hrest p (.inl hp)
    · exact hstart
    · exact hstop
    · exact hrest p (.inr hp)

theorem Lexer.onLine_tokensFrom (lexer : Lexer S U) (document : Option String)
    (settings : Settings) (state : S) {start : Position} (h : start.OnLine) (text : Bytes) :
    ∀ p ∈ Token.allPlaces (lexer.tokensFrom document settings state start text).value.1,
      p.OnLine := by
  have hreader : ∀ p ∈ (Lookahead.ofSource (.beginAt []
      (Slices.ofText text settings.chunkSize) start)).places, p.OnLine := by
    simpa [Lookahead.places, Lookahead.ofSource, Source.beginAt] using h
  intro p hp
  exact lexer.onLine_run document state hreader p (List.mem_append_right _ hp)

namespace Tokenizer

theorem onLine_tokenize (t : Tokenizer S U) (document : Option String) (text : Bytes) :
    ∀ p ∈ Token.allPlaces (t.tokenize document text).value.1.toList, p.OnLine :=
  t.lexer.onLine_tokensFrom document t.settings t.state Position.onLine_start text

theorem onLine_update (t : Tokenizer S U) (document : Option String)
    {previous : Focused (Token U)} (h : ∀ p ∈ Token.allPlaces previous.toList, p.OnLine)
    (change : Change) (text : Bytes) :
    ∀ p ∈ (t.update document previous change text).value.1.places, p.OnLine := by
  have hkept : ∀ p ∈ Token.allPlaces (previous.toList.take
      ((change.damage t.settings.lookbehind).soundPrefix previous)), p.OnLine := by
    intro p hp
    obtain ⟨u, hu, hp⟩ := List.mem_flatMap.1 hp
    exact h p (List.mem_flatMap.2 ⟨u, List.mem_of_mem_take hu, hp⟩)
  have hresume := Token.onLine_lastStop hkept
  have hjoined {kept fresh : List (Token U)}
      (hjoins : (t.update document previous change text).value.1.Joins kept fresh)
      (hkept : ∀ p ∈ Token.allPlaces kept, p.OnLine)
      (hfresh : ∀ p ∈ Token.allPlaces fresh, p.OnLine) :
      ∀ p ∈ (t.update document previous change text).value.1.places, p.OnLine := by
    rw [Update.places, hjoins.resume, hjoins.units, Token.allPlaces, List.flatMap_append,
      List.forall_mem_cons, List.forall_mem_append]
    exact ⟨Token.onLine_lastStop hkept, hkept, hfresh⟩
  by_cases hboundary : Utf8.isBoundary text (Token.lastStop .start (previous.toList.take
      ((change.damage t.settings.lookbehind).soundPrefix previous))).offset.val
  · exact hjoined (t.joins_of_boundary document previous change text hboundary) hkept
      (t.lexer.onLine_tokensFrom document t.settings t.state hresume _)
  · exact hjoined (t.joins_of_not_boundary document previous change text hboundary)
      (fun p hp => absurd hp List.not_mem_nil) (t.onLine_tokenize document text)

end Tokenizer

namespace Document

theorem preserves_onLine : Preserves (S := S) (U := U)
    (fun d => ∀ p ∈ Token.allPlaces d.units.toList, p.OnLine) fun _ => True where
  text _ _ := trivial
  edit d id start stop replacement h := by
    cases hcheck : checkEdit d.text.value start stop replacement with
    | error e =>
      rw [edit_of_error hcheck]
      exact h
    | ok u =>
      rw [value_edit_of_ok hcheck]
      intro p hp
      exact d.tokenizer.onLine_update _ h _ _ p (List.mem_cons_of_mem _ hp)
  replace d _ _ _ := d.tokenizer.onLine_tokenize _ _
  unitsOf _ _ _ h := h

end Document

theorem Client.onLine_run (name : String) (t : Tokenizer S U) (text : Bytes)
    (ops : List Client.Op) : ∀ p ∈ Token.allPlaces
      ((load name text t).value.run ops).value.document.units.toList, p.OnLine := by
  have hload : (load name text t).value.Keeps
      (fun d => ∀ p ∈ Token.allPlaces d.units.toList, p.OnLine) fun _ => True :=
    ⟨t.onLine_tokenize (some name) text, fun _ _ => trivial⟩
  exact (run_keeps Document.preserves_onLine hload fun _ _ => trivial).document

end

namespace Position

/-- The ways to a position; `outside` are the written values that are read as one. -/
inductive Arises (outside : Wire → Prop) : Position → Prop where
  | start : Arises outside start
  | default : Arises outside default
  | of {line column offset : Coord} {p : Position} (made : of line column offset = .ok p) :
      Arises outside p
  | ofLineColumn {line column : Coord} {p : Position} (made : ofLineColumn line column = .ok p) :
      Arises outside p
  | checked {line column offset : Coord} {p : Position}
      (made : checked line column offset = .ok p) : Arises outside p
  | read {w : Wire} {p : Position} (written : outside w) (made : w.position? = some p) :
      Arises outside p
  | advance {p : Position} (arises : Arises outside p) (bytes : Bytes) :
      Arises outside (p.advance bytes)
  | position (text : Bytes) (offset : Coord) :
      Arises outside ((LineTable.ofText text).position offset)
  | locate {p q : Position} (arises : Arises outside p) (text : Bytes)
      (made : (LineTable.ofText text).locate? p = some q) : Arises outside q
  /-- A source that starts at a position is there. -/
  | source {σ : Type} [Bounded σ] {s : Source σ} (arises : Arises outside s.position)
      (op : Source.Op) (goal : ∀ place, op.goal? = some place → Arises outside place) :
      Arises outside (s.perform op).2.position
  | pull {σ : Type} [Producer σ] {s : Source σ} (arises : Arises outside s.position) (n : Nat) :
      Arises outside (s.pull n).2.position
  /-- A reader that starts on a source is where that is. -/
  | reader {σ : Type} [Producer σ] {s : Lookahead σ} {p : Position}
      (arises : ∀ q ∈ s.places, Arises outside q) (fuel : Nat) (op : Lookahead.Op)
      (made : p ∈ (s.performUpTo fuel op).2.places) : Arises outside p
  | scan {α σ : Type} [Bounded σ] {s : Lookahead σ} {p : Position}
      (arises : ∀ q ∈ s.places, Arises outside q) (m : Scan α) (made : p ∈ (m.run s).2.places) :
      Arises outside p
  | lex {σ S U : Type} [Bounded σ] {s : Lookahead σ} {p : Position}
      (arises : ∀ q ∈ s.places, Arises outside q) (lexer : Lexer S U)
      (document : Option String) (state : S) (made : p ∈ (lexer.run document state s).places) :
      Arises outside p
  | tokenize {S U : Type} {p : Position} (t : Tokenizer S U) (document : Option String)
      (text : Bytes) (made : p ∈ Token.allPlaces (t.tokenize document text).value.1.toList) :
      Arises outside p
  | update {S U : Type} {previous : Focused (Token U)} {p : Position}
      (arises : ∀ q ∈ Token.allPlaces previous.toList, Arises outside q) (t : Tokenizer S U)
      (document : Option String) (change : Change) (text : Bytes)
      (made : p ∈ (t.update document previous change text).value.1.places) : Arises outside p
  | document {S U : Type} {p : Position} (name : String) (t : Tokenizer S U) (text : Bytes)
      (ops : List Client.Op) (made : p ∈ Token.allPlaces
        ((Client.load name text t).value.run ops).value.document.units.toList) : Arises outside p

/-- By induction on the way to the position, as long as no value on no line is read. -/
theorem Arises.onLine {outside : Wire → Prop}
    (h : ∀ w p, outside w → w.position? = some p → p.OnLine) {p : Position}
    (hp : Arises outside p) : p.OnLine := by
  induction hp with
  | start => exact onLine_start
  | default => exact onLine_start
  | of made => exact onLine_of_of made
  | ofLineColumn made => exact onLine_of_of made
  | checked made => exact onLine_of_checked made
  | read written made => exact h _ _ written made
  | advance _ bytes ih => exact ih.onward ⟨bytes, rfl⟩
  | position text offset => exact LineTable.onLine_position text offset
  | locate _ _ made => exact LineTable.onLine_of_locate? made
  | @source _ _ s _ op _ ih ihgoal =>
    have honward := s.onward_perform op
    cases hgoal : op.goal? with
    | none =>
      rw [hgoal] at honward
      exact ih.onward honward
    | some place =>
      rw [hgoal] at honward
      rw [honward]
      exact ihgoal place hgoal
  | @pull _ _ s _ n ih => exact ih.onward (s.pulled_pull n).onward
  | @reader _ _ s _ _ fuel op made ih => exact (s.leadsTo_performUpTo fuel op).onLine ih _ made
  | @scan _ _ _ s _ _ m made ih => exact (m.leadsTo_run s).onLine ih _ made
  | lex _ lexer document state made ih => exact lexer.onLine_run document state ih _ made
  | tokenize t document text made => exact t.onLine_tokenize document text _ made
  | update _ t document change text made ih => exact t.onLine_update document ih change text _ made
  | document name t text ops made => exact Client.onLine_run name t text ops _ made

/-- Whatever is done, a position on no line comes up exactly if one is read; and these are the
positions before the start. -/
theorem lineless_arises_iff (outside : Wire → Prop) :
    ((∃ p, Arises outside p ∧ p.line = .zero) ↔
      ∃ w p, outside w ∧ w.position? = some p ∧ p.line = .zero) ∧
    ∀ p : Position, p.compare .start = .lt ↔ p.line = .zero := by
  refine ⟨⟨?_, ?_⟩, ?_⟩
  · rintro ⟨p, hp, hline⟩
    refine Classical.byContradiction fun hnone => hp.onLine (fun w q hw hq hzero => ?_) hline
    exact hnone ⟨w, q, hw, hq, hzero⟩
  · rintro ⟨w, p, hw, hp, hline⟩
    exact ⟨p, .read hw hp, hline⟩
  · intro p
    rw [compare_start_eq_lt_iff, OnLine, not_not]

/-- A record of zeros is read as it is written: as a position before the start. -/
theorem lineless_arises :
    let w : Wire := .record [("line", .whole 0), ("column", .whole 0), ("offset", .whole 0)]
    let p : Position := ⟨.zero, .zero, .zero⟩
    w.position? = some p ∧ Arises (· = w) p ∧ p.compare .start = .lt ∧
      checked p.line p.column p.offset = .error .zeroLine ∧
      of p.line p.column p.offset = .error .lineZero := by
  intro w p
  have hread : w.position? = some p := by decide
  exact ⟨hread, .read rfl hread, by decide, by decide, by decide⟩

end Position
end EditLex
