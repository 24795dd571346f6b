import EditLex.Proofs.Borders
import EditLex.Proofs.Edits
import EditLex.Proofs.Pulls
import EditLex.Proofs.Snapshots
import EditLex.Proofs.Splicing

/-!
Where the lexer of words goes on after an edit. Each operation of a document of words leaves units
that border characters of its text, and reports of no place that was given up (`Logged.Gives` tells
both of a computation). So an open document never has to be read as a whole for an edit
(`Client.resumes_run`). A unit that ends behind the last offset has that for its end, which may be
inside a character (`Client.unit_ends_inside_character`).
-/
namespace EditLex

/-- The event does not report that a place to go on from was given up. -/
def Event.Regular : Event → Prop
  | .resumeRejected .. => False
  | _ => True

/-- The value has `P`, and all that is reported on the way to it is regular. -/
structure Logged.Gives {α : Type} (x : Logged α) (P : α → Prop) : Prop where
  value : P x.value
  events : ∀ e ∈ x.events, e.Regular

namespace Logged.Gives
variable {α β : Type} {P : α → Prop} {Q : β → Prop}

theorem bind {x : Logged α} {f : α → Logged β} (h : x.Gives P) (hf : ∀ a, P a → (f a).Gives Q) :
    (x >>= f).Gives Q where
  value := (hf _ h.value).value
  events := List.forall_mem_append.2 ⟨h.events, (hf _ h.value).events⟩

theorem pure {a : α} (h : P a) : (Pure.pure a : Logged α).Gives P :=
  ⟨h, fun _ he => absurd he List.not_mem_nil⟩

theorem tell {event : Event} (h : event.Regular) : (Logged.tell event).Gives fun _ => True :=
  ⟨trivial, List.forall_mem_singleton.2 h⟩

theorem within {name : String} {body : Option String → Logged α}
    (h : (body (some name)).Gives P) : (Ambient.within name body).Gives P :=
  (tell (by trivial)).bind fun _ _ => h.bind fun _ ha => (tell (by trivial)).bind fun _ _ => pure ha

end Logged.Gives

/-- What a source of slices reports is regular, and so is what a lexer over it reports. -/
theorem Lexer.regular_tokensFrom {S U : Type} (lexer : Lexer S U) (document : Option String)
    (settings : Settings) (state : S) (start : Position) (text : Bytes) :
    ∀ e ∈ (lexer.tokensFrom document settings state start text).events, e.Regular := by
  have hpull (s : Source Slices) (n : Nat) (h : ∀ e ∈ s.journal, e.Regular) :
      ∀ e ∈ (s.pull n).2.journal, e.Regular := by
    have hload : ∀ e ∈ s.load.journal, e.Regular := by
      unfold Source.load Source.ask
      split
      · exact h
      · dsimp only [Producer.next, Slices.next]
        split
        · simpa [Event.Regular] using h
        · simpa [Event.Regular, Producer.hasRoom] using h
    unfold Source.pull
    split
    · exact h
    · split
      · exact hload
      · exact h
  have hfirst : ∀ e ∈ (Source.beginAt [] (Slices.ofText text settings.chunkSize) start).journal,
      e.Regular := by
    simp [Source.beginAt, Event.Regular]
  have hjournal := (lexer.pulled_run document state (.ofSource (.beginAt []
    (Slices.ofText text settings.chunkSize) start))).keeps hpull hfirst
  simp only [tokensFrom, Lexing.events, List.forall_mem_append, List.mem_reverse]
  refine ⟨hjournal, ?_⟩
  intro e he
  obtain ⟨place, -, rfl⟩ := by simpa using he
  trivial

namespace Tokenizer

theorem gives_tokenize {t : Tokenizer Unit Word} (hlexer : t.lexer = Word.lexer)
    (document : Option String) {text : Bytes} (h : Readable text) :
    (t.tokenize document text).Gives fun r => r.2 = t ∧ Bordering text r.1.toList where
  value := ⟨rfl, .tokenize hlexer document h⟩
  events := by
    simp only [tokenize, Lexer.tokens, Logged.events_bind, Logged.events_pure, List.append_nil]
    exact t.lexer.regular_tokensFrom document t.settings t.state .start text

/-- An update of words goes on where the units that it keeps end. -/
theorem gives_update {t : Tokenizer Unit Word} (hlexer : t.lexer = Word.lexer)
    (document : Option String) {old text : Bytes} {previous : Focused (Token Word)}
    {change : Change} (h : Bordering old previous.toList) (hold : Utf8.Valid old)
    (htext : Readable text) (hlength : change.start.val ≤ text.length)
    (hshare : old.take change.start.val = text.take change.start.val) :
    let kept := previous.toList.take ((change.damage t.settings.lookbehind).soundPrefix previous)
    let resume := Token.lastStop .start kept
    (t.update document previous change text).Gives fun r =>
      r.2 = t ∧ Bordering text r.1.units.toList ∧
        r.1.Joins kept (t.lexer.tokensFrom document t.settings t.state resume
          (text.drop resume.offset.val)).value.1 := by
  intro kept resume
  obtain ⟨-, -, hresume⟩ := h.lastStop change htext.valid hlength hshare hold t.settings.lookbehind
  have hkept : Bordering text kept := h.take change htext.valid hlength hshare t.settings.lookbehind
  have hboundary := (Utf8.isBoundary_iff htext.valid).2 hresume.between
  have hjoins := t.joins_of_boundary document previous change text hboundary
  obtain ⟨hfresh, hbehind⟩ := Bordering.tokensFrom document t.settings htext hresume
  constructor
  case value =>
    refine ⟨t.value_update document previous change text, ⟨?_, ?_⟩, hjoins⟩
    · rw [hjoins.units]
      intro u hu
      rcases List.mem_append.1 hu with hu | hu
      · exact hkept.borders u hu
      · rw [hlexer] at hu
        exact hfresh.borders u hu
    · rw [hjoins.units, hlexer]
      apply List.pairwise_append.2
      refine ⟨hkept.sorted, hfresh.sorted, ?_⟩
      intro u hu v hv
      exact Nat.le_trans (Token.stop_le_lastStop hkept.sorted hu) (hbehind v hv)
  case events =>
    simp only [update, stop_preceding?_moveTo]
    rw [if_pos hboundary]
    simp only [Logged.events_bind, Logged.events_pure, List.append_nil, List.forall_mem_append]
    exact ⟨t.lexer.regular_tokensFrom document t.settings t.state _ _,
      (Logged.Gives.tell (by trivial)).events⟩

end Tokenizer

namespace Document
variable {S U : Type}

/-- The units that an update for the change keeps. -/
def kept (d : Document S U) (change : Change) : List (Token U) :=
  d.units.toList.take ((change.damage d.tokenizer.settings.lookbehind).soundPrefix d.units)

/-- The place behind them, where the lexer goes on. -/
def resume (d : Document S U) (change : Change) : Position := Token.lastStop .start (d.kept change)

/-- The cache has the units of the current text. They border characters of it, and so do their
offsets if it has one for each of its places. -/
structure Parted (d : Document S U) : Prop where
  cached : d.cache.entries.map (fun e => (e.2.origin, e.2.derived.value)) = [(.of d.text, d.units)]
  borders : ∀ t ∈ d.units.toList, t.Borders d.text.value
  between : d.text.value.length ≤ Coord.limit → ∀ t ∈ d.units.toList,
    Utf8.Between d.text.value t.start.offset.val ∧ Utf8.Between d.text.value t.stop.offset.val

/-- The change that leaves the text `after` has the lexer go on from the end of a unit before it, or
from the front, and that is between two characters of either text. -/
structure Resumes (d : Document S U) (change : Change) (after : Bytes) (reuse : Reuse) : Prop where
  before : (d.resume change).offset ≤ change.start
  old : Utf8.Between d.text.value (d.resume change).offset.val
  new : Utf8.Between after (d.resume change).offset.val
  place : (d.tokenizer.update (some d.name) d.units change after).value.1.resume = d.resume change
  reuse_eq : reuse = (d.tokenizer.update (some d.name) d.units change after).value.1.reuse
  kept : reuse.kept = (d.kept change).length

/-- An open document of words, the units of which border characters of its text. -/
structure Bordered (d : Document Unit Word) : Prop where
  lexer_eq : d.tokenizer.lexer = Word.lexer
  text : Readable d.text.value
  units : Bordering d.text.value d.units.toList

theorem bordered_load (name : String) (settings : Settings) (text : Snapshot)
    (h : Readable text.value) :
    (load name text ⟨Word.lexer, (), settings⟩).Gives Bordered := by
  have hunits := Tokenizer.gives_tokenize (t := ⟨Word.lexer, (), settings⟩) rfl (some name) h
  apply hunits.within.bind
  rintro ⟨units, t⟩ ⟨rfl, hunits⟩
  apply (Logged.Gives.tell (by trivial)).bind
  intro _ _
  exact ⟨⟨rfl, h, hunits⟩, List.forall_mem_singleton.2 (by trivial)⟩

theorem readable_splice {text : Bytes} {start stop : Coord} {replacement : Bytes}
    (haccepts : Accepts text start stop replacement) (hr : Utf8.Valid replacement) :
    Readable (splice text start stop replacement) :=
  ⟨valid_splice haccepts hr, Lexer.room_of_le_limit haccepts.2.2⟩

namespace Bordered
variable {d : Document Unit Word}

theorem install (h : d.Bordered) (text : Snapshot) (htext : Readable text.value)
    {units : Focused (Token Word)} (hunits : Bordering text.value units.toList) :
    (d.install text units d.tokenizer).Gives Bordered where
  value := ⟨h.lexer_eq, htext, hunits⟩
  events := List.forall_mem_singleton.2 (by trivial)

theorem replace (h : d.Bordered) (text : Snapshot) (htext : Readable text.value) :
    (d.replace text).Gives Bordered := by
  have hunits := Tokenizer.gives_tokenize h.lexer_eq (some d.name) htext
  apply hunits.within.bind
  rintro ⟨units, t⟩ ⟨rfl, hunits⟩
  apply (h.install text htext hunits).bind
  intro d hd
  exact (Logged.Gives.tell (by trivial)).bind fun _ _ => .pure hd

theorem unitsOf (h : d.Bordered) (held : Nat → Bool) (snapshot : Snapshot) :
    (d.unitsOf held snapshot).Gives fun r => r.2.Bordered where
  value := ⟨h.lexer_eq, h.text, h.units⟩
  events := by
    unfold Document.unitsOf Cache.get
    split
    · simp
    · split
      · simp
      · split <;> simp [Event.Regular]

section
variable (h : d.Bordered) {start stop : Coord} {replacement : Bytes}
  (haccepts : Accepts d.text.value start stop replacement) (hr : Utf8.Valid replacement)
include h haccepts hr

/-- For an edit that is accepted, the lexer goes on where the kept units end. -/
theorem update :
    let text := splice d.text.value start stop replacement
    let change := Change.ofReplacement start stop replacement
    let place := d.resume change
    (d.tokenizer.update (some d.name) d.units change text).Gives fun r =>
      r.2 = d.tokenizer ∧ Bordering text r.1.units.toList ∧
        r.1.Joins (d.kept change) (d.tokenizer.lexer.tokensFrom (some d.name) d.tokenizer.settings
          d.tokenizer.state place (text.drop place.offset.val)).value.1 := by
  obtain ⟨hlength, hshare⟩ :=
    Tokenizer.splice_shares (Nat.le_trans haccepts.1.1 haccepts.1.2) stop replacement
  exact Tokenizer.gives_update h.lexer_eq (some d.name) h.units h.text.valid
    (readable_splice haccepts hr) hlength hshare

end

/-- The cache has the units of a document of words. -/
theorem parted (h : d.Bordered) (hcaches : d.Caches) : d.Parted where
  cached := by
    obtain ⟨_, hentries⟩ := hcaches
    simp [hentries]
  borders := h.units.borders
  between hlimit t ht := (h.units.borders t ht).between hlimit

theorem resumes (h : d.Bordered) {id : Nat} {start stop : Coord} {replacement : Bytes}
    (hr : Utf8.Valid replacement) {reuse : Reuse}
    (hok : (d.edit id start stop replacement).value.1 = .ok reuse) :
    d.Resumes (.ofReplacement start stop replacement)
      (d.edit id start stop replacement).value.2.text.value reuse := by
  have haccepts := (Document.edit_checked h.text.valid id start stop replacement).accepted.1
    ⟨reuse, hok⟩
  have hedit : (d.edit id start stop replacement).value = _ :=
    value_edit_of_ok ((checkEdit_eq_ok h.text.valid).2 haccepts) id
  rw [hedit] at hok ⊢
  have hjoins := (h.update haccepts hr).value.2.2
  obtain ⟨hlength, hshare⟩ :=
    Tokenizer.splice_shares (Nat.le_trans haccepts.1.1 haccepts.1.2) stop replacement
  obtain ⟨hle, hold, hnew⟩ := h.units.lastStop (.ofReplacement start stop replacement)
    (valid_splice haccepts hr) hlength hshare h.text.valid d.tokenizer.settings.lookbehind
  have hreuse := Except.ok.inj hok
  constructor
  case before => exact hle
  case old => exact hold.between
  case new => exact hnew.between
  case place => exact hjoins.resume
  case reuse_eq => exact hreuse.symm
  case kept =>
    rw [← hreuse, hjoins.reuse]

theorem edit (h : d.Bordered) {replacement : Bytes} (hr : Utf8.Valid replacement) (id : Nat)
    (start stop : Coord) :
    (d.edit id start stop replacement).Gives fun r => r.2.Bordered := by
  unfold Document.edit
  cases hcheck : checkEdit d.text.value start stop replacement with
  | error e => exact .pure h
  | ok u =>
    have haccepts := (checkEdit_eq_ok h.text.valid).1 hcheck
    apply (h.update haccepts hr).within.bind
    rintro ⟨update, t⟩ ⟨rfl, hunits, -⟩
    apply (h.install ⟨id, _⟩ (readable_splice haccepts hr) hunits).bind
    intro d' hd'
    exact (Logged.Gives.tell (by trivial)).bind fun _ _ => .pure hd'

end Bordered
end Document

namespace Client

/-- The units of the document border characters of its text, and the texts that are kept can be
read. -/
structure Bordered (c : Client Unit Word) : Prop where
  document : c.document.Bordered
  kept : ∀ e ∈ c.kept, Readable e.2.value

theorem Bordered.hold {c : Client Unit Word} (h : c.Bordered) (label : String) {snapshot : Snapshot}
    (hs : Readable snapshot.value) : (c.hold label snapshot).Bordered := by
  refine ⟨h.document, ?_⟩
  intro e he
  rcases mem_kept_of_mem_hold he with he | he
  · exact h.kept e he
  · exact he ▸ hs

theorem Bordered.unitsOf {c : Client Unit Word} (h : c.Bordered) (snapshot : Snapshot) :
    (c.unitsOf snapshot).Gives fun r => r.2.Bordered :=
  (h.document.unitsOf c.holds snapshot).bind fun _ hd => .pure ⟨hd, h.kept⟩

theorem Bordered.step {c : Client Unit Word} (h : c.Bordered) {op : Op}
    (hop : ∀ text ∈ op.text?, Readable text) :
    (c.step op).Gives fun r => r.2.Bordered := by
  cases op with
  | edit start stop replacement =>
    apply (h.document.edit (hop _ rfl).valid c.nextId start stop).bind
    intro r hr
    exact .pure ⟨hr, h.kept⟩
  | replace text =>
    apply (h.document.replace ⟨c.nextId, text⟩ (hop _ rfl)).bind
    intro d hd
    exact .pure ⟨hd, h.kept⟩
  | reinstall label =>
    simp only [Client.step]
    cases hfind : c.find? label with
    | none => exact .pure h
    | some snapshot =>
      apply (h.document.replace snapshot (h.kept _ (mem_of_lookup hfind))).bind
      intro d hd
      exact .pure ⟨hd, h.kept⟩
  | keep label => exact .pure (h.hold label h.document.text)
  | copy label =>
    have hcopy : Readable (⟨c.nextId, c.document.text.value⟩ : Snapshot).value := h.document.text
    exact .pure ⟨h.document, (h.hold label hcopy).kept⟩
  | forget label => exact .pure ⟨h.document, fun e he => h.kept e (List.mem_filter.1 he).1⟩
  | units label =>
    cases label with
    | none => exact h.unitsOf c.document.text
    | some label =>
      simp only [Client.step]
      cases c.find? label with
      | none => exact .pure h
      | some snapshot => exact h.unitsOf snapshot

theorem Bordered.run {c : Client Unit Word} (h : c.Bordered) {ops : List Op}
    (hops : ∀ op ∈ ops, ∀ text ∈ op.text?, Readable text) : (c.run ops).Gives Bordered := by
  induction ops generalizing c with
  | nil => exact .pure h
  | cons op ops ih =>
    apply ((h.step (hops op List.mem_cons_self)).bind fun r hr => .pure hr).bind
    intro c hc
    exact ih hc fun op hop => hops op (List.mem_cons_of_mem _ hop)

/-- Whatever a client does with a document of words, no place to go on from is ever given up. All
units that the document and its cache hold border characters of the current text, and an edit that
is accepted has the lexer go on from the end of a unit before it, or from the front, which is a
place between characters of the old text and of the new one. -/
theorem resumes_run (name : String) (settings : Settings) {text : Bytes} (htext : Readable text)
    {ops : List Op} (hops : ∀ op ∈ ops, ∀ text ∈ op.text?, Readable text) :
    let run := do (← load name text ⟨Word.lexer, (), settings⟩).run ops
    run.Gives fun c =>
      let d := c.document
      d.Parted ∧ ∀ id start stop replacement, Utf8.Valid replacement →
        (d.edit id start stop replacement).Gives fun r => ∀ reuse, r.1 = .ok reuse →
          d.Resumes (.ofReplacement start stop replacement) r.2.text.value reuse := by
  intro run
  have hload : (load name text ⟨Word.lexer, (), settings⟩).Gives Bordered := by
    apply (Document.bordered_load name settings ⟨0, text⟩ htext).bind
    intro d hd
    exact .pure ⟨hd, fun e he => absurd he List.not_mem_nil⟩
  have hrun : run.Gives Bordered := hload.bind fun c hc => hc.run hops
  have hcaches : run.value.document.Caches := (run_keeps Document.preserves_caches
    (c := (load name text ⟨Word.lexer, (), settings⟩).value)
    ⟨Document.caches_load name _ _, fun _ _ => trivial⟩ fun _ _ => trivial).document
  refine ⟨⟨hrun.value.document.parted hcaches, ?_⟩, hrun.events⟩
  intro id start stop replacement hr
  constructor
  case value =>
    intro reuse hok
    exact hrun.value.document.resumes hr hok
  case events => exact (hrun.value.document.edit hr id start stop).events

/-- `é a` becomes `é è`, and then `é è1`: the lexer goes on between two characters of both. -/
theorem resumes_run_of_accented_words :
    let text : Bytes := [0xC3, 0xA9, 32, 97]
    let ops : List Op := [.edit (.sat 3) (.sat 4) [0xC3, 0xA8], .units none]
    let run := do (← load "doc" text ⟨Word.lexer, (), { chunkSize := 1 }⟩).run ops
    let d := run.value.document
    let r := d.edit 2 (.sat 5) (.sat 5) [49]
    (Readable text ∧ (∀ op ∈ ops, ∀ text ∈ op.text?, Readable text) ∧ Utf8.Valid [49]) ∧
      d.text.value = [0xC3, 0xA9, 32, 0xC3, 0xA8] ∧
      r.value.2.text.value = [0xC3, 0xA9, 32, 0xC3, 0xA8, 49] ∧
      (∃ reuse, r.value.1 = .ok reuse ∧
        d.Resumes (.ofReplacement (.sat 5) (.sat 5) [49]) r.value.2.text.value reuse) ∧
      ∀ e ∈ run.events ++ r.events, e.Regular := by
  intro text ops run d r
  have htext : Readable text := ⟨by decide, by decide⟩
  have hops : ∀ op ∈ ops, ∀ text ∈ op.text?, Readable text := by
    have hletter : Readable [0xC3, 0xA8] := ⟨by decide, by decide⟩
    simpa [ops, Op.text?] using hletter
  have hd : d.text.value = [0xC3, 0xA9, 32, 0xC3, 0xA8] := rfl
  have hvalid : Utf8.Valid d.text.value := hd ▸ by decide
  have haccepts : Document.Accepts d.text.value (.sat 5) (.sat 5) [49] := hd ▸ by decide
  have hedited : r.value = _ :=
    Document.value_edit_of_ok ((Document.checkEdit_eq_ok hvalid).2 haccepts) 2
  obtain ⟨reuse, hok⟩ : ∃ reuse, r.value.1 = .ok reuse := ⟨_, congrArg Prod.fst hedited⟩
  have hr : r.value.2.text.value = [0xC3, 0xA9, 32, 0xC3, 0xA8, 49] := by
    have htext : r.value.2.text.value = Document.splice d.text.value (.sat 5) (.sat 5) [49] :=
      congrArg (fun v => v.2.text.value) hedited
    rw [htext, hd]
    rfl
  have hdigit : Utf8.Valid [49] := by decide
  obtain ⟨⟨-, hedit⟩, hevents⟩ := resumes_run "doc" { chunkSize := 1 } htext hops
  -- With the names in place, unification would run the session.
  unfold r d run at hok hr
  unfold d run at hd
  unfold r d run
  obtain ⟨hresumes, hregular⟩ := hedit 2 (.sat 5) (.sat 5) [49] hdigit
  exact ⟨⟨htext, hops, hdigit⟩, hd, hr, ⟨reuse, hok, hresumes reuse hok⟩,
    List.forall_mem_append.2 ⟨hevents, hregular⟩⟩

/-- Blanks up to the last offset but one, and a character of four bytes. -/
def overlong : Bytes := List.replicate (Coord.limit - 1) 32 ++ [0xF0, 0x9F, 0x98, 0x80]

theorem length_overlong : overlong.length = Coord.limit + 3 := by
  rw [overlong, List.length_append, List.length_replicate]
  rfl

theorem readable_overlong : Readable overlong where
  valid := by
    have hblanks : Utf8.Valid (List.replicate (Coord.limit - 1) 32) := by
      apply Utf8.valid_of_ascii
      intro b hb
      rw [List.eq_of_mem_replicate hb]
      decide
    exact (hblanks.append_iff _).2 (by decide)
  room := by
    rw [length_overlong]
    decide

theorem offset_skip_overlong {n : Nat} (h : n ≤ Coord.limit + 3) :
    ((⟨overlong, .start⟩ : Passage).skip n).place.offset = .sat n := by
  show Coord.sat (0 + (overlong.take n).length) = _
  rw [List.length_take_of_le (length_overlong ▸ h), Nat.zero_add]

theorem drop_overlong : overlong.drop (Coord.limit - 1) = [0xF0, 0x9F, 0x98, 0x80] :=
  List.drop_left' List.length_replicate

/-- The lexer finds the character behind the blanks. -/
theorem turn_overlong (document : Option String) :
    Word.lexer.turn document () ⟨overlong, .start⟩ =
      (some ⟨Coord.limit - 1, .ident [0xF0, 0x9F, 0x98, 0x80], Coord.limit + 3⟩, ()) := by
  have hgap : (overlong.takeWhile Word.isSpace).length = Coord.limit - 1 := by
    rw [overlong, List.takeWhile_append_of_pos, List.length_append, List.length_replicate]
    · have hface : [0xF0, 0x9F, 0x98, 0x80].takeWhile Word.isSpace = [] := by decide
      rw [hface, List.length_nil, Nat.add_zero]
    · intro b hb
      rw [List.eq_of_mem_replicate hb]
      decide
  refine Word.turn_eq_some_iff.2 ⟨hgap.symm, ⟨4, ?_, by decide⟩, ?_, by decide⟩
  · show Word.first (overlong.drop (Coord.limit - 1)) = _
    rw [drop_overlong]
    decide
  · rw [offset_skip_overlong (Nat.le_refl _), offset_skip_overlong (by decide)]
    decide

theorem units_load (name : String) (settings : Settings) {text : Bytes} (h : Readable text) :
    (load name text ⟨Word.lexer, (), settings⟩).value.document.units.toList =
      (Word.lexer.lex (some name) () ⟨text, .start⟩).1 :=
  congrArg Prod.fst
    (Lexer.value_tokensFrom_of_room (Word.steady (some name)) settings () .start h.room)

theorem text_load {S U : Type} (name : String) (text : Bytes) (t : Tokenizer S U) :
    (load name text t).value.document.text.value = text := rfl

/-- The word behind the blanks ends three bytes behind the last offset, which is inside it. -/
theorem unit_ends_inside_character :
    let d := (load "doc" overlong ⟨Word.lexer, (), {}⟩).value.document
    (Readable overlong ∧ d.text.value = overlong) ∧
      (∃ t ∈ d.units.toList, t.stop.offset = .sat Coord.limit) ∧
      ¬Utf8.Between overlong Coord.limit ∧
      ¬∀ t ∈ d.units.toList, Utf8.Between d.text.value t.start.offset.val ∧
        Utf8.Between d.text.value t.stop.offset.val := by
  intro d
  have htext : d.text.value = overlong := text_load "doc" overlong _
  obtain ⟨t, ht, hstop⟩ : ∃ t ∈ d.units.toList, t.stop.offset = .sat Coord.limit := by
    rw [units_load "doc" {} readable_overlong, Lexer.lex_of_turn_some (turn_overlong _)]
    refine ⟨_, List.mem_cons_self, ?_⟩
    exact (offset_skip_overlong (Nat.le_refl _)).trans (by decide)
  have hinside : ¬Utf8.Between overlong Coord.limit := by
    intro hbetween
    obtain ⟨-, -, hdrop⟩ := Utf8.between_iff.1 hbetween
    have hlimit : Coord.limit = Coord.limit - 1 + 1 := by decide
    rw [hlimit, ← List.drop_drop, drop_overlong] at hdrop
    exact absurd hdrop (by decide)
  refine ⟨⟨readable_overlong, htext⟩, ⟨t, ht, hstop⟩, hinside, ?_⟩
  intro hbetween
  have hclaimed := (hbetween t ht).2
  rw [hstop, htext] at hclaimed
  exact hinside hclaimed

end Client
end EditLex
