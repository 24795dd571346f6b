import EditLex.Proofs.Boundaries
import EditLex.Proofs.Runs
import EditLex.Proofs.Session

/-!
Edits as far as the text goes. The range and the text alone decide whether an edit is refused and
what for (`Document.edit_checked`), a refused one changes nothing, and an accepted one leaves a text
again (`Document.edit_applied`). A run of a client folds the accepted edits into its text and counts
what it accepts (`Client.draft_run`).
-/
namespace EditLex

theorem Coord.plus_eq_ok {c d : Coord} (h : c.val + d.val ≤ Coord.limit) :
    c.plus d = .ok ⟨c.val + d.val, h⟩ := by
  simp [plus, ofNat?, h]

namespace Document

/-- The range lies in the text and cuts through no character, and the text that the edit leaves
fits. -/
def Accepts (text : Bytes) (start stop : Coord) (replacement : Bytes) : Prop :=
  (start.val ≤ stop.val ∧ stop.val ≤ text.length) ∧
    (Utf8.Between text start.val ∧ Utf8.Between text stop.val) ∧
    (splice text start stop replacement).length ≤ Coord.limit

instance (text : Bytes) (start stop : Coord) (replacement : Bytes) :
    Decidable (Accepts text start stop replacement) :=
  inferInstanceAs (Decidable (_ ∧ _ ∧ _))

/-- An edit with this result is refused for the first reason there is, if there is one. -/
structure Checked (text : Bytes) (start stop : Coord) (replacement : Bytes)
    (result : Except EditError Reuse) : Prop where
  reversed : result = .error (.reversed start stop) ↔ stop.val < start.val
  outOfBounds : result = .error (.outOfBounds start stop text.length) ↔
    start.val ≤ stop.val ∧ text.length < stop.val
  notCharBoundary : result = .error (.notCharBoundary start stop) ↔
    (start.val ≤ stop.val ∧ stop.val ≤ text.length) ∧
      ¬(Utf8.Between text start.val ∧ Utf8.Between text stop.val)
  tooLarge : result = .error .tooLarge ↔
    (start.val ≤ stop.val ∧ stop.val ≤ text.length) ∧
      (Utf8.Between text start.val ∧ Utf8.Between text stop.val) ∧
      Coord.limit < (splice text start stop replacement).length
  accepted : (∃ reuse, result = .ok reuse) ↔ Accepts text start stop replacement

theorem checkEdit_eq {text : Bytes} (h : Utf8.Valid text) (start stop : Coord)
    (replacement : Bytes) : checkEdit text start stop replacement =
      if stop.val < start.val then .error (.reversed start stop)
      else if text.length < stop.val then .error (.outOfBounds start stop text.length)
      else if ¬(Utf8.Between text start.val ∧ Utf8.Between text stop.val) then
        .error (.notCharBoundary start stop)
      else if Coord.limit < (splice text start stop replacement).length then .error .tooLarge
      else .ok () := by
  have hinside : (!Utf8.isBoundary text start.val || !Utf8.isBoundary text stop.val) = true ↔
      ¬(Utf8.Between text start.val ∧ Utf8.Between text stop.val) := by
    rw [← Utf8.isBoundary_iff h, ← Utf8.isBoundary_iff h]
    cases Utf8.isBoundary text start.val <;> simp
  unfold checkEdit
  simp only [hinside, Coord.lt_def]
  split
  · rfl
  split
  · rfl
  next hreversed houtside =>
  rw [length_splice (Nat.le_of_not_lt hreversed) (Nat.le_of_not_lt houtside)]

theorem checkEdit_eq_ok {text : Bytes} (h : Utf8.Valid text) {start stop : Coord}
    {replacement : Bytes} :
    checkEdit text start stop replacement = .ok () ↔ Accepts text start stop replacement := by
  rw [checkEdit_eq_ok_iff, Utf8.isBoundary_iff h, Utf8.isBoundary_iff h, Accepts]

variable {S U : Type}

theorem edit_checked {d : Document S U} (h : Utf8.Valid d.text.value) (id : Nat)
    (start stop : Coord) (replacement : Bytes) :
    Checked d.text.value start stop replacement (d.edit id start stop replacement).value.1 := by
  have herror (e : EditError) : (d.edit id start stop replacement).value.1 = .error e ↔
      checkEdit d.text.value start stop replacement = .error e := by
    cases hcheck : checkEdit d.text.value start stop replacement with
    | error e' => rw [edit_of_error hcheck, Except.error.injEq, Except.error.injEq]
    | ok u => simp [value_edit_of_ok hcheck]
  have hok : (∃ reuse, (d.edit id start stop replacement).value.1 = .ok reuse) ↔
      checkEdit d.text.value start stop replacement = .ok () := by
    cases hcheck : checkEdit d.text.value start stop replacement with
    | error e' => simp [edit_of_error hcheck]
    | ok u => simp [value_edit_of_ok hcheck]
  constructor
  case accepted =>
    rw [hok, checkEdit_eq_ok h]
  all_goals
    rw [herror, checkEdit_eq h]
    grind

theorem valid_splice {text : Bytes} {start stop : Coord} {replacement : Bytes}
    (h : Accepts text start stop replacement) (hr : Utf8.Valid replacement) :
    Utf8.Valid (splice text start stop replacement) := by
  obtain ⟨-, ⟨hstart, hstop⟩, -⟩ := h
  obtain ⟨-, hfront, -⟩ := Utf8.between_iff.1 hstart
  obtain ⟨-, -, hback⟩ := Utf8.between_iff.1 hstop
  rw [splice, List.append_assoc]
  exact (hfront.append_iff _).2 ((hr.append_iff _).2 hback)

/-- The edit has put the replacement in and left a text, and no number that comes with it is out of
range. -/
structure Applied (d : Document S U) (id : Nat) (start stop : Coord) (replacement : Bytes)
    (d' : Document S U) : Prop where
  name : d'.name = d.name
  text : d'.text =
    ⟨id, d.text.value.take start.val ++ replacement ++ d.text.value.drop stop.val⟩
  valid : Utf8.Valid d'.text.value
  version : d'.version = d.version + 1
  shrinks : stop.val - start.val ≤ d.text.value.length
  length : d'.text.value.length =
    d.text.value.length - (stop.val - start.val) + replacement.length
  fits : d'.text.value.length ≤ Coord.limit
  inserted : (Change.ofReplacement start stop replacement).length.val = replacement.length
  removed : (Change.ofReplacement start stop replacement).removed = .ok (stop.down start)
  newStop : ∃ newStop, (Change.ofReplacement start stop replacement).newStop = .ok newStop ∧
    newStop.val = start.val + replacement.length

theorem edit_applied {d : Document S U} {start stop : Coord} {replacement : Bytes} {reuse : Reuse}
    {id : Nat} (h : Utf8.Valid d.text.value) (hr : Utf8.Valid replacement)
    (hok : (d.edit id start stop replacement).value.1 = .ok reuse) :
    Applied d id start stop replacement (d.edit id start stop replacement).value.2 := by
  have haccepts : Accepts d.text.value start stop replacement :=
    (edit_checked h id start stop replacement).accepted.1 ⟨reuse, hok⟩
  have hcheck := (checkEdit_eq_ok h).2 haccepts
  have hvalid := valid_splice haccepts hr
  obtain ⟨⟨hs, ht⟩, -, hfits⟩ := haccepts
  have hlength := length_splice hs ht replacement
  have hlarge : start.val + replacement.length ≤ Coord.limit := by omega
  have hinserted : (Change.ofReplacement start stop replacement).length.val = replacement.length :=
    Nat.min_eq_left (by omega)
  rw [value_edit_of_ok hcheck]
  have hremoved : (Change.ofReplacement start stop replacement).removed = .ok (stop.down start) :=
    if_neg (Nat.not_lt.2 hs)
  refine ⟨rfl, rfl, hvalid, rfl, by omega, hlength, hfits, hinserted, hremoved, ?_⟩
  rw [← hinserted] at hlarge ⊢
  exact ⟨_, Coord.plus_eq_ok hlarge, rfl⟩

end Document

namespace Client

/-- The text that an operation brings along. -/
def Op.text? : Op → Option Bytes
  | .edit _ _ replacement => some replacement
  | .replace text => some text
  | _ => none

/-- The text a client is at, how often it has changed, and the texts that are kept. -/
structure Draft where
  text : Bytes
  version : Nat := 0
  kept : List (String × Bytes) := []
  deriving DecidableEq

namespace Draft

def put (d : Draft) (text : Bytes) : Draft := { d with text, version := d.version + 1 }

def forget (d : Draft) (label : String) : Draft :=
  { d with kept := d.kept.filter fun e => e.1 != label }

def hold (d : Draft) (label : String) : Draft :=
  { d with kept := (label, d.text) :: (d.forget label).kept }

/-- An accepted edit is folded into the text. -/
def step (d : Draft) : Op → Draft
  | .edit start stop replacement =>
    if Document.Accepts d.text start stop replacement then
      d.put (Document.splice d.text start stop replacement)
    else d
  | .replace text => d.put text
  | .reinstall label => ((d.kept.lookup label).map d.put).getD d
  | .keep label => d.hold label
  | .copy label => d.hold label
  | .forget label => d.forget label
  | .units _ => d

theorem version_step_le (d : Draft) (op : Op) : (d.step op).version ≤ d.version + 1 := by
  cases op with
  | edit start stop replacement =>
    simp only [step]
    split
    · exact Nat.le_refl _
    · exact Nat.le_succ _
  | reinstall label =>
    simp only [step]
    cases d.kept.lookup label with
    | none => exact Nat.le_succ _
    | some text => exact Nat.le_refl _
  | replace text => exact Nat.le_refl _
  | keep label => exact Nat.le_succ _
  | copy label => exact Nat.le_succ _
  | forget label => exact Nat.le_succ _
  | units label => exact Nat.le_succ _

theorem version_foldl_le (d : Draft) (ops : List Op) :
    (ops.foldl step d).version ≤ d.version + ops.length := by
  induction ops generalizing d with
  | nil => exact Nat.le_refl _
  | cons op ops ih =>
    have hstep := version_step_le d op
    have hrest := ih (d.step op)
    rw [List.foldl_cons, List.length_cons]
    omega

/-- Everything in the draft is a text. -/
structure Valid (d : Draft) : Prop where
  text : Utf8.Valid d.text
  kept : ∀ e ∈ d.kept, Utf8.Valid e.2

theorem Valid.forget {d : Draft} (h : d.Valid) (label : String) : (d.forget label).Valid :=
  ⟨h.text, fun e he => h.kept e (List.mem_filter.1 he).1⟩

theorem Valid.hold {d : Draft} (h : d.Valid) (label : String) : (d.hold label).Valid := by
  constructor
  · exact h.text
  · intro e he
    rcases List.mem_cons.1 he with rfl | he
    · exact h.text
    · exact (h.forget label).kept e he

theorem Valid.step {d : Draft} (h : d.Valid) {op : Op} (hop : ∀ text ∈ op.text?, Utf8.Valid text) :
    (d.step op).Valid := by
  cases op with
  | edit start stop replacement =>
    simp only [Draft.step]
    split
    next haccepts => exact ⟨Document.valid_splice haccepts (hop _ rfl), h.kept⟩
    next => exact h
  | replace text => exact ⟨hop _ rfl, h.kept⟩
  | reinstall label =>
    simp only [Draft.step]
    cases hlookup : d.kept.lookup label with
    | none => exact h
    | some text => exact ⟨h.kept _ (mem_of_lookup hlookup), h.kept⟩
  | keep label => exact h.hold label
  | copy label => exact h.hold label
  | forget label => exact h.forget label
  | units label => exact h

end Draft

variable {S U : Type}

def draft (c : Client S U) : Draft :=
  ⟨c.document.text.value, c.document.version, c.kept.map fun e => (e.1, e.2.value)⟩

theorem draft_forget (c : Client S U) (label : String) :
    (c.forget label).draft = c.draft.forget label := by
  simp only [draft, forget, Draft.forget, List.filter_map, Function.comp_def]

theorem draft_hold {c : Client S U} (label : String) {snapshot : Snapshot}
    (h : snapshot.value = c.document.text.value) :
    (c.hold label snapshot).draft = c.draft.hold label := by
  have hforget := congrArg Draft.kept (c.draft_forget label)
  simp only [draft] at hforget
  simp only [draft, hold, Draft.hold, List.map_cons, h]
  rw [hforget]

theorem lookup_draft (c : Client S U) (label : String) :
    c.draft.kept.lookup label = (c.find? label).map (·.value) := by
  simp only [draft, find?]
  induction c.kept with
  | nil => rfl
  | cons e kept ih =>
    obtain ⟨other, snapshot⟩ := e
    simp only [List.map_cons, List.lookup_cons, ih]
    split <;> rfl

/-- An operation does to the texts what it does to the draft. -/
theorem draft_step {c : Client S U} (h : Utf8.Valid c.document.text.value) (op : Op) :
    (c.step op).value.2.draft = c.draft.step op := by
  cases op with
  | edit start stop replacement =>
    simp only [step, Draft.step, Logged.value_bind, Logged.value_pure]
    split
    next haccepts =>
      rw [Document.value_edit_of_ok ((Document.checkEdit_eq_ok h).2 haccepts)]
      rfl
    next hrefused =>
      cases hcheck : Document.checkEdit c.document.text.value start stop replacement with
      | error e =>
        rw [Document.edit_of_error hcheck]
        rfl
      | ok u => exact absurd ((Document.checkEdit_eq_ok h).1 hcheck) hrefused
  | replace text => rfl
  | reinstall label =>
    simp only [step, Draft.step, lookup_draft]
    cases c.find? label with
    | none => rfl
    | some snapshot => rfl
  | keep label => exact draft_hold label rfl
  | copy label =>
    have hcopy : (⟨c.nextId, c.document.text.value⟩ : Snapshot).value = c.document.text.value := rfl
    exact draft_hold label hcopy
  | forget label => exact c.draft_forget label
  | units label =>
    cases label with
    | none => rfl
    | some label =>
      simp only [step, Draft.step]
      cases c.find? label with
      | none => rfl
      | some snapshot => rfl

theorem draft_run {c : Client S U} (h : c.draft.Valid) {ops : List Op}
    (hops : ∀ op ∈ ops, ∀ text ∈ op.text?, Utf8.Valid text) :
    (c.run ops).value.draft = ops.foldl Draft.step c.draft ∧ (c.run ops).value.draft.Valid := by
  induction ops generalizing c with
  | nil => exact ⟨rfl, h⟩
  | cons op ops ih =>
    have hstep := draft_step h.text op
    have hvalid : (c.step op).value.2.draft.Valid := by
      rw [hstep]
      exact h.step (hops op List.mem_cons_self)
    rw [List.foldl_cons, ← hstep]
    apply ih hvalid
    intro op hop
    exact hops op (List.mem_cons_of_mem _ hop)

/-- In whatever state a client leaves a document, an edit is checked in full before anything
changes: it is refused for the first reason there is and then changes nothing, or it puts the
replacement in. The text after a run is the first one, or the last that took its place, with the
accepted edits folded in, and the version counts them. -/
theorem edit_run (name : String) (t : Tokenizer S U) {text : Bytes} (htext : Utf8.Valid text)
    {ops : List Op} (hops : ∀ op ∈ ops, ∀ text ∈ op.text?, Utf8.Valid text) :
    let c := ((load name text t).value.run ops).value
    let d := c.document
    (∀ id start stop replacement,
      let r := d.edit id start stop replacement
      Document.Checked d.text.value start stop replacement r.value.1 ∧
        (∀ e, r.value.1 = .error e → r = ⟨(.error e, d), []⟩) ∧
        ∀ reuse, r.value.1 = .ok reuse → Utf8.Valid replacement →
          Document.Applied d id start stop replacement r.value.2) ∧
      c.draft = ops.foldl Draft.step { text } ∧ d.version ≤ ops.length := by
  intro c d
  have hload : (load name text t).value.draft.Valid :=
    ⟨htext, fun e he => absurd he List.not_mem_nil⟩
  obtain ⟨hdraft, hvalid⟩ := draft_run hload hops
  have hd : Utf8.Valid d.text.value := hvalid.text
  refine ⟨?_, hdraft, ?_⟩
  · intro id start stop replacement r
    refine ⟨Document.edit_checked hd id start stop replacement, ?_, ?_⟩
    · intro e he
      cases hcheck : Document.checkEdit d.text.value start stop replacement with
      | error e' =>
        have hr : r = ⟨(.error e', d), []⟩ := Document.edit_of_error hcheck id
        rw [hr] at he ⊢
        cases he
        rfl
      | ok u =>
        have hr : r.value = _ := Document.value_edit_of_ok hcheck id
        rw [hr] at he
        cases he
    · intro reuse hok hr
      exact Document.edit_applied hd hr hok
  · have hversion : d.version = (ops.foldl Draft.step { text }).version :=
      congrArg Draft.version hdraft
    have hbound := Draft.version_foldl_le { text } ops
    simp only [Nat.zero_add] at hbound
    rwa [hversion]

/-- From `aé`: the second letter cannot be cut, and it can give way to `ñb`. A text put in counts as
well, and one that is kept comes back. -/
theorem edit_run_of_cut_letter :
    let ops : List Op := [.edit (.sat 2) (.sat 3) [120], .edit (.sat 3) (.sat 1) [],
      .edit (.sat 3) (.sat 4) [], .edit (.sat 1) (.sat 3) [0xC3, 0xB1, 98], .keep "k",
      .replace [], .units (some "k"), .reinstall "k", .edit (.sat 0) (.sat 1) []]
    let c := ((load "doc" [97, 0xC3, 0xA9] ⟨Word.lexer, (), {}⟩).value.run ops).value
    (Utf8.Valid [97, 0xC3, 0xA9] ∧ ∀ op ∈ ops, ∀ text ∈ op.text?, Utf8.Valid text) ∧
      c.draft = ⟨[0xC3, 0xB1, 98], 4, [("k", [97, 0xC3, 0xB1, 98])]⟩ ∧
      (c.document.edit c.nextId (.sat 1) (.sat 2) []).value.1 =
        .error (.notCharBoundary (.sat 1) (.sat 2)) := by
  intro ops c
  have htext : Utf8.Valid [97, 0xC3, 0xA9] := by decide
  have hops : ∀ op ∈ ops, ∀ text ∈ op.text?, Utf8.Valid text := by decide
  obtain ⟨hedit, hdraft, -⟩ := edit_run "doc" ⟨Word.lexer, (), {}⟩ htext hops
  refine ⟨⟨htext, hops⟩, hdraft, ?_⟩
  have hleft : c.document.text.value = [0xC3, 0xB1, 98] := congrArg Draft.text hdraft
  obtain ⟨hchecked, -⟩ := hedit c.nextId (.sat 1) (.sat 2) []
  rw [hchecked.notCharBoundary, hleft]
  decide

end Client
end EditLex
