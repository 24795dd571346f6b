import EditLex.Document.Client

/-!
What the operations of a document do to it, and runs of a client. A client's operation edits the
document, gives it another text, looks units up, or changes which snapshots are kept
(`Client.step_moves`); what a document keeps under the first three it keeps through every run
(`Client.run_keeps`).
-/
namespace EditLex

namespace Document
variable {S U : Type}

/-- A refused edit changes nothing and is not reported. -/
theorem edit_of_error {d : Document S U} {start stop : Coord} {replacement : Bytes} {e : EditError}
    (h : checkEdit d.text.value start stop replacement = .error e) (id : Nat) :
    d.edit id start stop replacement = ⟨(.error e, d), []⟩ := by
  rw [edit, h]
  rfl

/-- The document that an accepted edit leaves. -/
theorem value_edit_of_ok {d : Document S U} {start stop : Coord} {replacement : Bytes}
    (h : checkEdit d.text.value start stop replacement = .ok ()) (id : Nat) :
    let text : Snapshot := ⟨id, splice d.text.value start stop replacement⟩
    let u := (d.tokenizer.update (some d.name) d.units
      (.ofReplacement start stop replacement) text.value).value
    (d.edit id start stop replacement).value =
      (.ok u.1.reuse, (d.install text u.1.units u.2).value) := by
  rw [edit, h]
  rfl

/-- What the operations of a document keep, as long as the texts put into it have `Q`. -/
structure Preserves (P : Document S U → Prop) (Q : Bytes → Prop) : Prop where
  text : ∀ d, P d → Q d.text.value
  edit : ∀ d id start stop replacement, P d → P (d.edit id start stop replacement).value.2
  replace : ∀ d text, P d → Q text.value → P (d.replace text).value
  unitsOf : ∀ d held snapshot, P d → P (d.unitsOf held snapshot).value.2

end Document

namespace Client
variable {S U : Type}

/-- The kinds of change that an operation makes. -/
inductive Moves (c : Client S U) : Op → Client S U → Prop where
  | edit (start stop : Coord) (replacement : Bytes) :
      Moves c (.edit start stop replacement)
        { c with
          document := (c.document.edit c.nextId start stop replacement).value.2
          nextId := c.nextId + 1 }
  | replace (text : Bytes) :
      Moves c (.replace text)
        { c with
          document := (c.document.replace ⟨c.nextId, text⟩).value
          nextId := c.nextId + 1 }
  | reinstall {label : String} {snapshot : Snapshot} (kept : (label, snapshot) ∈ c.kept) :
      Moves c (.reinstall label) { c with document := (c.document.replace snapshot).value }
  | unitsOf {op : Op} (snapshot : Snapshot) :
      Moves c op { c with document := (c.document.unitsOf c.holds snapshot).value.2 }
  /-- What is kept afterwards was kept before, is the current snapshot, or is a new one of its
  text. -/
  | keep {op : Op} (kept : List (String × Snapshot)) (nextId : Nat) (le : c.nextId ≤ nextId)
      (known : ∀ e ∈ kept, e ∈ c.kept ∨ e.2 = c.document.text ∨
        e.2 = ⟨c.nextId, c.document.text.value⟩ ∧ c.nextId < nextId) :
      Moves c op { c with kept, nextId }

theorem mem_of_lookup {α : Type} {entries : List (String × α)} {label : String} {a : α}
    (h : entries.lookup label = some a) : (label, a) ∈ entries := by
  obtain ⟨before, after, hentries, -⟩ := List.lookup_eq_some_iff.1 h
  rw [hentries]
  exact List.mem_append_right before List.mem_cons_self

theorem mem_kept_of_mem_hold {c : Client S U} {label : String} {snapshot : Snapshot}
    {e : String × Snapshot} (h : e ∈ (c.hold label snapshot).kept) :
    e ∈ c.kept ∨ e.2 = snapshot := by
  rcases List.mem_cons.1 h with rfl | h
  · exact .inr rfl
  · exact .inl (List.mem_filter.1 h).1

theorem step_moves (c : Client S U) (op : Op) : c.Moves op (c.step op).value.2 := by
  have hsame : c.Moves op c := .keep c.kept c.nextId (Nat.le_refl _) fun e he => .inl he
  cases op with
  | edit start stop replacement =>
    simp only [step, Logged.value_bind, Logged.value_pure]
    exact .edit start stop replacement
  | replace text =>
    simp only [step, Logged.value_bind, Logged.value_pure]
    exact .replace text
  | reinstall label =>
    simp only [step]
    cases h : c.find? label with
    | none => exact hsame
    | some snapshot =>
      simp only [Logged.value_bind, Logged.value_pure]
      exact .reinstall (mem_of_lookup h)
  | keep label =>
    simp only [step, Logged.value_pure]
    apply Moves.keep (c.hold label c.document.text).kept c.nextId (Nat.le_refl _)
    intro e he
    exact (mem_kept_of_mem_hold he).imp_right .inl
  | copy label =>
    simp only [step, Logged.value_pure]
    apply Moves.keep (c.hold label ⟨c.nextId, c.document.text.value⟩).kept (c.nextId + 1)
      (Nat.le_succ _)
    intro e he
    exact (mem_kept_of_mem_hold he).imp_right fun h => .inr ⟨h, Nat.lt_succ_self _⟩
  | forget label =>
    simp only [step, Logged.value_pure]
    apply Moves.keep (c.forget label).kept c.nextId (Nat.le_refl _)
    intro e he
    exact .inl (List.mem_filter.1 he).1
  | units label =>
    cases label with
    | none =>
      simp only [step, unitsOf, Logged.value_bind, Logged.value_pure]
      exact .unitsOf c.document.text
    | some label =>
      simp only [step]
      cases h : c.find? label with
      | none => exact hsame
      | some snapshot =>
        simp only [unitsOf, Logged.value_bind, Logged.value_pure]
        exact .unitsOf snapshot

/-- What each operation keeps a run keeps. -/
theorem run_induction {P : Client S U → Prop} {ops : List Op}
    (step : ∀ c, ∀ op ∈ ops, P c → P (Client.step c op).value.2) {c : Client S U} (hc : P c) :
    P (c.run ops).value := by
  induction ops generalizing c with
  | nil => exact hc
  | cons op ops ih =>
    apply ih
    · intro c op hop
      exact step c op (List.mem_cons_of_mem _ hop)
    · exact step c op List.mem_cons_self hc

/-- The document has `P`, and the texts that are kept have `Q`. -/
structure Keeps (P : Document S U → Prop) (Q : Bytes → Prop) (c : Client S U) : Prop where
  document : P c.document
  kept : ∀ e ∈ c.kept, Q e.2.value

theorem run_keeps {P : Document S U → Prop} {Q : Bytes → Prop} (h : Document.Preserves P Q)
    {c : Client S U} (hc : c.Keeps P Q) {ops : List Op}
    (hops : ∀ text, .replace text ∈ ops → Q text) : (c.run ops).value.Keeps P Q := by
  apply run_induction (P := Keeps P Q) _ hc
  intro c op hop hc
  have hmoves := c.step_moves op
  generalize (c.step op).value.2 = c' at hmoves
  cases hmoves with
  | edit start stop replacement => exact ⟨h.edit _ _ _ _ _ hc.document, hc.kept⟩
  | replace text => exact ⟨h.replace _ _ hc.document (hops text hop), hc.kept⟩
  | reinstall hkept => exact ⟨h.replace _ _ hc.document (hc.kept _ hkept), hc.kept⟩
  | unitsOf snapshot => exact ⟨h.unitsOf _ _ _ hc.document, hc.kept⟩
  | keep _ _ _ hknown =>
    constructor
    · exact hc.document
    · intro e he
      rcases hknown e he with he | he | ⟨he, -⟩
      · exact hc.kept e he
      · exact he ▸ h.text _ hc.document
      · exact he ▸ h.text _ hc.document

end Client
end EditLex
