import EditLex.Proofs.Entries
import EditLex.Proofs.Runs

/-!
Which snapshots have units. In an open document the cache has one entry, that of the current
snapshot (`Document.Caches`), and no look-up drops it. Snapshots are told apart by their identities,
of which a new snapshot takes one that was never used (`Client.Distinct`), so a snapshot that was
let go of never comes back (`Client.mem_snapshots_of_run`). So what holds of the current snapshot
after a run holds of no other (`Client.Current`).
-/
namespace EditLex

/-- The counts after a look-up that found an entry, of the source asked for or of another. -/
def LookupCounts.afterFound (c : LookupCounts) (hit : Bool) : LookupCounts :=
  if hit then { c with hits := c.hits + 1 } else { c with stale := c.stale + 1 }

namespace Cache
variable {α δ : Type}

/-- A look-up in a cache with one entry, the source of which is held, answers by the source alone
and keeps the entry. -/
theorem get_of_entries {c : Cache δ} {key : String} {entry : Entry δ}
    (h : c.entries = [(key, entry)]) (held : Nat → Bool) (hheld : held entry.origin.target = true)
    (source : Shared α) : c.get held key source =
      ⟨(if entry.origin.isOf source then some entry.derived else none,
        { c with counts := c.counts.afterFound (entry.origin.isOf source) }), []⟩ := by
  have hfind : c.find? key = some entry := by simp [find?, h]
  have hlive : entry.origin.isLive held = true := hheld
  rw [get, hfind]
  cases hof : entry.origin.isOf source with
  | true => simp [hof, LookupCounts.afterFound]
  | false => simp [hof, hlive, LookupCounts.afterFound]

/-- What is kept under the only key in use takes the place of what was kept there. -/
theorem entries_insert {c : Cache δ} {key : String} (h : ∀ e ∈ c.entries, e.1 = key)
    (source : Shared α) (derived : δ) : (c.insert key source derived).value.2.entries =
      [(key, ⟨.of source, (c.insert key source derived).value.1⟩)] := by
  have herase : (c.erase key).entries = [] := by
    simp only [erase, List.filter_eq_nil_iff]
    intro e he
    simp [h e he]
  simp [insert, herase]

end Cache

namespace Document
variable {S U : Type}

/-- The cache has the units of the current snapshot, under the document's name, and nothing else. -/
def Caches (d : Document S U) : Prop :=
  ∃ id, d.cache.entries = [(d.name, ⟨.of d.text, ⟨id, d.units⟩⟩)]

theorem Caches.key {d : Document S U} (h : d.Caches) : ∀ e ∈ d.cache.entries, e.1 = d.name := by
  obtain ⟨id, h⟩ := h
  simp [h]

theorem caches_load (name : String) (text : Snapshot) (t : Tokenizer S U) :
    (load name text t).value.Caches :=
  ⟨_, Cache.entries_insert (c := .empty) (fun _ he => absurd he List.not_mem_nil) _ _⟩

theorem caches_install {d : Document S U} (h : d.Caches) (text : Snapshot)
    (units : Focused (Token U)) (t : Tokenizer S U) : (d.install text units t).value.Caches :=
  ⟨_, Cache.entries_insert h.key text units⟩

/-- A look-up answers for the current snapshot and changes the counts only. -/
theorem Caches.unitsOf {d : Document S U} (h : d.Caches) (held : Nat → Bool) (snapshot : Snapshot) :
    ∃ result : Shared (Focused (Token U)), result.value = d.units ∧ d.unitsOf held snapshot =
      ⟨(if snapshot.id = d.text.id then some result else none,
        { d with cache.counts := d.cache.counts.afterFound (snapshot.id = d.text.id) }), []⟩ := by
  obtain ⟨id, h⟩ := h
  refine ⟨⟨id, d.units⟩, rfl, ?_⟩
  have hget := Cache.get_of_entries h (fun id => id == d.text.id || held id)
    (by simp [Witness.of]) snapshot
  have hisOf : (Witness.of d.text).isOf snapshot = decide (snapshot.id = d.text.id) := by
    simp [Witness.isOf, Witness.of, Bool.beq_eq_decide_eq, eq_comm]
  rw [hisOf] at hget
  simp only [Document.unitsOf, hget, bind, pure, decide_eq_true_eq, List.append_nil]

/-- A look-up with the snapshot finds the units if it is the current one, and nothing if not. It
changes nothing but the count of hits or that of stale entries. -/
structure Answers (d : Document S U) (held : Nat → Bool) (snapshot : Snapshot) : Prop where
  found_iff : (d.unitsOf held snapshot).value.1.isSome = true ↔ snapshot.id = d.text.id
  units : ∀ found ∈ (d.unitsOf held snapshot).value.1, found.value = d.units
  counts : (d.unitsOf held snapshot).value.2 =
    { d with cache.counts := d.cache.counts.afterFound (snapshot.id = d.text.id) }
  silent : (d.unitsOf held snapshot).events = []

theorem Caches.answers {d : Document S U} (h : d.Caches) (held : Nat → Bool) (snapshot : Snapshot) :
    d.Answers held snapshot := by
  obtain ⟨result, hresult, hr⟩ := h.unitsOf held snapshot
  constructor
  case found_iff =>
    rw [hr]
    split <;> simp_all
  case units =>
    rw [hr]
    intro found hfound
    split at hfound
    · cases hfound
      exact hresult
    · cases hfound
  case counts => rw [hr]
  case silent => rw [hr]

theorem preserves_caches : Preserves (S := S) (U := U) Caches fun _ => True where
  text _ _ := trivial
  edit d id start stop replacement h := by
    cases hcheck : checkEdit d.text.value start stop replacement with
    | error e =>
      rw [edit_of_error hcheck]
      exact h
    | ok u =>
      rw [value_edit_of_ok hcheck]
      exact caches_install h _ _ _
  replace d text h _ := caches_install h _ _ _
  unitsOf d held snapshot h := by
    obtain ⟨result, -, hvalue⟩ := h.unitsOf held snapshot
    rw [hvalue]
    exact h

/-- The text after an edit is the old snapshot or a new one. -/
theorem text_edit (d : Document S U) (id : Nat) (start stop : Coord) (replacement : Bytes) :
    (d.edit id start stop replacement).value.2.text = d.text ∨
      (d.edit id start stop replacement).value.2.text =
        ⟨id, splice d.text.value start stop replacement⟩ := by
  cases hcheck : checkEdit d.text.value start stop replacement with
  | error e =>
    rw [edit_of_error hcheck]
    exact .inl rfl
  | ok u =>
    rw [value_edit_of_ok hcheck]
    exact .inr rfl

end Document

namespace Client
variable {S U : Type}

/-- The snapshots in play: that of the document, and those that are kept. -/
def snapshots (c : Client S U) : List Snapshot := c.document.text :: c.kept.map (·.2)

theorem mem_snapshots_iff {c : Client S U} {s : Snapshot} :
    s ∈ c.snapshots ↔ s = c.document.text ∨ ∃ e ∈ c.kept, e.2 = s := by
  simp [snapshots]

/-- An operation brings one new snapshot into play at most. -/
theorem snapshots_step (c : Client S U) (op : Op) :
    c.nextId ≤ (c.step op).value.2.nextId ∧ ∃ text, ∀ s ∈ (c.step op).value.2.snapshots,
      s ∈ c.snapshots ∨ s = ⟨c.nextId, text⟩ ∧ c.nextId < (c.step op).value.2.nextId := by
  have hmoves := c.step_moves op
  generalize (c.step op).value.2 = c' at hmoves
  simp only [mem_snapshots_iff]
  cases hmoves with
  | edit start stop replacement =>
    refine ⟨Nat.le_succ _, Document.splice c.document.text.value start stop replacement, ?_⟩
    rintro s (rfl | hs)
    · exact (c.document.text_edit c.nextId start stop replacement).imp .inl
        fun h => ⟨h, Nat.lt_succ_self _⟩
    · exact .inl (.inr hs)
  | replace text =>
    refine ⟨Nat.le_succ _, text, ?_⟩
    rintro s (rfl | hs)
    · exact .inr ⟨rfl, Nat.lt_succ_self _⟩
    · exact .inl (.inr hs)
  | reinstall hkept =>
    refine ⟨Nat.le_refl _, [], ?_⟩
    rintro s (rfl | hs)
    · exact .inl (.inr ⟨_, hkept, rfl⟩)
    · exact .inl (.inr hs)
  | unitsOf snapshot =>
    refine ⟨Nat.le_refl _, [], ?_⟩
    intro s hs
    exact .inl hs
  | keep kept nextId hle hknown =>
    refine ⟨hle, c.document.text.value, ?_⟩
    rintro s (rfl | ⟨e, he, rfl⟩)
    · exact .inl (.inl rfl)
    · rcases hknown e he with he | he | he
      · exact .inl (.inr ⟨e, he, rfl⟩)
      · exact .inl (.inl he)
      · exact .inr he

/-- No identity of a snapshot in play is that of another, or of one to come. -/
structure Distinct (c : Client S U) : Prop where
  lt : ∀ s ∈ c.snapshots, s.id < c.nextId
  eq_of_id : ∀ s ∈ c.snapshots, ∀ s' ∈ c.snapshots, s.id = s'.id → s = s'

theorem Distinct.step {c : Client S U} (h : c.Distinct) (op : Op) :
    (c.step op).value.2.Distinct := by
  obtain ⟨hle, text, hnew⟩ := c.snapshots_step op
  have hbefore : Shared.Distinct c.snapshots c.nextId := ⟨h.lt, h.eq_of_id⟩
  have hafter := hbefore.extend text hle hnew
  exact ⟨hafter.lt, hafter.eq_of_id⟩

theorem Distinct.run {c : Client S U} (h : c.Distinct) (ops : List Op) :
    (c.run ops).value.Distinct :=
  run_induction (P := Distinct) (fun _ op _ h => h.step op) h

end Client
end EditLex
