import EditLex.Proofs.History

/-!
Which operation takes an entry out of a cache in use, and what a look-up is counted as. An entry
goes when its key is removed or gets another result (`Cache.Use.Overwrites`), or when it is come
across after its source was let go of (`Cache.Use.Evicts`), and not otherwise
(`Explains.mem_step_iff`, `Explains.mem_run`). Look-ups are told by what they answer
(`Cache.Use.look?`).
-/
namespace EditLex.Cache
variable {α δ : Type}

theorem find?_of_mem {c : Cache δ} (h : c.Keyed) {e : String × Entry δ} (he : e ∈ c.entries)
    {key : String} (hkey : e.1 = key) : c.find? key = some e.2 :=
  (find?_eq_some_iff h).2 (by rwa [← hkey])

theorem mem_get_iff {c : Cache δ} (h : c.Keyed) {e : String × Entry δ} (he : e ∈ c.entries)
    (held : Nat → Bool) (key : String) (source : Shared α) :
    e ∈ (c.get held key source).value.2.entries ↔
      (e.1 = key → e.2.origin.isOf source = true ∨ e.2.origin.isLive held = true) := by
  unfold get
  cases hfind : c.find? key with
  | none =>
    have hkey : e.1 ≠ key := fun hkey => by simp [find?_of_mem h he hkey] at hfind
    simp [he, hkey]
  | some entry =>
    have hentry (hkey : e.1 = key) : e.2 = entry := by
      simpa [find?_of_mem h he hkey] using hfind
    dsimp only
    split
    · next hof => simp +contextual [he, hentry, hof]
    · next hof =>
      split
      · next hlive => simp +contextual [he, hentry, hlive]
      · next hlive =>
        rw [mem_erase_iff]
        constructor
        · exact fun ⟨_, hne⟩ hkey => absurd hkey hne
        · intro hkept
          refine ⟨he, fun hkey => ?_⟩
          rcases hkept hkey with h | h
          · exact hof (hentry hkey ▸ h)
          · exact hlive (hentry hkey ▸ h)

theorem mem_purge_iff (c : Cache δ) (held : Nat → Bool) {e : String × Entry δ} :
    e ∈ (c.purge held).value.2.entries ↔ e ∈ c.entries ∧ e.2.origin.isLive held = true :=
  List.mem_filter

/-- As the result that comes in is new, so is its entry. -/
theorem mem_insert_iff_of_lt {c : Cache δ} {e : String × Entry δ}
    (hid : e.2.derived.id < c.nextId) (key : String) (source : Shared α) (derived : δ) :
    e ∈ (c.insert key source derived).value.2.entries ↔ e ∈ c.entries ∧ e.1 ≠ key := by
  have hne : e ≠ (key, ⟨.of source, (c.insert key source derived).value.1⟩) := by
    rintro rfl
    exact Nat.lt_irrefl _ hid
  rw [mem_insert_iff, or_iff_right hne]

theorem mem_getOrDerive_iff {c : Cache δ} (h : c.Keyed) {e : String × Entry δ}
    (he : e ∈ c.entries) (hid : e.2.derived.id < c.nextId) (held : Nat → Bool) (key : String)
    (source : Shared α) (derive : α → Logged δ) :
    e ∈ (c.getOrDerive held key source derive).value.2.entries ↔
      (e.1 = key → e.2.origin.isOf source = true) := by
  have hof (hkey : e.1 = key) :
      (c.get held key source).value.1.isSome = e.2.origin.isOf source := by
    rw [value_get, find?_of_mem h he hkey]
    cases hof : e.2.origin.isOf source <;> simp [Option.filter, hof]
  have hlook := mem_get_iff h he held key source
  have hnext := (drops_get h held key source).nextId
  rw [getOrDerive_eq]
  dsimp only
  cases hvalue : (c.get held key source).value.1 with
  | some result =>
    simp only [hvalue, Option.isSome_some] at hof
    simp +contextual [hlook, ← hof]
  | none =>
    simp only [hvalue, Option.isSome_none] at hof
    rw [mem_insert_iff_of_lt (hnext ▸ hid), hlook]
    constructor
    · exact fun ⟨_, hne⟩ hkey => absurd hkey hne
    · intro hkept
      have hne : e.1 ≠ key := fun hkey => by simpa [← hof hkey] using hkept hkey
      exact ⟨fun hkey => absurd hkey hne, hne⟩

namespace Holders

/-- What an operation can make of the names. -/
inductive Becomes (h : Holders α) : Holders α → Prop where
  | same : Becomes h h
  | create (name : String) (value : α) : Becomes h (h.create name value)
  | share (name : String) {other : String} {source : Shared α}
      (known : h.find? other = some source) : Becomes h (h.hold name source)
  | release (name : String) : Becomes h (h.release name)

variable {h h' : Holders α}

theorem Becomes.known (hb : h.Becomes h') :
    ∀ source ∈ h'.sources, source ∈ h.sources ∨ source.id = h.nextId := by
  intro source hs
  cases hb with
  | same => exact .inl hs
  | create name value => exact (mem_sources_hold hs).imp_right (congrArg Shared.id)
  | share name hother => exact .inl (mem_sources_share hother hs)
  | release name => exact .inl (mem_sources_release hs)

theorem Becomes.nextId_le (hb : h.Becomes h') : h.nextId ≤ h'.nextId := by
  cases hb with
  | create name value => exact Nat.le_succ _
  | same | share | release => exact Nat.le_refl _

/-- Sources stay apart from each other and from others known. -/
theorem Becomes.distinct {objects : List (Shared α)} (hb : h.Becomes h')
    (hdistinct : Shared.Distinct (h.sources ++ objects) h.nextId) :
    Shared.Distinct (h'.sources ++ objects) h'.nextId := by
  cases hb with
  | same => exact hdistinct
  | create name value => exact distinct_create hdistinct name value
  | share name hother =>
    exact distinct_of_known hdistinct rfl fun _ hs => mem_sources_share hother hs
  | release name => exact distinct_of_known hdistinct rfl fun _ hs => mem_sources_release hs

end Holders

namespace Use

theorem Op.becomes (op : Op α δ) (h : Holders α) : h.Becomes (op.holders h) := by
  cases op with
  | create name value => exact .create name value
  | share name other =>
    simp only [Op.holders]
    split
    · next hother => exact .share name hother
    · exact .same
  | release name => exact .release name
  | insert | get | getOrDerive | peek | remove | purge => exact .same

/-- The operation gives the key of `e` a new result. -/
def Overwrites (u : Use α δ) (e : String × Entry δ) : Op α δ → Prop
  | .insert key name _ => e.1 = key ∧ ∃ source, u.holders.find? name = some source
  | .getOrDerive key name _ => e.1 = key ∧
    ∃ source, u.holders.find? name = some source ∧ e.2.origin.isOf source = false
  | _ => False

/-- The operation comes across `e` when its source is held no more. -/
def Evicts (u : Use α δ) (e : String × Entry δ) : Op α δ → Prop
  | .get key name => e.1 = key ∧ (∃ source, u.holders.find? name = some source) ∧
    e.2.origin.isLive u.held = false
  | .purge => e.2.origin.isLive u.held = false
  | _ => False

theorem isLive_of_isOf {u : Use α δ} {name : String} {source : Shared α}
    (hname : u.holders.find? name = some source) {w : Witness} (h : w.isOf source = true) :
    w.isLive u.held = true :=
  Holders.holds_iff.2 ⟨source, Holders.mem_sources_of_find? hname, (beq_iff_eq.1 h).symm⟩

theorem held_run_eq_false {u : Use α δ} {id : Nat} (hlt : id < u.holders.nextId)
    (hdead : u.held id = false) (ops : List (Op α δ)) : (u.run ops).value.held id = false := by
  induction ops generalizing u with
  | nil => exact hdead
  | cons op ops ih =>
    have hholders := u.holders_step op
    have hbecomes := op.becomes u.holders
    refine ih (u := (u.step op).value.2) ?_ ?_
    · rw [hholders]
      exact Nat.lt_of_lt_of_le hlt hbecomes.nextId_le
    · rw [held, hholders]
      exact Holders.holds_eq_false_of_known hbecomes.known hlt hdead

namespace Explains
variable {past : List (Deed α δ)} {u : Use α δ}

theorem origin_lt (h : Explains past u) {e : String × Entry δ} (he : e ∈ u.cache.entries) :
    e.2.origin.target < u.holders.nextId := by
  obtain ⟨source, hlatest, horigin⟩ := h.left e.1 e.2 he
  rw [horigin]
  exact h.sources.lt source (List.mem_append_right _ (Deed.mem_sources_of_latest hlatest))

theorem derived_lt (h : Explains past u) {e : String × Entry δ} (he : e ∈ u.cache.entries) :
    e.2.derived.id < u.cache.nextId := by
  obtain ⟨source, hlatest, -⟩ := h.left e.1 e.2 he
  obtain ⟨later, earlier, rfl, -⟩ := Deed.latest_eq_some_iff.1 hlatest
  apply h.results
  exact List.mem_filterMap.2 ⟨_, List.mem_append_right later List.mem_cons_self, rfl⟩

/-- An entry goes when its key is removed, when that gets a new result, or when the entry is come
across after its source was let go of. -/
theorem mem_step_iff (h : Explains past u) {e : String × Entry δ} (he : e ∈ u.cache.entries)
    (op : Op α δ) : e ∈ (u.step op).value.2.cache.entries ↔
      ¬(op = .remove e.1 ∨ u.Overwrites e op ∨ u.Evicts e op) := by
  cases op with
  | create | release | peek => simpa [Use.step, Overwrites, Evicts] using he
  | share name other =>
    simp only [Use.step, withSource]
    cases u.holders.find? other <;> simpa [Overwrites, Evicts] using he
  | insert key name derived =>
    simp only [Use.step, withSource]
    cases hfind : u.holders.find? name with
    | none => simpa [Overwrites, Evicts, hfind] using he
    | some source =>
      have hmem := mem_insert_iff_of_lt (h.derived_lt he) key source derived
      simpa [Overwrites, Evicts, hfind, he] using hmem
  | get key name =>
    simp only [Use.step, withSource]
    cases hfind : u.holders.find? name with
    | none => simpa [Overwrites, Evicts, hfind] using he
    | some source =>
      have hlive := isLive_of_isOf hfind (w := e.2.origin)
      have hmem := mem_get_iff h.keyed he u.held key source
      rw [or_iff_right_of_imp hlive] at hmem
      simpa [Overwrites, Evicts, hfind] using hmem
  | getOrDerive key name derive =>
    simp only [Use.step, withSource]
    cases hfind : u.holders.find? name with
    | none => simpa [Overwrites, Evicts, hfind] using he
    | some source =>
      have hmem := mem_getOrDerive_iff h.keyed he (h.derived_lt he) u.held key source derive
      simpa [Overwrites, Evicts, hfind] using hmem
  | remove key =>
    have hmem : e ∈ (u.cache.erase key).entries ↔ e ∈ u.cache.entries ∧ e.1 ≠ key :=
      mem_erase_iff
    simpa [Use.step, Cache.remove, Overwrites, Evicts, eq_comm, he] using hmem
  | purge =>
    have hmem := mem_purge_iff u.cache u.held (e := e)
    simpa [Use.step, Overwrites, Evicts, he] using hmem

/-- What is held to the end was not let go of before, so that an entry of it stays where no
operation removes or overwrites it. -/
theorem mem_run (h : Explains past u) {e : String × Entry δ} (he : e ∈ u.cache.entries)
    (ops : List (Op α δ)) (hlive : e.2.origin.isLive (u.run ops).value.held = true) :
    e ∈ (u.run ops).value.cache.entries ∨ ∃ before op after, ops = before ++ op :: after ∧
      (op = .remove e.1 ∨ (u.run before).value.Overwrites e op) := by
  induction ops generalizing past u with
  | nil => exact .inl he
  | cons op ops ih =>
    by_cases hstays : e ∈ (u.step op).value.2.cache.entries
    · rcases ih (h.step op) hstays hlive with hend | ⟨before, other, after, rfl, hother⟩
      · exact .inl hend
      · exact .inr ⟨op :: before, other, after, rfl, hother⟩
    · rw [h.mem_step_iff he op, Classical.not_not, ← or_assoc] at hstays
      rcases hstays with hgone | hevicts
      · exact .inr ⟨[], op, ops, rfl, hgone⟩
      · have hdead : e.2.origin.isLive u.held = false := by
          cases op with
          | get => exact hevicts.2.2
          | purge => exact hevicts
          | create | share | release | insert | getOrDerive | peek | remove => exact hevicts.elim
        have hend : e.2.origin.isLive (u.run (op :: ops)).value.held = false :=
          held_run_eq_false (h.origin_lt he) hdead (op :: ops)
        rw [hend] at hlive
        cases hlive

end Explains

/-- What an operation overwrites makes room for another entry under its key. -/
theorem Explains.exists_of_overwrites {past : List (Deed α δ)} {u : Use α δ}
    (h : Explains past u) {e : String × Entry δ} (he : e ∈ u.cache.entries) {op : Op α δ}
    (hop : u.Overwrites e op) : ∃ entry, (e.1, entry) ∈ (u.step op).value.2.cache.entries := by
  cases op with
  | insert key name derived =>
    obtain ⟨rfl, source, hname⟩ := hop
    simp only [Use.step, withSource, hname]
    exact ⟨_, mem_insert_iff.2 (.inl rfl)⟩
  | getOrDerive key name derive =>
    obtain ⟨rfl, source, hname, hof⟩ := hop
    have hvalue : (u.cache.get u.held e.1 source).value.1 = none := by
      rw [value_get, find?_of_mem h.keyed he rfl]
      simp [Option.filter, hof]
    simp only [Use.step, withSource, hname, Logged.value_bind, getOrDerive_eq, hvalue]
    exact ⟨_, mem_insert_iff.2 (.inl rfl)⟩
  | create | share | release | get | peek | remove | purge => exact hop.elim

/-- A purge tells how many entries it drops: those of sources that are held no more. -/
theorem step_purge (u : Use α δ) : (u.step .purge).value =
    (.purged (u.cache.entries.countP fun e => !e.2.origin.isLive u.held), { u with
      cache.entries := u.cache.entries.filter fun e => e.2.origin.isLive u.held }) := by
  have hcount : u.cache.entries.length
      - (u.cache.entries.filter fun e => e.2.origin.isLive u.held).length =
        u.cache.entries.countP fun e => !e.2.origin.isLive u.held := by
    rw [← List.countP_eq_length_filter,
      List.length_eq_countP_add_countP fun e => e.2.origin.isLive u.held, Nat.add_sub_cancel_left]
    simp
  rw [← hcount]
  rfl

/-- The result that an operation answers with. -/
def Answer.result? : Answer δ → Option (Shared δ)
  | .result found => found
  | _ => none

/-- The key that an operation looks up. -/
def looksUp? (u : Use α δ) : Op α δ → Option String
  | .get key name | .getOrDerive key name _ => (u.holders.find? name).map fun _ => key
  | _ => none

/-- What a look-up comes to. -/
inductive Look where
  /-- The result kept under the key is the answer. -/
  | hit
  /-- Nothing is kept under the key. -/
  | missing
  /-- What is kept is not the answer. -/
  | stale
  deriving DecidableEq

def Look.of (kept answer : Option (Shared δ)) : Look :=
  match kept with
  | none => .missing
  | some result => if answer.map (·.id) = some result.id then .hit else .stale

def look? (u : Use α δ) (op : Op α δ) : Option Look :=
  (u.looksUp? op).map fun key => .of (u.cache.peek key) (u.step op).value.1.result?

/-- The look-ups of a run, oldest first. -/
def looks (u : Use α δ) : List (Op α δ) → List Look
  | [] => []
  | op :: ops => (u.look? op).toList ++ looks (u.step op).value.2 ops

/-- The counts with some look-ups added. -/
def tally (n : LookupCounts) (looks : List Look) : LookupCounts :=
  ⟨n.hits + looks.count .hit, n.misses + looks.count .missing, n.stale + looks.count .stale⟩

theorem tally_append (n : LookupCounts) (looks more : List Look) :
    tally n (looks ++ more) = tally (tally n looks) more := by
  simp only [tally, List.count_append, Nat.add_assoc]

theorem count_looks (looks : List Look) :
    looks.count .hit + looks.count .missing + looks.count .stale = looks.length := by
  induction looks with
  | nil => rfl
  | cons look looks ih => cases look <;> simp [← ih] <;> omega

theorem counts_get (c : Cache δ) (held : Nat → Bool) (key : String) (source : Shared α) :
    (c.get held key source).value.2.counts =
      tally c.counts [.of (c.peek key) (c.get held key source).value.1] := by
  unfold get peek
  cases c.find? key with
  | none => rfl
  | some entry =>
    dsimp only
    split
    · simp [tally, Look.of]
    · split <;> simp [tally, Look.of, erase]

/-- What is derived now is not what was kept, and counted as the look-up was that came before. -/
theorem counts_getOrDerive {c : Cache δ} (h : c.Keyed)
    (hid : ∀ e ∈ c.entries, e.2.derived.id < c.nextId) (held : Nat → Bool) (key : String)
    (source : Shared α) (derive : α → Logged δ) :
    let kept := c.getOrDerive held key source derive
    kept.value.2.counts = tally c.counts [.of (c.peek key) (some kept.value.1)] := by
  have hcounts := counts_get c held key source
  have hnext := (drops_get h held key source).nextId
  rw [getOrDerive_eq]
  dsimp only
  cases hvalue : (c.get held key source).value.1 with
  | some result => simpa only [hvalue] using hcounts
  | none =>
    have hlook : Look.of (c.peek key) none = Look.of (c.peek key)
        (some ((c.get held key source).value.2.insert key source
          (derive source.value).value).value.1) := by
      cases hfind : c.find? key with
      | none => simp [peek, hfind, Look.of]
      | some entry =>
        have hne := Nat.ne_of_gt (hid _ ((find?_eq_some_iff h).1 hfind))
        simp [peek, hfind, Look.of, Cache.insert, hnext, hne]
    rw [hvalue, hlook] at hcounts
    exact hcounts

namespace Explains
variable {past : List (Deed α δ)} {u : Use α δ}

theorem counts_step (h : Explains past u) (op : Op α δ) :
    (u.step op).value.2.cache.counts = tally u.cache.counts (u.look? op).toList := by
  cases op with
  | create | release | peek | remove | purge => rfl
  | share name other =>
    simp only [Use.step, withSource, look?, looksUp?]
    cases u.holders.find? other <;> rfl
  | insert key name derived =>
    simp only [Use.step, withSource, look?, looksUp?]
    cases u.holders.find? name <;> rfl
  | get key name =>
    simp only [Use.step, withSource, look?, looksUp?]
    cases u.holders.find? name with
    | none => rfl
    | some source => exact counts_get u.cache u.held key source
  | getOrDerive key name derive =>
    simp only [Use.step, withSource, look?, looksUp?]
    cases u.holders.find? name with
    | none => rfl
    | some source =>
      exact counts_getOrDerive h.keyed (fun e he => h.derived_lt he) u.held key source derive

theorem counts_run (h : Explains past u) (ops : List (Op α δ)) :
    (u.run ops).value.cache.counts = tally u.cache.counts (u.looks ops) := by
  induction ops generalizing past u with
  | nil => rfl
  | cons op ops ih =>
    rw [looks, tally_append, ← h.counts_step op]
    exact ih (h.step op)

end Explains
end Use
end EditLex.Cache
