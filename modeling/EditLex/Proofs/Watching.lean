import EditLex.Cache.Watched
import EditLex.Proofs.Eviction

/-!
Witnesses beside a cache in use. No identity is given twice, so a witness tells of the one source it
was made from, whatever it is asked and however it was copied (`Cache.Watched.Follows`): it is live
while a name holds that source, and once not, never again (`Cache.Watched.Tells`). What becomes of
an entry is told by the operations to come (`Cache.Watched.Explained`).
-/
namespace EditLex.Cache
variable {α δ : Type}

namespace Holders

/-- No name holds two sources. -/
def Named (h : Holders α) : Prop := (h.names.map (·.1)).Nodup

theorem mem_sources_iff {h : Holders α} (hn : h.Named) {source : Shared α} :
    source ∈ h.sources ↔ ∃ name, h.find? name = some source := by
  simp only [find?, lookup_eq_some_iff_mem hn, sources, List.mem_map, Prod.exists]
  simp

theorem named_release {h : Holders α} (hn : h.Named) (name : String) : (h.release name).Named :=
  (List.filter_sublist.map _).nodup hn

theorem named_hold {h : Holders α} (hn : h.Named) (name : String) (source : Shared α) :
    (h.hold name source).Named := by
  apply List.nodup_cons.2
  refine ⟨?_, named_release hn name⟩
  simp [release]

theorem Becomes.named {h h' : Holders α} (hb : h.Becomes h') (hn : h.Named) : h'.Named := by
  cases hb with
  | same => exact hn
  | create name value => exact named_hold hn name _
  | share name => exact named_hold hn name _
  | release name => exact named_release hn name

theorem isLive_iff {h : Holders α} (hn : h.Named) {objects : List (Shared α)}
    (hdistinct : Shared.Distinct (h.sources ++ objects) h.nextId) {source : Shared α}
    (hs : source ∈ objects) :
    (Witness.of source).isLive h.holds = true ↔ ∃ name, h.find? name = some source := by
  rw [Witness.isLive, holds_iff, ← mem_sources_iff hn]
  constructor
  · rintro ⟨other, ho, hid⟩
    have heq := hdistinct.eq_of_id other (List.mem_append_left _ ho) source
      (List.mem_append_right _ hs) hid
    exact heq ▸ ho
  · exact fun hmem => ⟨source, hmem, rfl⟩

theorem isOf_iff {h : Holders α} {objects : List (Shared α)}
    (hdistinct : Shared.Distinct (h.sources ++ objects) h.nextId) {source candidate : Shared α}
    (hs : source ∈ objects) {name : String} (hname : h.find? name = some candidate) :
    (Witness.of source).isOf candidate = true ↔ candidate = source := by
  constructor
  · intro hof
    exact hdistinct.eq_of_id candidate (List.mem_append_left _ (mem_sources_of_find? hname)) source
      (List.mem_append_right _ hs) (beq_iff_eq.1 hof).symm
  · rintro rfl
    exact beq_self_eq_true _

end Holders

namespace Watched

/-- The operations of a run that are not about witnesses. -/
def uses (ops : List (Op α δ)) : List (Use.Op α δ) := ops.filterMap fun
  | .use op => some op
  | _ => none

theorem toUse_step (w : Watched α δ) (op : Op α δ) :
    (w.step op).value.2.toUse = (w.toUse.run (uses [op])).value := by
  cases op with
  | witness label name =>
    simp only [step]
    cases w.holders.find? name <;> rfl
  | copyWitness label other =>
    simp only [step]
    cases w.witness? other <;> rfl
  | use | isOf | isLive => rfl

theorem toUse_run (w : Watched α δ) (ops : List (Op α δ)) :
    (w.run ops).value.toUse = (w.toUse.run (uses ops)).value := by
  induction ops generalizing w with
  | nil => rfl
  | cons op ops ih =>
    have hrun : (w.run (op :: ops)).value.toUse =
        ((w.toUse.run (uses [op])).value.run (uses ops)).value := by
      rw [← toUse_step]
      exact ih _
    cases op <;> exact hrun

/-- The label that an operation puts a witness under, and the source that this was made from. -/
def origin? (w : Watched α δ) (made : List (String × Shared α)) :
    Op α δ → Option (String × Shared α)
  | .witness label name => (w.holders.find? name).map fun source => (label, source)
  | .copyWitness label other => (made.lookup other).map fun source => (label, source)
  | _ => none

/-- The sources that the witnesses of a run were made from, under their labels and newest first,
behind those made before. -/
def origins (w : Watched α δ) (made : List (String × Shared α)) :
    List (Op α δ) → List (String × Shared α)
  | [] => made
  | op :: ops => origins (w.step op).value.2 ((w.origin? made op).toList ++ made) ops

/-- Each witness is one of the source it was made from, and no other object is that source. -/
structure Follows (made : List (String × Shared α)) (w : Watched α δ) : Prop where
  witnesses : w.witnesses = made.map fun m => (m.1, .of m.2)
  named : w.holders.Named
  sources : Shared.Distinct (w.holders.sources ++ made.map (·.2)) w.holders.nextId

theorem follows_nil : Follows [] ({} : Watched α δ) where
  witnesses := rfl
  named := List.nodup_nil
  sources := ⟨fun _ h => absurd h List.not_mem_nil, fun _ h => absurd h List.not_mem_nil⟩

namespace Follows
variable {made : List (String × Shared α)} {w : Watched α δ}

theorem witness?_eq (h : Follows made w) (label : String) :
    w.witness? label = (made.lookup label).map .of := by
  rw [witness?, h.witnesses]
  clear h
  induction made with
  | nil => rfl
  | cons m made ih =>
    obtain ⟨other, source⟩ := m
    simp only [List.map_cons, List.lookup_cons, ih]
    cases label == other <;> rfl

theorem remember (h : Follows made w) (label : String) {source : Shared α}
    (hs : source ∈ w.holders.sources ++ made.map (·.2)) :
    Follows ((label, source) :: made) (w.remember label (.of source)) where
  witnesses := congrArg (_ :: ·) h.witnesses
  named := h.named
  sources := by
    apply h.sources.mono _ (Nat.le_refl _)
    intro other ho
    rcases List.mem_append.1 ho with ho | ho
    · exact List.mem_append_left _ ho
    · rcases List.mem_cons.1 ho with rfl | ho
      · exact hs
      · exact List.mem_append_right _ ho

theorem step (h : Follows made w) (op : Op α δ) :
    Follows ((w.origin? made op).toList ++ made) (w.step op).value.2 := by
  cases op with
  | use op =>
    have hholders : (w.step (.use op)).value.2.holders = op.holders w.holders :=
      w.toUse.holders_step op
    constructor
    · exact h.witnesses
    · rw [hholders]
      exact (op.becomes w.holders).named h.named
    · rw [hholders]
      exact (op.becomes w.holders).distinct h.sources
  | witness label name =>
    simp only [Watched.step, origin?]
    cases hfind : w.holders.find? name with
    | none => exact h
    | some source =>
      exact h.remember label (List.mem_append_left _ (Holders.mem_sources_of_find? hfind))
  | copyWitness label other =>
    simp only [Watched.step, origin?, h.witness?_eq]
    cases hfind : made.lookup other with
    | none => exact h
    | some source =>
      obtain ⟨before, after, rfl, -⟩ := List.lookup_eq_some_iff.1 hfind
      apply h.remember label
      simp
  | isOf | isLive => exact h

theorem run (h : Follows made w) (ops : List (Op α δ)) :
    Follows (w.origins made ops) (w.run ops).value := by
  induction ops generalizing made w with
  | nil => exact h
  | cons op ops ih => exact ih (h.step op)

end Follows

theorem not_mem_step_iff {past : List (Deed α δ)} {w : Watched α δ}
    (h : Use.Explains past w.toUse) {e : String × Entry δ} (he : e ∈ w.cache.entries)
    (op : Op α δ) : e ∉ (w.step op).value.2.cache.entries ↔ ∃ other, op = .use other ∧
      (other = .remove e.1 ∨ w.Overwrites e other ∨ w.Evicts e other) := by
  have hstep : (w.step op).value.2.cache.entries =
      (w.toUse.run (uses [op])).value.cache.entries := by
    rw [toUse_step]
  rw [hstep]
  cases op with
  | use op =>
    simp only [Op.use.injEq, exists_eq_left']
    exact (not_congr (h.mem_step_iff he op)).trans Classical.not_not
  | witness | copyWitness | isOf | isLive => simp [uses, Use.run, he]

theorem step_purge (w : Watched α δ) : (w.step (.use .purge)).value =
    (.use (.purged (w.cache.entries.countP fun e => !e.2.origin.isLive w.held)), { w with
      cache.entries := w.cache.entries.filter fun e => e.2.origin.isLive w.held }) := by
  simp only [step, Logged.value_bind, Logged.value_pure, w.toUse.step_purge]

/-- The entry was inserted with its source, and what takes it out is told by `Use.Overwrites` and
`Use.Evicts`: as long as its source is held, that its key is removed or gets another result. -/
structure Explained (past : List (Deed α δ)) (w : Watched α δ) (e : String × Entry δ) : Prop where
  inserted : ∃ source, .insertion e.1 source e.2.derived ∈ past ∧ e.2.origin = .of source ∧
    (e.2.origin.isLive w.held = true ↔ ∃ name, w.holders.find? name = some source)
  leaves_iff : ∀ op, e ∉ (w.step op).value.2.cache.entries ↔ ∃ other, op = .use other ∧
    (other = .remove e.1 ∨ w.Overwrites e other ∨ w.Evicts e other)
  replaced : ∀ op, w.Overwrites e op →
    ∃ entry, (e.1, entry) ∈ (w.step (.use op)).value.2.cache.entries
  stays : ∀ more,
    let later := (w.run more).value
    e.2.origin.isLive later.held = true → e ∈ later.cache.entries ∨
      ∃ before op after, uses more = before ++ op :: after ∧
        (op = .remove e.1 ∨ (w.toUse.run before).value.Overwrites e op)

theorem explained {past : List (Deed α δ)} {w : Watched α δ} (hn : w.holders.Named)
    (h : Use.Explains past w.toUse) {e : String × Entry δ} (he : e ∈ w.cache.entries) :
    w.Explained past e := by
  constructor
  case inserted =>
    obtain ⟨source, hlatest, horigin⟩ := h.left e.1 e.2 he
    obtain ⟨later, earlier, rfl, -⟩ := Deed.latest_eq_some_iff.1 hlatest
    refine ⟨source, List.mem_append_right _ List.mem_cons_self, horigin, ?_⟩
    rw [horigin]
    exact Holders.isLive_iff hn h.sources (Deed.mem_sources_of_latest hlatest)
  case leaves_iff => exact not_mem_step_iff h he
  case replaced => exact fun op => h.exists_of_overwrites he
  case stays =>
    intro more later hlive
    have hlater : later.toUse = (w.toUse.run (uses more)).value := toUse_run w more
    rw [hlater] at hlive ⊢
    exact h.mem_run he (uses more) hlive

/-- A purge drops the entries of sources let go of, tells how many, and leaves none for the next. -/
structure Purges (w : Watched α δ) : Prop where
  answer : (w.step (.use .purge)).value.1 =
    .use (.purged (w.cache.entries.countP fun e => !e.2.origin.isLive w.held))
  entries : (w.step (.use .purge)).value.2.cache.entries =
    w.cache.entries.filter fun e => e.2.origin.isLive w.held
  again : ((w.step (.use .purge)).value.2.step (.use .purge)).value.1 = .use (.purged 0)

theorem purges (w : Watched α δ) : w.Purges := by
  constructor
  case answer => rw [step_purge]
  case entries => rw [step_purge]
  case again =>
    have hnone : (w.cache.entries.filter fun e => e.2.origin.isLive w.held).countP
        (fun e => !e.2.origin.isLive w.held) = 0 := by
      simp [List.countP_eq_zero]
    rw [step_purge, step_purge]
    exact congrArg (fun n => Answer.use (.purged n)) hnone

/-- The witness of the source is live while a name holds that, is one of no other object, and once
not live, it never is again, and no object to come is its source. -/
structure Tells (w : Watched α δ) (source : Shared α) : Prop where
  isLive_iff : (Witness.of source).isLive w.held = true ↔ ∃ name, w.holders.find? name = some source
  isOf_iff : ∀ name candidate, w.holders.find? name = some candidate →
    ((Witness.of source).isOf candidate = true ↔ candidate = source)
  stays_dead : (Witness.of source).isLive w.held = false → ∀ more,
    (Witness.of source).isLive (w.run more).value.held = false ∧
      ∀ name candidate, (w.run more).value.holders.find? name = some candidate →
        (Witness.of source).isOf candidate = false

theorem Follows.tells {made : List (String × Shared α)} {w : Watched α δ} (h : Follows made w)
    {source : Shared α} (hs : source ∈ made.map (·.2)) : w.Tells source := by
  constructor
  case isLive_iff => exact Holders.isLive_iff h.named h.sources hs
  case isOf_iff =>
    intro name candidate hname
    exact Holders.isOf_iff h.sources hs hname
  case stays_dead =>
    intro hdead more
    have hlater : (w.run more).value.toUse = (w.toUse.run (uses more)).value := toUse_run w more
    have hlt := h.sources.lt source (List.mem_append_right _ hs)
    have hdead' : (Witness.of source).isLive (w.run more).value.held = false := by
      rw [hlater]
      exact Use.held_run_eq_false hlt hdead (uses more)
    refine ⟨hdead', ?_⟩
    intro name candidate hname
    rw [Bool.eq_false_iff]
    intro hof
    have hlive := Use.isLive_of_isOf hname hof
    rw [hdead'] at hlive
    cases hlive

/-- After any run, an entry goes only if its key is removed or gets another result, or if it is
looked up or a purge is made after its source was let go of, so that an entry of a source still held
is there unless its key was removed or overwritten. Each look-up is counted once, as what it came
to. A witness and its copies are those of the source they were made from, and of no other. -/
theorem evictions_run (ops : List (Op α δ)) :
    let w := (({} : Watched α δ).run ops).value
    let past := ({} : Use α δ).history [] (uses ops)
    let looks := ({} : Use α δ).looks (uses ops)
    let made := ({} : Watched α δ).origins [] ops
    (∀ e ∈ w.cache.entries, w.Explained past e) ∧ w.Purges ∧
      (w.cache.counts = ⟨looks.count .hit, looks.count .missing, looks.count .stale⟩ ∧
        w.cache.counts.hits + w.cache.counts.misses + w.cache.counts.stale = looks.length) ∧
      (∀ label, w.witness? label = (made.lookup label).map .of) ∧
      ∀ source ∈ made.map (·.2), w.Tells source := by
  intro w past looks made
  have hfollows : Follows made w := follows_nil.run ops
  have huse : w.toUse = (({} : Use α δ).run (uses ops)).value := toUse_run _ ops
  have hexplains : Use.Explains past w.toUse := huse ▸ Use.explains_nil.run (uses ops)
  have hcounts : w.cache.counts =
      ⟨looks.count .hit, looks.count .missing, looks.count .stale⟩ := by
    rw [huse, Use.explains_nil.counts_run]
    simp [Use.tally, looks]
  refine ⟨fun e => explained hfollows.named hexplains, w.purges, ⟨hcounts, ?_⟩,
    hfollows.witness?_eq, fun source => hfollows.tells⟩
  rw [hcounts]
  exact Use.count_looks looks

/-- Two names with equal texts. The entry of the first outlives a look-up with the second, and goes
with one made after the first was let go of; from then on no copy of its witness is live. -/
theorem evictions_run_of_equal_texts :
    let ops : List (Op String Nat) := [.use (.create "x" "ab"), .use (.insert "k" "x" 1),
      .witness "t" "x", .copyWitness "s" "t", .use (.create "y" "ab"), .use (.get "k" "y"),
      .use (.share "x" "y")]
    let w := (({} : Watched String Nat).run ops).value
    let e : String × Entry Nat := ("k", ⟨⟨0⟩, ⟨0, 1⟩⟩)
    e ∈ w.cache.entries ∧ e ∉ (w.step (.use (.get "k" "x"))).value.2.cache.entries ∧
      w.cache.counts = ⟨0, 0, 1⟩ ∧ w.witness? "s" = some ⟨0⟩ ∧
      ∀ more, (Witness.mk 0).isLive (w.run more).value.held = false := by
  intro ops w e
  obtain ⟨hentries, -, ⟨hcounts, -⟩, hwitness, htokens⟩ := evictions_run ops
  have he : e ∈ w.cache.entries := List.mem_singleton.2 rfl
  have hmade : (⟨0, "ab"⟩ : Shared String) ∈
      (({} : Watched String Nat).origins [] ops).map (·.2) := List.mem_cons_self
  have hdead : (Witness.mk 0).isLive w.held = false := by decide
  refine ⟨he, ?_, hcounts.trans rfl, (hwitness "s").trans rfl, ?_⟩
  · apply ((hentries e he).leaves_iff _).2
    exact ⟨_, rfl, .inr (.inr ⟨rfl, ⟨⟨1, "ab"⟩, rfl⟩, hdead⟩)⟩
  · intro more
    exact ((htokens _ hmade).stays_dead hdead more).1

end Watched
end EditLex.Cache
