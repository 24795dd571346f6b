import EditLex.Proofs.Entries

/-!
What a cache answers, told from its past. Of the operations of a cache in use only insertions and
removals count (`Cache.Use.deed?`): a look-up finds the result of the latest insertion under its key
if that was made with the very source asked for and no removal came after (`Cache.Use.get_run`).
What the cache has beyond this is nothing, and what it lacks are results of sources that are held no
more (`Cache.Use.Explains`).
-/
namespace EditLex

/-- What happens to a key and counts for the look-ups to come. -/
inductive Deed (α δ : Type) where
  /-- `result` was derived from `source` and kept. -/
  | insertion (key : String) (source : Shared α) (result : Shared δ)
  | removal (key : String)

namespace Deed
variable {α δ : Type}

def key : Deed α δ → String
  | insertion key _ _ => key
  | removal key => key

/-- What the key stands for afterwards. -/
def kept : Deed α δ → Option (Shared α × Shared δ)
  | insertion _ source result => some (source, result)
  | removal _ => none

/-- What the latest of the deeds on `key` left. The past is told newest first. -/
def latest (key : String) : List (Deed α δ) → Option (Shared α × Shared δ)
  | [] => none
  | deed :: past => if deed.key = key then deed.kept else latest key past

theorem latest_insertion (key : String) (source : Shared α) (result : Shared δ)
    (past : List (Deed α δ)) :
    latest key (insertion key source result :: past) = some (source, result) := if_pos rfl

theorem latest_cons_of_ne {key : String} {deed : Deed α δ} (h : key ≠ deed.key)
    (past : List (Deed α δ)) : latest key (deed :: past) = latest key past := if_neg h.symm

theorem latest_eq_some_iff {key : String} {past : List (Deed α δ)} {source : Shared α}
    {result : Shared δ} : latest key past = some (source, result) ↔
      ∃ later earlier, past = later ++ insertion key source result :: earlier ∧
        ∀ deed ∈ later, deed.key ≠ key := by
  induction past with
  | nil => simp [latest]
  | cons deed past ih =>
    rw [latest]
    split
    · next hkey =>
      constructor
      · intro h
        cases deed with
        | insertion other source' result' =>
          simp only [kept, Option.some.injEq, Prod.mk.injEq] at h
          obtain ⟨rfl, rfl⟩ := h
          have hkey : other = key := hkey
          subst hkey
          exact ⟨[], past, rfl, fun _ hd => absurd hd List.not_mem_nil⟩
        | removal other => cases h
      · rintro ⟨later, earlier, hpast, hlater⟩
        cases later with
        | nil =>
          obtain ⟨rfl, rfl⟩ := List.cons.inj hpast
          rfl
        | cons first later =>
          obtain ⟨rfl, -⟩ := List.cons.inj hpast
          exact absurd hkey (hlater deed List.mem_cons_self)
    · next hkey =>
      rw [ih]
      constructor
      · rintro ⟨later, earlier, rfl, hlater⟩
        exact ⟨deed :: later, earlier, rfl, List.forall_mem_cons.2 ⟨hkey, hlater⟩⟩
      · rintro ⟨later, earlier, hpast, hlater⟩
        cases later with
        | nil =>
          obtain ⟨rfl, -⟩ := List.cons.inj hpast
          exact absurd rfl hkey
        | cons first later =>
          obtain ⟨rfl, rfl⟩ := List.cons.inj hpast
          exact ⟨later, earlier, rfl, (List.forall_mem_cons.1 hlater).2⟩

/-- The source that the key has a result of. -/
def source? (deed : Deed α δ) : Option (Shared α) := deed.kept.map (·.1)

def result? (deed : Deed α δ) : Option (Shared δ) := deed.kept.map (·.2)

theorem mem_sources_of_latest {key : String} {past : List (Deed α δ)} {source : Shared α}
    {result : Shared δ} (h : latest key past = some (source, result)) :
    source ∈ past.filterMap source? := by
  obtain ⟨later, earlier, rfl, -⟩ := latest_eq_some_iff.1 h
  exact List.mem_filterMap.2 ⟨_, List.mem_append_right later List.mem_cons_self, rfl⟩

end Deed

namespace Cache.Use
variable {α δ : Type}

/-- What an operation does to the key it names, if that counts for the look-ups to come. -/
def deed? (u : Use α δ) : Op α δ → Option (Deed α δ)
  | .insert key name derived => (u.holders.find? name).map fun source =>
    .insertion key source (u.cache.insert key source derived).value.1
  | .getOrDerive key name derive => (u.holders.find? name).bind fun source =>
    if (u.cache.get u.held key source).value.1.isSome then none
    else some (.insertion key source (u.cache.getOrDerive u.held key source derive).value.1)
  | .remove key => some (.removal key)
  | _ => none

/-- The deeds of a run, newest first, behind those of the past. -/
def history (u : Use α δ) (past : List (Deed α δ)) : List (Op α δ) → List (Deed α δ)
  | [] => past
  | op :: ops => history (u.step op).value.2 ((u.deed? op).toList ++ past) ops

/-- What an operation does: the names change, the cache drops entries, a result comes in, or a key
is cleared. -/
inductive Moves (u : Use α δ) : Option (Deed α δ) → Use α δ → Prop where
  | create (name : String) (value : α) :
      Moves u none { u with holders := u.holders.create name value }
  | hold (holders : Holders α) (nextId : holders.nextId = u.holders.nextId)
      (known : ∀ source ∈ holders.sources, source ∈ u.holders.sources) :
      Moves u none { u with holders }
  | drop (cache : Cache δ) (drops : u.cache.Drops u.held cache) : Moves u none { u with cache }
  | insert (cache : Cache δ) (drops : u.cache.Drops u.held cache) (key : String)
      {source : Shared α} (known : source ∈ u.holders.sources) (derived : δ) :
      Moves u (some (.insertion key source (cache.insert key source derived).value.1))
        { u with cache := (cache.insert key source derived).value.2 }
  | remove (key : String) :
      Moves u (some (.removal key)) { u with cache := u.cache.erase key }

theorem step_moves {u : Use α δ} (h : u.cache.Keyed) (op : Op α δ) :
    u.Moves (u.deed? op) (u.step op).value.2 := by
  have hsame : u.cache.Drops u.held u.cache := drops_of_entries_eq rfl rfl
  cases op with
  | create name value => exact .create name value
  | share name other =>
    simp only [deed?, step, withSource]
    cases hfind : u.holders.find? other with
    | none => exact .drop u.cache hsame
    | some source =>
      exact .hold (u.holders.hold name source) rfl fun _ hs => Holders.mem_sources_share hfind hs
  | release name =>
    exact .hold (u.holders.release name) rfl fun _ hs => Holders.mem_sources_release hs
  | insert key name derived =>
    simp only [deed?, step, withSource]
    cases hfind : u.holders.find? name with
    | none => exact .drop u.cache hsame
    | some source => exact .insert u.cache hsame key (Holders.mem_sources_of_find? hfind) derived
  | get key name =>
    simp only [deed?, step, withSource]
    cases u.holders.find? name with
    | none => exact .drop u.cache hsame
    | some source => exact .drop _ (drops_get h u.held key source)
  | getOrDerive key name derive =>
    simp only [deed?, step, withSource]
    cases hfind : u.holders.find? name with
    | none => exact .drop u.cache hsame
    | some source =>
      have hdrops := drops_get h u.held key source
      simp only [Option.bind_some, Logged.value_bind, Logged.value_pure, getOrDerive_eq]
      cases (u.cache.get u.held key source).value.1 with
      | none => exact .insert _ hdrops key (Holders.mem_sources_of_find? hfind) _
      | some result => exact .drop _ hdrops
  | peek key => exact .drop u.cache hsame
  | remove key => exact .remove key
  | purge => exact .drop _ (drops_purge u.cache u.held)

/-- The sources that are held, and those that results were derived from in the past. -/
def known (u : Use α δ) (past : List (Deed α δ)) : List (Shared α) :=
  u.holders.sources ++ past.filterMap Deed.source?

/-- The cache has what the past left under each key, but for results of sources that are held no
more. -/
structure Explains (past : List (Deed α δ)) (u : Use α δ) : Prop where
  keyed : u.cache.Keyed
  left : ∀ key entry, (key, entry) ∈ u.cache.entries →
    ∃ source, Deed.latest key past = some (source, entry.derived) ∧ entry.origin = .of source
  lost : ∀ key source result, Deed.latest key past = some (source, result) →
    (key, ⟨.of source, result⟩) ∈ u.cache.entries ∨ u.held source.id = false
  sources : Shared.Distinct (u.known past) u.holders.nextId
  results : ∀ result ∈ past.filterMap Deed.result?, result.id < u.cache.nextId
  ordered : (past.filterMap Deed.result?).Pairwise fun result older => older.id < result.id

theorem explains_nil : Explains [] ({} : Use α δ) where
  keyed := List.nodup_nil
  left _ _ he := absurd he List.not_mem_nil
  lost _ _ _ h := nomatch h
  sources := ⟨fun _ h => absurd h List.not_mem_nil, fun _ h => absurd h List.not_mem_nil⟩
  results _ h := absurd h List.not_mem_nil
  ordered := .nil

namespace Explains
variable {past : List (Deed α δ)} {u : Use α δ}

/-- A source of the past that is held no more stays so, whatever is made or shared. -/
theorem holders (h : Explains past u) {holders : Holders α}
    (hdistinct : Shared.Distinct (({ u with holders } : Use α δ).known past) holders.nextId)
    (hknown : ∀ source ∈ holders.sources,
      source ∈ u.holders.sources ∨ source.id = u.holders.nextId) :
    Explains past { u with holders } where
  keyed := h.keyed
  left := h.left
  lost key source result hlatest := by
    refine (h.lost key source result hlatest).imp_right fun hdead => ?_
    exact Holders.holds_eq_false_of_known hknown
      (h.sources.lt source (List.mem_append_right _ (Deed.mem_sources_of_latest hlatest))) hdead
  sources := hdistinct
  results := h.results
  ordered := h.ordered

theorem drop (h : Explains past u) {cache : Cache δ} (hdrops : u.cache.Drops u.held cache) :
    Explains past { u with cache } where
  keyed := hdrops.keyed h.keyed
  left key entry he := h.left key entry (hdrops.sublist.subset he)
  lost key source result hlatest := by
    rcases h.lost key source result hlatest with hin | hdead
    · exact hdrops.dead _ hin
    · exact .inr hdead
  sources := h.sources
  results := hdrops.nextId ▸ h.results
  ordered := h.ordered

theorem insert (h : Explains past u) (key : String) {source : Shared α}
    (hsource : source ∈ u.holders.sources) (derived : δ) :
    Explains (.insertion key source (u.cache.insert key source derived).value.1 :: past)
      { u with cache := (u.cache.insert key source derived).value.2 } where
  keyed := keyed_insert h.keyed key source derived
  left other entry he := by
    rcases mem_insert_iff.1 he with he | ⟨he, hne⟩
    · obtain ⟨rfl, rfl⟩ := Prod.mk.inj he
      exact ⟨source, Deed.latest_insertion other source _ past, rfl⟩
    · rw [Deed.latest_cons_of_ne hne]
      exact h.left other entry he
  lost other source' result hlatest := by
    rw [Deed.latest] at hlatest
    split at hlatest
    · next hkey =>
      cases hlatest
      exact .inl (mem_insert_iff.2 (.inl (hkey ▸ rfl)))
    · next hkey =>
      refine (h.lost other source' result hlatest).imp_left fun hin => ?_
      exact mem_insert_iff.2 (.inr ⟨hin, Ne.symm hkey⟩)
  sources := by
    refine h.sources.mono ?_ (Nat.le_refl _)
    intro other ho
    rcases List.mem_append.1 ho with ho | ho
    · exact List.mem_append_left _ ho
    · rcases List.mem_cons.1 ho with rfl | ho
      · exact List.mem_append_left _ hsource
      · exact List.mem_append_right _ ho
  results := List.forall_mem_cons.2
    ⟨Nat.lt_succ_self _, fun result hr => Nat.lt_succ_of_lt (h.results result hr)⟩
  ordered := List.pairwise_cons.2 ⟨h.results, h.ordered⟩

theorem remove (h : Explains past u) (key : String) :
    Explains (.removal key :: past) { u with cache := u.cache.erase key } where
  keyed := keyed_erase h.keyed key
  left other entry he := by
    obtain ⟨he, hne⟩ := mem_erase_iff.1 he
    rw [Deed.latest_cons_of_ne hne]
    exact h.left other entry he
  lost other source result hlatest := by
    rw [Deed.latest] at hlatest
    split at hlatest
    · cases hlatest
    · next hkey =>
      refine (h.lost other source result hlatest).imp_left fun hin => ?_
      exact mem_erase_iff.2 ⟨hin, Ne.symm hkey⟩
  sources := h.sources
  results := h.results
  ordered := h.ordered

theorem step (h : Explains past u) (op : Op α δ) :
    Explains ((u.deed? op).toList ++ past) (u.step op).value.2 := by
  have hmoves := step_moves h.keyed op
  generalize u.deed? op = deed at hmoves
  generalize (u.step op).value.2 = u' at hmoves
  cases hmoves with
  | create name value =>
    apply h.holders (Holders.distinct_create h.sources name value)
    intro source hs
    exact (Holders.mem_sources_hold hs).imp_right (congrArg Shared.id)
  | hold holders hnext hknown =>
    apply h.holders (Holders.distinct_of_known h.sources hnext hknown)
    intro source hs
    exact .inl (hknown source hs)
  | drop cache hdrops => exact h.drop hdrops
  | insert cache hdrops key hsource derived => exact (h.drop hdrops).insert key hsource derived
  | remove key => exact h.remove key

theorem run (h : Explains past u) (ops : List (Op α δ)) :
    Explains (u.history past ops) (u.run ops).value := by
  induction ops generalizing past u with
  | nil => exact h
  | cons op ops ih => exact ih (h.step op)

/-- A look-up answers by the past alone. -/
theorem found_iff (h : Explains past u) {source : Shared α} (hsource : source ∈ u.holders.sources)
    {key : String} {result : Shared δ} : (u.cache.get u.held key source).value.1 = some result ↔
      Deed.latest key past = some (source, result) := by
  rw [value_get, Option.map_eq_some_iff]
  constructor
  · rintro ⟨entry, hentry, rfl⟩
    obtain ⟨hfind, hof⟩ := Option.filter_eq_some_iff.1 hentry
    obtain ⟨origin, hlatest, horigin⟩ := h.left key entry ((find?_eq_some_iff h.keyed).1 hfind)
    rw [horigin] at hof
    have heq := h.sources.eq_of_id origin
      (List.mem_append_right _ (Deed.mem_sources_of_latest hlatest)) source
      (List.mem_append_left _ hsource) (beq_iff_eq.1 hof)
    rw [hlatest, heq]
  · intro hlatest
    rcases h.lost key source result hlatest with hin | hdead
    · refine ⟨_, Option.filter_eq_some_iff.2 ⟨(find?_eq_some_iff h.keyed).2 hin, ?_⟩, rfl⟩
      exact beq_self_eq_true _
    · rw [held, Bool.eq_false_iff, Ne, Holders.holds_iff] at hdead
      exact absurd ⟨source, hsource, rfl⟩ hdead

theorem found_eq (hu : Explains past u) {v : Use α δ} (hv : Explains past v)
    (hholders : u.holders = v.holders) {source : Shared α} (hsource : source ∈ u.holders.sources)
    (key : String) :
    (u.cache.get u.held key source).value.1 = (v.cache.get v.held key source).value.1 := by
  apply Option.ext
  intro result
  rw [hu.found_iff hsource, hv.found_iff (hholders ▸ hsource)]

/-- What is derived or found for a source is found for it right afterwards. -/
theorem found_getOrDerive (h : Explains past u) {source : Shared α}
    (hsource : source ∈ u.holders.sources) (key : String) (derive : α → Logged δ) :
    let answer := u.cache.getOrDerive u.held key source derive
    (answer.value.2.get u.held key source).value.1 = some answer.value.1 := by
  have hlook := h.drop (drops_get h.keyed u.held key source)
  dsimp only
  rw [getOrDerive_eq]
  dsimp only
  cases hfound : (u.cache.get u.held key source).value.1 with
  | none =>
    exact ((hlook.insert key hsource (derive source.value).value).found_iff hsource).2
      (Deed.latest_insertion key source _ past)
  | some result => exact (hlook.found_iff hsource).2 ((h.found_iff hsource).1 hfound)

end Explains

/-- What an operation makes of the names. -/
def Op.holders (h : Holders α) : Op α δ → Holders α
  | .create name value => h.create name value
  | .share name other =>
    match h.find? other with
    | some source => h.hold name source
    | none => h
  | .release name => h.release name
  | _ => h

/-- An operation of the cache, not one of the names. -/
def Op.isOfCache : Op α δ → Bool
  | .create _ _ | .share _ _ | .release _ => false
  | _ => true

theorem Op.holders_of_isOfCache {op : Op α δ} (h : op.isOfCache = true) (holders : Holders α) :
    op.holders holders = holders := by
  cases op with
  | create | share | release => cases h
  | _ => rfl

/-- Where a source is only asked about, the names stay as they are. -/
theorem holders_withSource (u : Use α δ) (name : String)
    {next : Shared α → Logged (Answer δ × Use α δ)}
    (h : ∀ source, (next source).value.2.holders = u.holders) :
    (u.withSource name next).value.2.holders = u.holders := by
  unfold withSource
  cases u.holders.find? name with
  | none => rfl
  | some source => exact h source

theorem holders_step (u : Use α δ) (op : Op α δ) :
    (u.step op).value.2.holders = op.holders u.holders := by
  cases op with
  | share name other =>
    simp only [step, withSource, Op.holders]
    cases u.holders.find? other <;> rfl
  | insert key name derived => exact u.holders_withSource name fun _ => rfl
  | get key name => exact u.holders_withSource name fun _ => rfl
  | getOrDerive key name derive => exact u.holders_withSource name fun _ => rfl
  | _ => rfl

theorem Moves.nextId {u u' : Use α δ} {deed : Option (Deed α δ)} (h : u.Moves deed u') :
    u'.cache.nextId = u.cache.nextId + (deed.bind Deed.result?).toList.length := by
  cases h with
  | drop cache hdrops => exact hdrops.nextId
  | insert cache hdrops => exact congrArg (· + 1) hdrops.nextId
  | _ => rfl

/-- Two uses with the same past and the same names. -/
structure Alike (past : List (Deed α δ)) (u v : Use α δ) : Prop where
  left : Explains past u
  right : Explains past v
  holders : u.holders = v.holders
  nextId : u.cache.nextId = v.cache.nextId

namespace Alike
variable {past : List (Deed α δ)} {u v : Use α δ}

theorem deed?_eq (h : Alike past u v) (op : Op α δ) : u.deed? op = v.deed? op := by
  cases op with
  | insert key name derived =>
    simp only [deed?, h.holders]
    congr 1
    funext source
    simp only [Cache.insert, h.nextId]
  | getOrDerive key name derive =>
    simp only [deed?, ← h.holders]
    cases hfind : u.holders.find? name with
    | none => rfl
    | some source =>
      have hsource := Holders.mem_sources_of_find? hfind
      have hfound := h.left.found_eq h.right h.holders hsource key
      simp only [Option.bind_some, getOrDerive_eq, ← hfound]
      cases (u.cache.get u.held key source).value.1 with
      | none =>
        have hnext : (u.cache.get u.held key source).value.2.nextId =
            (v.cache.get v.held key source).value.2.nextId := by
          rw [(drops_get h.left.keyed u.held key source).nextId,
            (drops_get h.right.keyed v.held key source).nextId, h.nextId]
        simp only [Cache.insert, hnext]
      | some result => rfl
  | _ => rfl

theorem step (h : Alike past u v) (op : Op α δ) :
    Alike ((u.deed? op).toList ++ past) (u.step op).value.2 (v.step op).value.2 where
  left := h.left.step op
  right := h.deed?_eq op ▸ h.right.step op
  holders := by rw [holders_step, holders_step, h.holders]
  nextId := by
    rw [(step_moves h.left.keyed op).nextId, (step_moves h.right.keyed op).nextId, h.deed?_eq op,
      h.nextId]

theorem run (h : Alike past u v) (ops : List (Op α δ)) :
    Alike (u.history past ops) (u.run ops).value (v.run ops).value := by
  induction ops generalizing past u v with
  | nil => exact h
  | cons op ops ih => exact ih (h.step op)

end Alike

/-- An operation of the cache that is no deed makes no difference to what follows. -/
theorem Explains.alike_step {past : List (Deed α δ)} {u : Use α δ} (h : Explains past u)
    {op : Op α δ} (hop : op.isOfCache = true) (hdeed : u.deed? op = none) :
    Alike past (u.step op).value.2 u where
  left := by
    have hstep := h.step op
    rwa [hdeed] at hstep
  right := h
  holders := (u.holders_step op).trans (Op.holders_of_isOfCache hop _)
  nextId := by
    have hmoves := step_moves h.keyed op
    rw [hdeed] at hmoves
    exact hmoves.nextId

/-- After any run, a look-up finds the result of the latest insertion under its key, as it was
returned then, if that was made with the very source asked for and the key was not cleared since.
What is asked to derive derives if that look-up finds nothing, once, from the source asked for, and
the next look-up finds what it answered. Look-ups and purges make no difference to the look-ups that
follow, and no operation of the cache to which sources are held. -/
theorem get_run (ops : List (Op α δ)) :
    let u := (({} : Use α δ).run ops).value
    let past := ({} : Use α δ).history [] ops
    (∀ name source, u.holders.find? name = some source → ∀ key,
      let look := u.cache.get u.held key source
      (∀ result, look.value.1 = some result ↔ ∃ later earlier,
        past = later ++ .insertion key source result :: earlier ∧
          ∀ deed ∈ later, deed.key ≠ key) ∧
      ∀ derive : α → Logged δ,
        let answer := u.cache.getOrDerive u.held key source derive
        answer.value.1 = look.value.1.getD ⟨u.cache.nextId, (derive source.value).value⟩ ∧
          answer.events = look.events ++ (if look.value.1.isSome then []
            else (derive source.value).events ++ [.resultCached key]) ∧
          (answer.value.2.get u.held key source).value.1 = some answer.value.1) ∧
      Shared.Distinct (u.known past) u.holders.nextId ∧
      (past.filterMap Deed.result?).Pairwise (fun result older => older.id < result.id) ∧
      (∀ idle, (idle = .purge ∨ ∃ key name, idle = .get key name) → ∀ more,
        let later := (u.run more).value
        let other := ((u.step idle).value.2.run more).value
        other.holders = later.holders ∧ ∀ source ∈ later.holders.sources, ∀ key,
          (other.cache.get other.held key source).value.1 =
            (later.cache.get later.held key source).value.1) ∧
      ∀ op, op.isOfCache = true → (u.step op).value.2.held = u.held := by
  intro u past
  have hu : Explains past u := explains_nil.run ops
  refine ⟨?_, hu.sources, hu.ordered, ?_, ?_⟩
  · intro name source hname key look
    have hsource := Holders.mem_sources_of_find? hname
    constructor
    · intro result
      rw [← Deed.latest_eq_some_iff]
      exact hu.found_iff hsource
    · intro derive answer
      refine ⟨?_, ?_, hu.found_getOrDerive hsource key derive⟩
      all_goals
        simp only [answer, getOrDerive_eq]
        have hnext : look.value.2.nextId = u.cache.nextId :=
          (drops_get hu.keyed u.held key source).nextId
        cases hfound : look.value.1 with
        | none => simp_all [look, Cache.insert]
        | some result => simp_all [look]
  · intro idle hidle more later other
    have halike : Alike past (u.step idle).value.2 u := by
      rcases hidle with rfl | ⟨key, name, rfl⟩
      · exact hu.alike_step rfl rfl
      · exact hu.alike_step rfl rfl
    have hrun := halike.run more
    refine ⟨hrun.holders, ?_⟩
    intro source hsource key
    exact hrun.left.found_eq hrun.right hrun.holders (hrun.holders ▸ hsource) key
  · intro op hop
    rw [held, holders_step, Op.holders_of_isOfCache hop]
    rfl

/-- Of two equal texts the cache knows the one its result was derived from, though the name it was
known by has gone over to the other, and though it was asked about the other since. -/
theorem get_run_of_equal_texts :
    let ops : List (Op String Nat) := [.create "x" "ab", .insert "k" "x" 1, .share "y" "x",
      .create "x" "ab", .get "k" "x", .purge]
    let u := (({} : Use String Nat).run ops).value
    u.holders.find? "y" = some ⟨0, "ab"⟩ ∧ u.holders.find? "x" = some ⟨1, "ab"⟩ ∧
      (u.cache.get u.held "k" (⟨0, "ab"⟩ : Shared String)).value.1 = some ⟨0, 1⟩ ∧
      (u.cache.get u.held "k" (⟨1, "ab"⟩ : Shared String)).value.1 ≠ some ⟨0, 1⟩ := by
  intro ops u
  have hy : u.holders.find? "y" = some ⟨0, "ab"⟩ := by decide
  have hx : u.holders.find? "x" = some ⟨1, "ab"⟩ := by decide
  obtain ⟨hlook, -⟩ := get_run ops
  have hpast : ({} : Use String Nat).history [] ops =
      [.insertion "k" ⟨0, "ab"⟩ ⟨0, 1⟩] := rfl
  refine ⟨hy, hx, ?_, ?_⟩
  · apply ((hlook "y" ⟨0, "ab"⟩ hy "k").1 ⟨0, 1⟩).2
    exact ⟨[], [], hpast, fun _ hd => absurd hd List.not_mem_nil⟩
  · intro hfound
    obtain ⟨later, earlier, hsplit, -⟩ := ((hlook "x" ⟨1, "ab"⟩ hx "k").1 ⟨0, 1⟩).1 hfound
    have hmem : Deed.insertion "k" ⟨1, "ab"⟩ ⟨0, 1⟩ ∈ [Deed.insertion "k" ⟨0, "ab"⟩ ⟨0, 1⟩] := by
      rw [← hpast, hsplit]
      exact List.mem_append_right later List.mem_cons_self
    simp at hmem

end Cache.Use
end EditLex
