import EditLex.Cache.Use

/-!
The entries of a cache, one under a key. Look-ups and purges drop entries, and only of sources that
are held no more (`Cache.Drops`); a look-up finds an entry by its key and the identity of its source
(`Cache.value_get`).
-/
namespace EditLex

/-- No two objects have one identity, and none has that of one to come. -/
structure Shared.Distinct {α : Type} (objects : List (Shared α)) (nextId : Nat) : Prop where
  lt : ∀ object ∈ objects, object.id < nextId
  eq_of_id : ∀ object ∈ objects, ∀ other ∈ objects, object.id = other.id → object = other

namespace Shared.Distinct
variable {α : Type} {objects others : List (Shared α)} {nextId nextId' : Nat}

theorem mono (h : Distinct objects nextId) (hsub : others ⊆ objects) (hle : nextId ≤ nextId') :
    Distinct others nextId' where
  lt object ho := Nat.lt_of_lt_of_le (h.lt object (hsub ho)) hle
  eq_of_id object ho other ho' := h.eq_of_id object (hsub ho) other (hsub ho')

/-- One more object comes in at most, with the next identity. -/
theorem extend (h : Distinct objects nextId) (value : α) (hle : nextId ≤ nextId')
    (hnew : ∀ object ∈ others,
      object ∈ objects ∨ object = ⟨nextId, value⟩ ∧ nextId < nextId') :
    Distinct others nextId' := by
  constructor
  · intro object ho
    rcases hnew object ho with ho | ⟨rfl, hlt⟩
    · exact Nat.lt_of_lt_of_le (h.lt object ho) hle
    · exact hlt
  · intro object ho other ho' hid
    rcases hnew object ho with ho | ⟨rfl, -⟩ <;> rcases hnew other ho' with ho' | ⟨rfl, -⟩
    · exact h.eq_of_id object ho other ho' hid
    · exact absurd hid (Nat.ne_of_lt (h.lt object ho))
    · exact absurd hid (Nat.ne_of_gt (h.lt other ho'))
    · rfl

end Shared.Distinct

namespace Cache
variable {α δ : Type}

/-- Where no key is taken twice, looking one up is finding it in the list. -/
theorem lookup_eq_some_iff_mem {β : Type} {entries : List (String × β)}
    (h : (entries.map (·.1)).Nodup) {key : String} {b : β} :
    entries.lookup key = some b ↔ (key, b) ∈ entries := by
  induction entries with
  | nil => simp
  | cons e entries ih =>
    obtain ⟨other, b'⟩ := e
    rw [List.map_cons, List.nodup_cons] at h
    rw [List.lookup_cons, List.mem_cons, Prod.mk.injEq]
    by_cases hkey : key = other
    · subst hkey
      have hnot : (key, b) ∉ entries := fun he => h.1 (List.mem_map.2 ⟨_, he, rfl⟩)
      simp [hnot, eq_comm]
    · simp [hkey, beq_eq_false_iff_ne.2 hkey, ih h.2]

/-- No key has two entries. -/
def Keyed (c : Cache δ) : Prop := (c.entries.map (·.1)).Nodup

theorem find?_eq_some_iff {c : Cache δ} (h : c.Keyed) {key : String} {entry : Entry δ} :
    c.find? key = some entry ↔ (key, entry) ∈ c.entries :=
  lookup_eq_some_iff_mem h

/-- `c'` is `c` without some entries, the sources of which are held no more. -/
structure Drops (held : Nat → Bool) (c c' : Cache δ) : Prop where
  sublist : c'.entries.Sublist c.entries
  dead : ∀ e ∈ c.entries, e ∈ c'.entries ∨ e.2.origin.isLive held = false
  nextId : c'.nextId = c.nextId

theorem drops_of_entries_eq {held : Nat → Bool} {c c' : Cache δ} (h : c'.entries = c.entries)
    (hnext : c'.nextId = c.nextId) : Drops held c c' where
  sublist := h ▸ List.Sublist.refl _
  dead _ he := .inl (h ▸ he)
  nextId := hnext

theorem Drops.keyed {held : Nat → Bool} {c c' : Cache δ} (h : Drops held c c') (hc : c.Keyed) :
    c'.Keyed :=
  (h.sublist.map _).nodup hc

theorem keyed_erase {c : Cache δ} (h : c.Keyed) (key : String) : (c.erase key).Keyed :=
  (List.filter_sublist.map _).nodup h

theorem mem_erase_iff {c : Cache δ} {key : String} {e : String × Entry δ} :
    e ∈ (c.erase key).entries ↔ e ∈ c.entries ∧ e.1 ≠ key := by
  simp [erase]

/-- The result of the entry under a key, if it is one of the source asked for. -/
theorem value_get (c : Cache δ) (held : Nat → Bool) (key : String) (source : Shared α) :
    (c.get held key source).value.1 =
      ((c.find? key).filter fun entry => entry.origin.isOf source).map (·.derived) := by
  unfold get
  cases c.find? key with
  | none => rfl
  | some entry =>
    cases hof : entry.origin.isOf source with
    | true => simp [Option.filter, hof]
    | false =>
      simp only [hof, Bool.false_eq_true, if_false]
      split <;> simp [Option.filter, hof]

/-- A look-up drops the entry it finds at most, and only if its source is held no more. -/
theorem drops_get {c : Cache δ} (h : c.Keyed) (held : Nat → Bool) (key : String)
    (source : Shared α) : Drops held c (c.get held key source).value.2 := by
  unfold get
  cases hfind : c.find? key with
  | none => exact drops_of_entries_eq rfl rfl
  | some entry =>
    dsimp only
    split
    · exact drops_of_entries_eq rfl rfl
    · split
      · exact drops_of_entries_eq rfl rfl
      · next hlive =>
        refine ⟨List.filter_sublist, ?_, rfl⟩
        intro e he
        by_cases hkey : e.1 = key
        · subst hkey
          have hentry : some e.2 = some entry := by
            rw [← hfind, eq_comm, find?_eq_some_iff h]
            exact he
          cases hentry
          exact .inr (Bool.eq_false_iff.2 hlive)
        · exact .inl (mem_erase_iff.2 ⟨he, hkey⟩)

theorem drops_purge (c : Cache δ) (held : Nat → Bool) : Drops held c (c.purge held).value.2 := by
  refine ⟨List.filter_sublist, ?_, rfl⟩
  intro e he
  cases hlive : e.2.origin.isLive held with
  | true => exact .inl (List.mem_filter.2 ⟨he, hlive⟩)
  | false => exact .inr rfl

theorem keyed_insert {c : Cache δ} (h : c.Keyed) (key : String) (source : Shared α)
    (derived : δ) : (c.insert key source derived).value.2.Keyed := by
  show (key :: ((c.erase key).entries.map (·.1))).Nodup
  refine List.nodup_cons.2 ⟨?_, keyed_erase h key⟩
  intro hmem
  obtain ⟨e, he, rfl⟩ := List.mem_map.1 hmem
  exact (mem_erase_iff.1 he).2 rfl

theorem mem_insert_iff {c : Cache δ} {key : String} {source : Shared α} {derived : δ}
    {e : String × Entry δ} : e ∈ (c.insert key source derived).value.2.entries ↔
      e = (key, ⟨.of source, (c.insert key source derived).value.1⟩) ∨
        e ∈ c.entries ∧ e.1 ≠ key := by
  rw [← mem_erase_iff]
  exact List.mem_cons

/-- Deriving is a matter of the look-up: it is done once if that finds nothing, and else not. -/
theorem getOrDerive_eq (c : Cache δ) (held : Nat → Bool) (key : String) (source : Shared α)
    (derive : α → Logged δ) : c.getOrDerive held key source derive =
      let look := c.get held key source
      match look.value.1 with
      | some result => ⟨(result, look.value.2), look.events⟩
      | none =>
        let derived := derive source.value
        let kept := look.value.2.insert key source derived.value
        ⟨kept.value, look.events ++ (derived.events ++ kept.events)⟩ := by
  unfold getOrDerive
  generalize c.get held key source = look
  obtain ⟨⟨_ | result, cache⟩, events⟩ := look
  · rfl
  · simp [bind, pure]

namespace Holders

def sources (h : Holders α) : List (Shared α) := h.names.map (·.2)

theorem mem_sources_of_find? {h : Holders α} {name : String} {source : Shared α}
    (hname : h.find? name = some source) : source ∈ h.sources := by
  obtain ⟨before, after, hnames, -⟩ := List.lookup_eq_some_iff.1 hname
  rw [sources, hnames, List.map_append, List.map_cons]
  exact List.mem_append_right _ List.mem_cons_self

theorem holds_iff {h : Holders α} {id : Nat} :
    h.holds id = true ↔ ∃ source ∈ h.sources, source.id = id := by
  rw [holds, sources, List.any_eq_true]
  constructor
  · rintro ⟨e, he, hid⟩
    exact ⟨e.2, List.mem_map_of_mem he, beq_iff_eq.1 hid⟩
  · rintro ⟨source, hs, hid⟩
    obtain ⟨e, he, rfl⟩ := List.mem_map.1 hs
    exact ⟨e, he, beq_iff_eq.2 hid⟩

theorem mem_sources_release {h : Holders α} {name : String} {source : Shared α}
    (hs : source ∈ (h.release name).sources) : source ∈ h.sources :=
  (List.filter_sublist.map _).subset hs

theorem mem_sources_hold {h : Holders α} {name : String} {source other : Shared α}
    (hs : other ∈ (h.hold name source).sources) : other ∈ h.sources ∨ other = source := by
  rcases List.mem_cons.1 hs with rfl | hs
  · exact .inr rfl
  · exact .inl (mem_sources_release hs)

theorem mem_sources_share {h : Holders α} {name other : String} {source known : Shared α}
    (hother : h.find? other = some known) (hs : source ∈ (h.hold name known).sources) :
    source ∈ h.sources := by
  rcases mem_sources_hold hs with hs | rfl
  · exact hs
  · exact mem_sources_of_find? hother

/-- A source newly made is like none of those known before. -/
theorem distinct_create {h : Holders α} {objects : List (Shared α)}
    (hdistinct : Shared.Distinct (h.sources ++ objects) h.nextId) (name : String) (value : α) :
    Shared.Distinct ((h.create name value).sources ++ objects) (h.create name value).nextId := by
  apply hdistinct.extend value (Nat.le_succ _)
  intro source hs
  rcases List.mem_append.1 hs with hs | hs
  · rcases mem_sources_hold hs with hs | rfl
    · exact .inl (List.mem_append_left _ hs)
    · exact .inr ⟨rfl, Nat.lt_succ_self _⟩
  · exact .inl (List.mem_append_right _ hs)

theorem distinct_of_known {h h' : Holders α} {objects : List (Shared α)}
    (hdistinct : Shared.Distinct (h.sources ++ objects) h.nextId) (hnext : h'.nextId = h.nextId)
    (hknown : ∀ source ∈ h'.sources, source ∈ h.sources) :
    Shared.Distinct (h'.sources ++ objects) h'.nextId := by
  refine hdistinct.mono ?_ (Nat.le_of_eq hnext.symm)
  intro source hs
  rcases List.mem_append.1 hs with hs | hs
  · exact List.mem_append_left _ (hknown source hs)
  · exact List.mem_append_right _ hs

/-- An identity that was given and is held no more stays so, whatever is made or shared. -/
theorem holds_eq_false_of_known {h h' : Holders α} {id : Nat}
    (hknown : ∀ source ∈ h'.sources, source ∈ h.sources ∨ source.id = h.nextId)
    (hlt : id < h.nextId) (hdead : h.holds id = false) : h'.holds id = false := by
  rw [Bool.eq_false_iff, Ne, holds_iff] at hdead ⊢
  rintro ⟨source, hs, rfl⟩
  rcases hknown source hs with hs | hnew
  · exact hdead ⟨source, hs, rfl⟩
  · exact Nat.ne_of_lt hlt hnew

end Holders

end Cache
end EditLex
