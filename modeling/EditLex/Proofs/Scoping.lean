import EditLex.Scope.Program

/-!
Overrides are scoped dynamically. A program that keeps no guards has a meaning that needs no world:
an environment is handed down, and a cell has the value of the innermost override around, else its
first one (`Stmt.eval`). Running the program on cells that are written and written back ends the
same way and lets the same be seen (`Stmt.run_agrees`), and each statement leaves the cells as it
found them, however it ends.
-/
namespace EditLex.Scope

/-- What a statement stands in: the first values of the cells, the overrides and the reads around
it, innermost first, and the name of the document. -/
structure Env where
  initial : List Int
  overrides : List (Nat × Int) := []
  reads : List Nat := []
  document : Option String := none

namespace Env

/-- The value of the innermost override of a cell, else its first value. -/
def value (e : Env) (c : Nat) : Int := (e.overrides.lookup c).getD (e.initial[c]?.getD 0)

/-- A cell as it is seen: its value, and how many reads of it are going on. -/
def cell (e : Env) (c : Nat) : Cell := ⟨e.value c, e.reads.count c⟩

def override (e : Env) (c : Nat) (value : Int) : Env :=
  { e with overrides := (c, value) :: e.overrides }

def reading (e : Env) (c : Nat) : Env := { e with reads := c :: e.reads }

def within (e : Env) (name : String) : Env := { e with document := some name }

theorem cell_override (e : Env) {c : Nat} (hc : c ∉ e.reads) (value : Int) (i : Nat) :
    (e.override c value).cell i = if i = c then ⟨value, 0⟩ else e.cell i := by
  split
  · next h => simp [cell, Env.value, override, h, List.count_eq_zero.2 hc]
  · next h =>
    have hne : (i == c) = false := beq_false_of_ne h
    simp [cell, Env.value, override, List.lookup_cons, hne]

theorem cell_reading (e : Env) (c i : Nat) : (e.reading c).cell i =
    if i = c then { e.cell i with readers := (e.cell i).readers + 1 } else e.cell i := by
  split
  · next h => simp [cell, Env.value, reading, h]
  · next h => simp [cell, Env.value, reading, Ne.symm h]

end Env

mutual

/-- How a statement ends in an environment and what it lets be seen, oldest first. Guards that are
kept by name have no place in an environment and mean nothing here. -/
def Stmt.eval : Stmt → Env → Outcome × List Observation
  | .get c, e => (.ok, [.got (e.value c)])
  | .render c, e => (.ok, [.shown (e.cell c).render])
  | .renderElsewhere c, e => (.ok, [.shownElsewhere (e.cell c).renderElsewhere])
  | .override c value body, e =>
    if c ∈ e.reads then (.panicked .beingRead, []) else evalAll body (e.override c value)
  | .reading c body, e =>
    let (outcome, seen) := evalAll body (e.reading c)
    let ended := match outcome with
      | .panicked _ => []
      | _ => [.readEnded (e.value c)]
    (outcome, .readBegan (e.value c) :: seen ++ ended)
  | .keep _ _ _, _ => (.ok, [])
  | .drop _, _ => (.ok, [])
  | .renderGuard _, _ => (.ok, [])
  | .fail text, _ => (.failed text, [])
  | .panic text, _ => (.panicked (.raised text), [])
  | .attempt body, e =>
    let (outcome, seen) := evalAll body e
    match outcome with
    | .panicked fault => (.panicked fault, seen)
    | _ => (.ok, seen ++ [.attempted outcome])
  | .catchAll body, e =>
    let (outcome, seen) := evalAll body e
    (.ok, seen ++ [.caught outcome])
  | .document, e => (.ok, [.document e.document])
  | .withDocument name body, e => evalAll body (e.within name)
  | .documentElsewhere, _ => (.ok, [.documentElsewhere none])

/-- The same of statements one after another, up to the first that does not end well. -/
def evalAll : List Stmt → Env → Outcome × List Observation
  | [], _ => (.ok, [])
  | stmt :: body, e =>
    match stmt.eval e with
    | (.ok, seen) =>
      let (outcome, more) := evalAll body e
      (outcome, seen ++ more)
    | stopped => stopped

end

mutual

/-- The statement keeps no guard, and its cells are among the first `n`. -/
def Stmt.isNested (n : Nat) : Stmt → Bool
  | .get c => c < n
  | .render c => c < n
  | .renderElsewhere c => c < n
  | .override c _ body => c < n && allNested n body
  | .reading c body => c < n && allNested n body
  | .keep _ _ _ => false
  | .attempt body => allNested n body
  | .catchAll body => allNested n body
  | .withDocument _ body => allNested n body
  | _ => true

def allNested (n : Nat) : List Stmt → Bool
  | [] => true
  | stmt :: body => stmt.isNested n && allNested n body

end

namespace World

/-- The world is the one that a statement in `e` is to find. -/
structure Shows (w : World) (e : Env) : Prop where
  length : w.cells.length = e.initial.length
  cell : ∀ c < e.initial.length, w.cell c = e.cell c
  document : w.document = e.document
  guards : w.guards = []

/-- The worlds differ in their journals at most. -/
structure Same (v w : World) : Prop where
  cells : v.cells = w.cells
  document : v.document = w.document
  guards : v.guards = w.guards

theorem Same.refl (w : World) : w.Same w := ⟨rfl, rfl, rfl⟩

theorem Same.trans {u v w : World} (h : u.Same v) (h' : v.Same w) : u.Same w :=
  ⟨h.cells.trans h'.cells, h.document.trans h'.document, h.guards.trans h'.guards⟩

variable {v w : World} {e : Env}

theorem Shows.of_same (h : w.Shows e) (hv : v.Same w) : v.Shows e := by
  constructor
  · rw [hv.cells, h.length]
  · intro c hc
    rw [World.cell, hv.cells]
    exact h.cell c hc
  · rw [hv.document, h.document]
  · rw [hv.guards, h.guards]

theorem cell_eq {c : Nat} (hc : c < w.cells.length) : w.cells[c] = w.cell c := by
  simp [cell, hc]

/-- A cell that is being read is not overridden. -/
theorem Shows.override_of_mem (h : w.Shows e) {c : Nat} (hc : c < e.initial.length)
    (hr : c ∈ e.reads) (value : Int) : w.override c value = .error .beingRead := by
  have hcell := h.cell c hc
  have hreaders : (w.cell c).readers ≠ 0 := by
    rw [hcell]
    exact Nat.ne_of_gt (List.count_pos_iff.2 hr)
  simp [World.override, World.write, Cell.write, hreaders, bind, Except.bind]

/-- An override that begins can end wherever the world is again as the override began it, and the
world is then as it was before. -/
theorem Shows.override (h : w.Shows e) {c : Nat} (hc : c < e.initial.length) (hr : c ∉ e.reads)
    (value : Int) : ∃ g w', w.override c value = .ok (g, w') ∧ w'.Shows (e.override c value) ∧
      ∀ v : World, v.Same w' → ∃ w'', v.restore g = .ok w'' ∧ w''.Same w := by
  have hl : c < w.cells.length := h.length ▸ hc
  have hcell : w.cell c = ⟨e.value c, 0⟩ := by
    rw [h.cell c hc, Env.cell, List.count_eq_zero.2 hr]
  refine ⟨⟨c, e.value c⟩, { w with
      cells := w.cells.set c ⟨value, 0⟩, journal := .cellOverridden :: w.journal }, ?_, ?_, ?_⟩
  · simp [World.override, World.write, Cell.write, hcell, bind, Except.bind, pure, Except.pure]
  · constructor
    · simp only [List.length_set, h.length, Env.override]
    · intro i hi
      rw [e.cell_override hr]
      split
      · next he => simp [World.cell, he, hl]
      · next he => simpa [World.cell, Ne.symm he] using h.cell i hi
    · exact h.document
    · exact h.guards
  · intro v hv
    have hvcell : v.cell c = ⟨value, 0⟩ := by simp [World.cell, hv.cells, hl]
    refine ⟨{ v with cells := v.cells.set c ⟨e.value c, 0⟩, journal := .cellRestored :: v.journal },
      ?_, ?_⟩
    · simp [World.restore, World.write, Cell.write, hvcell, bind, Except.bind, pure, Except.pure]
    · refine ⟨?_, hv.document, hv.guards⟩
      simp only [hv.cells, List.set_set, ← hcell, ← cell_eq hl, List.set_getElem_self]

theorem Shows.beginRead (h : w.Shows e) (c : Nat) : (w.beginRead c).Shows (e.reading c) := by
  constructor
  · simp only [World.beginRead, List.length_modify, h.length, Env.reading]
  · intro i hi
    rw [e.cell_reading, ← h.cell i hi]
    have hl : i < w.cells.length := h.length ▸ hi
    simp only [World.cell, World.beginRead, List.getElem?_modify, List.getElem?_eq_getElem hl,
      @eq_comm Nat i c]
    split <;> rfl
  · exact h.document
  · exact h.guards

theorem Same.endRead {c : Nat} (h : v.Same (w.beginRead c)) : (v.endRead c).Same w := by
  refine ⟨?_, h.document, h.guards⟩
  apply List.ext_getElem?
  intro i
  simp only [World.endRead, h.cells, World.beginRead, List.getElem?_modify]
  split
  · cases w.cells[i]? <;> simp
  · simp

end World

/-- From `s`, a run that ended as `r` has ended with the outcome of `m` and has added what `m` lets
be seen, and has left the world as it was. -/
structure State.Agrees (s : State) (r : Outcome × State) (m : Outcome × List Observation) :
    Prop where
  outcome : r.1 = m.1
  seen : r.2.seen = m.2.reverse ++ s.seen
  world : r.2.world.Same s.world

mutual

/-- A statement of a nested program does what it means where it stands, and leaves the cells as it
found them. -/
theorem Stmt.run_agrees (stmt : Stmt) (e : Env) (s : State)
    (hn : stmt.isNested e.initial.length = true) (hs : s.world.Shows e) :
    s.Agrees (stmt.run s) (stmt.eval e) := by
  cases stmt with
  | get c =>
    have hc := hs.cell c (by simpa [Stmt.isNested] using hn)
    exact ⟨rfl, by simp [Stmt.run, Stmt.eval, State.see, hc, Env.cell], .refl _⟩
  | render c =>
    have hc := hs.cell c (by simpa [Stmt.isNested] using hn)
    exact ⟨rfl, by simp [Stmt.run, Stmt.eval, State.see, hc], .refl _⟩
  | renderElsewhere c =>
    have hc := hs.cell c (by simpa [Stmt.isNested] using hn)
    exact ⟨rfl, by simp [Stmt.run, Stmt.eval, State.see, hc], .refl _⟩
  | override c value body =>
    simp only [Stmt.isNested, Bool.and_eq_true, decide_eq_true_eq] at hn
    obtain ⟨hc, hbody⟩ := hn
    rw [Stmt.run, Stmt.eval]
    by_cases hr : c ∈ e.reads
    · rw [hs.override_of_mem hc hr, if_pos hr]
      exact ⟨rfl, rfl, .refl _⟩
    · obtain ⟨g, w, hw, hshows, hrestore⟩ := hs.override hc hr value
      -- The body leaves the world as the override began it, so nobody reads the cell at the end.
      have ih := runAll_agrees body (e.override c value) { s with world := w } hbody hshows
      obtain ⟨w', hw', hsame⟩ := hrestore _ ih.world
      rw [hw, if_neg hr]
      simp only [State.leave, hw']
      exact ⟨ih.outcome, ih.seen, hsame⟩
  | reading c body =>
    simp only [Stmt.isNested, Bool.and_eq_true, decide_eq_true_eq] at hn
    obtain ⟨hc, hbody⟩ := hn
    have hvalue : (s.world.cell c).value = e.value c := congrArg Cell.value (hs.cell c hc)
    rw [Stmt.run, Stmt.eval, hvalue]
    have ih := runAll_agrees body (e.reading c)
      { s.see (.readBegan (e.value c)) with world := s.world.beginRead c } hbody (hs.beginRead c)
    generalize runAll body _ = r at ih ⊢
    generalize evalAll body _ = m at ih ⊢
    obtain ⟨outcome, t⟩ := r
    obtain ⟨outcome, seen⟩ := m
    obtain ⟨rfl, hseen, hworld⟩ := ih
    cases outcome with
    | panicked fault => exact ⟨rfl, by simp_all [State.see], hworld.endRead⟩
    | _ => exact ⟨rfl, by simp_all [State.see], hworld.endRead⟩
  | keep c value name => simp [Stmt.isNested] at hn
  | drop name =>
    simp only [Stmt.run, State.drop, hs.guards]
    exact ⟨rfl, rfl, .refl _⟩
  | renderGuard name =>
    simp only [Stmt.run, hs.guards]
    exact ⟨rfl, rfl, .refl _⟩
  | fail text => exact ⟨rfl, rfl, .refl _⟩
  | panic text => exact ⟨rfl, rfl, .refl _⟩
  | attempt body =>
    have ih := runAll_agrees body e s hn hs
    rw [Stmt.run, Stmt.eval]
    generalize runAll body s = r at ih ⊢
    generalize evalAll body e = m at ih ⊢
    obtain ⟨outcome, t⟩ := r
    obtain ⟨outcome, seen⟩ := m
    obtain ⟨rfl, hseen, hworld⟩ := ih
    cases outcome with
    | panicked fault => exact ⟨rfl, hseen, hworld⟩
    | _ => exact ⟨rfl, by simp_all [State.see], hworld⟩
  | catchAll body =>
    have ih := runAll_agrees body e s hn hs
    exact ⟨rfl, by simp [Stmt.run, Stmt.eval, State.see, ih.seen, ih.outcome], ih.world⟩
  | document => exact ⟨rfl, by simp [Stmt.run, Stmt.eval, State.see, hs.document], .refl _⟩
  | withDocument name body =>
    have hshows : (s.world.setDocument (some name) .cellOverridden).Shows (e.within name) :=
      ⟨hs.length, hs.cell, rfl, hs.guards⟩
    have ih := runAll_agrees body (e.within name)
      { s with world := s.world.setDocument (some name) .cellOverridden } hn hshows
    exact ⟨ih.outcome, ih.seen, ih.world.cells, rfl, ih.world.guards⟩
  | documentElsewhere => exact ⟨rfl, rfl, .refl _⟩

theorem runAll_agrees (body : List Stmt) (e : Env) (s : State)
    (hn : allNested e.initial.length body = true) (hs : s.world.Shows e) :
    s.Agrees (runAll body s) (evalAll body e) := by
  cases body with
  | nil => exact ⟨rfl, rfl, .refl _⟩
  | cons stmt body =>
    simp only [allNested, Bool.and_eq_true] at hn
    have ih := stmt.run_agrees e s hn.1 hs
    have hrest (t : State) (ht : t.world.Same s.world) :=
      runAll_agrees body e t hn.2 (hs.of_same ht)
    rw [runAll, evalAll]
    generalize stmt.run s = r at ih ⊢
    generalize stmt.eval e = m at ih ⊢
    obtain ⟨outcome, t⟩ := r
    obtain ⟨outcome, seen⟩ := m
    obtain ⟨rfl, hseen, hworld⟩ := ih
    cases outcome with
    | ok =>
      have ih := hrest t hworld
      refine ⟨ih.outcome, ?_, ih.world.trans hworld⟩
      simp_all [ih.seen]
    | _ => exact ⟨rfl, hseen, hworld⟩

end

/-- In `e` and from `s`, the statement comes to run a body in another environment and from another
state. -/
inductive Stmt.Enters (e : Env) (s : State) : Stmt → List Stmt → Env → State → Prop where
  | override {c : Nat} {value : Int} {body : List Stmt} {g : Guard} {world : World}
      (begins : s.world.override c value = .ok (g, world)) :
      Enters e s (.override c value body) body (e.override c value) { s with world }
  | reading {c : Nat} {body : List Stmt} :
      Enters e s (.reading c body) body (e.reading c)
        { s.see (.readBegan (s.world.cell c).value) with world := s.world.beginRead c }
  | attempt {body : List Stmt} : Enters e s (.attempt body) body e s
  | catchAll {body : List Stmt} : Enters e s (.catchAll body) body e s
  | withDocument {name : String} {body : List Stmt} :
      Enters e s (.withDocument name body) body (e.within name)
        { s with world := s.world.setDocument (some name) .cellOverridden }

/-- A run of statements in an environment and from a state comes to one statement, in its own
environment and state. -/
inductive Reaches : List Stmt → Env → State → Stmt → Env → State → Prop where
  | here {stmt : Stmt} {body : List Stmt} {e : Env} {s : State} :
      Reaches (stmt :: body) e s stmt e s
  | inside {stmt x : Stmt} {body inner : List Stmt} {e f g : Env} {s t u : State}
      (enters : stmt.Enters e s inner f t) (rest : Reaches inner f t x g u) :
      Reaches (stmt :: body) e s x g u
  | later {stmt x : Stmt} {body : List Stmt} {e f : Env} {s t u : State}
      (ends : stmt.run s = (.ok, t)) (rest : Reaches body e t x f u) :
      Reaches (stmt :: body) e s x f u

theorem Stmt.Enters.shows {stmt : Stmt} {body : List Stmt} {e f : Env} {s t : State}
    (h : stmt.Enters e s body f t) (hn : stmt.isNested e.initial.length = true)
    (hs : s.world.Shows e) :
    allNested f.initial.length body = true ∧ t.world.Shows f := by
  cases h with
  | @override c value body g world begins =>
    simp only [Stmt.isNested, Bool.and_eq_true, decide_eq_true_eq] at hn
    refine ⟨hn.2, ?_⟩
    by_cases hr : c ∈ e.reads
    · rw [hs.override_of_mem hn.1 hr] at begins
      contradiction
    · obtain ⟨g', w, hw, hshows, -⟩ := hs.override hn.1 hr value
      rw [hw] at begins
      cases begins
      exact hshows
  | @reading c body =>
    simp only [Stmt.isNested, Bool.and_eq_true] at hn
    exact ⟨hn.2, hs.beginRead c⟩
  | attempt => exact ⟨hn, hs⟩
  | catchAll => exact ⟨hn, hs⟩
  | withDocument => exact ⟨hn, hs.length, hs.cell, rfl, hs.guards⟩

theorem Reaches.shows {body : List Stmt} {x : Stmt} {e f : Env} {s t : State}
    (h : Reaches body e s x f t) (hn : allNested e.initial.length body = true)
    (hs : s.world.Shows e) : x.isNested f.initial.length = true ∧ t.world.Shows f := by
  induction h with
  | here =>
    simp only [allNested, Bool.and_eq_true] at hn
    exact ⟨hn.1, hs⟩
  | inside enters _ ih =>
    simp only [allNested, Bool.and_eq_true] at hn
    obtain ⟨hinner, ht⟩ := enters.shows hn.1 hs
    exact ih hinner ht
  | @later stmt _ _ e _ s t _ ends _ ih =>
    simp only [allNested, Bool.and_eq_true] at hn
    have hworld := (stmt.run_agrees e s hn.1 hs).world
    rw [ends] at hworld
    exact ih hn.2 (hs.of_same hworld)

/-- The cells as a program finds them. -/
def State.fresh (initial : List Int) : State :=
  { world := { cells := initial.map fun v => { value := v } } }

theorem State.shows_fresh (initial : List Int) : (State.fresh initial).world.Shows { initial } := by
  constructor
  · simp [fresh]
  · intro c hc
    have hc : c < initial.length := hc
    simp [fresh, World.cell, Env.cell, Env.value, hc]
  · rfl
  · rfl

/-- A program that keeps no guards ends and is seen as it means, and leaves the cells their first
values. The same goes for every statement that a run of it comes to: it leaves the cells as it found
them, whichever way it ends; an override of a cell that is being read changes nothing and panics,
and any other can put the value before it back when its body has ended. -/
theorem report_eq_eval (initial : List Int) (program : List Stmt)
    (h : allNested initial.length program = true) :
    let r := (report initial program).value
    ((r.outcome, r.seen) = evalAll program { initial } ∧ r.atEnd = initial ∧ r.final = initial) ∧
      ∀ stmt e s, Reaches program { initial } (.fresh initial) stmt e s →
        s.Agrees (stmt.run s) (stmt.eval e) ∧ ∀ c value body, stmt = .override c value body →
          if c ∈ e.reads then
            ∃ fault, fault.message = "RefCell already borrowed" ∧ stmt.run s = (.panicked fault, s)
          else ∃ g world, s.world.override c value = .ok (g, world) ∧
            ∃ after, (runAll body { s with world }).2.world.restore g = .ok after := by
  intro r
  have hs := State.shows_fresh initial
  have hrun := runAll_agrees program { initial } (.fresh initial) h hs
  constructor
  · have hguards : (runAll program (.fresh initial)).2.world.guards = [] := hrun.world.guards
    have hdrop : (runAll program (.fresh initial)).2.dropAll =
        (runAll program (.fresh initial)).2 := by
      rw [State.dropAll, hguards, List.foldl_nil]
    have hcells : (runAll program (.fresh initial)).2.world.cells.map (·.value) = initial := by
      rw [hrun.world.cells]
      simp [State.fresh, Function.comp_def]
    refine ⟨Prod.ext hrun.outcome ?_, hcells, ?_⟩
    · show (runAll program (.fresh initial)).2.seen.reverse = _
      rw [hrun.seen, State.fresh, List.append_nil, List.reverse_reverse]
    · show (runAll program (.fresh initial)).2.dropAll.world.cells.map (·.value) = initial
      rw [hdrop, hcells]
  · intro stmt e s hreach
    obtain ⟨hn, hshows⟩ := hreach.shows h hs
    refine ⟨stmt.run_agrees e s hn hshows, ?_⟩
    rintro c value body rfl
    simp only [Stmt.isNested, Bool.and_eq_true, decide_eq_true_eq] at hn
    split
    · next hr =>
      refine ⟨.beingRead, rfl, ?_⟩
      rw [Stmt.run, hshows.override_of_mem hn.1 hr]
    · next hr =>
      obtain ⟨g, world, hw, hbody, hrestore⟩ := hshows.override hn.1 hr value
      obtain ⟨after, hafter, -⟩ := hrestore _
        (runAll_agrees body (e.override c value) { s with world } hn.2 hbody).world
      exact ⟨g, world, hw, after, hafter⟩

/-- An override is refused under a read of its cell, through the override of another cell; then one
fails, and two nested ones panic. -/
theorem report_of_crossing_overrides :
    let program : List Stmt := [
      .reading 0 [.override 1 5 [.catchAll [.override 0 7 [.get 0]], .get 1]],
      .attempt [.override 0 3 [.get 0, .fail "no"]],
      .catchAll [.override 0 4 [.override 1 6 [.get 1, .panic "stop"]]],
      .get 0, .get 1]
    let r := (report [1, 2] program).value
    allNested 2 program = true ∧
      (r.outcome, r.seen) = (.ok, [.readBegan 1, .caught (.panicked .beingRead), .got 5,
        .readEnded 1, .got 3, .attempted (.failed "no"), .got 6,
        .caught (.panicked (.raised "stop")), .got 1, .got 2]) ∧
      r.final = [1, 2] := by
  intro program r
  have hnested : allNested 2 program = true := by decide
  obtain ⟨⟨hr, -, hfinal⟩, -⟩ := report_eq_eval [1, 2] program hnested
  exact ⟨hnested, hr.trans (by decide), hfinal⟩

end EditLex.Scope
