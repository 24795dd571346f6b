import EditLex.Proofs.Scoping

/-!
What a program does to its cells, move by move: overrides begin, guards are dropped, reads begin and
end. The world that a run leaves is the one its moves lead to (`Stmt.run_moves`), and so is the
world in which a run comes to a statement (`Comes.world`). Reads are over with their bodies, so that
a cell is being read where a statement stands in a read of it and nowhere else (`Comes.readBy`).
-/
namespace EditLex.Scope

/-- A change of a world. -/
inductive Move where
  /-- An override begins, its guard kept under a name or, without one, by a body. -/
  | hold (name : Option String) (cell : Nat) (value : Int)
  /-- A guard is dropped, the newest kept under the name or the one of the body that ends. -/
  | drop (name : Option String) (g : Guard)
  | beginRead (cell : Nat)
  | endRead (cell : Nat)
  | setDocument (document : Option String) (event : Event)

/-- The world without the newest guard kept under the name. -/
def World.without (w : World) (name : Option String) : World :=
  { w with guards := name.elim w.guards fun n => w.guards.eraseP fun e => e.1 == n }

/-- The world after a move. A write that the cell refuses is left out. -/
def World.move (w : World) : Move → World
  | .hold name c value =>
    match w.override c value with
    | .ok (g, w) => { w with guards := (name.map (·, g)).toList ++ w.guards }
    | .error _ => w
  | .drop name g =>
    match (w.without name).restore g with
    | .ok w => w
    | .error _ => w.without name
  | .beginRead c => w.beginRead c
  | .endRead c => w.endRead c
  | .setDocument document event => w.setDocument document event

def World.moves (w : World) (moves : List Move) : World := moves.foldl move w

/-- The moves of a statement before its body. -/
def Stmt.opening : Stmt → List Move
  | .override c value _ => [.hold none c value]
  | .reading c _ => [.beginRead c]
  | .withDocument name _ => [.setDocument (some name) .cellOverridden]
  | _ => []

mutual

/-- The moves of a statement that is run. -/
def Stmt.moves : Stmt → State → List Move
  | .override c value body, s =>
    .hold none c value :: match s.world.override c value with
      | .error _ => []
      | .ok (g, world) => movesAll body { s with world } ++ [.drop none g]
  | .reading c body, s =>
    .beginRead c :: (movesAll body { s.see (.readBegan (s.world.cell c).value) with
      world := s.world.beginRead c } ++ [.endRead c])
  | .keep c value name, _ => [.hold (some name) c value]
  | .drop name, s =>
    match s.world.guards.lookup name with
    | none => []
    | some g => [.drop (some name) g]
  | .attempt body, s => movesAll body s
  | .catchAll body, s => movesAll body s
  | .withDocument name body, s =>
    .setDocument (some name) .cellOverridden ::
      (movesAll body { s with world := s.world.setDocument (some name) .cellOverridden } ++
        [.setDocument s.world.document .cellRestored])
  | _, _ => []

def movesAll : List Stmt → State → List Move
  | [], _ => []
  | stmt :: body, s => stmt.moves s ++ match stmt.run s with
    | (.ok, t) => movesAll body t
    | _ => []

end

namespace World

/-- How many read each cell. -/
def readers (w : World) : List Nat := w.cells.map (·.readers)

theorem readers_cell (w : World) (c : Nat) : (w.cell c).readers = w.readers[c]?.getD 0 := by
  rw [cell, readers, List.getElem?_map]
  cases w.cells[c]? <;> rfl

/-- A cell is written unless it is being read. -/
theorem write_eq (w : World) (c : Nat) (value : Int) (event : Event) :
    w.write c value event =
      if (w.cell c).readers = 0 then
        .ok { w with
          cells := w.cells.set c { w.cell c with value }
          journal := event :: w.journal }
      else .error .beingRead := by
  rw [World.write, Cell.write]
  split <;> rfl

theorem readers_write {v w : World} {c : Nat} {value : Int} {event : Event}
    (h : w.write c value event = .ok v) : v.readers = w.readers := by
  rw [write_eq] at h
  split at h
  · cases h
    apply List.ext_getElem?
    intro i
    simp only [readers, List.getElem?_map, List.getElem?_set]
    split
    · next he =>
      subst he
      by_cases hl : c < w.cells.length
      · simp [hl, cell]
      · simp [hl]
    · rfl
  · cases h

/-- A write changes the value of its cell and of no other. -/
theorem value_write {v w : World} {c : Nat} {value : Int} {event : Event}
    (h : w.write c value event = .ok v) : v.cells.length = w.cells.length ∧ v.guards = w.guards ∧
      ∀ i < w.cells.length, (v.cell i).value = if c = i then value else (w.cell i).value := by
  rw [write_eq] at h
  split at h
  · cases h
    refine ⟨List.length_set, rfl, ?_⟩
    intro i hi
    simp only [cell, List.getElem?_set]
    split
    · next he => simp [he, hi]
    · rfl
  · cases h

theorem override_eq (w : World) (c : Nat) (value : Int) : w.override c value =
    (w.write c value .cellOverridden).map fun v => (⟨c, (w.cell c).value⟩, v) := by
  rw [World.override]
  cases w.write c value .cellOverridden <;> rfl

theorem override_eq_ok {v w : World} {c : Nat} {value : Int} {g : Guard}
    (h : w.override c value = .ok (g, v)) :
    g = ⟨c, (w.cell c).value⟩ ∧ w.write c value .cellOverridden = .ok v := by
  rw [override_eq] at h
  cases hw : w.write c value .cellOverridden with
  | error fault => simp [hw, Except.map] at h
  | ok v' =>
    simp only [hw, Except.map, Except.ok.injEq, Prod.mk.injEq] at h
    exact ⟨h.1.symm, congrArg _ h.2⟩

/-- Readers that come and go leave the values as they are. -/
theorem value_modify (cells : List Cell) (c i : Nat) (f : Nat → Nat) :
    ((cells.modify c fun x => { x with readers := f x.readers })[i]?.getD {}).value =
      (cells[i]?.getD {}).value := by
  rw [List.getElem?_modify]
  cases cells[i]? with
  | none => rfl
  | some x => by_cases h : c = i <;> simp [h]

theorem map_readers_modify (cells : List Cell) (c : Nat) (f : Nat → Nat) :
    (cells.modify c fun x => { x with readers := f x.readers }).map (·.readers) =
      (cells.map (·.readers)).modify c f := by
  apply List.ext_getElem?
  intro i
  simp only [List.getElem?_map, List.getElem?_modify]
  cases cells[i]? with
  | none => rfl
  | some x => split <;> rfl

theorem readers_beginRead (w : World) (c : Nat) :
    (w.beginRead c).readers = w.readers.modify c (· + 1) :=
  map_readers_modify w.cells c (· + 1)

theorem readers_endRead {v w : World} {c : Nat} (h : v.readers = (w.beginRead c).readers) :
    (v.endRead c).readers = w.readers := by
  have hend : (v.endRead c).readers = v.readers.modify c (· - 1) :=
    map_readers_modify v.cells c (· - 1)
  have hback : (fun n => n - 1) ∘ (fun n => n + 1) = (id : Nat → Nat) := rfl
  rw [hend, h, readers_beginRead, List.modify_modify_eq, hback, List.modify_id]

/-- A guard that is dropped where its cell can be written puts the value before back. -/
theorem value_drop {w : World} {g : Guard} (name : Option String)
    (h : (w.restore g).isOk = true) :
    (w.move (.drop name g)).cells.length = w.cells.length ∧ ∀ i < w.cells.length,
      ((w.move (.drop name g)).cell i).value = if g.cell = i then g.prior
        else (w.cell i).value := by
  by_cases hreaders : (w.cell g.cell).readers = 0
  · obtain ⟨v, hv⟩ : ∃ v, (w.without name).restore g = .ok v :=
      ⟨_, (write_eq _ _ _ _).trans (if_pos hreaders)⟩
    have hmove : w.move (.drop name g) = v := by simp only [move, hv]
    obtain ⟨hlength, -, hvalue⟩ := value_write hv
    rw [hmove]
    exact ⟨hlength, hvalue⟩
  · simp [restore, write_eq, hreaders, Except.isOk, Except.toBool] at h

theorem guards_hold {v w : World} {c : Nat} {value : Int} {g : Guard}
    (h : w.override c value = .ok (g, v)) (name : Option String) :
    (w.move (.hold name c value)).guards = (name.map (·, g)).toList ++ w.guards := by
  have hguards := (value_write (override_eq_ok h).2).2.1
  simp only [move, h, hguards]

theorem guards_drop (w : World) (name : Option String) (g : Guard) :
    (w.move (.drop name g)).guards =
      name.elim w.guards fun n => w.guards.eraseP fun e => e.1 == n := by
  simp only [move]
  split
  · next h => exact (value_write h).2.1
  · rfl

theorem readers_hold (w : World) (name : Option String) (c : Nat) (value : Int) :
    (w.move (.hold name c value)).readers = w.readers := by
  simp only [move, override_eq]
  cases h : w.write c value .cellOverridden with
  | error fault => rfl
  | ok v =>
    have hreaders : v.readers = w.readers := readers_write h
    exact hreaders

theorem readers_drop (w : World) (name : Option String) (g : Guard) :
    (w.move (.drop name g)).readers = w.readers := by
  simp only [move]
  split
  · next h =>
    have hreaders := readers_write h
    exact hreaders
  · rfl

end World

theorem World.moves_around (w : World) (first last : Move) (moves : List Move) :
    w.moves (first :: (moves ++ [last])) = ((w.move first).moves moves).move last := by
  simp [World.moves]

theorem State.world_act (s : State) (action : Except Fault World) : (s.act action).2.world =
    match action with
    | .ok w => w
    | .error _ => s.world := by
  cases action <;> rfl

/-- The run from `s` to `t` made these moves and ended the reads it began. -/
structure State.Makes (s t : State) (moves : List Move) : Prop where
  world : t.world = s.world.moves moves
  readers : t.world.readers = s.world.readers

namespace State.Makes
variable {s t u : State} {moves more : List Move}

theorem still (h : t.world = s.world) : s.Makes t [] := ⟨h, congrArg World.readers h⟩

/-- What is seen on the way makes no difference. -/
theorem of_world (h : s.Makes t moves) (hu : u.world = t.world) : s.Makes u moves :=
  ⟨hu.trans h.world, hu ▸ h.readers⟩

theorem trans (h : s.Makes t moves) (h' : t.Makes u more) : s.Makes u (moves ++ more) where
  world := by rw [h'.world, h.world, World.moves, World.moves, World.moves, List.foldl_append]
  readers := h'.readers.trans h.readers

theorem of_move {m : Move} (hworld : t.world = s.world.move m)
    (hreaders : (s.world.move m).readers = s.world.readers) : s.Makes t [m] :=
  ⟨hworld, hworld ▸ hreaders⟩

theorem keep (s : State) (c : Nat) (value : Int) (name : String) :
    s.Makes (s.keep c value name).2 [.hold (some name) c value] := by
  refine of_move ?_ (s.world.readers_hold _ _ _)
  simp only [State.keep, World.move]
  cases s.world.override c value <;> rfl

theorem override {c : Nat} {value : Int} {g : Guard} {world : World}
    (h : s.world.override c value = .ok (g, world)) :
    s.Makes { s with world } [.hold none c value] := by
  refine of_move ?_ (s.world.readers_hold _ _ _)
  simp [World.move, h]

theorem leave (outcome : Outcome) (s : State) (g : Guard) :
    s.Makes (s.leave outcome g).2 [.drop none g] := by
  refine of_move ?_ (s.world.readers_drop _ _)
  simp only [State.leave, World.move, World.without, Option.elim_none]
  cases s.world.restore g <;> rfl

theorem drop {name : String} {g : Guard} (hg : s.world.guards.lookup name = some g) :
    s.Makes (s.drop name).2 [.drop (some name) g] := by
  refine of_move ?_ (s.world.readers_drop _ _)
  simp only [State.drop, hg, State.world_act, World.move, World.without, Option.elim_some]

end State.Makes

/-- Dropping all guards makes a move for each, newest first. -/
theorem State.dropAll_moves (s : State) :
    s.Makes s.dropAll (s.world.guards.map fun e => .drop (some e.1) e.2) := by
  rw [dropAll]
  generalize hguards : s.world.guards = guards
  induction guards generalizing s with
  | nil => exact .still rfl
  | cons e guards ih =>
    have hfirst : s.Makes (s.drop e.1).2 [.drop (some e.1) e.2] :=
      .drop (by rw [hguards, List.lookup_cons_self])
    refine hfirst.trans (ih (s.drop e.1).2 ?_)
    rw [hfirst.world]
    exact (s.world.guards_drop _ _).trans (by simp [hguards])

mutual

/-- The world that a statement leaves is the one its moves lead to, whichever way it ends. -/
theorem Stmt.run_moves (stmt : Stmt) (s : State) : s.Makes (stmt.run s).2 (stmt.moves s) := by
  cases stmt with
  | override c value body =>
    rw [Stmt.run, Stmt.moves]
    cases h : s.world.override c value with
    | error fault => exact .of_move (by simp [World.move, h]) (s.world.readers_hold _ _ _)
    | ok r =>
      obtain ⟨g, world⟩ := r
      exact (State.Makes.override h).trans ((runAll_moves body _).trans (.leave _ _ g))
  | reading c body =>
    have ih := runAll_moves body
      { s.see (.readBegan (s.world.cell c).value) with world := s.world.beginRead c }
    have hworld := congrArg (World.endRead · c) ih.world
    have hreaders := World.readers_endRead ih.readers
    rw [Stmt.run, Stmt.moves]
    generalize runAll body _ = r at hworld hreaders ⊢
    obtain ⟨outcome, t⟩ := r
    refine ⟨?_, ?_⟩
    · rw [World.moves_around]
      cases outcome <;> exact hworld
    · cases outcome <;> exact hreaders
  | keep c value name => exact .keep s c value name
  | drop name =>
    rw [Stmt.run, Stmt.moves]
    cases h : s.world.guards.lookup name with
    | none => exact .still (by simp only [State.drop, h])
    | some g => exact .drop h
  | renderGuard name =>
    rw [Stmt.run]
    cases s.world.guards.lookup name <;> exact .still rfl
  | attempt body =>
    have ih := runAll_moves body s
    rw [Stmt.run, Stmt.moves]
    generalize runAll body s = r at ih ⊢
    obtain ⟨outcome, t⟩ := r
    cases outcome <;> exact ih.of_world rfl
  | catchAll body => exact (runAll_moves body s).of_world rfl
  | withDocument name body =>
    have ih := runAll_moves body
      { s with world := s.world.setDocument (some name) .cellOverridden }
    refine ⟨?_, ih.readers⟩
    rw [Stmt.run, Stmt.moves, World.moves_around]
    exact congrArg (World.setDocument · _ _) ih.world
  | get | render | renderElsewhere | fail | panic | document | documentElsewhere =>
    exact .still rfl

theorem runAll_moves (body : List Stmt) (s : State) :
    s.Makes (runAll body s).2 (movesAll body s) := by
  cases body with
  | nil => exact .still rfl
  | cons stmt body =>
    have ih := stmt.run_moves s
    have hrest (t : State) := runAll_moves body t
    rw [runAll, movesAll]
    generalize stmt.run s = r at ih ⊢
    obtain ⟨outcome, t⟩ := r
    cases outcome with
    | ok => exact ih.trans (hrest t)
    | failed | panicked =>
      rw [List.append_nil]
      exact ih

end

/-- A run of statements in an environment and from a state comes to one statement, in its own
environment and state and after some moves. -/
inductive Comes : List Stmt → Env → State → List Move → Stmt → Env → State → Prop where
  | here {stmt : Stmt} {body : List Stmt} {e : Env} {s : State} :
      Comes (stmt :: body) e s [] stmt e s
  | inside {stmt x : Stmt} {body inner : List Stmt} {e f g : Env} {s t u : State}
      {moves : List Move} (enters : stmt.Enters e s inner f t)
      (rest : Comes inner f t moves x g u) :
      Comes (stmt :: body) e s (stmt.opening ++ moves) x g u
  | later {stmt x : Stmt} {body : List Stmt} {e f : Env} {s t u : State} {moves : List Move}
      (ends : stmt.run s = (.ok, t)) (rest : Comes body e t moves x f u) :
      Comes (stmt :: body) e s (stmt.moves s ++ moves) x f u

theorem Reaches.exists_comes {body : List Stmt} {x : Stmt} {e f : Env} {s t : State}
    (h : Reaches body e s x f t) : ∃ moves, Comes body e s moves x f t := by
  induction h with
  | here => exact ⟨[], .here⟩
  | inside enters _ ih =>
    obtain ⟨moves, hmoves⟩ := ih
    exact ⟨_, .inside enters hmoves⟩
  | later ends _ ih =>
    obtain ⟨moves, hmoves⟩ := ih
    exact ⟨_, .later ends hmoves⟩

theorem Stmt.Enters.world {stmt : Stmt} {body : List Stmt} {e f : Env} {s t : State}
    (h : stmt.Enters e s body f t) : t.world = s.world.moves stmt.opening := by
  cases h with
  | override begins => simp [Stmt.opening, World.moves, World.move, begins]
  | reading | attempt | catchAll | withDocument => rfl

theorem Stmt.Enters.moves {stmt : Stmt} {body : List Stmt} {e f : Env} {s t : State}
    (h : stmt.Enters e s body f t) :
    ∃ closing, stmt.moves s = stmt.opening ++ (movesAll body t ++ closing) := by
  cases h with
  | override begins =>
    rw [Stmt.moves, begins]
    exact ⟨_, rfl⟩
  | reading | withDocument => exact ⟨_, rfl⟩
  | attempt | catchAll => exact ⟨[], (List.append_nil _).symm⟩

/-- Each cell is read as often as a statement in `e` stands in a read of it. -/
def World.ReadBy (w : World) (e : Env) : Prop :=
  ∀ c n, w.readers[c]? = some n → n = e.reads.count c

theorem Stmt.Enters.readBy {stmt : Stmt} {body : List Stmt} {e f : Env} {s t : State}
    (h : stmt.Enters e s body f t) (hs : s.world.ReadBy e) :
    t.world.ReadBy f ∧ t.world.readers.length = s.world.readers.length := by
  cases h with
  | override begins =>
    have hreaders := (State.Makes.override begins).readers
    exact ⟨fun c n hn => hs c n (hreaders ▸ hn), congrArg List.length hreaders⟩
  | @reading c =>
    refine ⟨?_, ?_⟩
    · intro i n hn
      have hn : (s.world.beginRead c).readers[i]? = some n := hn
      rw [World.readers_beginRead, List.getElem?_modify, Option.map_eq_map,
        Option.map_eq_some_iff] at hn
      obtain ⟨m, hm, rfl⟩ := hn
      have hcount := hs i m hm
      split
      · next hi => simp [Env.reading, hi, ← hcount]
      · next hi => simp [Env.reading, hi, ← hcount]
    · show (s.world.beginRead c).readers.length = _
      rw [World.readers_beginRead, List.length_modify]
  | attempt | catchAll | withDocument => exact ⟨hs, rfl⟩

namespace Comes
variable {body : List Stmt} {x : Stmt} {e f : Env} {s t : State} {before : List Move}

theorem world (h : Comes body e s before x f t) : t.world = s.world.moves before := by
  induction h with
  | here => rfl
  | inside enters _ ih =>
    rw [ih, enters.world]
    exact List.foldl_append.symm
  | @later stmt _ _ _ _ s t _ _ ends _ ih =>
    have hrun := (stmt.run_moves s).world
    rw [ends] at hrun
    rw [ih, hrun]
    exact List.foldl_append.symm

/-- The moves made up to a statement, its own, and those that follow are the moves of the run. -/
theorem moves (h : Comes body e s before x f t) :
    ∃ after, movesAll body s = before ++ (x.moves t ++ after) := by
  induction h with
  | here => exact ⟨_, rfl⟩
  | inside enters _ ih =>
    obtain ⟨after, hafter⟩ := ih
    obtain ⟨closing, hclosing⟩ := enters.moves
    rw [movesAll, hclosing, hafter]
    simp only [List.append_assoc]
    exact ⟨_, rfl⟩
  | later ends _ ih =>
    obtain ⟨after, hafter⟩ := ih
    rw [movesAll, ends]
    simp only [hafter, List.append_assoc]
    exact ⟨_, rfl⟩

theorem readBy (h : Comes body e s before x f t) (hs : s.world.ReadBy e) :
    t.world.ReadBy f ∧ t.world.readers.length = s.world.readers.length := by
  induction h with
  | here => exact ⟨hs, rfl⟩
  | inside enters _ ih =>
    obtain ⟨ht, hlength⟩ := enters.readBy hs
    exact ⟨(ih ht).1, (ih ht).2.trans hlength⟩
  | @later stmt _ _ _ _ s t _ _ ends _ ih =>
    have hreaders := (stmt.run_moves s).readers
    rw [ends] at hreaders
    have ht : t.world.ReadBy _ := fun c n hn => hs c n (hreaders ▸ hn)
    exact ⟨(ih ht).1, (ih ht).2.trans (congrArg List.length hreaders)⟩

end Comes
end EditLex.Scope
