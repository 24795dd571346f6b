import EditLex.Proofs.Guards

/-!
The guards that programs keep. A body drops the guard it began with, and a name gives up its newest
(`Stmt.closes`), so that the moves of a run tell which guards are held. A cell that is being read
refuses guards and does not get back the value before (`Comes.refuses`). What the guards of a run
stand for is the value of every cell (`values_follow_guards`).
-/
namespace EditLex.Scope

namespace Tracked

/-- Each guard that the moves drop is one that is held, and the bodies keep the guards they kept. -/
structure Closes (t : Tracked) (moves : List Move) : Prop where
  knows : t.Each Knows moves
  bodies : Held.bodies (t.moves moves).held = Held.bodies t.held

namespace Closes
variable {t : Tracked} {moves more : List Move}

theorem nil (t : Tracked) : t.Closes [] := ⟨trivial, rfl⟩

theorem append (h : t.Closes moves) (h' : (t.moves moves).Closes more) :
    t.Closes (moves ++ more) where
  knows := each_append.2 ⟨h.knows, h'.knows⟩
  bodies := by rw [moves_append, h'.bodies, h.bodies]

theorem single {m : Move} (hknows : t.Knows m)
    (hbodies : Held.bodies (t.move m).held = Held.bodies t.held) : t.Closes [m] :=
  ⟨⟨hknows, trivial⟩, hbodies⟩

/-- A body ends with the guard it began with. -/
theorem around {c : Nat} {value : Int} {g : Guard} {w : World}
    (hw : t.world.override c value = .ok (g, w))
    (h : (t.move (.hold none c value)).Closes moves) :
    t.Closes (.hold none c value :: (moves ++ [.drop none g])) := by
  -- The moves within leave the guard on top of those that bodies keep.
  have htop : Held.bodies ((t.move (.hold none c value)).moves moves).held =
      ⟨none, g, value⟩ :: Held.bodies t.held :=
    h.bodies.trans (congrArg Held.bodies (held_hold hw none))
  constructor
  · refine ⟨trivial, each_append.2 ⟨h.knows, ?_, trivial⟩⟩
    exact ⟨_, Held.find?_of_bodies htop, rfl⟩
  · have hlast : (t.moves (.hold none c value :: (moves ++ [.drop none g]))).held =
        ((t.move (.hold none c value)).moves moves).held.eraseP (·.name == none) :=
      congrArg held (moves_append _ _ _)
    rw [hlast, Held.bodies_eraseP_none, htop, List.tail_cons]

theorem keep (t : Tracked) (name : String) (c : Nat) (value : Int) :
    t.Closes [.hold (some name) c value] := by
  refine single (m := .hold (some name) c value) trivial ?_
  simp only [Tracked.move]
  split <;> rfl

theorem drop (hn : t.Named) {name : String} {g : Guard}
    (hg : t.world.guards.lookup name = some g) : t.Closes [.drop (some name) g] := by
  rw [hn, Held.lookup_kept, Option.map_eq_some_iff] at hg
  exact single hg (Held.bodies_eraseP_some t.held name)

end Closes
end Tracked

mutual

/-- The guards that a statement drops are its own or kept by name, whichever way it ends. -/
theorem Stmt.closes (stmt : Stmt) (s : State) (t : Tracked) (hw : t.world = s.world)
    (hn : t.Named) : t.Closes (stmt.moves s) := by
  cases stmt with
  | override c value body =>
    rw [Stmt.moves]
    cases h : s.world.override c value with
    | error fault =>
      refine .single (m := .hold none c value) trivial ?_
      rw [Tracked.move_hold_of_error (hw ▸ h) none]
    | ok r =>
      obtain ⟨g, world⟩ := r
      have hbegin : (t.move (.hold none c value)).world = world := by
        simp only [Tracked.move, World.move, hw, h]
        rfl
      exact .around (hw ▸ h) (closesAll body { s with world } _ hbegin (hn.move _))
  | reading c body =>
    have ih := closesAll body { s.see (.readBegan (s.world.cell c).value) with
      world := s.world.beginRead c } (t.move (.beginRead c)) (congrArg (World.beginRead · c) hw)
      (hn.move _)
    rw [Stmt.moves]
    exact (Tracked.Closes.single (m := .beginRead c) trivial rfl).append
      (ih.append (.single trivial rfl))
  | keep c value name => exact .keep t name c value
  | drop name =>
    rw [Stmt.moves]
    cases h : s.world.guards.lookup name with
    | none => exact .nil t
    | some g => exact .drop hn (hw ▸ h)
  | attempt body => exact closesAll body s t hw hn
  | catchAll body => exact closesAll body s t hw hn
  | withDocument name body =>
    have ih := closesAll body
      { s with world := s.world.setDocument (some name) .cellOverridden }
      (t.move (.setDocument (some name) .cellOverridden))
      (congrArg (World.setDocument · _ _) hw) (hn.move _)
    rw [Stmt.moves]
    exact (Tracked.Closes.single (m := .setDocument _ _) trivial rfl).append
      (ih.append (.single trivial rfl))
  | get | render | renderElsewhere | renderGuard | fail | panic | document
  | documentElsewhere => exact .nil t

theorem closesAll (body : List Stmt) (s : State) (t : Tracked) (hw : t.world = s.world)
    (hn : t.Named) : t.Closes (movesAll body s) := by
  cases body with
  | nil => exact .nil t
  | cons stmt body =>
    have ih := stmt.closes s t hw hn
    have hrun := stmt.run_moves s
    have hrest (u : State) (v : Tracked) := closesAll body u v
    rw [movesAll]
    apply ih.append
    generalize stmt.run s = r at hrun ⊢
    obtain ⟨outcome, u⟩ := r
    cases outcome with
    | ok =>
      apply hrest u _ _ (hn.moves _)
      rw [t.world_moves, hw, hrun.world]
    | failed | panicked => exact .nil _

end

/-- A cell that is being read refuses an override, and nothing changes. -/
theorem State.keep_cases (s : State) (c : Nat) (value : Int) (name : String) :
    if (s.world.cell c).readers = 0 then (s.keep c value name).1 = .ok
      else s.keep c value name = (.panicked .beingRead, s) := by
  split
  · next h => simp [State.keep, World.override_eq, World.write_eq, h, State.act, Except.map]
  · next h => simp [State.keep, World.override_eq, World.write_eq, h, State.act, Except.map]

theorem Stmt.override_of_read {s : State} {c : Nat} (h : (s.world.cell c).readers ≠ 0)
    (value : Int) (body : List Stmt) :
    (Stmt.override c value body).run s = (.panicked .beingRead, s) := by
  simp [Stmt.run, World.override_eq, World.write_eq, h, Except.map]

/-- A cell that is being read does not get back the value before. The guard is lost. -/
theorem State.drop_cases {s : State} {name : String} {g : Guard}
    (hg : s.world.guards.lookup name = some g) :
    if (s.world.cell g.cell).readers = 0 then (s.drop name).1 = .ok
      else (s.drop name).1 = .panicked .beingRead ∧
        (s.drop name).2.world.cells = s.world.cells := by
  have hcell (guards : List (String × Guard)) :
      ({ s.world with guards } : World).cell g.cell = s.world.cell g.cell := rfl
  split
  · next h => simp [State.drop, hg, World.restore, World.write_eq, hcell, h, State.act]
  · next h => simp [State.drop, hg, World.restore, World.write_eq, hcell, h, State.act]

theorem Tracked.closes_fresh (initial : List Int) (program : List Stmt) :
    (fresh initial).Closes (movesAll program (.fresh initial)) :=
  closesAll program _ _ rfl rfl

theorem State.readBy_fresh (initial : List Int) :
    (State.fresh initial).world.ReadBy { initial } := by
  intro c n hn
  simp only [World.readers, State.fresh, List.map_map, List.getElem?_map] at hn
  cases hc : initial[c]? <;> simp_all

/-- Where a statement stands in a read of a cell, the cell refuses guards and does not get back the
value before; elsewhere it does not. -/
structure Refuses (initial : List Int) (stmt : Stmt) (e : Env) (s : State) : Prop where
  keep : ∀ c < initial.length, ∀ value name, stmt = .keep c value name →
    if c ∈ e.reads then stmt.run s = (.panicked .beingRead, s) else (stmt.run s).1 = .ok
  override : ∀ c < initial.length, ∀ value body, stmt = .override c value body → c ∈ e.reads →
    stmt.run s = (.panicked .beingRead, s)
  drop : ∀ name g, stmt = .drop name → s.world.guards.lookup name = some g →
    g.cell < initial.length →
    if g.cell ∈ e.reads then (stmt.run s).1 = .panicked .beingRead ∧
      (stmt.run s).2.world.cells = s.world.cells
    else (stmt.run s).1 = .ok

theorem Comes.refuses {initial : List Int} {program : List Stmt} {before : List Move} {stmt : Stmt}
    {e : Env} {s : State} (h : Comes program { initial } (.fresh initial) before stmt e s) :
    Refuses initial stmt e s := by
  have hreaders (c : Nat) (hc : c < initial.length) :
      (s.world.cell c).readers = 0 ↔ c ∉ e.reads := by
    obtain ⟨hread, hlength⟩ := h.readBy (State.readBy_fresh initial)
    have hlt : c < s.world.readers.length := by
      rw [hlength]
      simpa [World.readers, State.fresh] using hc
    have hcount := hread c _ (List.getElem?_eq_getElem hlt)
    rw [World.readers_cell, List.getElem?_eq_getElem hlt, Option.getD_some, hcount,
      List.count_eq_zero]
  constructor
  case keep =>
    rintro c hc value name rfl
    have hcases := s.keep_cases c value name
    simp only [hreaders c hc, ite_not] at hcases
    exact hcases
  case override =>
    rintro c hc value body rfl hread
    exact Stmt.override_of_read (fun h => (hreaders c hc).1 h hread) value body
  case drop =>
    rintro name g rfl hg hc
    have hcases := State.drop_cases hg
    simp only [hreaders g.cell hc, ite_not] at hcases
    exact hcases

/-- Guards that are kept to the end are dropped newest first, which is in order. -/
theorem final_eq {initial : List Int} {program : List Stmt}
    (horder : (Tracked.fresh initial).Each Tracked.InOrder (movesAll program (.fresh initial))) :
    (report initial program).value.final = initial := by
  have hrun := runAll_moves program (.fresh initial)
  have hcloses := Tracked.closes_fresh initial program
  have hbodies : Held.bodies ((Tracked.fresh initial).moves
      (movesAll program (.fresh initial))).held = [] := hcloses.bodies
  have hsound := (Tracked.sound_fresh initial).moves hcloses.knows horder
  have hnamed := Tracked.Named.moves (t := .fresh initial) rfl (movesAll program (.fresh initial))
  have hworld := (Tracked.fresh initial).world_moves (movesAll program (.fresh initial))
  generalize (Tracked.fresh initial).moves (movesAll program (.fresh initial)) = t
    at hbodies hsound hnamed hworld
  have hend : (runAll program (.fresh initial)).2.world = t.world := hrun.world.trans hworld.symm
  have hreaders (c : Nat) : (t.world.cell c).readers = 0 := by
    rw [World.readers_cell, ← hend, hrun.readers]
    simp only [World.readers, State.fresh, List.map_map, List.getElem?_map]
    cases initial[c]? <;> rfl
  obtain ⟨hknows, hinorder, hheld⟩ := Tracked.drops_in_order hnamed hbodies hreaders
  have hvalues := (hsound.moves hknows hinorder).values_eq hheld
  have hdrop := (runAll program (.fresh initial)).2.dropAll_moves.world
  rw [hend] at hdrop
  rw [Tracked.world_moves, ← hdrop] at hvalues
  exact hvalues

/-- Some moves of a program have led to the world in which the run comes to the statement, the moves
of the statement are the next, and a cell that it stands in a read of is not written. -/
structure Led (initial : List Int) (program : List Stmt) (before : List Move) (stmt : Stmt)
    (e : Env) (s : State) : Prop where
  world : s.world = ((Tracked.fresh initial).moves before).world
  moves : ∃ after, movesAll program (.fresh initial) = before ++ (stmt.moves s ++ after)
  refuses : Refuses initial stmt e s

/-- The world keeps the guards that are held under names, each cell has the value of its newest
guard, or its first value without one, and each guard has the value of the next older one. When all
guards are gone, the first values are back. -/
structure Tracked.Settled (initial : List Int) (t : Tracked) : Prop where
  named : t.Named
  sound : t.Sound initial
  restored : t.held = [] → t.world.cells.map (·.value) = initial

/-- The moves of a program tell every world that a run of it comes to, and which guards are held
there. While the guards dropped were each the newest of its cell, and none was dropped in a read of
its cell, the cells have the values of the guards. A guard that is made or dropped in a read of its
cell panics and leaves the values as they are. So when all guards are gone, as they are after the
program, the first values are back. -/
theorem values_follow_guards (initial : List Int) (program : List Stmt) :
    let start := Tracked.fresh initial
    let moves := movesAll program (.fresh initial)
    ((runAll program (.fresh initial)).2.world = (start.moves moves).world ∧
      start.Each Tracked.Knows moves) ∧
    (∀ before after, moves = before ++ after → start.Each Tracked.InOrder before →
      (start.moves before).Settled initial) ∧
    (∀ stmt e s, Reaches program { initial } (.fresh initial) stmt e s →
      ∃ before, Comes program { initial } (.fresh initial) before stmt e s) ∧
    (∀ before stmt e s, Comes program { initial } (.fresh initial) before stmt e s →
      Led initial program before stmt e s) ∧
    (start.Each Tracked.InOrder moves → (report initial program).value.final = initial) := by
  intro start moves
  have hcloses : start.Closes moves := Tracked.closes_fresh initial program
  have hrun := runAll_moves program (.fresh initial)
  have hworld : (runAll program (.fresh initial)).2.world = (start.moves moves).world :=
    hrun.world.trans (start.world_moves moves).symm
  refine ⟨⟨hworld, hcloses.knows⟩, ?prefixes, fun _ _ _ h => h.exists_comes, ?points, final_eq⟩
  case prefixes =>
    intro before after hsplit horder
    have hknows := (Tracked.each_append.1 (hsplit ▸ hcloses.knows)).1
    have hsound := (Tracked.sound_fresh initial).moves hknows horder
    exact ⟨Tracked.Named.moves (t := start) rfl before, hsound, hsound.values_eq⟩
  case points =>
    intro before stmt e s h
    exact ⟨h.world.trans (start.world_moves before).symm, h.moves, h.refuses⟩

/-- Guards of two cells cross, and one is refused in a read. -/
theorem values_follow_guards_across_cells :
    let program : List Stmt := [.keep 0 5 "a", .keep 1 6 "b", .keep 0 7 "c",
      .reading 1 [.catchAll [.keep 1 9 "d"]], .drop "b", .drop "c", .override 1 8 [.drop "a"]]
    let start := Tracked.fresh [1, 2]
    let before : List Move := [.hold (some "a") 0 5, .hold (some "b") 1 6, .hold (some "c") 0 7]
    start.Each Tracked.InOrder (movesAll program (.fresh [1, 2])) ∧
      ((start.moves before).world.cell 0).value = 7 ∧
      (report [1, 2] program).value.final = [1, 2] ∧
      ∃ s, s.world = (start.moves (before ++ [.beginRead 1])).world ∧
        (Stmt.keep 1 9 "d").run s = (.panicked .beingRead, s) := by
  intro program start before
  obtain ⟨-, hcells, -, hpoints, hfinal⟩ := values_follow_guards [1, 2] program
  have horder : start.Each Tracked.InOrder (movesAll program (.fresh [1, 2])) := by decide +kernel
  have hcomes : Comes program { initial := [1, 2] } (.fresh [1, 2]) (before ++ [.beginRead 1])
      (.keep 1 9 "d") _ _ :=
    .later rfl (.later rfl (.later rfl (.inside .reading (.inside .catchAll .here))))
  have hpoint := hpoints _ _ _ _ hcomes
  refine ⟨horder, ?_, hfinal horder, _, hpoint.world, ?_⟩
  · exact ((hcells before _ rfl (by decide)).sound.value 0 1 rfl).trans rfl
  · have hrefused := hpoint.refuses.keep 1 (by decide) 9 "d" rfl
    rwa [if_pos (by decide)] at hrefused

end EditLex.Scope
