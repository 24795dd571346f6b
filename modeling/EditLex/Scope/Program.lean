import EditLex.Scope.Cell

/-!
Programs over overridable cells. Bodies end well, fail, or panic, and on each of these ways out
every override that a body stands in puts the value before it back.
-/
namespace EditLex.Scope

/-- How a body ends. -/
inductive Outcome where
  | ok
  | failed (text : String)
  | panicked (fault : Fault)
  deriving DecidableEq, Repr

inductive Stmt where
  | get (cell : Nat)
  | render (cell : Nat)
  /-- Shows a cell from another thread. -/
  | renderElsewhere (cell : Nat)
  /-- Overrides a cell for the length of a body. -/
  | override (cell : Nat) (value : Int) (body : List Stmt)
  /-- Reads a cell for the length of a body. -/
  | reading (cell : Nat) (body : List Stmt)
  /-- Overrides a cell until the guard kept under `name` is dropped. -/
  | keep (cell : Nat) (value : Int) (name : String)
  | drop (name : String)
  | renderGuard (name : String)
  | fail (text : String)
  | panic (text : String)
  /-- Turns a failure of a body into an observation. -/
  | attempt (body : List Stmt)
  /-- Turns a failure or a panic of a body into an observation. -/
  | catchAll (body : List Stmt)
  | document
  | withDocument (name : String) (body : List Stmt)
  /-- Reads the name of the document on another thread, where there is none. -/
  | documentElsewhere
  deriving Inhabited

/-- What a program lets its surroundings see. -/
inductive Observation where
  | got (value : Int)
  | shown (text : String)
  | shownElsewhere (text : String)
  | readBegan (value : Int)
  | readEnded (value : Int)
  | shownGuard (text : String)
  | attempted (outcome : Outcome)
  | caught (outcome : Outcome)
  | document (name : Option String)
  | documentElsewhere (name : Option String)
  deriving DecidableEq, Repr

/-- A world and what has been seen in it, newest first. -/
structure State where
  world : World
  seen : List Observation := []

namespace State

def see (s : State) (o : Observation) : State := { s with seen := o :: s.seen }

/-- The state in the world that an action leaves, or its fault in the world before. -/
def act (s : State) (action : Except Fault World) : Outcome × State :=
  match action with
  | .ok world => (.ok, { s with world })
  | .error fault => (.panicked fault, s)

/-- Ends the override `g` after a body that ended with `outcome`. -/
def leave (outcome : Outcome) (s : State) (g : Guard) : Outcome × State :=
  match s.world.restore g with
  | .ok world => (outcome, { s with world })
  | .error fault => (.panicked fault, s)

/-- Begins an override and keeps its guard. -/
def keep (s : State) (c : Nat) (value : Int) (name : String) : Outcome × State :=
  s.act <| (s.world.override c value).map fun r =>
    { r.2 with guards := (name, r.1) :: r.2.guards }

/-- Drops the newest guard kept under `name`. It is gone even if its cell cannot be written. -/
def drop (s : State) (name : String) : Outcome × State :=
  match s.world.guards.lookup name with
  | none => (.ok, s)
  | some g =>
    let guards := s.world.guards.eraseP fun e => e.1 == name
    let s := { s with world := { s.world with guards } }
    s.act (s.world.restore g)

/-- Drops all guards, newest first. -/
def dropAll (s : State) : State :=
  s.world.guards.foldl (fun s e => (s.drop e.1).2) s

end State

mutual

def Stmt.run : Stmt → State → Outcome × State
  | .get c, s => (.ok, s.see (.got (s.world.cell c).value))
  | .render c, s => (.ok, s.see (.shown (s.world.cell c).render))
  | .renderElsewhere c, s => (.ok, s.see (.shownElsewhere (s.world.cell c).renderElsewhere))
  | .override c value body, s =>
    match s.world.override c value with
    | .error fault => (.panicked fault, s)
    | .ok (g, world) =>
      let (outcome, s) := runAll body { s with world }
      s.leave outcome g
  | .reading c body, s =>
    let value := (s.world.cell c).value
    let (outcome, s) := runAll body { s.see (.readBegan value) with world := s.world.beginRead c }
    let s := match outcome with
      | .panicked _ => s
      | _ => s.see (.readEnded value)
    (outcome, { s with world := s.world.endRead c })
  | .keep c value name, s => s.keep c value name
  | .drop name, s => s.drop name
  | .renderGuard name, s =>
    match s.world.guards.lookup name with
    | none => (.ok, s)
    | some g => (.ok, s.see (.shownGuard g.render))
  | .fail text, s => (.failed text, s)
  | .panic text, s => (.panicked (.raised text), s)
  | .attempt body, s =>
    let (outcome, s) := runAll body s
    match outcome with
    | .panicked fault => (.panicked fault, s)
    | _ => (.ok, s.see (.attempted outcome))
  | .catchAll body, s =>
    let (outcome, s) := runAll body s
    (.ok, s.see (.caught outcome))
  | .document, s => (.ok, s.see (.document s.world.document))
  | .withDocument name body, s =>
    let prior := s.world.document
    let (outcome, s) := runAll body
      { s with world := s.world.setDocument (some name) .cellOverridden }
    (outcome, { s with world := s.world.setDocument prior .cellRestored })
  | .documentElsewhere, s => (.ok, s.see (.documentElsewhere none))

/-- Runs statements one after another, up to the first that does not end well. -/
def runAll : List Stmt → State → Outcome × State
  | [], s => (.ok, s)
  | stmt :: body, s =>
    match stmt.run s with
    | (.ok, s) => runAll body s
    | stopped => stopped

end

/-- What a whole program leaves: its outcome, what was seen, the values of the cells before and
after the guards that are still kept are dropped, and the document. -/
structure Report where
  outcome : Outcome
  seen : List Observation
  atEnd : List Int
  final : List Int
  document : Option String

/-- Runs a program on fresh cells. -/
def report (initial : List Int) (body : List Stmt) : Logged Report :=
  let (outcome, s) := runAll body { world := { cells := initial.map fun v => { value := v } } }
  let dropped := s.dropAll
  ⟨{ outcome
     seen := s.seen.reverse
     atEnd := s.world.cells.map (·.value)
     final := dropped.world.cells.map (·.value)
     document := dropped.world.document },
    dropped.world.journal.reverse⟩

end EditLex.Scope
