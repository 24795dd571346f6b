import EditLex.Proofs.Moves

/-!
The guards of a world that are not dropped. Those of a cell are a stack, though they cross the
guards of other cells: while the guards of each cell are dropped newest first, the value of the cell
is the one that its newest guard stands for, and each guard has the value of the one below
(`Tracked.Sound`). When all are dropped the first values are back.
-/
namespace EditLex.Scope

/-- A guard that is not dropped, the name it is kept under unless a body keeps it, and the value
that its override wrote. -/
structure Held where
  name : Option String
  guard : Guard
  value : Int
  deriving DecidableEq

/-- A world, and the guards that are not dropped in it, newest first. -/
structure Tracked where
  world : World
  held : List Held := []

/-- The guards of a cell. -/
def Held.stack (c : Nat) (held : List Held) : List Held := held.filter fun h => h.guard.cell == c

/-- The value that the newest guard of a stack stands for, else the first value. -/
def Held.newest (first : Int) : List Held → Int
  | [] => first
  | h :: _ => h.value

namespace Tracked

def move (t : Tracked) (m : Move) : Tracked where
  world := t.world.move m
  held := match m with
    | .hold name c value =>
      match t.world.override c value with
      | .ok (g, _) => ⟨name, g, value⟩ :: t.held
      | .error _ => t.held
    | .drop name _ => t.held.eraseP fun h => h.name == name
    | _ => t.held

def moves (t : Tracked) (moves : List Move) : Tracked := moves.foldl move t

/-- What is said of a world and the move made in it holds of all of these moves. -/
def Each (t : Tracked) (P : Tracked → Move → Prop) : List Move → Prop
  | [] => True
  | m :: moves => P t m ∧ (t.move m).Each P moves

/-- The guard that is dropped is the newest held under its name. -/
def Knows (t : Tracked) : Move → Prop
  | .drop name g => ∃ h, t.held.find? (·.name == name) = some h ∧ h.guard = g
  | _ => True

/-- The guard that is dropped is the newest of its cell, and the cell can be written. -/
def InOrder (t : Tracked) : Move → Prop
  | .drop name g => t.held.find? (·.name == name) = t.held.find? (·.guard.cell == g.cell) ∧
    (t.world.restore g).isOk = true
  | _ => True

instance (t : Tracked) : DecidablePred t.InOrder
  | .drop _ _ => inferInstanceAs (Decidable (_ ∧ _))
  | .hold _ _ _ | .beginRead _ | .endRead _ | .setDocument _ _ => isTrue trivial

instance decidableEach (t : Tracked) (P : Tracked → Move → Prop)
    [∀ t, DecidablePred (P t)] : (moves : List Move) → Decidable (t.Each P moves)
  | [] => isTrue trivial
  | m :: moves =>
    have := decidableEach (t.move m) P moves
    inferInstanceAs (Decidable (_ ∧ _))

theorem world_moves (t : Tracked) (moves : List Move) :
    (t.moves moves).world = t.world.moves moves := by
  induction moves generalizing t with
  | nil => rfl
  | cons m moves ih => exact ih (t.move m)

theorem moves_append (t : Tracked) (moves more : List Move) :
    t.moves (moves ++ more) = (t.moves moves).moves more := List.foldl_append

theorem move_hold_of_error {t : Tracked} {c : Nat} {value : Int} {fault : Fault}
    (h : t.world.override c value = .error fault) (name : Option String) :
    t.move (.hold name c value) = t := by
  simp only [move, World.move, h]

theorem held_hold {t : Tracked} {c : Nat} {value : Int} {g : Guard} {w : World}
    (h : t.world.override c value = .ok (g, w)) (name : Option String) :
    (t.move (.hold name c value)).held = ⟨name, g, value⟩ :: t.held := by
  simp only [move, h]

theorem each_append {t : Tracked} {P : Tracked → Move → Prop} {moves more : List Move} :
    t.Each P (moves ++ more) ↔ t.Each P moves ∧ (t.moves moves).Each P more := by
  induction moves generalizing t with
  | nil => exact (and_iff_right trivial).symm
  | cons m moves ih => exact (and_congr_right fun _ => ih).trans and_assoc.symm

end Tracked

namespace Held

theorem stack_cons (c : Nat) (h : Held) (held : List Held) :
    stack c (h :: held) = if h.guard.cell = c then h :: stack c held else stack c held := by
  simp [stack, List.filter_cons]

/-- Where the newest guard under a name is the newest of its cell, it is on top of the stack. -/
theorem stack_of_find? {held : List Held} {name : Option String} {h : Held}
    (hname : held.find? (·.name == name) = some h)
    (hcell : held.find? (·.guard.cell == h.guard.cell) = some h) (c : Nat) :
    stack c held = if h.guard.cell = c then h :: stack c (held.eraseP (·.name == name))
      else stack c (held.eraseP (·.name == name)) := by
  induction held with
  | nil => cases hname
  | cons x held ih =>
    rw [List.find?_cons] at hname hcell
    rw [List.eraseP_cons]
    split at hname
    · next hx =>
      cases hname
      simp only [stack, hx, List.filter_cons, beq_iff_eq]
      split <;> rfl
    · next hx =>
      -- The guard lies deeper, so that this one, under another name, is of another cell.
      split at hcell
      · cases hcell
        exact absurd (List.find?_some hname) (by simp [hx])
      · next hne =>
        have ih := ih hname hcell
        simp only [hx, stack, List.filter_cons] at ih ⊢
        by_cases hc : h.guard.cell = c
        · subst hc
          simpa [hne] using ih
        · rw [if_neg hc] at ih ⊢
          simp only [ih, cond_false, List.filter_cons]

/-- The guards that are kept by name. -/
def kept (held : List Held) : List (String × Guard) :=
  held.filterMap fun h => h.name.map (·, h.guard)

/-- The guards that bodies keep. -/
def bodies (held : List Held) : List Held := held.filter (·.name == none)

theorem kept_eraseP (held : List Held) (name : Option String) :
    kept (held.eraseP (·.name == name)) =
      name.elim (kept held) fun n => (kept held).eraseP fun e => e.1 == n := by
  induction held with
  | nil => cases name <;> rfl
  | cons h held ih =>
    obtain ⟨other, g, value⟩ := h
    cases name with
    | none => cases other <;> simp_all [kept]
    | some n =>
      cases other with
      | none => simp_all [kept]
      | some m => by_cases hm : m = n <;> simp_all [kept]

theorem lookup_kept (held : List Held) (n : String) :
    (kept held).lookup n = (held.find? (·.name == some n)).map (·.guard) := by
  induction held with
  | nil => rfl
  | cons h held ih =>
    obtain ⟨other, g, value⟩ := h
    cases other with
    | none => simpa [kept] using ih
    | some m =>
      have hkept : kept (⟨some m, g, value⟩ :: held) = (m, g) :: kept held := rfl
      rw [hkept, List.lookup_cons, List.find?_cons]
      by_cases hm : n = m
      · simp [hm]
      · have hleft : (n == m) = false := beq_false_of_ne hm
        have hright : (some m == some n) = false := beq_false_of_ne fun h => hm (by simp_all)
        simp only [hleft, hright, ih]

theorem bodies_eraseP_some (held : List Held) (n : String) :
    bodies (held.eraseP (·.name == some n)) = bodies held := by
  induction held with
  | nil => rfl
  | cons x held ih =>
    rw [List.eraseP_cons]
    cases hx : x.name == some n <;> simp_all [bodies, List.filter_cons]

theorem bodies_eraseP_none (held : List Held) :
    bodies (held.eraseP (·.name == none)) = (bodies held).tail := by
  induction held with
  | nil => rfl
  | cons x held ih =>
    rw [List.eraseP_cons]
    cases hx : x.name == none with
    | true => simp only [bodies, List.filter_cons, hx, cond_true, if_true, List.tail_cons]
    | false =>
      simpa only [bodies, List.filter_cons, hx, cond_false, Bool.false_eq_true, if_false] using ih

/-- Where no body keeps a guard, what is kept by name is all there is. -/
theorem eq_nil_of_kept {held : List Held} (hb : bodies held = []) (hk : kept held = []) :
    held = [] := by
  cases held with
  | nil => rfl
  | cons h held =>
    obtain ⟨_ | n, g, value⟩ := h
    · cases hb
    · cases hk

theorem eq_cons_of_kept {held : List Held} (hb : bodies held = []) {e : String × Guard}
    {rest : List (String × Guard)} (hk : kept held = e :: rest) :
    ∃ value older, held = ⟨some e.1, e.2, value⟩ :: older := by
  cases held with
  | nil => cases hk
  | cons h held =>
    obtain ⟨_ | n, g, value⟩ := h
    · cases hb
    · obtain ⟨rfl, -⟩ := List.cons.inj hk
      exact ⟨value, held, rfl⟩

theorem find?_of_bodies {held older : List Held} {h : Held} (hb : bodies held = h :: older) :
    held.find? (·.name == none) = some h := by
  rw [← List.head?_filter]
  exact congrArg List.head? hb

end Held

namespace Tracked

/-- The cells hold what the guards stand for: each the value of its newest guard, and each guard the
value of the next older one of its cell. -/
structure Sound (initial : List Int) (t : Tracked) : Prop where
  length : t.world.cells.length = initial.length
  value : ∀ c first, initial[c]? = some first →
    (t.world.cell c).value = Held.newest first (Held.stack c t.held)
  prior : ∀ c first, initial[c]? = some first → ∀ newer h older,
    Held.stack c t.held = newer ++ h :: older → h.guard.prior = Held.newest first older

namespace Sound
variable {initial : List Int} {t u : Tracked}

/-- Where the values and the guards stay, nothing is lost. -/
theorem of_same (h : t.Sound initial) (hlength : u.world.cells.length = t.world.cells.length)
    (hvalue : ∀ c, (u.world.cell c).value = (t.world.cell c).value) (hheld : u.held = t.held) :
    u.Sound initial where
  length := hlength.trans h.length
  value c first hc := by rw [hvalue, hheld, h.value c first hc]
  prior := hheld ▸ h.prior

theorem hold (h : t.Sound initial) (name : Option String) (c : Nat) (value : Int) :
    (t.move (.hold name c value)).Sound initial := by
  cases hw : t.world.override c value with
  | error fault => exact (move_hold_of_error hw name).symm ▸ h
  | ok r =>
    obtain ⟨g, w⟩ := r
    obtain ⟨rfl, hwrite⟩ := World.override_eq_ok hw
    obtain ⟨hlength, -, hvalue⟩ := World.value_write hwrite
    have hcells : (t.move (.hold name c value)).world.cells = w.cells := by
      simp [Tracked.move, World.move, hw]
    have hheld := held_hold hw name
    constructor
    · rw [hcells, hlength, h.length]
    · intro i first hi
      have hlt : i < t.world.cells.length := h.length ▸ (List.getElem?_eq_some_iff.1 hi).1
      rw [World.cell, hcells, ← World.cell, hvalue i hlt, hheld, Held.stack_cons]
      split
      · rfl
      · exact h.value i first hi
    · intro i first hi newer x older hsplit
      rw [hheld, Held.stack_cons] at hsplit
      split at hsplit
      · next he =>
        cases newer with
        | nil =>
          obtain ⟨rfl, rfl⟩ := List.cons.inj hsplit
          exact he ▸ h.value i first hi
        | cons top newer => exact h.prior i first hi newer x older (List.cons.inj hsplit).2
      · exact h.prior i first hi newer x older hsplit

theorem drop (h : t.Sound initial) {name : Option String} {g : Guard}
    (hknows : t.Knows (.drop name g)) (horder : t.InOrder (.drop name g)) :
    (t.move (.drop name g)).Sound initial := by
  obtain ⟨x, hname, rfl⟩ := hknows
  obtain ⟨hnewest, hok⟩ := horder
  have hstack := Held.stack_of_find? hname (hnewest ▸ hname)
  obtain ⟨hlength, hvalue⟩ := World.value_drop name hok
  constructor
  · exact hlength.trans h.length
  · intro c first hc
    have hlt : c < t.world.cells.length := h.length ▸ (List.getElem?_eq_some_iff.1 hc).1
    have hbefore := h.value c first hc
    have hprior := h.prior c first hc []
    refine (hvalue c hlt).trans ?_
    rw [hstack c] at hbefore hprior
    split
    · next hx =>
      rw [if_pos hx] at hprior
      exact hprior _ _ rfl
    · next hx =>
      rw [if_neg hx] at hbefore
      exact hbefore
  · intro c first hc newer y older hsplit
    have hbefore := h.prior c first hc
    rw [hstack c] at hbefore
    split at hbefore
    · exact hbefore (x :: newer) y older (congrArg (x :: ·) hsplit)
    · exact hbefore newer y older hsplit

theorem move (h : t.Sound initial) {m : Move} (hknows : t.Knows m) (horder : t.InOrder m) :
    (t.move m).Sound initial := by
  cases m with
  | hold name c value => exact h.hold name c value
  | drop name g => exact h.drop hknows horder
  | beginRead c =>
    exact h.of_same (List.length_modify _ _ _) (fun i => World.value_modify _ c i (· + 1)) rfl
  | endRead c =>
    exact h.of_same (List.length_modify _ _ _) (fun i => World.value_modify _ c i (· - 1)) rfl
  | setDocument document event => exact h.of_same rfl (fun _ => rfl) rfl

theorem moves {moves : List Move} (h : t.Sound initial) (hknows : t.Each Knows moves)
    (horder : t.Each InOrder moves) : (t.moves moves).Sound initial := by
  induction moves generalizing t with
  | nil => exact h
  | cons m moves ih => exact ih (h.move hknows.1 horder.1) hknows.2 horder.2

end Sound

/-- The world keeps the guards that are held under names. -/
def Named (t : Tracked) : Prop := t.world.guards = Held.kept t.held

theorem Named.move {t : Tracked} (h : t.Named) (m : Move) : (t.move m).Named := by
  cases m with
  | hold name c value =>
    cases hw : t.world.override c value with
    | error fault => exact (move_hold_of_error hw name).symm ▸ h
    | ok r =>
      obtain ⟨g, w⟩ := r
      rw [Named, held_hold hw name, Tracked.move, World.guards_hold hw, h]
      cases name <;> rfl
  | drop name g => rw [Named, Tracked.move, World.guards_drop, h, Held.kept_eraseP]
  | beginRead | endRead | setDocument => exact h

theorem Named.moves {t : Tracked} (h : t.Named) (moves : List Move) : (t.moves moves).Named := by
  induction moves generalizing t with
  | nil => exact h
  | cons m moves ih => exact ih (h.move m)

/-- Where no body keeps a guard and no cell is being read, all guards can be dropped newest
first. -/
theorem drops_in_order {t : Tracked} (hn : t.Named) (hb : Held.bodies t.held = [])
    (hr : ∀ c, (t.world.cell c).readers = 0) :
    let drops := t.world.guards.map fun e => Move.drop (some e.1) e.2
    t.Each Knows drops ∧ t.Each InOrder drops ∧ (t.moves drops).held = [] := by
  generalize hguards : t.world.guards = guards
  induction guards generalizing t with
  | nil => exact ⟨trivial, trivial, Held.eq_nil_of_kept hb (hn.symm.trans hguards)⟩
  | cons e guards ih =>
    obtain ⟨value, older, hheld⟩ := Held.eq_cons_of_kept hb (hn.symm.trans hguards)
    -- The newest of all is the newest under its name and of its cell.
    have hfirst : t.held.find? (·.name == some e.1) = some ⟨some e.1, e.2, value⟩ := by
      simp [hheld]
    have hcell : t.held.find? (·.guard.cell == e.2.cell) = some ⟨some e.1, e.2, value⟩ := by
      simp [hheld]
    have hok : (t.world.restore e.2).isOk = true := by
      simp [World.restore, World.write_eq, hr, Except.isOk, Except.toBool]
    have hbodies : Held.bodies (t.move (.drop (some e.1) e.2)).held = [] :=
      (Held.bodies_eraseP_some t.held e.1).trans hb
    have hreaders (c : Nat) : ((t.move (.drop (some e.1) e.2)).world.cell c).readers = 0 := by
      rw [World.readers_cell, Tracked.move, World.readers_drop, ← World.readers_cell, hr]
    have hrest : (t.move (.drop (some e.1) e.2)).world.guards = guards :=
      (t.world.guards_drop _ _).trans (by simp [hguards])
    obtain ⟨hknows, horder, hend⟩ := ih (hn.move _) hbodies hreaders hrest
    exact ⟨⟨⟨_, hfirst, rfl⟩, hknows⟩, ⟨⟨hfirst.trans hcell.symm, hok⟩, horder⟩, hend⟩

/-- The cells as a program finds them, without a guard. -/
def fresh (initial : List Int) : Tracked := { world := (State.fresh initial).world }

theorem sound_fresh (initial : List Int) : (fresh initial).Sound initial where
  length := by simp [fresh, State.fresh]
  value c first hc := by simp [fresh, State.fresh, World.cell, Held.stack, Held.newest, hc]
  prior c first hc newer h older hsplit := by simp [fresh, Held.stack] at hsplit

theorem Sound.values_eq {initial : List Int} {t : Tracked} (h : t.Sound initial)
    (hheld : t.held = []) : t.world.cells.map (·.value) = initial := by
  apply List.ext_getElem
  · simp [h.length]
  · intro c hc hc'
    have hvalue := h.value c _ (List.getElem?_eq_getElem hc')
    rw [hheld, ← World.cell_eq (h.length ▸ hc')] at hvalue
    rw [List.getElem_map]
    exact hvalue

end Tracked
end EditLex.Scope
