import EditLex.Cache.Use

/-!
A cache in use, with witnesses of its sources under labels. A witness holds nothing, and a copy of
one is as good as the first.
-/
namespace EditLex.Cache

structure Watched (α δ : Type) extends Use α δ where
  witnesses : List (String × Witness) := []

namespace Watched

inductive Op (α δ : Type) where
  | use (op : Use.Op α δ)
  | witness (label name : String)
  | copyWitness (label other : String)
  | isOf (label name : String)
  | isLive (label : String)

inductive Answer (δ : Type) where
  | none
  | use (answer : Use.Answer δ)
  | flag (b : Bool)

variable {α δ : Type}

def witness? (w : Watched α δ) (label : String) : Option Witness := w.witnesses.lookup label

def remember (w : Watched α δ) (label : String) (witness : Witness) : Watched α δ :=
  { w with witnesses := (label, witness) :: w.witnesses }

/-- A name that holds no source, or a label without a witness, leaves all as it is. -/
def step (w : Watched α δ) : Op α δ → Logged (Answer δ × Watched α δ)
  | .use op => do
    let (answer, use) ← w.toUse.step op
    return (.use answer, { w with toUse := use })
  | .witness label name =>
    return (.none, match w.holders.find? name with
      | some source => w.remember label (.of source)
      | none => w)
  | .copyWitness label other =>
    return (.none, match w.witness? other with
      | some witness => w.remember label witness
      | none => w)
  | .isOf label name =>
    return (match w.witness? label, w.holders.find? name with
      | some witness, some source => .flag (witness.isOf source)
      | _, _ => .none, w)
  | .isLive label =>
    return (match w.witness? label with
      | some witness => .flag (witness.isLive w.held)
      | none => .none, w)

def run (w : Watched α δ) (ops : List (Op α δ)) : Logged (Watched α δ) :=
  ops.foldlM (fun w op => return (← w.step op).2) w

end Watched
end EditLex.Cache
