import EditLex.Lookahead.Bounded

/-!
The operations of a reader that looks ahead, as values, and runs of them.
-/
namespace EditLex.Lookahead

inductive Op where
  | peek
  | nth (n : Nat)
  | take
  | takeIf (b : UInt8)
  | takeWhile (p : Test)
  | atEnd

inductive Answer where
  | byte (b : Option UInt8)
  | flag (b : Bool)
  | bytes (taken : Bytes)
  deriving DecidableEq

variable {σ : Type}

/-- Performs an operation; `takeWhile` takes at most `fuel` looks. -/
def performUpTo [Producer σ] (fuel : Nat) (s : Lookahead σ) :
    Op → Except Fault Answer × Lookahead σ
  | .peek =>
    let (next, t) := s.peek
    settle s t 1 (.byte next)
  | .nth n =>
    let (found, t) := s.nth n
    settle s t (if n < maxCount then n + 1 else 0) (.byte found)
  | .take =>
    let (taken, t) := s.take
    settle s t (if taken.isSome then 0 else 1) (.byte taken)
  | .takeIf b =>
    let (taken, t) := s.takeIf b
    settle s t (if taken then 0 else 1) (.flag taken)
  | .takeWhile p =>
    let (taken, t) := s.takeWhileUpTo fuel p
    settle s t (if taken.length < fuel then 1 else 0) (.bytes taken)
  | .atEnd =>
    let (ended, t) := s.atEnd
    settle s t 1 (.flag ended)

/-- Performs operations one after another, also after a fault. -/
def performAllUpTo [Producer σ] (fuel : Nat) :
    List Op → Lookahead σ → List (Except Fault Answer) × Lookahead σ
  | [], s => ([], s)
  | op :: ops, s =>
    let (answer, s) := s.performUpTo fuel op
    let (answers, s) := performAllUpTo fuel ops s
    (answer :: answers, s)

/-- Performs an operation over a producer that ends. -/
def perform [Bounded σ] (s : Lookahead σ) : Op → Except Fault Answer × Lookahead σ
  | .takeWhile p =>
    let (taken, t) := s.takeWhile p
    settle s t 1 (.bytes taken)
  | op => s.performUpTo 0 op

/-- Performs operations one after another over a producer that ends. -/
def performAll [Bounded σ] : List Op → Lookahead σ → List (Except Fault Answer) × Lookahead σ
  | [], s => ([], s)
  | op :: ops, s =>
    let (answer, s) := s.perform op
    let (answers, s) := performAll ops s
    (answer :: answers, s)

/-- The number of looks bounds `takeWhile` alone, and not even that if there are more of them than
bytes. -/
theorem perform_eq_performUpTo [Bounded σ] {s : Lookahead σ} {fuel : Nat} (h : s.left < fuel)
    (op : Op) : s.perform op = s.performUpTo fuel op := by
  cases op with
  | takeWhile p =>
    have hl := (left_gather p 0 [] s).2
    have hf : (s.takeWhile p).1.length < fuel := by
      simp only [takeWhile, List.length_reverse, List.length_nil] at hl ⊢
      omega
    simp only [perform, performUpTo, takeWhileUpTo_eq_takeWhile p h, if_pos hf]
  | _ => rfl

end EditLex.Lookahead
