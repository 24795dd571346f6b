import EditLex.Change
import EditLex.Lexer

/-!
Bringing units up to date after an edit. The units that end before the damage are kept, and the
lexer goes on from the end of the last of them.
-/
namespace EditLex

/-- How many units of a new text were kept from the old one, and how many were read afresh. -/
structure Reuse where
  kept : Nat := 0
  fresh : Nat := 0
  deriving DecidableEq, Repr

/-- The share of the units that was kept. Counts are of 64 bits. -/
def Reuse.rate (r : Reuse) : Except Fault Float :=
  let total := r.kept + r.fresh
  if total = 0 then .ok 0
  else if total < 18446744073709551616 then .ok (r.kept.toUInt64.toFloat / total.toUInt64.toFloat)
  else .error .addOverflow

/-- The units of a new text, focused on the first fresh one, and where the lexer went on. -/
structure Update (U : Type) where
  units : Focused (Token U)
  resume : Position
  reuse : Reuse

/-- The number of units at the front that the damage leaves alone. It is found by walking from the
focus: back over the damaged units before it, else on over the sound ones behind it. -/
def Damage.soundPrefix {U : Type} (d : Damage) (units : Focused (Token U)) : Nat :=
  let sound (t : Token U) := d.spares t.stop.offset
  let behind := (units.before.items.dropWhile fun t => !sound t).length
  if behind < units.focus then behind
  else behind + (units.after.items.takeWhile sound).length

/-- A lexer with its state, and the settings it runs under. -/
structure Tokenizer (S U : Type) where
  lexer : Lexer S U
  state : S
  settings : Settings

namespace Tokenizer

variable {S U : Type}

/-- The units of a whole text. -/
def tokenize (t : Tokenizer S U) (document : Option String) (text : Bytes) :
    Logged (Focused (Token U) × Tokenizer S U) := do
  let (units, state) ← t.lexer.tokens document t.settings t.state text
  return (units, { t with state })

/-- The units of `text`, which `change` has made out of the text of `previous`. Where the lexer
cannot go on from a boundary of characters, it reads the whole text. -/
def update (t : Tokenizer S U) (document : Option String) (previous : Focused (Token U))
    (change : Change) (text : Bytes) : Logged (Update U × Tokenizer S U) :=
  let keep := (change.damage t.settings.lookbehind).soundPrefix previous
  let kept := previous.moveTo keep
  let resume := (kept.preceding?.map (·.stop)).getD .start
  if Utf8.isBoundary text resume.offset.val then do
    let (fresh, state) ← t.lexer.tokensFrom document t.settings t.state resume
      (text.drop resume.offset.val)
    Logged.tell (.updated document resume keep fresh.length)
    return (⟨kept.replaceAfter fresh, resume, ⟨keep, fresh.length⟩⟩, { t with state })
  else do
    Logged.tell (.resumeRejected document resume)
    let (units, t) ← t.tokenize document text
    return (⟨units, .start, ⟨0, units.size⟩⟩, t)

end Tokenizer
end EditLex
