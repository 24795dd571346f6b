/-!
White space as Unicode has it: trimming it off and counting the words between it.
-/
namespace EditLex.Text

/-- The ranges of the property White_Space. -/
def blankRanges : List (Nat × Nat) :=
  [(0x9, 0xD), (0x20, 0x20), (0x85, 0x85), (0xA0, 0xA0), (0x1680, 0x1680), (0x2000, 0x200A),
    (0x2028, 0x2029), (0x202F, 0x202F), (0x205F, 0x205F), (0x3000, 0x3000)]

def isBlank (c : Char) : Bool :=
  blankRanges.any fun r => decide (r.1 ≤ c.toNat) && decide (c.toNat ≤ r.2)

/-- `cs` without the blanks at both ends. -/
def trim (cs : List Char) : List Char :=
  ((cs.dropWhile isBlank).reverse.dropWhile isBlank).reverse

/-- The number of words in `cs`, `inWord` telling whether one has begun before it. -/
def wordsFrom (inWord : Bool) : List Char → Nat
  | [] => 0
  | c :: cs =>
    if isBlank c then wordsFrom false cs
    else if inWord then wordsFrom true cs
    else wordsFrom true cs + 1

def wordCount (cs : List Char) : Nat := wordsFrom false cs

end EditLex.Text
