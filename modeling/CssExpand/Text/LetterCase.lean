import CssExpand.Text.LetterCase.Table

/-!
# Letter case

Two ways to lower the letters of a text. The names inside a token compare by their ASCII letters
only (`asciiLower`); words, property names and ignored names are lowered in full (`lower`), where
one capital may have two lower forms and the lower form may depend on the neighbours.
-/

set_option autoImplicit false

namespace CssExpand.Text

/-- Characters with their ASCII capitals lowered. -/
def asciiLower (cs : List Char) : List Char := cs.map Char.toLower

/-- Whether a code point lies in one of the closed ranges of a table. -/
def inRanges (table : List (Nat × Nat)) (n : Nat) : Bool :=
  table.any fun r => r.1 ≤ n && n ≤ r.2

/-- The lower form of the capital `n`, when it belongs to the run. -/
def CapitalRun.lower? (r : CapitalRun) (n : Nat) : Option Nat :=
  if r.first ≤ n && n ≤ r.last && (n - r.first) % r.step == 0 then some (r.lower + (n - r.first))
  else none

/-- The lower form of a character that has a single one whatever stands beside it. -/
def simpleLower (c : Char) : Char :=
  if c.toNat < 0x80 then c.toLower
  else ((capitalRuns.findSome? (·.lower? c.toNat)).map Char.ofNat).getD c

/-- Whether a character stands inside a word without having case of its own. -/
def isCaseIgnorable (c : Char) : Bool :=
  if c.toNat < 0x80 then c == '\'' || c == '.' || c == ':' || c == '^' || c == '\x60'
  else inRanges caseIgnorableRanges c.toNat

/-- Whether a character is a letter with case. -/
def isCased (c : Char) : Bool :=
  if c.toNat < 0x80 then c.isAlpha else inRanges casedRanges c.toNat

/-- Whether the first character that is not ignored is a letter with case. -/
def meetsCased (cs : List Char) : Bool :=
  match cs.dropWhile isCaseIgnorable with
  | [] => false
  | c :: _ => isCased c

/-- The lower form of `c` between the characters before it, nearest first, and those after it. A
capital sigma that ends a word has a form of its own, and a dotted capital I keeps its dot as a
combining mark. -/
def lowerBetween (before : List Char) (c : Char) (after : List Char) : List Char :=
  if c = 'Σ' then [if meetsCased before && !meetsCased after then 'ς' else 'σ']
  else if c = 'İ' then ['i', '\u0307']
  else [simpleLower c]

/-- The lower form of the characters that follow `before`, which is held nearest first. -/
def lowerAfter (before : List Char) : List Char → List Char
  | [] => []
  | c :: after => lowerBetween before c after ++ lowerAfter (c :: before) after

/-- A text with all its letters lowered. -/
def lower (s : String) : String := String.ofList (lowerAfter [] s.toList)

end CssExpand.Text
