import CssExpand.Text.LetterCase
import CssExpand.Value.Words

/-!
# Single words

What a word of a value can be: the questions that the shorthand grammars ask of it. A word is read
anew, and only one that holds a single token can be a number, a dimension or a function.
-/

set_option autoImplicit false

namespace CssExpand.Value

open Syntax

/-! ## Keywords -/

/-- Keywords that every property takes as its whole value. -/
def wideKeywords : List String := ["inherit", "initial", "unset", "revert"]

def lengthUnits : List String :=
  ["em", "ex", "ch", "rem", "lh", "rlh", "cap", "ic",
   "vw", "vh", "vi", "vb", "vmin", "vmax",
   "svw", "svh", "lvw", "lvh", "dvw", "dvh",
   "cqw", "cqh", "cqi", "cqb", "cqmin", "cqmax",
   "cm", "mm", "q", "in", "pt", "pc", "px"]

def timeUnits : List String := ["s", "ms"]

/-- How the functions start that compute a number or a dimension. -/
def mathStarts : List String := ["calc(", "min(", "max(", "clamp("]

def easingKeywords : List String :=
  ["ease", "linear", "ease-in", "ease-out", "ease-in-out", "step-start", "step-end"]

/-- How the easing functions start. -/
def easingStarts : List String := ["cubic-bezier(", "steps(", "linear("]

/-! ## Questions -/

/-- Whether a word, lowered, is one of the keywords. -/
def isOneOf (keywords : List String) (word : String) : Bool := keywords.contains (Text.lower word)

/-- Whether a word, lowered, starts with one of the texts. -/
def startsWithOneOf (starts : List String) (word : String) : Bool :=
  starts.any fun start => start.toList.isPrefixOf (Text.lower word).toList

/-- The token of a word that holds a single one. A fault is no token here. -/
def loneToken? (word : String) : Option Token :=
  match (tokens word).filter Token.isSignificant with
  | [.atom (.fault _)] => none
  | [t] => some t
  | _ => none

/-- The number that a word is. -/
def number? (word : String) : Option Numeral :=
  match loneToken? word with
  | some (.atom (.number n)) => some n
  | _ => none

/-- Whether a whole value is a keyword that every property takes. -/
def isWideKeyword (value : String) : Bool := isOneOf wideKeywords (Text.strip value)

/-- Whether a word is a number without a unit. -/
def isNumber (word : String) : Bool := (number? word).isSome

/-- Whether a word is a number written as an integer. -/
def isInteger (word : String) : Bool := (number? word).any (·.isInteger)

/-- Whether a word is a number of value zero. -/
def isZero (word : String) : Bool := (number? word).any (·.isZero)

/-- Whether a word is a percentage. -/
def isPercentage (word : String) : Bool :=
  match loneToken? word with
  | some (.atom (.percentage _)) => true
  | _ => false

/-- Whether a word is a number with a unit, whatever the unit is. -/
def isDimension (word : String) : Bool :=
  match loneToken? word with
  | some (.atom (.dimension _ _)) => true
  | _ => false

/-- The unit of a dimension in lower case, or the percent sign of a percentage. -/
def unit? (word : String) : Option String :=
  match loneToken? word with
  | some (.atom (.dimension _ unit)) => some (String.ofList (Text.asciiLower unit))
  | some (.atom (.percentage _)) => some "%"
  | _ => none

/-- Whether a word is a length; zero needs no unit. -/
def isLength (word : String) : Bool := (unit? word).any lengthUnits.contains || isZero word

/-- Whether a word is a length or a percentage. -/
def isLengthPercentage (word : String) : Bool := isLength word || isPercentage word

/-- Whether a word is a time. -/
def isTime (word : String) : Bool := (unit? word).any timeUnits.contains

/-- Whether a word is a number, with or without a unit, or computes one. -/
def yieldsNumber (word : String) : Bool :=
  match loneToken? word with
  | none => false
  | some (.atom (.number _)) | some (.atom (.percentage _)) | some (.atom (.dimension _ _)) => true
  | some _ => startsWithOneOf mathStarts word

/-- Whether a word is a call of a function, of one of the `names` if there are any. -/
def isCallOf (names : List String) (word : String) : Bool :=
  match loneToken? word with
  | some (.function name _) =>
    names.isEmpty || names.contains (String.ofList (Text.asciiLower name))
  | _ => false

/-- Whether a word is an easing. -/
def isEasing (word : String) : Bool :=
  isOneOf easingKeywords word || startsWithOneOf easingStarts word

end CssExpand.Value
