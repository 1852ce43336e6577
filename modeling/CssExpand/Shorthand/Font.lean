import CssExpand.Shorthand.Spec
import CssExpand.Value.Word

/-!
# Fonts

A font is found from its size: the last word that is a size before its first slash. The line height
follows the slash, the words after it are the family, and each word before it has to be a style, a
variant, a weight or a stretch. Words around a slash are glued together first, so that spaces there
do not matter (`glueSlashes`).
-/

set_option autoImplicit false

namespace CssExpand

open Value

def Font.styleKeywords : List String := ["italic", "oblique"]

def Font.variantKeywords : List String := ["small-caps"]

def Font.weightKeywords : List String := ["bold", "bolder", "lighter"]

def Font.stretchKeywords : List String :=
  ["ultra-condensed", "extra-condensed", "condensed", "semi-condensed", "semi-expanded",
   "expanded", "extra-expanded", "ultra-expanded"]

def Font.sizeKeywords : List String :=
  ["xx-small", "x-small", "small", "medium", "large", "x-large", "xx-large", "xxx-large",
   "smaller", "larger"]

/-- Whether a word is a font size. -/
def Font.isSize (word : String) : Bool :=
  isOneOf Font.sizeKeywords word || isLengthPercentage word || startsWithOneOf mathStarts word

/-- Whether a word is a font weight. -/
def Font.isWeight (word : String) : Bool :=
  isOneOf Font.weightKeywords word || (number? word).any (·.isOneToThousand)

/-! ## Slashes -/

/-- Whether a slash glues two neighbouring words together. -/
def gluedBySlash (last word : String) : Bool :=
  word.toList.head? == some '/' || last.toList.getLast? == some '/'

/-- Glues words onto the one before them as long as there is a slash between. -/
def glueOnto (last : String) : List String → List String
  | [] => [last]
  | word :: ws =>
    if gluedBySlash last word then glueOnto (last ++ word) ws else last :: glueOnto word ws

/-- Words with those around a slash glued together. -/
def glueSlashes : List String → List String
  | [] => []
  | word :: ws => glueOnto word ws

/-- The part of a word before its first slash. -/
def beforeSlash (word : String) : String := String.ofList (word.toList.takeWhile (· != '/'))

/-- The part of a word after its first slash, if there is anything. -/
def afterSlash? (word : String) : Option String :=
  match (word.toList.dropWhile (· != '/')).tail with
  | [] => none
  | rest => some (String.ofList rest)

/-! ## Classification -/

/-- What a word before the size can be. -/
inductive FontWord where
  | normal
  | style
  | variant
  | weight
  | stretch
  deriving DecidableEq, Repr

/-- The kind of a word, by the first rule that it fits. -/
def FontWord.ofWord? (word : String) : Option FontWord :=
  if isOneOf ["normal"] word then some .normal
  else if isOneOf Font.styleKeywords word then some .style
  else if isOneOf Font.variantKeywords word then some .variant
  else if Font.isWeight word then some .weight
  else if isOneOf Font.stretchKeywords word then some .stretch
  else none

/-- The slots of a font. -/
structure Font where
  style : Option String := none
  variant : Option String := none
  weight : Option String := none
  stretch : Option String := none
  size : Option String := none
  lineHeight : Option String := none
  family : Option String := none
  deriving DecidableEq, Repr

/-- Cuts a list at the last element that satisfies `p`. -/
def cutAtLast? {α : Type} (p : α → Bool) : List α → Option (List α × α × List α)
  | [] => none
  | x :: xs =>
    match cutAtLast? p xs with
    | some (before, y, after) => some (x :: before, y, after)
    | none => if p x then some ([], x, xs) else none

namespace Font

/-- The font with one more word before its size, if the word fits. -/
def add? (f : Font) (word : String) : Option Font :=
  (FontWord.ofWord? word).map fun
    | .normal => f
    | .style => { f with style := some word }
    | .variant => { f with variant := some word }
    | .weight => { f with weight := some word }
    | .stretch => { f with stretch := some word }

/-- Classifies words. Those before the size are taken from right to left, so the first of a kind
counts. System fonts, which have no size, are not classified. -/
def ofWords? (ws : List String) : Option Font := do
  let (before, word, after) ← cutAtLast? (isSize ∘ beforeSlash) (glueSlashes ws)
  let family := if after.isEmpty then none else some (" ".intercalate after)
  let sized : Font :=
    { size := some (beforeSlash word), lineHeight := afterSlash? word, family := family }
  before.reverse.foldlM add? sized

/-- The texts that are read: the parts before a slash from the last word back to the size, then the
words in front of it from right to left, as long as they fit. -/
def readParts (ws : List String) : List String :=
  let backwards := (glueSlashes ws).reverse
  let toSize := takeThrough (isSize ∘ beforeSlash) backwards
  toSize.map beforeSlash ++
    takeThrough (fun word => (FontWord.ofWord? word).isNone) (backwards.drop toSize.length)

/-- The slots in the order in which they are written. -/
def slots (f : Font) : Slots :=
  [f.style, f.variant, f.weight, f.stretch, f.size, f.lineHeight, f.family]

/-- Writes the filled slots, with a slash between size and line height. -/
def join : List String → String
  | [style, variant, weight, stretch, size, lineHeight, family] =>
    " ".intercalate [style, variant, weight, stretch, size ++ "/" ++ lineHeight, family]
  | _ => ""

end Font

namespace Shorthand

/-- The `font` shorthand. -/
def font : Shorthand where
  name := "font"
  slots := ["style", "variant", "weight", "stretch", "size", "line-height", "family"]
  defaults := ["normal", "normal", "normal", "normal", "medium", "normal", "sans-serif"]
  assign ws := (Font.ofWords? ws).map Font.slots
  reads := Font.readParts
  join := Font.join

end Shorthand

end CssExpand
