import CssExpand.Value.Word

/-!
# Width, style and color

The grammar of a border line. Every word belongs to exactly one of three parts, in any order; a
second word for a part replaces the first and is noted as a collision.
-/

set_option autoImplicit false

namespace CssExpand.Value

/-- A part of a border line. -/
inductive BorderPart where
  | width
  | style
  | color
  deriving DecidableEq, Repr

/-- The name of a part. -/
def BorderPart.name : BorderPart → String
  | .width => "width"
  | .style => "style"
  | .color => "color"

/-- The parts in the order in which longhands are written. -/
def BorderPart.all : List BorderPart := [.width, .style, .color]

/-- What a part is when it is left out. -/
def BorderPart.default : BorderPart → String
  | .width => "medium"
  | .style => "none"
  | .color => "currentcolor"

def BorderPart.styleKeywords : List String :=
  ["none", "hidden", "dotted", "dashed", "solid", "double", "groove", "ridge", "inset", "outset"]

def BorderPart.widthKeywords : List String := ["thin", "medium", "thick"]

/-- The part that a word belongs to. Whatever is neither a style nor a width is a color. -/
def BorderPart.ofWord (word : String) : BorderPart :=
  if isOneOf BorderPart.styleKeywords word then .style
  else if isOneOf BorderPart.widthKeywords word || isLength word then .width
  else .color

/-- The parts of a border line, and what did not fit: the parts that got more than one word, and
global keywords among other words. -/
structure Border where
  width : Option String := none
  style : Option String := none
  color : Option String := none
  collisions : List BorderPart := []
  keywords : List String := []
  deriving DecidableEq, Repr

namespace Border

/-- The word of a part. -/
def get (b : Border) : BorderPart → Option String
  | .width => b.width
  | .style => b.style
  | .color => b.color

/-- The line with the word of a part replaced. -/
def set (b : Border) (word : String) : BorderPart → Border
  | .width => { b with width := some word }
  | .style => { b with style := some word }
  | .color => { b with color := some word }

/-- The line with one more word. -/
def add (b : Border) (word : String) : Border :=
  if isOneOf wideKeywords word then { b with keywords := b.keywords ++ [word] }
  else
    let part := BorderPart.ofWord word
    let b := if (b.get part).isSome then { b with collisions := b.collisions ++ [part] } else b
    b.set word part

/-- Classifies words. -/
def ofWords (ws : List String) : Border := ws.foldl add {}

/-- The words of the three parts. -/
def values (b : Border) : List (Option String) := BorderPart.all.map b.get

/-- Whether some part has a word, none has two, and no global keyword stands among them. -/
def isValid (b : Border) : Bool :=
  b.collisions.isEmpty && b.keywords.isEmpty && b.values.any Option.isSome

/-- The words of the parts, filled from `defaults` as far as these reach. -/
def filled (b : Border) (defaults : List String) : List String :=
  List.zipWith (fun value default => value.getD default) b.values defaults

/-- The word of a part, or what the part is when left out. -/
def getFilled (b : Border) (part : BorderPart) : String := (b.get part).getD part.default

end Border

end CssExpand.Value
