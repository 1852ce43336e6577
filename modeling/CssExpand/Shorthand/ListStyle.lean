import CssExpand.Shorthand.Spec
import CssExpand.Value.Word

/-!
# List styles

A position and an image are known by their looks, and everything else is the type. The word `none`
is the type at first; once there is a type it can only be the image.
-/

set_option autoImplicit false

namespace CssExpand

open Value

def ListStyle.positionKeywords : List String := ["inside", "outside"]

/-- How the functions start that make an image. -/
def ListStyle.imageStarts : List String :=
  ["url(", "image(", "image-set(", "cross-fade(", "element(", "linear-gradient(",
   "radial-gradient(", "conic-gradient(", "repeating-linear-gradient(",
   "repeating-radial-gradient(", "repeating-conic-gradient("]

/-- The slots of a list style. -/
structure ListStyle where
  kind : Option String := none
  position : Option String := none
  image : Option String := none
  deriving DecidableEq, Repr

namespace ListStyle

/-- The list style with one more word. -/
def add (l : ListStyle) (word : String) : ListStyle :=
  if isOneOf ["none"] word && l.kind.isSome then { l with image := some word }
  else if isOneOf positionKeywords word then { l with position := some word }
  else if startsWithOneOf imageStarts word then { l with image := some word }
  else { l with kind := some word }

/-- Classifies words. -/
def ofWords (ws : List String) : ListStyle := ws.foldl add {}

/-- The slots in the order in which they are written. -/
def slots (l : ListStyle) : Slots := [l.kind, l.position, l.image]

end ListStyle

namespace Shorthand

/-- The `list-style` shorthand. -/
def listStyle : Shorthand where
  name := "list-style"
  slots := ["type", "position", "image"]
  defaults := ["disc", "outside", "none"]
  assign ws := some (ListStyle.ofWords ws).slots
  reads _ := []

end Shorthand

end CssExpand
