import CssExpand.Value.Words

/-!
# Four sides

The rule that spreads one to four words over the sides of a box: a missing side takes the word of
the side across from it, and the top word where there is none.
-/

set_option autoImplicit false

namespace CssExpand.Value

/-- A side of a box. -/
inductive Side where
  | top
  | right
  | bottom
  | left
  deriving DecidableEq, Repr

/-- The name of a side. -/
def Side.name : Side → String
  | .top => "top"
  | .right => "right"
  | .bottom => "bottom"
  | .left => "left"

/-- The sides in the order in which a value names them. -/
def Side.all : List Side := [.top, .right, .bottom, .left]

/-- Something for each side. -/
structure Sides where
  top : String
  right : String
  bottom : String
  left : String
  deriving DecidableEq, Repr

/-- What belongs to one side. -/
def Sides.get (s : Sides) : Side → String
  | .top => s.top
  | .right => s.right
  | .bottom => s.bottom
  | .left => s.left

/-- Spreads one to four words over the sides. -/
def Sides.ofWords? : List String → Option Sides
  | [top] => some ⟨top, top, top, top⟩
  | [top, right] => some ⟨top, right, top, right⟩
  | [top, right, bottom] => some ⟨top, right, bottom, right⟩
  | [top, right, bottom, left] => some ⟨top, right, bottom, left⟩
  | _ => none

/-- Each side with its word, in order. -/
def Sides.toList (s : Sides) : List (Side × String) := Side.all.map fun side => (side, s.get side)

end CssExpand.Value
