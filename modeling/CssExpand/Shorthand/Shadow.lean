import CssExpand.Shorthand.Spec
import CssExpand.Value.Word

/-!
# Box shadows

Up to four numeric words are the lengths in order, the word `inset` is a switch, and the last of the
other words is the color. The single word `none` is no shadow at all.
-/

set_option autoImplicit false

namespace CssExpand

open Value

/-- What was found of a shadow. -/
structure Shadow where
  lengths : List String := []
  color : Option String := none
  inset : Bool := false
  deriving DecidableEq, Repr

namespace Shadow

/-- The most lengths that a shadow has. -/
def maxLengths : Nat := 4

/-- The shadow with one more word. -/
def add (s : Shadow) (word : String) : Shadow :=
  if isOneOf ["inset"] word then { s with inset := true }
  else if s.lengths.length < maxLengths && yieldsNumber word then
    { s with lengths := s.lengths ++ [word] }
  else { s with color := some word }

/-- The slots in the order in which they are written. -/
def slots (s : Shadow) : Slots :=
  s.lengths.map some ++ List.replicate (maxLengths - s.lengths.length) none ++
    [s.color, if s.inset then some "inset" else none]

/-- Classifies words. -/
def ofWords? (ws : List String) : Option Shadow :=
  match ws with
  | [word] => if isOneOf ["none"] word then none else some (add {} word)
  | ws => some (ws.foldl add {})

/-- The words that are read while there is room for so many lengths. -/
def readWords : Nat → List String → List String
  | 0, _ => []
  | _ + 1, [] => []
  | room + 1, word :: ws =>
    word :: readWords (if !isOneOf ["inset"] word && yieldsNumber word then room else room + 1) ws

end Shadow

namespace Shorthand

/-- The `box-shadow` shorthand. -/
def boxShadow : Shorthand where
  name := "box-shadow"
  slots := ["offset-x", "offset-y", "blur-radius", "spread-radius", "color", "inset"]
  defaults := ["0", "0", "0", "0", "currentcolor", ""]
  assign ws := (Shadow.ofWords? ws).map Shadow.slots
  reads := Shadow.readWords Shadow.maxLengths
  layered := true

end Shorthand

end CssExpand
