import CssExpand.Revision.Decision
import CssExpand.Shorthand.Motion
import CssExpand.Value.UnitCategory

/-!
# Units

Giving every bare zero of a value the unit that its property implies. A zero is bare when it is a
number without a unit, outside `{}` blocks and outside the functions whose numbers are their own.
The spelling of the zero is kept. In an `animation` the iteration count is no time and stays bare.
-/

set_option autoImplicit false

namespace CssExpand

open Syntax Value

/-! ## Zeros in a token tree -/

/-- The unit that numbers take on: the category around them, and whether functions change it. The rule
is handed down into functions, and a function may change it for what is in it. -/
structure UnitRule where
  category : UnitCategory
  byFunction : Bool
  deriving DecidableEq, Repr

namespace UnitRule

/-- The rule for a property, whose name is in lower case. -/
def ofProperty (prop : String) : UnitRule := ⟨.ofProperty prop, prop == "transform"⟩

/-- The rule inside a function, unless its numbers are its own. -/
def inside? (r : UnitRule) (function : List Char) : Option UnitRule :=
  let name := String.ofList (Text.asciiLower function)
  if closedFunctions.contains name || dimensionlessFunctions.contains name then none
  else if r.byFunction then
    some { r with category := (UnitCategory.ofFunction? name).getD r.category }
  else some r

/-- Whether a number is a zero that gets a unit. -/
def appliesTo (r : UnitRule) (n : Numeral) : Bool := n.isZero && r.category != .none

mutual

/-- A token with a unit at every bare zero in it. The rule goes into brackets however deep they nest, with
one call for each; a program does that only as far as its stack goes. -/
def apply (r : UnitRule) : Token → Token
  | .atom (.number n) =>
    if r.appliesTo n then .atom (.dimension n r.category.unit.toList) else .atom (.number n)
  | .atom a => .atom a
  | .function name arguments =>
    match r.inside? name with
    | some inner => .function name (applyAll inner arguments)
    | none => .function name arguments
  | .block .curly content => .block .curly content
  | .block bracket content => .block bracket (applyAll r content)

/-- A list of tokens with a unit at every bare zero. -/
def applyAll (r : UnitRule) : List Token → List Token
  | [] => []
  | t :: ts => apply r t :: applyAll r ts

end

mutual

/-- Whether a token has a bare zero in it. -/
def hasBareZero (r : UnitRule) : Token → Bool
  | .atom (.number n) => r.appliesTo n
  | .atom _ => false
  | .function name arguments =>
    match r.inside? name with
    | some inner => anyBareZero inner arguments
    | none => false
  | .block .curly _ => false
  | .block _ content => anyBareZero r content

/-- Whether a list of tokens has a bare zero. -/
def anyBareZero (r : UnitRule) : List Token → Bool
  | [] => false
  | t :: ts => hasBareZero r t || anyBareZero r ts

end

end UnitRule

/-! ## Iteration counts -/

/-- Marks the first number of each layer that is written like the iteration count of the layer:
`count` in the layer at hand and `later` in those after it. -/
def markCounts (count : Option String) (later : List (Option String)) : List Token → List Bool
  | [] => []
  | t :: ts =>
    if t.isComma then false :: markCounts later.head?.join later.tail ts
    else
      match t with
      | .atom (.number n) =>
        if count = some (String.ofList n.chars) then true :: markCounts none later ts
        else false :: markCounts count later ts
      | _ => false :: markCounts count later ts

/-- The position of the iteration count among the slots of an animation. -/
def countSlot : Nat := Shorthand.animation.slots.idxOf "iteration-count"

/-- The iteration count of each layer of an animation. -/
def countWords? (value : String) : Option (List (Option String)) :=
  (Shorthand.animation.layerSlots? value).map fun ls => ls.map fun slots => slots[countSlot]?.join

/-- Marks the tokens of a value that never get a unit, unless the value makes no sense. -/
def keptTokens? (prop value : String) (ts : List Token) : Option (List Bool) :=
  if prop == "animation" then
    (countWords? value).map fun counts => markCounts counts.head?.join counts.tail ts
  else some (ts.map fun _ => false)

/-! ## Values -/

/-- A declaration with a unit at every bare zero. -/
def withUnits (ignored : Ignored) (prop value : String) : Decision :=
  if isCustomName prop then .keep .customProperty
  else if ignored.covers prop then .keep .ignoredProperty
  else
    let prop := Text.lower prop
    let rule := UnitRule.ofProperty prop
    if rule.category = .none then .keep .unitlessProperty
    else
      let ts := Token.ofChars value.toList
      match keptTokens? prop value ts with
      | none => .keep .notClassifiable
      | some kept =>
        let marked := ts.zip kept
        if marked.any fun m => !m.2 && rule.hasBareZero m.1 then
          .replace
            [(prop, Token.write (marked.map fun m => if m.2 then m.1 else rule.apply m.1))]
        else .keep .noBareZero

/-- Refuses a value that `withUnits` has to read. -/
def checkUnits (ignored : Ignored) (prop value : String) : Except OverlongInteger Unit :=
  if isCustomName prop || ignored.covers prop || UnitCategory.ofProperty prop = .none then .ok ()
  else do
    checkIntegers value
    if Text.lower prop == "animation" then Shorthand.animation.check value

/-- Adding units. -/
def Revision.units (ignored : Ignored) : Revision := ⟨withUnits ignored, checkUnits ignored⟩

end CssExpand
