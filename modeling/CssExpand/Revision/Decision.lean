import CssExpand.Revision.Ignored
import CssExpand.Sheet.Declaration
import CssExpand.Value.Word

/-!
# Decisions

What a revision decides about one declaration: either it names the declarations that take its place,
or it says why the declaration stays. Most revisions look first whether the declaration may be
touched at all (`protectedBy?`).
-/

set_option autoImplicit false

namespace CssExpand

open Syntax Value

/-- Why a declaration is left as it is. -/
inductive Reason where
  | customProperty
  | ignoredProperty
  | emptyValue
  | globalKeyword
  | notOneToFourValues
  | notOneOrTwoValues
  | twoColumnWidths
  | twoColumnCounts
  | notALine
  | notABorder
  | notCompound
  | noGrammar
  | notClassifiable
  | alreadyComplete
  | unitlessProperty
  | noBareZero
  deriving DecidableEq, Repr

/-- The text of a reason. -/
def Reason.text : Reason → String
  | .customProperty => "custom property"
  | .ignoredProperty => "ignored property"
  | .emptyValue => "empty value"
  | .globalKeyword => "global keyword"
  | .notOneToFourValues => "expected 1 to 4 values"
  | .notOneOrTwoValues => "expected 1 or 2 values"
  | .twoColumnWidths => "two column widths"
  | .twoColumnCounts => "two column counts"
  | .notALine => "invalid width/style/color value"
  | .notABorder => "not a border shorthand"
  | .notCompound => "not an exploded shorthand"
  | .noGrammar => "no shorthand grammar"
  | .notClassifiable => "value not classifiable"
  | .alreadyComplete => "already complete"
  | .unitlessProperty => "unitless property"
  | .noBareZero => "no bare zero"

/-- What a revision decides about one declaration. One pair with the name that the declaration has
already gives it another value. Any other replacement is made of new declarations. -/
inductive Decision where
  /-- These properties with their values take its place, in this order. -/
  | replace (pairs : List (String × String))
  | keep (reason : Reason)
  deriving DecidableEq, Repr

/-- The properties and values that take the place of a declaration. -/
def Decision.pairs? : Decision → Option (List (String × String))
  | .replace pairs => some pairs
  | .keep _ => none

/-- Why no revision may touch a declaration. -/
def protectedBy? (ignored : Ignored) (prop value : String) : Option Reason :=
  if isCustomName prop then some .customProperty
  else if ignored.covers prop then some .ignoredProperty
  else if Text.isBlankText value then some .emptyValue
  else if isWideKeyword value then some .globalKeyword
  else none

/-- A way to change single declarations. Reading a value can fail, deciding cannot. The two are apart
so that a decision can be talked about without asking each time whether the value was read. -/
structure Revision where
  /-- What is decided about a property and its value. -/
  decide : String → String → Decision
  /-- Refuses a value that has to be read and holds an overlong integer. -/
  check : String → String → Except OverlongInteger Unit

/-- What is decided about a property and its value, unless the value is refused. -/
def Revision.run (r : Revision) (prop value : String) : Except OverlongInteger Decision := do
  r.check prop value
  pure (r.decide prop value)

end CssExpand
