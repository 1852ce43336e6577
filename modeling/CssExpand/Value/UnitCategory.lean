import CssExpand.Text.LetterCase

/-!
# Unit categories

Which physical dimension the numbers of a property have, and with it the unit that a bare zero of
that property stands for. In a `transform` the dimension hangs on the function around the number.
-/

set_option autoImplicit false

namespace CssExpand.Value

/-- The dimension of a number. A number of no category gets no unit. -/
inductive UnitCategory where
  | length
  | time
  | angle
  | frequency
  | resolution
  | none
  deriving DecidableEq, Repr

/-- The name of a category. -/
def UnitCategory.name : UnitCategory → String
  | .length => "length"
  | .time => "time"
  | .angle => "angle"
  | .frequency => "frequency"
  | .resolution => "resolution"
  | .none => "none"

/-- The unit that a bare zero of a category gets; numbers without a dimension get none. -/
def UnitCategory.unit : UnitCategory → String
  | .length => "px"
  | .time => "s"
  | .angle => "deg"
  | .frequency => "Hz"
  | .resolution => "dppx"
  | .none => ""

/-! ## Properties -/

def lengthProperties : List String :=
  ["width", "height", "min-width", "max-width", "min-height", "max-height", "inline-size",
   "block-size", "margin", "margin-top", "margin-right", "margin-bottom", "margin-left",
   "padding", "padding-top", "padding-right", "padding-bottom", "padding-left", "border",
   "border-top", "border-right", "border-bottom", "border-left", "border-width",
   "border-top-width", "border-right-width", "border-bottom-width", "border-left-width",
   "border-radius", "border-top-left-radius", "border-top-right-radius",
   "border-bottom-left-radius", "border-bottom-right-radius", "border-spacing", "outline",
   "outline-width", "outline-offset", "column-rule-width", "top", "right", "bottom", "left",
   "inset", "text-indent", "text-shadow", "box-shadow", "letter-spacing", "word-spacing",
   "font-size", "column-width", "column-gap", "row-gap", "gap", "grid-gap", "grid-column-gap",
   "grid-row-gap", "grid-template-columns", "grid-template-rows", "grid-auto-columns",
   "grid-auto-rows", "flex-basis", "background-size", "background-position",
   "background-position-x", "background-position-y", "object-position", "offset-distance",
   "transform-origin", "perspective", "perspective-origin", "mask-position", "mask-size",
   "mask-border-width", "clip-path", "stroke-width", "stroke-dasharray", "stroke-dashoffset",
   "scroll-margin", "scroll-padding"]

def timeProperties : List String :=
  ["transition", "transition-duration", "transition-delay", "animation", "animation-duration",
   "animation-delay"]

def angleProperties : List String :=
  ["transform", "rotate", "offset-rotate", "azimuth", "elevation"]

def frequencyProperties : List String := ["audio-pitch"]

def resolutionProperties : List String := ["resolution", "image-resolution"]

/-- The category of a property, whose name is lowered first. Properties that are in no list, such
as those whose plain numbers mean something, have none. -/
def UnitCategory.ofProperty (prop : String) : UnitCategory :=
  let prop := Text.lower prop
  if lengthProperties.contains prop then .length
  else if timeProperties.contains prop then .time
  else if angleProperties.contains prop then .angle
  else if frequencyProperties.contains prop then .frequency
  else if resolutionProperties.contains prop then .resolution
  else .none

/-! ## Functions -/

def lengthFunctions : List String :=
  ["translate", "translatex", "translatey", "translatez", "translate3d", "perspective"]

def angleFunctions : List String :=
  ["rotate", "rotatex", "rotatey", "rotatez", "rotate3d", "skew", "skewx", "skewy"]

def plainFunctions : List String :=
  ["scale", "scalex", "scaley", "scalez", "scale3d", "matrix", "matrix3d"]

/-- The category that a function of a `transform` gives to the numbers in it. -/
def UnitCategory.ofFunction? (name : String) : Option UnitCategory :=
  if lengthFunctions.contains name then some .length
  else if angleFunctions.contains name then some .angle
  else if plainFunctions.contains name then some .none
  else Option.none

/-- Functions whose bodies are never touched. -/
def closedFunctions : List String := ["calc", "min", "max", "clamp", "var", "env"]

/-- Functions whose numbers have no dimension in any property: colors and easings. -/
def dimensionlessFunctions : List String :=
  ["rgb", "rgba", "hsl", "hsla", "hwb", "lab", "lch", "oklab", "oklch", "color", "color-mix",
   "light-dark", "cubic-bezier", "steps", "linear"]

end CssExpand.Value
