import CssExpand.Pass

/-!
# Settings

Which passes run, and what they leave alone.
-/

set_option autoImplicit false

namespace CssExpand

/-- The passes there are, in the order in which they run. -/
inductive PassKind where
  | longhands
  | defaults
  | units
  deriving DecidableEq, Repr

/-- The pass of a kind. -/
def PassKind.pass (ignored : Ignored) : PassKind → Pass
  | .longhands => .longhands ignored
  | .defaults => .defaults .standard ignored
  | .units => .units ignored

/-- Which passes run, and the properties that they leave alone. -/
structure Settings where
  ignored : Ignored := .nothing
  longhands : Bool := true
  defaults : Bool := true
  units : Bool := true
  deriving DecidableEq, Repr

namespace Settings

/-- Whether the settings ask for a kind of pass. -/
def runs (s : Settings) : PassKind → Bool
  | .longhands => s.longhands
  | .defaults => s.defaults
  | .units => s.units

/-- The kinds of the passes that run. -/
def kinds (s : Settings) : List PassKind := [.longhands, .defaults, .units].filter s.runs

/-- The passes that run. -/
def passes (s : Settings) : List Pass := s.kinds.map (PassKind.pass s.ignored)

end Settings

end CssExpand
