import CssExpand.Shorthand.Font
import CssExpand.Shorthand.Layout
import CssExpand.Shorthand.ListStyle
import CssExpand.Shorthand.Motion
import CssExpand.Shorthand.Outline
import CssExpand.Shorthand.Shadow

/-!
# Known shorthands

The shorthands whose grammar is known, each under a name of its own. A registry is a value: adding
to it gives another one.
-/

set_option autoImplicit false

namespace CssExpand

/-- Shorthands, each found by its name. -/
abbrev Registry := List Shorthand

/-- Why a shorthand cannot be added to a registry. -/
inductive RegistryError where
  | slotsWithoutDefaults (name : String) (slots defaults : Nat)
  | nameTaken (name : String)
  deriving DecidableEq, Repr

/-- The message for a refused shorthand. -/
def RegistryError.message : RegistryError → String
  | .slotsWithoutDefaults name slots defaults => s!"{name}: {slots} slots but {defaults} defaults"
  | .nameTaken name => s!"Shorthand already registered: {name}"

namespace Registry

/-- The shorthands known from the start. -/
def standard : Registry :=
  [.animation, .transition, .boxShadow, .flex, .gap, .listStyle, .font, .outline]

/-- The shorthand of a name, which has to match exactly. -/
def find? (r : Registry) (name : String) : Option Shorthand := List.find? (·.name == name) r

/-- Adds a shorthand whose words are joined by spaces and assigned without being read. Its defaults
are counted before its name is looked up. -/
def add (r : Registry) (name : String) (slots defaults : List String) (layered : Bool)
    (assign : List String → Option Slots) : Except RegistryError Registry :=
  if h : defaults.length = slots.length then
    if (r.find? name).isSome then .error (.nameTaken name)
    else
      .ok (r ++ [{ name := name, slots := slots, defaults := defaults, length_defaults := h,
                   assign := assign, reads := fun _ => [], layered := layered }])
  else .error (.slotsWithoutDefaults name slots.length defaults.length)

end Registry

end CssExpand
