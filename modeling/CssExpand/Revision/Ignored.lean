import CssExpand.Text.Blank
import CssExpand.Text.LetterCase

/-!
# Ignored properties

The property names that a pass leaves alone. Names are trimmed and lowered when they are taken in,
and blank ones count for nothing.
-/

set_option autoImplicit false

namespace CssExpand

/-- Names of properties that no pass touches. -/
structure Ignored where
  names : List String
  deriving DecidableEq, Repr

namespace Ignored

/-- Ignores nothing. -/
def nothing : Ignored := ⟨[]⟩

/-- Takes in a list of names. -/
def ofNames (names : List String) : Ignored :=
  ⟨((names.filter (!Text.isBlankText ·)).map fun name => Text.lower (Text.strip name)).eraseDups⟩

/-- Takes in names separated by commas. -/
def ofText (text : String) : Ignored := ofNames (text.splitOn ",")

/-- Whether a property is ignored, whatever the case of its name. -/
def covers (ignored : Ignored) (prop : String) : Bool := ignored.names.contains (Text.lower prop)

/-- The names in the order of their code points. -/
def sorted (ignored : Ignored) : List String := ignored.names.mergeSort fun a b => !decide (b < a)

end Ignored

end CssExpand
