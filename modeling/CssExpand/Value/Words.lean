import CssExpand.Syntax.Nesting
import CssExpand.Syntax.Written
import CssExpand.Text.Blank

/-!
# Words of a value

A value is taken apart into words at whitespace and into layers at commas. Only whitespace and
commas outside every bracket separate, so `rgb(0, 0, 0)` is one word. Comments are dropped first, at
every depth; an empty one comes back where two tokens would otherwise run together.
-/

set_option autoImplicit false

namespace CssExpand.Value

open Syntax

/-- The tokens of a value, without comments. -/
def tokens (value : String) : List Token := Token.listWithoutComments (Token.ofChars value.toList)

/-- The texts between separating tokens. -/
def pieces (separates : Token → Bool) (ts : List Token) : List String :=
  (Token.splitAt separates ts).map fun piece => String.ofList (Text.trim (Token.listWritten piece))

/-- The words of a value, none of them empty. -/
def words (value : String) : List String :=
  (pieces Token.isWhitespace (tokens value)).filter (!·.isEmpty)

/-- The layers of a value. Empty ones are kept, so that `a, , b` differs from `a, b`; a blank value
has none. -/
def layers (value : String) : List String :=
  if Text.isBlankText value then [] else pieces Token.isComma (tokens value)

/-- Refuses a list of words one of which holds an overlong integer. -/
def checkWords (ws : List String) : Except OverlongInteger Unit := ws.forM checkIntegers

end CssExpand.Value
