import CssExpand.Text.LetterCase
import CssExpand.Text.WordCharacter.Table

/-!
# Word characters

The characters a word of running text is made of. A word ends where one of them is followed by
something else; combining marks do not belong to it.
-/

set_option autoImplicit false

namespace CssExpand.Text

/-- Whether a character is a letter, a numeric character or an underscore. -/
def isWordCharacter (c : Char) : Bool :=
  if c.toNat < 0x80 then c.isAlphanum || c == '_' else inRanges alphanumericRanges c.toNat

/-- Whether a word that stops before `cs` is complete there. -/
def endsWord : List Char → Bool
  | [] => true
  | c :: _ => !isWordCharacter c

end CssExpand.Text
