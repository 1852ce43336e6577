import CssExpand.Text.Blank
import CssExpand.Text.Quoted
import CssExpand.Text.WordCharacter

/-!
# Declarations

A declaration gives a property a value. Two kinds are never changed: custom properties, whose
values are anybody's, and hacks, which only work because some browsers misread them. A hack shows in
the name (`_height`, `*zoom`) or in the value (`red\9`, `red\0/`, `red !ie`).
-/

set_option autoImplicit false

namespace CssExpand

/-- A property with its value. The value is text and not tokens, since the passes hand on nothing else;
each of them reads it again. -/
structure Declaration where
  prop : String
  value : String
  important : Bool := false
  deriving DecidableEq, Repr

/-- Whether a property name is that of a custom property. -/
def isCustomName (prop : String) : Bool := ['-', '-'].isPrefixOf prop.toList

/-! ## Hacks -/

/-- Whether the text starts with the word `ie`, whatever the case of its letters. Letters `i` with
and without a dot count as the same. -/
def startsWithIe : List Char → Bool
  | i :: e :: rest =>
    (i == 'i' || i == 'I' || i == 'İ' || i == 'ı') && (e == 'e' || e == 'E') && Text.endsWord rest
  | _ => false

/-- Whether the text holds an exclamation mark with the word `ie` after it. -/
def hasBangIe : List Char → Bool
  | [] => false
  | c :: rest => (c == '!' && startsWithIe (rest.dropWhile Text.isBlank)) || hasBangIe rest

/-- Whether a property name makes a hack. -/
def isHackName (prop : String) : Bool := prop.toList.head?.any fun c => c == '_' || c == '*'

/-- Whether a value makes a hack. -/
def isHackValue (value : String) : Bool :=
  ['\\', '9'].isSuffixOf value.toList || ['\\', '0', '/'].isSuffixOf value.toList ||
    hasBangIe value.toList

namespace Declaration

/-- Whether a declaration is one of a custom property. -/
def isCustom (d : Declaration) : Bool := isCustomName d.prop

/-- Whether a declaration is a hack, which no pass may touch. -/
def isHack (d : Declaration) : Bool := !d.isCustom && (isHackName d.prop || isHackValue d.value)

/-- The text of a declaration in a rule. -/
def written (d : Declaration) : String :=
  d.prop ++ ": " ++ d.value ++ (if d.important then " !important" else "") ++ ";"

/-- A declaration as it is shown inside a message. -/
def display (d : Declaration) : String :=
  "Declaration(prop=" ++ Text.quoted d.prop ++ ", value=" ++ Text.quoted d.value ++
    ", important=" ++ (if d.important then "True" else "False") ++ ")"

end Declaration

end CssExpand
