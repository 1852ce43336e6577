import CssExpand.Text.LetterCase
import CssExpand.Text.Quoted.Table

/-!
# Quoted display

How a text is shown inside a message: between single quotes, or between double ones when it holds a
single quote and no double one. Backslashes and the quote itself take a backslash, and characters
that cannot be printed are written as codes.
-/

set_option autoImplicit false

namespace CssExpand.Text

/-- Whether a character shows itself in a quoted display. -/
def isPrintable (c : Char) : Bool :=
  if c.toNat < 0x80 then 0x20 ≤ c.toNat && c.toNat ≤ 0x7E
  else !inRanges unprintableRanges c.toNat

/-- The number `n` in lower-case hexadecimal, filled with zeros to `width` digits. -/
def hexCode (width n : Nat) : List Char :=
  let digits := Nat.toDigits 16 n
  List.replicate (width - digits.length) '0' ++ digits

/-- One character of a display between `quote`s. -/
def quotedChar (quote c : Char) : List Char :=
  if c = quote || c = '\\' then ['\\', c]
  else if c = '\n' then ['\\', 'n']
  else if c = '\r' then ['\\', 'r']
  else if c = '\t' then ['\\', 't']
  else if isPrintable c then [c]
  else if c.toNat < 0x100 then '\\' :: 'x' :: hexCode 2 c.toNat
  else if c.toNat < 0x10000 then '\\' :: 'u' :: hexCode 4 c.toNat
  else '\\' :: 'U' :: hexCode 8 c.toNat

/-- A text in quotes. -/
def quoted (s : String) : String :=
  let cs := s.toList
  let quote := if cs.contains '\'' && !cs.contains '"' then '"' else '\''
  String.ofList (quote :: cs.flatMap (quotedChar quote) ++ [quote])

end CssExpand.Text
