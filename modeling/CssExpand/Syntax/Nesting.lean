import CssExpand.Syntax.Lexeme

/-!
# The bracket tree of a text

Nesting flat lexemes into tokens (`nest`), and reading a whole text that way. A closing bracket
closes the innermost open one and nothing else; one that does not fit is a fault in its place. What
is open at the end of the text is closed there silently.

A text is refused for one thing only: an integer with more digits than `Numeral.digitLimit`.
-/

set_option autoImplicit false

namespace CssExpand.Syntax

/-- What opened a list of tokens. -/
inductive Opener where
  | function (name : List Char)
  | block (bracket : Bracket)
  deriving DecidableEq, Repr

/-- The bracket that closes what was opened. -/
def Opener.bracket : Opener → Bracket
  | .function _ => .round
  | .block b => b

/-- The token that is made when what was opened is closed. -/
def Opener.token : Opener → List Token → Token
  | .function name, content => .function name content
  | .block b, content => .block b content

/-- Something open, with the tokens before it in the list around it, the last one first. -/
structure Frame where
  opener : Opener
  before : List Token

/-- The list around a frame once the frame is closed over `content`; both are last first. -/
def Frame.close (f : Frame) (content : List Token) : List Token :=
  f.opener.token content.reverse :: f.before

/-- Nests lexemes inside open frames, innermost first, after the tokens of the innermost list so
far, last first. -/
def nest : List Frame → List Token → List Lexeme → List Token
  | frames, current, [] => (frames.foldl (fun content f => f.close content) current).reverse
  | frames, current, .atom a :: rest => nest frames (.atom a :: current) rest
  | frames, current, .openFunction name :: rest =>
    nest (⟨.function name, current⟩ :: frames) [] rest
  | frames, current, .openBlock b :: rest => nest (⟨.block b, current⟩ :: frames) [] rest
  | [], current, .close b :: rest => nest [] (.atom (.fault (.stray b)) :: current) rest
  | f :: frames, current, .close b :: rest =>
    if f.opener.bracket = b then nest frames (f.close current) rest
    else nest (f :: frames) (.atom (.fault (.stray b)) :: current) rest

/-- The tokens of a text, however long its integers are. -/
def Token.ofChars (cs : List Char) : List Token := nest [] [] (Lexeme.scan (unifyBreaks cs))

/-! ## Reading a text -/

/-- An integer in the text has too many digits. Nothing else in a text can stop the reading of it. -/
structure OverlongInteger where
  digits : Nat
  deriving DecidableEq, Repr

/-- The message for an overlong integer. -/
def OverlongInteger.message (e : OverlongInteger) : String :=
  s!"Exceeds the limit ({Numeral.digitLimit} digits) for integer string conversion: value has " ++
    s!"{e.digits} digits; use sys.set_int_max_str_digits() to increase the limit"

/-- The digits of an overlong integer that a lexeme carries. -/
def Lexeme.overlong? : Lexeme → Option Nat
  | .atom a => a.numeral?.bind Numeral.overlong?
  | _ => none

/-- Refuses a text with an overlong integer, naming the first one. -/
def checkIntegers (s : String) : Except OverlongInteger Unit :=
  match (Lexeme.scan (unifyBreaks s.toList)).findSome? Lexeme.overlong? with
  | some digits => .error ⟨digits⟩
  | none => .ok ()

end CssExpand.Syntax
