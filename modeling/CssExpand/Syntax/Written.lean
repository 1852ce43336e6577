import CssExpand.Syntax.Name
import CssExpand.Syntax.Token

/-!
# Written tokens

Writing tokens back as source text. Most tokens may stand side by side; where two of them would read
back as something else, an empty comment goes between them (`Joint.clash`). Text inside strings,
urls and names is escaped so that it reads back, and numbers keep the author's spelling.
-/

set_option autoImplicit false

namespace CssExpand.Syntax

/-! ## Single tokens -/

/-- One character of a written string. -/
def stringCharWritten (c : Char) : List Char :=
  if c = '"' || c = '\\' then ['\\', c] else (breakEscape c).getD [c]

/-- One character of a written url. -/
def urlCharWritten (c : Char) : List Char :=
  if c = '\'' || c = '"' || c = '\\' || c = ' ' || c = '(' || c = ')' then ['\\', c]
  else if c = '\t' then ['\\', '9', ' ']
  else (breakEscape c).getD [c]

/-- A string, whose closing quote is left out when the source ended before it. -/
def stringWritten (value : List Char) (closed : Bool) : List Char :=
  '"' :: value.flatMap stringCharWritten ++ if closed then ['"'] else []

/-- A url, whose closing bracket is left out when the source ended before it. -/
def urlWritten (value : List Char) (closed : Bool) : List Char :=
  ['u', 'r', 'l', '('] ++ value.flatMap urlCharWritten ++ if closed then [')'] else []

/-- Whether a unit would read as an exponent after a number. -/
def readsAsExponent : List Char → Bool
  | [c] => c == 'e' || c == 'E'
  | c :: '-' :: _ => c == 'e' || c == 'E'
  | _ => false

/-- A unit, with its first letter as a code where it would read as an exponent. -/
def unitWritten (unit : List Char) : List Char :=
  if readsAsExponent unit then ['\\', '6', '5', ' '] ++ nameWritten unit.tail
  else identWritten unit

/-- A range of characters. -/
def rangeWritten (first last : Nat) : List Char :=
  ['U', '+'] ++ hexDigits first ++ if first = last then [] else '-' :: hexDigits last

/-- What stands for a fault. -/
def Fault.written : Fault → List Char
  | .brokenString => "\"[bad string]\n".toList
  | .brokenUrl => "url([bad url])".toList
  | .stringAtEnd | .urlAtEnd => []
  | .stray b => [b.closing]

/-- The text of an atom. -/
def Atom.written : Atom → List Char
  | .whitespace text => text
  | .comment text => ['/', '*'] ++ text ++ ['*', '/']
  | .literal text => text
  | .ident name => identWritten name
  | .atKeyword name => '@' :: identWritten name
  | .hash name isIdent => '#' :: if isIdent then identWritten name else nameWritten name
  | .string value closed => stringWritten value closed
  | .url value closed => urlWritten value closed
  | .unicodeRange first last => rangeWritten first last
  | .number n => n.chars
  | .percentage n => n.chars ++ ['%']
  | .dimension n unit => n.chars ++ unitWritten unit
  | .fault kind => kind.written

/-! ## Neighbours -/

/-- What a token shows to its neighbours. Whether two tokens may stand side by side depends on what
they show to each other, and on nothing inside them. -/
inductive Joint where
  | ident
  | atKeyword
  | hash
  | number
  | percentage
  | dimension
  | function
  | url
  | unicodeRange
  | roundBlock
  | literal (text : List Char)
  | other
  deriving DecidableEq, Repr

namespace Joint

/-- Ends in a name, which a following name would prolong. -/
def endsInName : Joint → Bool
  | .ident | .atKeyword | .hash | .dimension => true
  | _ => false

/-- Starts with a name. -/
def startsWithName : Joint → Bool
  | .ident | .function | .url => true
  | _ => false

/-- Starts with a number. -/
def startsWithNumber : Joint → Bool
  | .number | .percentage | .dimension => true
  | _ => false

/-- Whether a token that shows `b` would not be read as itself right after one that shows `a`. -/
def clash (a b : Joint) : Bool :=
  let startsWord := b.startsWithName || b.startsWithNumber || b == .unicodeRange
  let hyphen := Joint.literal ['-']
  ((a.endsInName || a == .number || a == .literal ['#'] || a == hyphen) && startsWord) ||
  (a.endsInName && (b == hyphen || b == .literal ['-', '-', '>'])) ||
  ((a == .unicodeRange || a == .literal ['.'] || a == .literal ['+']) && b.startsWithNumber) ||
  (a == .literal ['@'] && (b.startsWithName || b == .unicodeRange || b == hyphen)) ||
  (a == .unicodeRange && (b == .ident || b == .function || b == .literal ['?'])) ||
  ((a == .literal ['$'] || a == .literal ['*'] || a == .literal ['^'] || a == .literal ['~'] ||
    a == .literal ['|']) && b == .literal ['=']) ||
  (a == .ident && b == .roundBlock) ||
  (a == .literal ['|'] && b == .literal ['|']) ||
  (a == .literal ['/'] && b == .literal ['*'])

end Joint

/-- What an atom shows to its neighbours. -/
def Atom.joint : Atom → Joint
  | .literal text => .literal text
  | .ident _ => .ident
  | .atKeyword _ => .atKeyword
  | .hash _ _ => .hash
  | .number _ => .number
  | .percentage _ => .percentage
  | .dimension _ _ => .dimension
  | .url _ _ => .url
  | .unicodeRange _ _ => .unicodeRange
  | .whitespace _ | .comment _ | .string _ _ | .fault _ => .other

namespace Token

/-- What a token shows to its neighbours. -/
def joint : Token → Joint
  | .atom a => a.joint
  | .function _ _ => .function
  | .block .round _ => .roundBlock
  | .block _ _ => .other

/-- Whether a token is whitespace that starts with a line break. -/
def startsWithBreak : Token → Bool
  | .atom (.whitespace ('\n' :: _)) => true
  | _ => false

/-- What is written between two tokens. A backslash that is a literal has to keep a line break
behind it. -/
def glue (t u : Token) : List Char :=
  if t.joint.clash u.joint then ['/', '*', '*', '/']
  else if t.isLiteral ['\\'] && !u.startsWithBreak then ['\n']
  else []

mutual

/-- Whether a token ends in a string that is still open, at any depth of functions. -/
def endsInOpenString : Token → Bool
  | .atom a => a == .fault .stringAtEnd
  | .function _ arguments => lastEndsInOpenString arguments
  | .block _ _ => false

/-- Whether the last token of a list ends in a string that is still open. -/
def lastEndsInOpenString : List Token → Bool
  | [] => false
  | [t] => t.endsInOpenString
  | _ :: t :: ts => lastEndsInOpenString (t :: ts)

end

/-- What is written between the first of two neighbours, if there are two. -/
def glueBefore (t : Token) : List Token → List Char
  | [] => []
  | u :: _ => t.glue u

mutual

/-- The text of a token. The bracket of a function is not closed inside an open string. -/
def written : Token → List Char
  | .atom a => a.written
  | .function name arguments =>
    identWritten name ++ '(' :: listWritten arguments ++
      if lastEndsInOpenString arguments then [] else [')']
  | .block bracket content => bracket.opening :: listWritten content ++ [bracket.closing]

/-- The text of a list of tokens. -/
def listWritten : List Token → List Char
  | [] => []
  | t :: ts => t.written ++ t.glueBefore ts ++ listWritten ts

end

/-- The text of a list of tokens. -/
def write (ts : List Token) : String := String.ofList (listWritten ts)

end Token

end CssExpand.Syntax
