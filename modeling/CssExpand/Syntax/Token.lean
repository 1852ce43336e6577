import CssExpand.Syntax.Numeral

/-!
# Tokens

What CSS source consists of. A lexeme is a piece of flat source text; a token is a node of the tree
that brackets make of the lexemes. Both share their leaves, the atoms, and neither remembers where
in the source it stood: equal tokens are interchangeable. An unfinished string or url keeps its
value and is followed by a fault, so that no part of the source goes unnoticed.
-/

set_option autoImplicit false

namespace CssExpand.Syntax

/-- The three kinds of bracket. -/
inductive Bracket where
  | round
  | square
  | curly
  deriving DecidableEq, Repr

/-- The opening character of a bracket. -/
def Bracket.opening : Bracket → Char
  | .round => '('
  | .square => '['
  | .curly => '\x7b'

/-- The closing character of a bracket. -/
def Bracket.closing : Bracket → Char
  | .round => ')'
  | .square => ']'
  | .curly => '\x7d'

/-- What is wrong at a place in the source. A fault stands among the tokens at its place, and reading
goes on behind it. -/
inductive Fault where
  /-- A string is broken by the end of its line. -/
  | brokenString
  /-- A url holds a character that it may not hold. -/
  | brokenUrl
  /-- The source ends inside a string. -/
  | stringAtEnd
  /-- The source ends inside a url. -/
  | urlAtEnd
  /-- A closing bracket has no opening one. -/
  | stray (bracket : Bracket)
  deriving DecidableEq, Repr

/-- A token without content. -/
inductive Atom where
  | whitespace (text : List Char)
  | comment (text : List Char)
  | literal (text : List Char)
  | ident (name : List Char)
  | atKeyword (name : List Char)
  | hash (name : List Char) (isIdent : Bool)
  | string (value : List Char) (closed : Bool)
  | url (value : List Char) (closed : Bool)
  | unicodeRange (first last : Nat)
  | number (numeral : Numeral)
  | percentage (numeral : Numeral)
  | dimension (numeral : Numeral) (unit : List Char)
  | fault (kind : Fault)
  deriving DecidableEq, Repr

/-- The number an atom carries. -/
def Atom.numeral? : Atom → Option Numeral
  | .number n | .percentage n | .dimension n _ => some n
  | _ => none

/-- A piece of flat source text. Brackets are single lexemes here, whether or not they match. -/
inductive Lexeme where
  | atom (a : Atom)
  | openFunction (name : List Char)
  | openBlock (bracket : Bracket)
  | close (bracket : Bracket)
  deriving DecidableEq, Repr

/-- A node of the bracket tree. What is open at the end of the source is a token too, with all that
follows inside. -/
inductive Token where
  | atom (a : Atom)
  | function (name : List Char) (arguments : List Token)
  | block (bracket : Bracket) (content : List Token)
  deriving Repr

namespace Token

/-- Whether a token is whitespace. -/
def isWhitespace : Token → Bool
  | .atom (.whitespace _) => true
  | _ => false

/-- Whether a token is a comment. -/
def isComment : Token → Bool
  | .atom (.comment _) => true
  | _ => false

/-- Whether a token is neither whitespace nor a comment. -/
def isSignificant (t : Token) : Bool := !t.isWhitespace && !t.isComment

/-- Whether a token is the literal with this text. -/
def isLiteral (text : List Char) : Token → Bool
  | .atom (.literal t) => t == text
  | _ => false

/-- Whether a token is a comma. -/
def isComma : Token → Bool := isLiteral [',']

/-- Whether a token is a semicolon. -/
def isSemicolon : Token → Bool := isLiteral [';']

/-- The tokens without the whitespace tokens at both ends. -/
def trim (ts : List Token) : List Token :=
  ((ts.dropWhile isWhitespace).reverse.dropWhile isWhitespace).reverse

/-- The pieces of a token list between the tokens that satisfy `separates`. -/
def splitAt (separates : Token → Bool) : List Token → List (List Token)
  | [] => [[]]
  | t :: ts =>
    match splitAt separates ts with
    | [] => [[]]
    | piece :: pieces =>
      if separates t then [] :: piece :: pieces else (t :: piece) :: pieces

mutual

/-- A token without the comments at any depth below it. -/
def withoutComments : Token → Token
  | .atom a => .atom a
  | .function name arguments => .function name (listWithoutComments arguments)
  | .block bracket content => .block bracket (listWithoutComments content)

/-- A list of tokens without the comments at any depth. -/
def listWithoutComments : List Token → List Token
  | [] => []
  | t :: ts =>
    if t.isComment then listWithoutComments ts else t.withoutComments :: listWithoutComments ts

end

mutual

/-- The number of lexemes of a token whose brackets are closed. -/
def size : Token → Nat
  | .atom _ => 1
  | .function _ arguments => listSize arguments + 2
  | .block _ content => listSize content + 2

/-- The number of lexemes of a list of tokens. -/
def listSize : List Token → Nat
  | [] => 0
  | t :: ts => t.size + listSize ts

end

end Token

end CssExpand.Syntax
