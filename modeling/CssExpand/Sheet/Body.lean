import CssExpand.Sheet.Node
import CssExpand.Syntax.Written

/-!
# Declaration bodies

Reading the content of a `{}` block as declarations. The content is cut at semicolons, and each
chunk is read by itself: its leading comments, and then one declaration, or else the chunk as it was
written. So nothing in a chunk can reach into another one.
-/

set_option autoImplicit false

namespace CssExpand

open Syntax

/-! ## The source text of tokens -/

/-- Replaces `written` by `source` at the end of a text, before a final line break if there is
one. -/
def restoreAtEnd (written source : List Char) (cs : List Char) : List Char :=
  if written.isSuffixOf cs then cs.take (cs.length - written.length) ++ source
  else if (written ++ ['\n']).isSuffixOf cs then
    cs.take (cs.length - written.length - 1) ++ source ++ ['\n']
  else cs

/-- The text of tokens without the whitespace around them. -/
def trimmedText (ts : List Token) : String := Token.write (Token.trim ts)

/-- The text of tokens as an author wrote it. Written tokens have lost the two escapes that a hack
may end in, a tab as `\9` and an impossible character as `\0`; these are restored. -/
def authoredText (ts : List Token) : String :=
  let cs := Token.listWritten (Token.trim ts)
  String.ofList
    (restoreAtEnd [replacement, '/'] ['\\', '0', '/'] (restoreAtEnd ['\\', '\t'] ['\\', '9'] cs))

/-! ## Values -/

/-- How far the reading of `!important` has come, with the tokens before the exclamation mark, the
last one first. -/
inductive Importance where
  | none
  | bang (before : List Token)
  | important (before : List Token)

/-- What has been read of a value. -/
structure ValueReading where
  /-- The tokens so far, the last one first. -/
  read : List Token := []
  importance : Importance := .none
  /-- Whether there is something before that a `{}` block may not follow. -/
  started : Bool := false
  /-- Whether a `{}` block stands where it may not. -/
  misplaced : Bool := false

/-- Whether a token is the word `important`. -/
def isImportantWord : Token → Bool
  | .atom (.ident name) => Text.asciiLower name == "important".toList
  | _ => false

/-- Whether a token is a `{}` block. -/
def isCurlyBlock : Token → Bool
  | .block .curly _ => true
  | _ => false

/-- Takes the next token of a value that is neither `!` nor `important` in its place. -/
def ValueReading.takePlain (r : ValueReading) (t : Token) : ValueReading :=
  if t.isSignificant then
    { r with
      importance := .none
      misplaced := r.misplaced || (isCurlyBlock t && r.started)
      started := true }
  else r

/-- Takes the next token of a value. -/
def ValueReading.take (r : ValueReading) (t : Token) : ValueReading :=
  let r' : ValueReading :=
    match r.importance with
    | .none => if t.isLiteral ['!'] then { r with importance := .bang r.read } else r.takePlain t
    | .bang before =>
      if isImportantWord t then { r with importance := .important before } else r.takePlain t
    | .important _ => r.takePlain t
  { r' with read := t :: r.read }

/-- The tokens of a value and whether it is important, unless a block stands where it may not. -/
def ValueReading.result? (r : ValueReading) : Option (List Token × Bool) :=
  if r.misplaced then none
  else
    match r.importance with
    | .important before => some (before.reverse, true)
    | _ => some (r.read.reverse, false)

/-- Reads the tokens after the colon of a declaration. -/
def readValue? (ts : List Token) : Option (List Token × Bool) :=
  (ts.foldl ValueReading.take {}).result?

/-! ## Chunks -/

/-- The name of a property: custom ones keep their case. -/
def propertyName (name : List Char) : String :=
  if ['-', '-'].isPrefixOf name then String.ofList name else String.ofList (Text.asciiLower name)

/-- Reads tokens as a declaration: a name, a colon and a value. -/
def readDeclaration? (ts : List Token) : Option Declaration :=
  match ts.dropWhile (!·.isSignificant) with
  | .atom (.ident name) :: rest =>
    match rest.dropWhile (!·.isSignificant) with
    | colon :: rest =>
      if colon.isLiteral [':'] then
        (readValue? rest).map fun value => ⟨propertyName name, authoredText value.1, value.2⟩
      else none
    | [] => none
  | _ => none

/-- The text of a comment token. -/
def commentText? : Token → Option String
  | .atom (.comment text) => some (String.ofList text)
  | _ => none

/-- Reads one chunk: its leading comments and what follows them. -/
def readChunk (ts : List Token) : List Node :=
  let comments := (ts.takeWhile (!·.isSignificant)).filterMap commentText?
  let rest := ts.dropWhile (!·.isSignificant)
  let last :=
    if rest.isEmpty then []
    else
      match readDeclaration? rest with
      | some d => [Node.declaration d]
      | none => [Node.raw (authoredText rest)]
  comments.map Node.comment ++ last

/-- Reads the content of a `{}` block as declarations. -/
def readBody (ts : List Token) : List Node := (Token.splitAt Token.isSemicolon ts).flatMap readChunk

end CssExpand
