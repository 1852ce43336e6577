import CssExpand.Sheet.Body
import CssExpand.Syntax.Nesting

/-!
# Rule lists

Reading tokens as a list of rules, and a text as a stylesheet. A rule is everything up to its `{}`
block; an at-rule may end at a semicolon instead. Only one thing can go wrong: a rule list ends
inside a rule, which has then no block (`Unfinished`). What is inside a declaration body is never
refused.
-/

set_option autoImplicit false

namespace CssExpand

open Syntax

/-- The block of these at-rules holds rules; so does that of any kind of keyframes. -/
def ruleListNames : List String :=
  ["media", "supports", "document", "layer", "container", "scope", "starting-style"]

/-- Whether the block of an at-rule holds rules. -/
def holdsRules (name : String) : Bool :=
  ruleListNames.contains name || "keyframes".toList.isSuffixOf name.toList

/-- Whether a token is one of the two that hide a stylesheet inside markup. -/
def hidesSheet (t : Token) : Bool :=
  t.isLiteral ['<', '!', '-', '-'] || t.isLiteral ['-', '-', '>']

/-- What a reader of rules is in the middle of, with the tokens of it so far, the last one first. -/
inductive Pending where
  | nothing
  | rule (selector : List Token)
  | atRule (name : String) (prelude : List Token)

/-- A rule list ends inside a rule. Its last token has so many lexemes before it. -/
structure Unfinished where
  lexemes : Nat
  deriving DecidableEq, Repr

namespace Pending

/-- The at-rule without a block. -/
def statement (name : String) (prelude : List Token) : Node :=
  .atStatement name (trimmedText prelude.reverse) false

/-- Takes a token that is no `{}` block: the nodes that are complete with it, and what the reader is
in the middle of after it. -/
def take (top : Bool) (pending : Pending) (t : Token) : List Node × Pending :=
  match pending with
  | .nothing =>
    match t with
    | .atom (.whitespace _) => ([], .nothing)
    | .atom (.comment text) => ([.comment (String.ofList text)], .nothing)
    | .atom (.atKeyword name) => ([], .atRule (String.ofList (Text.asciiLower name)) [])
    | t => ([], if top && hidesSheet t then .nothing else .rule [t])
  | .rule selector => ([], .rule (t :: selector))
  | .atRule name prelude =>
    if t.isSemicolon then ([statement name prelude], .nothing)
    else ([], .atRule name (t :: prelude))

/-- Whether a `{}` block that comes next holds rules. -/
def wantsRules : Pending → Bool
  | .atRule name _ => holdsRules name
  | _ => false

/-- The node that is complete with a `{}` block of these nodes. -/
def close (pending : Pending) (nodes : List Node) : Node :=
  match pending with
  | .nothing => .rule "" nodes
  | .rule selector => .rule (trimmedText selector.reverse) nodes
  | .atRule name prelude => .atBlock name (trimmedText prelude.reverse) (holdsRules name) nodes

/-- The nodes that are complete at the end of the list, which must not be inside a rule. -/
def finish : Pending → Except Unfinished (List Node)
  | .nothing => .ok []
  | .rule _ => .error ⟨0⟩
  | .atRule name prelude => .ok [statement name prelude]

end Pending

/-- Moves the place of an error in `ts` to where it is in `t :: ts`. At the end of the list it is
the place of `t`. -/
def Unfinished.past (t : Token) (ts : List Token) (e : Unfinished) : Unfinished :=
  if ts.isEmpty then e else ⟨t.size + e.lexemes⟩

/-- Moves the place of an error in a block to where it is in front of the block. -/
def Unfinished.outside (e : Unfinished) : Unfinished := ⟨1 + e.lexemes⟩

mutual

/-- Reads the content of a `{}` block, as rules or as declarations. -/
def readBlock (asRules : Bool) : Token → Except Unfinished (List Node)
  | .block .curly content =>
    if asRules then (readRules false .nothing content).mapError Unfinished.outside
    else .ok (readBody content)
  | _ => .ok []

/-- Reads tokens as rules, those of the whole sheet if `top`, in the middle of what is `pending`. -/
def readRules (top : Bool) (pending : Pending) : List Token → Except Unfinished (List Node)
  | [] => pending.finish
  | t :: ts =>
    if isCurlyBlock t then
      (readBlock pending.wantsRules t).bind fun nodes =>
        ((readRules top .nothing ts).mapError (Unfinished.past t ts)).map
          (pending.close nodes :: ·)
    else
      let taken := pending.take top t
      ((readRules top taken.2 ts).mapError (Unfinished.past t ts)).map (taken.1 ++ ·)

end

/-! ## Stylesheets -/

/-- A place in a text, counted from one. -/
structure Position where
  line : Nat
  column : Nat
  deriving DecidableEq, Repr

/-- The place after so many characters of a text whose line breaks are unified. -/
def Position.after (cs : List Char) : Position :=
  ⟨cs.count '\n' + 1, (cs.reverse.takeWhile (· != '\n')).length + 1⟩

/-- Why a text is no stylesheet. -/
inductive ParseError where
  | overlong (cause : OverlongInteger)
  | unfinished (position : Position)
  deriving DecidableEq, Repr

/-- The message for a rule without a block. -/
def unfinishedMessage : String := "EOF reached before \x7b\x7d block for a qualified rule."

/-- A message with the place it is about. -/
def messageAt (message : String) (position : Position) : String :=
  s!"{message} (line {position.line}, column {position.column})"

/-- The message for a text that is no stylesheet. -/
def ParseError.message : ParseError → String
  | .overlong cause => cause.message
  | .unfinished position => messageAt unfinishedMessage position

/-- The rules of a text, however long its integers are. -/
def Sheet.ofChars (cs : List Char) : Except Unfinished Sheet :=
  readRules true .nothing (Token.ofChars cs)

/-- Reads a text as a stylesheet. -/
def Sheet.parse (css : String) : Except ParseError Sheet := do
  (checkIntegers css).mapError .overlong
  (Sheet.ofChars css.toList).mapError fun e =>
    let cs := unifyBreaks css.toList
    .unfinished (Position.after (cs.take (Lexeme.offset e.lexemes cs)))

end CssExpand
