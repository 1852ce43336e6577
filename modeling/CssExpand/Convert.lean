import CssExpand.Settings
import CssExpand.Sheet.Layout
import CssExpand.Sheet.Rules

/-!
# From text to text

Reading a stylesheet, running passes over it and writing it again.
-/

set_option autoImplicit false

namespace CssExpand

open Syntax

/-- Why a stylesheet text cannot be converted. A tree that cannot be written is among the reasons
because the writer takes any tree, also one that no text is parsed as. -/
inductive Failure where
  | parse (cause : ParseError)
  | overlong (cause : OverlongInteger)
  | unwritable (cause : Unwritable)
  deriving DecidableEq, Repr

/-- The message for a text that cannot be converted. -/
def Failure.message : Failure → String
  | .parse cause => cause.message
  | .overlong cause => cause.message
  | .unwritable cause => cause.message

/-- A converted stylesheet, and what was logged on the way. -/
structure Converted where
  css : String
  log : List LogLine
  deriving Repr

/-- Runs passes over a stylesheet one after the other. -/
def applyPasses (ps : List Pass) (sheet : Sheet) : Sheet :=
  ps.foldl (fun sheet p => p.apply sheet) sheet

/-- What passes log that run one after the other. -/
def logPasses : List Pass → Sheet → List LogLine
  | [], _ => []
  | p :: ps, sheet => p.log sheet ++ logPasses ps (p.apply sheet)

/-- Refuses a stylesheet that one of the passes cannot read when it comes to it. -/
def checkPasses : List Pass → Sheet → Except OverlongInteger Unit
  | [], _ => .ok ()
  | p :: ps, sheet => do
    p.check sheet
    checkPasses ps (p.apply sheet)

/-- Reads a stylesheet, runs passes over it and writes it. -/
def convertText (ps : List Pass) (css : String) : Except Failure Converted := do
  let sheet ← (Sheet.parse css).mapError .parse
  (checkPasses ps sheet).mapError .overlong
  let text ← (Sheet.write defaultIndent (applyPasses ps sheet)).mapError .unwritable
  pure ⟨text, logPasses ps sheet⟩

/-- Runs the passes that the settings ask for. -/
def convertWith (settings : Settings) (css : String) : Except Failure Converted :=
  convertText settings.passes css

/-- Runs a single pass. -/
def convertAlone (kind : PassKind) (ignored : Ignored) (css : String) : Except Failure Converted :=
  convertText [kind.pass ignored] css

end CssExpand
