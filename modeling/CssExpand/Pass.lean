import CssExpand.Revision.Defaults
import CssExpand.Revision.Longhands
import CssExpand.Revision.Units
import CssExpand.Sheet.Node

/-!
# Passes over a stylesheet

A pass runs a revision over the declarations of a stylesheet. It works in stages, each of which sees
a body as the stage before it left it, so what a stage puts in is never seen by the same stage. A
pass is a value (`Pass`); how it changes a tree (`Pass.apply`), what it visits on the way
(`Pass.visits`) and what it logs (`Pass.log`) follow from that value alone.
-/

set_option autoImplicit false

namespace CssExpand

open Syntax

/-! ## The log -/

/-- How much a log line matters. -/
inductive LogLevel where
  | debug
  | info
  deriving DecidableEq, Repr

/-- The name of a level. -/
def LogLevel.name : LogLevel → String
  | .debug => "DEBUG"
  | .info => "INFO"

/-- A line of the log. -/
structure LogLine where
  level : LogLevel
  logger : String
  message : String
  deriving DecidableEq, Repr

/-- The text of a log line. -/
def LogLine.text (l : LogLine) : String := l.level.name ++ " " ++ l.logger ++ ": " ++ l.message

/-! ## Stages -/

/-- One stage of a pass. It goes through a body as the body is when the stage comes to it, so what a
stage puts in is met by later stages only. -/
structure Stage where
  /-- The declarations that the stage looks at. -/
  considers : Declaration → Bool
  /-- What the stage does to a declaration. -/
  revision : Revision
  /-- What is logged when a declaration is left alone. -/
  keptNote : Declaration → Reason → Option String
  /-- What is logged when a declaration is replaced. -/
  changedNote : Declaration → List (String × String) → String

/-- A declaration that a stage looks at, and what it decides there. -/
structure Visit where
  declaration : Declaration
  decision : Decision
  note : Option String

/-- Whether a visit replaces its declaration. -/
def Visit.changes (v : Visit) : Bool := v.decision.pairs?.isSome

namespace Stage

/-- What is logged about a decision. -/
def note (s : Stage) (d : Declaration) : Decision → Option String
  | .replace pairs => some (s.changedNote d pairs)
  | .keep reason => s.keptNote d reason

/-- The visit that a stage pays to a declaration, if it looks at it. -/
def visit? (s : Stage) (d : Declaration) : Option Visit :=
  if s.considers d then
    let decision := s.revision.decide d.prop d.value
    some ⟨d, decision, s.note d decision⟩
  else none

/-- The properties and values that take the place of a declaration. -/
def pairs? (s : Stage) (d : Declaration) : Option (List (String × String)) :=
  (s.visit? d).bind (·.decision.pairs?)

/-- Refuses a declaration that the stage looks at and cannot read. -/
def check (s : Stage) (d : Declaration) : Except OverlongInteger Unit :=
  if s.considers d then s.revision.check d.prop d.value else .ok ()

/-- What takes the place of a node. New declarations are as important as the old one. -/
def applyNode (s : Stage) (n : Node) : List Node :=
  match n with
  | .declaration d =>
    match s.pairs? d with
    | some pairs => pairs.map fun p => .declaration { d with prop := p.1, value := p.2 }
    | none => [n]
  | _ => [n]

/-- What a stage makes of a body. -/
def apply (s : Stage) (body : List Node) : List Node := body.flatMap s.applyNode

/-- The visits that a stage pays to a body. -/
def visits (s : Stage) (body : List Node) : List Visit :=
  (Node.declarations body).filterMap s.visit?

end Stage

/-! ## Passes -/

/-- The bodies that a pass goes to. -/
inductive Reach where
  /-- The bodies of rules. -/
  | rules
  /-- The bodies of rules and the declaration blocks of at-rules. -/
  | blocks
  deriving DecidableEq, Repr

/-- A pass over a stylesheet. -/
structure Pass where
  logger : String
  reach : Reach
  stages : List Stage
  /-- What is logged at the end, about the number of declarations replaced. -/
  summary : Nat → String

namespace Pass

/-- What a pass makes of a body. -/
def applyBody (p : Pass) (body : List Node) : List Node :=
  p.stages.foldl (fun body stage => stage.apply body) body

/-- The bodies that the stages meet, each with its stage. -/
def stageBodies : List Stage → List Node → List (Stage × List Node)
  | [], _ => []
  | stage :: stages, body => (stage, body) :: stageBodies stages (stage.apply body)

mutual

/-- What a pass makes of a node in a list of rules. -/
def applyNode (p : Pass) : Node → Node
  | .rule selector body => .rule selector (p.applyBody body)
  | .atBlock name prelude true nodes => .atBlock name prelude true (applyNodes p nodes)
  | .atBlock name prelude false body =>
    .atBlock name prelude false (if p.reach = .blocks then p.applyBody body else body)
  | n => n

/-- What a pass makes of a list of rules. -/
def applyNodes (p : Pass) : List Node → List Node
  | [] => []
  | n :: ns => applyNode p n :: applyNodes p ns

end

mutual

/-- The bodies in a node that a pass goes to, in document order. -/
def bodies (p : Pass) : Node → List (List Node)
  | .rule _ body => [body]
  | .atBlock _ _ true nodes => listBodies p nodes
  | .atBlock _ _ false body => if p.reach = .blocks then [body] else []
  | _ => []

/-- The bodies in a list of nodes that a pass goes to, in document order. -/
def listBodies (p : Pass) : List Node → List (List Node)
  | [] => []
  | n :: ns => bodies p n ++ listBodies p ns

end

/-- What a pass makes of a stylesheet. -/
def apply (p : Pass) (sheet : Sheet) : Sheet := p.applyNodes sheet

/-- The bodies of a stylesheet as the stages meet them, in order. -/
def meetings (p : Pass) (sheet : Sheet) : List (Stage × List Node) :=
  (p.listBodies sheet).flatMap (stageBodies p.stages)

/-- The visits that a pass pays to a stylesheet, in order. -/
def visits (p : Pass) (sheet : Sheet) : List Visit :=
  (p.meetings sheet).flatMap fun m => m.1.visits m.2

/-- The number of declarations that a pass replaces. -/
def count (p : Pass) (sheet : Sheet) : Nat := (p.visits sheet).countP Visit.changes

/-- A note as a line of the log. -/
def noteLine (p : Pass) (note : String) : LogLine := ⟨.debug, p.logger, note⟩

/-- The last line that a pass logs. -/
def summaryLine (p : Pass) (count : Nat) : LogLine := ⟨.info, p.logger, p.summary count⟩

/-- What a pass logs about a stylesheet. -/
def log (p : Pass) (sheet : Sheet) : List LogLine :=
  (p.visits sheet).filterMap (fun v => v.note.map p.noteLine) ++ [p.summaryLine (p.count sheet)]

/-- Refuses a stylesheet that holds a declaration which the pass meets and cannot read. -/
def check (p : Pass) (sheet : Sheet) : Except OverlongInteger Unit :=
  (p.meetings sheet).forM fun m => (Node.declarations m.2).forM m.1.check

/-! ## The three passes -/

/-- A declaration as the log shows it. -/
def shown (d : Declaration) : String := d.prop ++ ": " ++ d.value

/-- The note about a declaration that is left alone for a reason. -/
def kept (name : String) (d : Declaration) (reason : Reason) : Option String :=
  some (name ++ ": kept " ++ shown d ++ " (" ++ reason.text ++ ")")

/-- The note about a declaration that gets another value. -/
def revalued (name : String) (d : Declaration) (pairs : List (String × String)) : String :=
  name ++ ": " ++ shown d ++ " -> " ++ ((pairs.head?.map Prod.snd).getD "")

/-- A stage that takes apart the shorthands of the given names. -/
def longhandStage (ignored : Ignored) (names : List String) : Stage where
  considers d := names.contains d.prop && !d.isHack
  revision := .longhands ignored
  keptNote := kept "explode"
  changedNote d pairs := "explode: " ++ d.prop ++ " -> " ++ ", ".intercalate (pairs.map Prod.fst)

/-- Takes box, column and border shorthands apart, in this order. -/
def longhands (ignored : Ignored) : Pass where
  logger := "longhand.transforms.explode"
  reach := .rules
  stages :=
    [["margin"], ["padding"], ["columns"], BorderShorthand.list.map BorderShorthand.name].map
      (longhandStage ignored)
  summary n := s!"explode: {n} declaration(s) exploded"

/-- Writes out the defaults of the shorthands of a registry. -/
def defaults (registry : Registry) (ignored : Ignored) : Pass where
  logger := "longhand.transforms.defaults"
  reach := .blocks
  stages :=
    [{ considers := fun d => (registry.find? d.prop).isSome && !d.isHack
       revision := .defaults registry ignored
       keptNote := kept "add-defaults"
       changedNote := revalued "add-defaults" }]
  summary n := s!"add-defaults: {n} declaration(s) completed"

/-- Adds units to bare zeros. -/
def units (ignored : Ignored) : Pass where
  logger := "longhand.transforms.units"
  reach := .blocks
  stages :=
    [{ considers := fun d => !d.isHack
       revision := .units ignored
       keptNote := fun _ _ => none
       changedNote := revalued "add-units" }]
  summary n := s!"add-units: {n} declaration(s) rewritten"

end Pass

end CssExpand
