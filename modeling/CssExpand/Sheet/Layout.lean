import CssExpand.Sheet.Node

/-!
# The layout of a written stylesheet

One declaration on a line, blocks indented, and a blank line between the nodes of the sheet. What
cannot stand in a list of rules cannot be written there (`Unwritable`).
-/

set_option autoImplicit false

namespace CssExpand

/-- A node stands in a list of rules and is none. -/
inductive Unwritable where
  | declaration
  | raw
  deriving DecidableEq, Repr

/-- The message for a node that cannot be written. -/
def Unwritable.message : Unwritable → String
  | .declaration => "Cannot serialize Declaration"
  | .raw => "Cannot serialize RawDeclaration"

/-- The indentation used unless another one is asked for. -/
def defaultIndent : String := "    "

/-- A block with its lines indented as they are. -/
def blockText (pad header : String) (lines : List String) : String :=
  if lines.isEmpty then pad ++ header ++ " \x7b\x7d"
  else "\n".intercalate ((pad ++ header ++ " \x7b") :: lines ++ [pad ++ "\x7d"])

/-- What stands before the block or the semicolon of an at-rule. -/
def atHeader (name prelude : String) : String :=
  if prelude.isEmpty then "@" ++ name else "@" ++ name ++ " " ++ prelude

mutual

/-- The text of a node in a list of rules, after `pad`. -/
def Node.layout (indent : String) (pad : String) : Node → Except Unwritable String
  | .declaration _ => .error .declaration
  | .raw _ => .error .raw
  | .comment text => .ok (pad ++ "/*" ++ text ++ "*/")
  | .rule selector nodes =>
    .ok (blockText pad selector (nodes.map fun n => pad ++ indent ++ n.written))
  | .atStatement name prelude _ => .ok (pad ++ atHeader name prelude ++ ";")
  | .atBlock name prelude true nodes => do
    let lines ← layoutAll indent (pad ++ indent) nodes
    pure (blockText pad (atHeader name prelude) lines)
  | .atBlock name prelude false nodes =>
    .ok (blockText pad (atHeader name prelude) (nodes.map fun n => pad ++ indent ++ n.written))

/-- The texts of a list of nodes, each after `pad`. -/
def layoutAll (indent : String) (pad : String) : List Node → Except Unwritable (List String)
  | [] => .ok []
  | n :: ns => do
    let text ← n.layout indent pad
    let texts ← layoutAll indent pad ns
    pure (text :: texts)

end

/-- The text of a stylesheet, with a line break at its end unless it is empty. -/
def Sheet.write (indent : String) (sheet : Sheet) : Except Unwritable String := do
  let texts ← layoutAll indent "" sheet
  pure (if texts.isEmpty then "" else "\n\n".intercalate texts ++ "\n")

end CssExpand
