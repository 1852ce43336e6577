import CssExpand.Sheet.Declaration

/-!
# Stylesheet trees

A stylesheet is a list of nodes. Rules and at-rules with a block have nodes inside; whether the
block of an at-rule holds rules or declarations is noted in the node. The type admits every node
everywhere, as an editor may put it there; what the parser builds is narrower.
-/

set_option autoImplicit false

namespace CssExpand

/-- A node of a stylesheet. Trees are what is parsed and what is written. Passes in place work on a
`Forest`, where nodes have an identity that two equal subtrees do not share. -/
inductive Node where
  | declaration (d : Declaration)
  /-- A piece of a body that is no declaration, kept as it was written. -/
  | raw (text : String)
  | comment (text : String)
  | rule (selector : String) (nodes : List Node)
  /-- An at-rule that ends in a semicolon. -/
  | atStatement (name : String) (prelude : String) (nested : Bool)
  /-- An at-rule with a block, which holds rules if it is `nested` and declarations otherwise. -/
  | atBlock (name : String) (prelude : String) (nested : Bool) (nodes : List Node)
  deriving Repr, Inhabited

/-- A stylesheet. -/
abbrev Sheet := List Node

namespace Node

/-- The declaration that a node is. -/
def declaration? : Node → Option Declaration
  | .declaration d => some d
  | _ => none

/-- The declarations among a list of nodes. -/
def declarations (ns : List Node) : List Declaration := ns.filterMap declaration?

/-! ## Walks -/

mutual

/-- The rules of a node in document order: a rule itself, or those in a block of rules. -/
def rules : Node → List (String × List Node)
  | .rule selector nodes => [(selector, nodes)]
  | .atBlock _ _ true nodes => listRules nodes
  | _ => []

/-- The rules of a list of nodes in document order. -/
def listRules : List Node → List (String × List Node)
  | [] => []
  | n :: ns => n.rules ++ listRules ns

end

mutual

/-- The declarations in the rules and declaration blocks of a node, in document order. -/
def allDeclarations : Node → List Declaration
  | .rule _ nodes => declarations nodes
  | .atBlock _ _ true nodes => listAllDeclarations nodes
  | .atBlock _ _ false nodes => declarations nodes
  | _ => []

/-- The declarations in the rules and declaration blocks of a list of nodes. -/
def listAllDeclarations : List Node → List Declaration
  | [] => []
  | n :: ns => n.allDeclarations ++ listAllDeclarations ns

end

/-! ## Display -/

/-- The display of a list of nodes that are displayed already. -/
def displayList (nodes : List String) : String := "[" ++ ", ".intercalate nodes ++ "]"

/-- The display of a truth value. -/
def displayFlag (b : Bool) : String := if b then "True" else "False"

/-- The display of a raw piece of a body. -/
def displayRaw (text : String) : String := "RawDeclaration(text=" ++ Text.quoted text ++ ")"

/-- The display of a comment. -/
def displayComment (text : String) : String := "Comment(text=" ++ Text.quoted text ++ ")"

/-- The display of a rule with displayed nodes. -/
def displayRule (selector : String) (nodes : List String) : String :=
  "Rule(selector=" ++ Text.quoted selector ++ ", nodes=" ++ displayList nodes ++ ")"

/-- The display of an at-rule with displayed nodes, if it has a block. -/
def displayAtRule (name prelude : String) (nested : Bool) (nodes : Option (List String)) :
    String :=
  "AtRule(name=" ++ Text.quoted name ++ ", prelude=" ++ Text.quoted prelude ++ ", nodes=" ++
    (nodes.map displayList).getD "None" ++ ", nested=" ++ displayFlag nested ++ ")"

/-- The display of a stylesheet with displayed nodes. -/
def displaySheet (nodes : List String) : String := "Stylesheet(nodes=" ++ displayList nodes ++ ")"

mutual

/-- A node as it is shown inside a message. -/
def display : Node → String
  | .declaration d => d.display
  | .raw text => displayRaw text
  | .comment text => displayComment text
  | .rule selector nodes => displayRule selector (displayAll nodes)
  | .atStatement name prelude nested => displayAtRule name prelude nested none
  | .atBlock name prelude nested nodes =>
    displayAtRule name prelude nested (some (displayAll nodes))

/-- The displays of a list of nodes. -/
def displayAll : List Node → List String
  | [] => []
  | n :: ns => n.display :: displayAll ns

end

/-- The text of a node in a body. What does not belong into a body is written as its display. -/
def written : Node → String
  | .declaration d => d.written
  | .raw text => text ++ ";"
  | .comment text => "/*" ++ text ++ "*/"
  | n => n.display

end Node

end CssExpand
