import CssExpand.Sheet.Node

/-!
# A forest of nodes with identity

While a stylesheet is edited, its nodes have identity: two equal declarations are still two, and a
node that has been taken out can be put back. A forest keeps every node ever made in a cell of its
own, children by their ids and the parent as a link; nothing here keeps links and child lists in
step, which is the business of the edits. The stylesheet itself is the root, and `Forest.sheet` is
what it looks like as a plain tree.
-/

set_option autoImplicit false

namespace CssExpand

/-- The identity of a node: the number of its cell. -/
abbrev NodeId := Nat

/-- What a node is, with children by their ids. -/
inductive Content where
  | declaration (d : Declaration)
  | raw (text : String)
  | comment (text : String)
  | rule (selector : String) (children : List NodeId)
  | atStatement (name : String) (prelude : String) (nested : Bool)
  | atBlock (name : String) (prelude : String) (nested : Bool) (children : List NodeId)
  | sheet (children : List NodeId)
  deriving DecidableEq, Repr

/-- The kinds of node, whatever is in them. -/
inductive NodeKind where
  | declaration
  | raw
  | comment
  | rule
  | atRule
  | sheet
  deriving DecidableEq, Repr

/-- The name of a kind of node. -/
def NodeKind.name : NodeKind → String
  | .declaration => "declaration"
  | .raw => "raw text"
  | .comment => "comment"
  | .rule => "rule"
  | .atRule => "at-rule"
  | .sheet => "stylesheet"

/-- Whether nodes of a kind can have children. -/
def NodeKind.isBlock : NodeKind → Bool
  | .rule | .atRule | .sheet => true
  | _ => false

namespace Content

/-- The kind of a node. -/
def kind : Content → NodeKind
  | .declaration _ => .declaration
  | .raw _ => .raw
  | .comment _ => .comment
  | .rule _ _ => .rule
  | .atStatement _ _ _ | .atBlock _ _ _ _ => .atRule
  | .sheet _ => .sheet

/-- The children of a node that can have some. -/
def children? : Content → Option (List NodeId)
  | .rule _ cs => some cs
  | .atBlock _ _ _ cs => some cs
  | .sheet cs => some cs
  | _ => none

/-- The same node with other children, if it can have some. -/
def withChildren (cs : List NodeId) : Content → Content
  | .rule selector _ => .rule selector cs
  | .atBlock name prelude nested _ => .atBlock name prelude nested cs
  | .sheet _ => .sheet cs
  | c => c

/-- The declaration that a node is. -/
def declaration? : Content → Option Declaration
  | .declaration d => some d
  | _ => none

end Content

/-- A node with the link to its parent. The link is stored, not computed from the lists of children, so
the two can disagree. -/
structure Cell where
  content : Content
  parent : Option NodeId := none
  deriving DecidableEq, Repr

/-- Nodes with identity. An id is an index into the cells. Ids are given out in order and never again,
so a node stays the same node while it is changed and moved, and equal nodes are told apart. -/
structure Forest where
  cells : Array Cell
  deriving DecidableEq, Repr

namespace Forest

/-- The id of the stylesheet. -/
def root : NodeId := 0

/-- What a node is. -/
def content? (f : Forest) (id : NodeId) : Option Content := f.cells[id]?.map Cell.content

/-- The parent that a node is linked to. -/
def parent? (f : Forest) (id : NodeId) : Option NodeId := f.cells[id]?.bind Cell.parent

/-- The children of a node that can have some. -/
def children? (f : Forest) (id : NodeId) : Option (List NodeId) :=
  (f.content? id).bind Content.children?

/-- The children of a node, none if it cannot have any. -/
def children (f : Forest) (id : NodeId) : List NodeId := (f.children? id).getD []

/-- The kind of a node. -/
def kind? (f : Forest) (id : NodeId) : Option NodeKind := (f.content? id).map Content.kind

/-- The declaration that a node is. -/
def declaration? (f : Forest) (id : NodeId) : Option Declaration :=
  (f.content? id).bind Content.declaration?

/-! ## Changing single cells -/

/-- The id that the next new node gets. -/
def fresh (f : Forest) : NodeId := f.cells.size

/-- The forest with one more node. -/
def push (f : Forest) (c : Cell) : Forest := ⟨f.cells.push c⟩

/-- The forest with a node linked to a parent, or to none. -/
def setParent (f : Forest) (id : NodeId) (parent : Option NodeId) : Forest :=
  ⟨f.cells.modify id fun c => { c with parent := parent }⟩

/-- The forest with the content of a node changed. -/
def updateContent (f : Forest) (id : NodeId) (update : Content → Content) : Forest :=
  ⟨f.cells.modify id fun c => { c with content := update c.content }⟩

/-- The forest with other children for a node. -/
def setChildren (f : Forest) (id : NodeId) (cs : List NodeId) : Forest :=
  f.updateContent id (Content.withChildren cs)

/-- The forest with a declaration changed. -/
def updateDeclaration (f : Forest) (id : NodeId) (update : Declaration → Declaration) : Forest :=
  f.updateContent id fun
    | .declaration d => .declaration (update d)
    | c => c

/-! ## Planting trees -/

mutual

/-- Adds a node and all below it. -/
def plant (f : Forest) (parent : Option NodeId) : Node → NodeId × Forest
  | .declaration d => (f.fresh, f.push ⟨.declaration d, parent⟩)
  | .raw text => (f.fresh, f.push ⟨.raw text, parent⟩)
  | .comment text => (f.fresh, f.push ⟨.comment text, parent⟩)
  | .rule selector nodes =>
    let planted := plantAll (f.push ⟨.rule selector [], parent⟩) f.fresh nodes
    (f.fresh, planted.2.setChildren f.fresh planted.1)
  | .atStatement name prelude nested => (f.fresh, f.push ⟨.atStatement name prelude nested, parent⟩)
  | .atBlock name prelude nested nodes =>
    let planted := plantAll (f.push ⟨.atBlock name prelude nested [], parent⟩) f.fresh nodes
    (f.fresh, planted.2.setChildren f.fresh planted.1)

/-- Adds a list of nodes with a common parent. -/
def plantAll (f : Forest) (parent : NodeId) : List Node → List NodeId × Forest
  | [] => ([], f)
  | n :: ns =>
    let first := plant f (some parent) n
    let others := plantAll first.2 parent ns
    (first.1 :: others.1, others.2)

end

/-- The forest of a stylesheet. -/
def ofSheet (sheet : Sheet) : Forest :=
  let planted := plantAll ⟨#[⟨.sheet [], none⟩]⟩ root sheet
  planted.2.setChildren root planted.1

/-! ## The view as trees -/

/-- The tree below a node, to a depth. -/
def nodeWithin (f : Forest) : Nat → NodeId → Option Node
  | 0, _ => none
  | depth + 1, id =>
    match f.content? id with
    | some (.declaration d) => some (.declaration d)
    | some (.raw text) => some (.raw text)
    | some (.comment text) => some (.comment text)
    | some (.rule selector cs) => some (.rule selector (cs.filterMap (nodeWithin f depth)))
    | some (.atStatement name prelude nested) => some (.atStatement name prelude nested)
    | some (.atBlock name prelude nested cs) =>
      some (.atBlock name prelude nested (cs.filterMap (nodeWithin f depth)))
    | some (.sheet _) => none
    | none => none

/-- A depth that no tree in the forest exceeds. -/
def depth (f : Forest) : Nat := f.cells.size

/-- The tree below a node. -/
def node? (f : Forest) (id : NodeId) : Option Node := f.nodeWithin f.depth id

/-- The stylesheet as a plain tree. -/
def sheet (f : Forest) : Sheet := (f.children root).filterMap f.node?

/-! ## Display -/

/-- A node as it is shown inside a message, to a depth and inside the nodes `around` it. A node that
stands inside itself is shown as dots there. -/
def displayWithin (f : Forest) (around : List NodeId) : Nat → NodeId → String
  | 0, _ => "..."
  | depth + 1, id =>
    if around.contains id then "..."
    else
      let inside := displayWithin f (id :: around) depth
      match f.content? id with
      | some (.declaration d) => d.display
      | some (.raw text) => Node.displayRaw text
      | some (.comment text) => Node.displayComment text
      | some (.rule selector cs) => Node.displayRule selector (cs.map inside)
      | some (.atStatement name prelude nested) => Node.displayAtRule name prelude nested none
      | some (.atBlock name prelude nested cs) =>
        Node.displayAtRule name prelude nested (some (cs.map inside))
      | some (.sheet cs) => Node.displaySheet (cs.map inside)
      | none => "..."

/-- A node as it is shown inside a message. -/
def display (f : Forest) (id : NodeId) : String := f.displayWithin [] f.depth id

/-- The text of a node. -/
def written (f : Forest) (id : NodeId) : String :=
  match f.content? id with
  | some (.declaration d) => d.written
  | some (.raw text) => text ++ ";"
  | some (.comment text) => "/*" ++ text ++ "*/"
  | _ => f.display id

/-! ## Walks -/

/-- The declarations among the children of a block. A block of rules has none to show. -/
def declarationsOf (f : Forest) (id : NodeId) : List NodeId :=
  match f.content? id with
  | some (.atBlock _ _ true _) => []
  | some c => (c.children?.getD []).filter fun child => (f.declaration? child).isSome
  | none => []

/-- The blocks of declarations in a list of rules, to a depth: rules only, or the blocks of at-rules
too if `all`. -/
def blocksWithin (f : Forest) (all : Bool) : Nat → List NodeId → List NodeId
  | 0, _ => []
  | depth + 1, ids =>
    ids.flatMap fun id =>
      match f.content? id with
      | some (.rule _ _) => [id]
      | some (.atBlock _ _ true cs) => blocksWithin f all depth cs
      | some (.atBlock _ _ false _) => if all then [id] else []
      | _ => []

/-- The rules of the stylesheet in document order. -/
def rules (f : Forest) : List NodeId := f.blocksWithin false f.depth (f.children root)

/-- The rules and declaration blocks of the stylesheet in document order. -/
def blocks (f : Forest) : List NodeId := f.blocksWithin true f.depth (f.children root)

end Forest

end CssExpand
