import CssExpand.Forest.Basic
import CssExpand.Revision.Decision

/-!
# Edits

Changing a forest in place. An edit that fails leaves behind what it did before it failed. In
particular the node that goes into a block is linked to it first, and only then is its place looked
up.
-/

set_option autoImplicit false

namespace CssExpand

open Syntax

/-- Why an edit fails. -/
inductive EditError where
  /-- The node shown is no child of the block. -/
  | notAChild (shown : String)
  /-- The edit is none for nodes of this kind. -/
  | unfit (kind : NodeKind)
  /-- An at-rule without a block is used as one. -/
  | notABlock
  /-- A declaration without a parent cannot be replaced. -/
  | detached
  /-- A field is to be changed that the node does not have. -/
  | unknownField (name : String)
  /-- No node is held under the name. -/
  | unknownName (name : String)
  /-- There is no node at the place. -/
  | unknownPlace
  | overlong (cause : OverlongInteger)
  deriving DecidableEq, Repr

/-- The message for a failed edit. -/
def EditError.message : EditError → String
  | .notAChild shown => shown ++ " is not a child of this block"
  | .unfit kind => "not an edit for a " ++ kind.name
  | .notABlock => "an at-rule without a block has no children"
  | .detached => "a declaration without a parent cannot be replaced"
  | .unknownField name => "a declaration has no field " ++ Text.quoted name
  | .unknownName name => "no node is held as " ++ Text.quoted name
  | .unknownPlace => "there is no node at this place"
  | .overlong cause => cause.message

/-- A change of a forest, which keeps its effects when it fails. -/
abbrev Edit := EStateM EditError Forest

namespace Edit

/-- Fails unless the kind of a node satisfies `fits`. -/
def requireKind (fits : NodeKind → Bool) (id : NodeId) : Edit Unit := do
  match (← get).kind? id with
  | some kind => if fits kind then pure () else throw (.unfit kind)
  | none => throw .unknownPlace

/-- Fails unless a node is of a kind that can have children. -/
def requireBlock (id : NodeId) : Edit Unit := requireKind NodeKind.isBlock id

/-- The children of a block. -/
def childrenOf (block : NodeId) : Edit (List NodeId) := do
  match (← get).children? block with
  | some cs => pure cs
  | none => throw .notABlock

/-- The place of a child in a block. -/
def indexOf (block child : NodeId) : Edit Nat := do
  let cs ← childrenOf block
  match cs.idxOf? child with
  | some i => pure i
  | none => throw (.notAChild ((← get).display child))

/-- Adds a node with all below it, attached to nothing. -/
def make (n : Node) : Edit NodeId := modifyGet (·.plant none n)

/-- Puts a node behind the children of a block. -/
def append (block node : NodeId) : Edit Unit := do
  requireBlock block
  modify (·.setParent node (some block))
  let cs ← childrenOf block
  modify (·.setChildren block (cs ++ [node]))

/-- Puts a node in front of a child of a block. -/
def insertBefore (block ref node : NodeId) : Edit Unit := do
  requireBlock block
  modify (·.setParent node (some block))
  let i ← indexOf block ref
  let cs ← childrenOf block
  modify (·.setChildren block (cs.insertIdx i node))

/-- Puts a node behind a child of a block. -/
def insertAfter (block ref node : NodeId) : Edit Unit := do
  requireBlock block
  modify (·.setParent node (some block))
  let i ← indexOf block ref
  let cs ← childrenOf block
  modify (·.setChildren block (cs.insertIdx (i + 1) node))

/-- Takes a child out of a block. -/
def removeChild (block child : NodeId) : Edit Unit := do
  requireBlock block
  let i ← indexOf block child
  let cs ← childrenOf block
  modify (·.setChildren block (cs.eraseIdx i))
  modify (·.setParent child none)

/-- Takes a declaration out of its parent, if it has one. -/
def remove (node : NodeId) : Edit Unit := do
  requireKind (· == .declaration) node
  match (← get).parent? node with
  | some parent => removeChild parent node
  | none => pure ()

/-- The declaration that a node is. -/
def declarationOf (id : NodeId) : Edit Declaration := do
  requireKind (· == .declaration) id
  match (← get).declaration? id with
  | some d => pure d
  | none => throw .unknownPlace

/-- Makes a copy of a declaration, changed and attached to nothing. -/
def clone (id : NodeId) (update : Declaration → Declaration) : Edit NodeId := do
  let d ← declarationOf id
  make (.declaration (update d))

/-- Puts a changed copy of a declaration in front of it. -/
def insertCopy (parent : Option NodeId) (id : NodeId) (pair : String × String) : Edit Unit := do
  match parent with
  | none => throw .detached
  | some block =>
    let copy ← clone id fun d => { d with prop := pair.1, value := pair.2 }
    insertBefore block id copy

/-- Replaces a declaration by what a revision decided. A single new value for the same property is
set in place; everything else goes in front of the declaration, which is then removed. -/
def carryOut (id : NodeId) (decision : Decision) : Edit Unit := do
  match decision with
  | .keep _ => pure ()
  | .replace pairs =>
    let d ← declarationOf id
    match pairs with
    | [(prop, value)] =>
      if prop = d.prop then modify (·.updateDeclaration id fun d => { d with value := value })
      else
        insertCopy ((← get).parent? id) id (prop, value)
        remove id
    | pairs =>
      let parent := (← get).parent? id
      pairs.forM (insertCopy parent id)
      remove id

end Edit

end CssExpand
