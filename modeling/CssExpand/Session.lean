import CssExpand.Forest.Pass
import CssExpand.Convert

/-!
# Editing sessions

A session edits one stylesheet step by step. Nodes are named by their place, by a name under which
they were held, or by a description of a new one. A step that fails does not end the session: what
it did before it failed stays done.
-/

set_option autoImplicit false

namespace CssExpand

/-- A way to name a node. -/
inductive NodeRef where
  /-- The child at each index, from the stylesheet down. -/
  | path (indices : List Nat)
  | held (name : String)
  | new (node : Node)

/-- New values for some of the fields of a node. Fields that the node does not have are left out
when it is changed in place, and refused when it is copied. -/
structure FieldChanges where
  prop : Option String := none
  value : Option String := none
  important : Option Bool := none
  selector : Option String := none
  name : Option String := none
  prelude : Option String := none
  nested : Option Bool := none

namespace FieldChanges

/-- The names of the fields to be changed that a declaration does not have, in order. -/
def foreign (c : FieldChanges) : List String :=
  (if c.name.isSome then ["name"] else []) ++ (if c.nested.isSome then ["nested"] else []) ++
    (if c.prelude.isSome then ["prelude"] else []) ++
    (if c.selector.isSome then ["selector"] else [])

/-- A declaration with its fields changed. -/
def declaration (c : FieldChanges) (d : Declaration) : Declaration :=
  ⟨c.prop.getD d.prop, c.value.getD d.value, c.important.getD d.important⟩

/-- A node with its fields changed. -/
def content (c : FieldChanges) : Content → Content
  | .declaration d => .declaration (c.declaration d)
  | .rule selector cs => .rule (c.selector.getD selector) cs
  | .atStatement name prelude nested =>
    .atStatement (c.name.getD name) (c.prelude.getD prelude) (c.nested.getD nested)
  | .atBlock name prelude nested cs =>
    .atBlock (c.name.getD name) (c.prelude.getD prelude) (c.nested.getD nested) cs
  | other => other

end FieldChanges

/-- A step of a session. -/
inductive Step where
  | hold (node : NodeRef) (name : String)
  | clone (node : NodeRef) (name : String) (changes : FieldChanges)
  | insertBefore (block ref node : NodeRef)
  | insertAfter (block ref node : NodeRef)
  | append (block node : NodeRef)
  | remove (node : NodeRef)
  | removeChild (block node : NodeRef)
  | set (node : NodeRef) (changes : FieldChanges)
  | text (node : NodeRef)
  | parent (node : NodeRef)
  | equal (a b : NodeRef)
  | declarations (node : NodeRef)
  | rules
  | walk
  | serialize (indent : String)
  | reparse
  | passes (ps : List Pass) (marks : List Declaration)
  | carryOut (node : NodeRef) (pairs : Option (List (String × String)))

/-- The answer to a step. -/
inductive Answer where
  | nothing
  | text (s : String)
  | place (path : Option (List Nat))
  | verdict (b : Bool)
  | declarations (ds : List Declaration)
  | selectors (names : List String)

/-- Why a step fails. -/
inductive StepError where
  | edit (cause : EditError)
  | parse (cause : ParseError)
  | unwritable (cause : Unwritable)

/-- The message for a failed step. -/
def StepError.message : StepError → String
  | .edit cause => cause.message
  | .parse cause => cause.message
  | .unwritable cause => cause.message

/-- The stylesheet of a session and the nodes it holds under names, the latest first. A node that is
held need not be in any block: it may be new, or have been taken out. -/
structure Session where
  forest : Forest
  held : List (String × NodeId)

namespace Session

/-- Starts a session on a text. -/
def start (css : String) : Except ParseError Session := do
  pure ⟨.ofSheet (← Sheet.parse css), []⟩

/-- What a step does to a session; it keeps its effects when it fails. -/
abbrev Action := EStateM StepError Session

/-- Runs an edit on the forest of the session. -/
def edit {α : Type} (e : Edit α) : Action α := fun s =>
  match e.run s.forest with
  | .ok a forest => .ok a { s with forest := forest }
  | .error cause forest => .error (.edit cause) { s with forest := forest }

/-- The node at a path. -/
def nodeAt (f : Forest) : NodeId → List Nat → Option NodeId
  | id, [] => some id
  | id, i :: is => (f.children id)[i]?.bind fun child => nodeAt f child is

/-- The node that a reference names. -/
def resolve (r : NodeRef) : Action NodeId := do
  match r with
  | .new node => edit (Edit.make node)
  | .path indices =>
    match nodeAt (← get).forest Forest.root indices with
    | some id => pure id
    | none => throw (.edit .unknownPlace)
  | .held name =>
    match (← get).held.lookup name with
    | some id => pure id
    | none => throw (.edit (.unknownName name))

/-- Remembers a node under a name. -/
def remember (name : String) (id : NodeId) : Action Unit :=
  modify fun s => { s with held := (name, id) :: s.held }

mutual

/-- The path to a node from one above it, to a depth. -/
def pathWithin (f : Forest) (target : NodeId) : Nat → NodeId → Option (List Nat)
  | 0, _ => none
  | depth + 1, id =>
    if id = target then some [] else pathAmong f target depth 0 (f.children id)

/-- The path to a node below one of a list of children, the first of which has index `i`. -/
def pathAmong (f : Forest) (target : NodeId) (depth : Nat) (i : Nat) :
    List NodeId → Option (List Nat)
  | [] => none
  | c :: cs =>
    match pathWithin f target depth c with
    | some path => some (i :: path)
    | none => pathAmong f target depth (i + 1) cs

end

/-- The path to a node from the stylesheet. -/
def pathTo (f : Forest) (target : NodeId) : Option (List Nat) :=
  pathWithin f target (f.depth + 1) Forest.root

/-- Whether two nodes are equal. Blocks are equal to themselves only; other nodes if they look the
same. -/
def equalNodes (f : Forest) (a b : NodeId) : Bool :=
  match f.content? a, f.content? b with
  | some (.declaration d), some (.declaration e) => d == e
  | some (.raw s), some (.raw t) => s == t
  | some (.comment s), some (.comment t) => s == t
  | _, _ => a == b

/-- The text of the stylesheet. -/
def writeSheet (indent : String) : Action String := do
  match Sheet.write indent (← get).forest.sheet with
  | .ok css => pure css
  | .error cause => throw (.unwritable cause)

/-- Runs a step and gives its answer. -/
def run (step : Step) : Action Answer := do
  match step with
  | .hold node name =>
    remember name (← resolve node)
    pure .nothing
  | .clone node name changes =>
    let id ← resolve node
    let _ ← edit (Edit.declarationOf id)
    if let field :: _ := changes.foreign then throw (.edit (.unknownField field))
    remember name (← edit (Edit.clone id changes.declaration))
    pure .nothing
  | .insertBefore block ref node =>
    edit (Edit.insertBefore (← resolve block) (← resolve ref) (← resolve node))
    pure .nothing
  | .insertAfter block ref node =>
    edit (Edit.insertAfter (← resolve block) (← resolve ref) (← resolve node))
    pure .nothing
  | .append block node =>
    edit (Edit.append (← resolve block) (← resolve node))
    pure .nothing
  | .remove node =>
    edit (Edit.remove (← resolve node))
    pure .nothing
  | .removeChild block node =>
    edit (Edit.removeChild (← resolve block) (← resolve node))
    pure .nothing
  | .set node changes =>
    let id ← resolve node
    edit (modify (·.updateContent id changes.content))
    pure .nothing
  | .text node =>
    let id ← resolve node
    pure (.text ((← get).forest.written id))
  | .parent node =>
    let id ← resolve node
    let f := (← get).forest
    pure (.place ((f.parent? id).bind (pathTo f)))
  | .equal a b =>
    let x ← resolve a
    let y ← resolve b
    pure (.verdict (equalNodes (← get).forest x y))
  | .declarations node =>
    let id ← resolve node
    edit (Edit.requireBlock id)
    let f := (← get).forest
    pure (.declarations ((f.declarationsOf id).filterMap f.declaration?))
  | .rules => pure (.selectors ((Node.listRules (← get).forest.sheet).map Prod.fst))
  | .walk => pure (.declarations (Node.listAllDeclarations (← get).forest.sheet))
  | .serialize indent => pure (.text (← writeSheet indent))
  | .reparse =>
    let css ← writeSheet defaultIndent
    match start css with
    | .ok session =>
      set session
      pure .nothing
    | .error cause => throw (.parse cause)
  | .passes ps marks =>
    edit (Edit.runPasses ps)
    edit (marks.forM Edit.appendToRules)
    pure .nothing
  | .carryOut node pairs =>
    let id ← resolve node
    match pairs with
    | some pairs => edit (Edit.carryOut id (.replace pairs))
    | none => pure ()
    pure .nothing

end Session

end CssExpand
