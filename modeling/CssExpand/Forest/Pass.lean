import CssExpand.Forest.Edit
import CssExpand.Pass

/-!
# Passes in place

Running a pass over a forest. The walk looks at a node when it comes to it, the stages look at the
declarations of a block as they find them then, and what they replace is replaced where it stands.
-/

set_option autoImplicit false

namespace CssExpand

namespace Edit

/-- Runs a stage on one declaration and says whether it was replaced. -/
def runStageAt (stage : Stage) (id : NodeId) : Edit Bool := do
  let d ← declarationOf id
  match stage.check d with
  | .error cause => throw (.overlong cause)
  | .ok () =>
    match stage.visit? d with
    | some visit =>
      carryOut id visit.decision
      pure visit.changes
    | none => pure false

/-- Runs a stage on declarations and counts those that were replaced. -/
def runStageOn (stage : Stage) : List NodeId → Edit Nat
  | [] => pure 0
  | id :: ids => do
    let changed ← runStageAt stage id
    let others ← runStageOn stage ids
    pure (others + changed.toNat)

/-- Runs stages on a block, each on the declarations that the one before it left. -/
def runStages (block : NodeId) : List Stage → Edit Nat
  | [] => pure 0
  | stage :: stages => do
    let here ← runStageOn stage ((← get).declarationsOf block)
    let later ← runStages block stages
    pure (here + later)

/-- Visits nodes one after the other and adds up what the visits count. -/
def sumOver (visit : NodeId → Edit Nat) : List NodeId → Edit Nat
  | [] => pure 0
  | id :: ids => do
    let here ← visit id
    let later ← sumOver visit ids
    pure (here + later)

/-- Runs a pass on a node in a list of rules, to a depth. What the node is, and what is inside it, is
looked up when the walk comes to it and not before. -/
def runAt (p : Pass) : Nat → NodeId → Edit Nat
  | 0, _ => pure 0
  | depth + 1, id => do
    match (← get).content? id with
    | some (.rule _ _) => runStages id p.stages
    | some (.atBlock _ _ true cs) => sumOver (runAt p depth) cs
    | some (.atBlock _ _ false _) => if p.reach = .blocks then runStages id p.stages else pure 0
    | _ => pure 0

/-- Runs a pass over the stylesheet and counts the declarations that were replaced. -/
def runPass (p : Pass) : Edit Nat := do
  let f ← get
  sumOver (runAt p f.depth) (f.children Forest.root)

/-- Runs passes one after the other. -/
def runPasses (ps : List Pass) : Edit Unit := ps.forM fun p => do
  let _ ← runPass p

/-- Appends a copy of a declaration to every rule. -/
def appendToRules (d : Declaration) : Edit Unit := do
  (← get).rules.forM fun rule => do
    let node ← make (.declaration d)
    append rule node

end Edit

end CssExpand
