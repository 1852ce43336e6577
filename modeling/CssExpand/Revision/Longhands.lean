import CssExpand.Revision.Decision
import CssExpand.Value.Border
import CssExpand.Value.Sides

/-!
# Longhands

The longhands of the box, column and border shorthands. Each shorthand is taken apart by one level
only: `border` gives the four sides, and a side gives its width, style and color when it is met
again.
-/

set_option autoImplicit false

namespace CssExpand

open Syntax Value

/-! ## Boxes -/

/-- The four sides of `margin` or `padding`. -/
def boxLonghands (prop value : String) : Decision :=
  match Sides.ofWords? (words value) with
  | some sides => .replace (sides.toList.map fun s => (prop ++ "-" ++ s.1.name, s.2))
  | none => .keep .notOneToFourValues

/-! ## Columns -/

/-- The width and the count found among the words of `columns`. -/
structure Columns where
  width : Option String := none
  count : Option String := none
  deriving DecidableEq, Repr

namespace Columns

/-- The columns with one more word. The word `auto` stands for whatever is left open. -/
def add (c : Columns) (word : String) : Except Reason Columns :=
  if isOneOf ["auto"] word then .ok c
  else if isDimension word then
    if c.width.isSome then .error .twoColumnWidths else .ok { c with width := some word }
  else if c.count.isSome then .error .twoColumnCounts
  else .ok { c with count := some word }

/-- The words that are read: all of them, unless there are too many. -/
def readWords (ws : List String) : List String := if 2 < ws.length then [] else ws

/-- Classifies one or two words. -/
def ofWords (ws : List String) : Except Reason Columns :=
  if ws.isEmpty || 2 < ws.length then .error .notOneOrTwoValues else ws.foldlM add {}

end Columns

/-- The width and the count of `columns`. -/
def columnLonghands (value : String) : Decision :=
  match Columns.ofWords (words value) with
  | .ok c =>
    .replace [("column-width", c.width.getD "auto"), ("column-count", c.count.getD "auto")]
  | .error reason => .keep reason

/-! ## Borders -/

/-- A border shorthand. -/
inductive BorderShorthand where
  | all
  | side (s : Side)
  | part (p : BorderPart)
  deriving DecidableEq, Repr

/-- The property of a border shorthand. -/
def BorderShorthand.name : BorderShorthand → String
  | .all => "border"
  | .side s => "border-" ++ s.name
  | .part p => "border-" ++ p.name

/-- The border shorthands. -/
def BorderShorthand.list : List BorderShorthand :=
  .all :: Side.all.map .side ++ BorderPart.all.map .part

/-- The border shorthand of a name. -/
def BorderShorthand.ofName? (name : String) : Option BorderShorthand :=
  BorderShorthand.list.find? (·.name == name)

/-- The property of one part of one side. -/
def borderLonghand (side : Side) (part : BorderPart) : String :=
  "border-" ++ side.name ++ "-" ++ part.name

/-- What a border shorthand is taken apart into. -/
def BorderShorthand.takeApart (b : BorderShorthand) (value : String) : Decision :=
  match b with
  | .all =>
    if (Border.ofWords (words value)).isValid then
      .replace (Side.all.map fun s => ((BorderShorthand.side s).name, value))
    else .keep .notALine
  | .side s =>
    let line := Border.ofWords (words value)
    if line.isValid then
      .replace (BorderPart.all.map fun p => (borderLonghand s p, line.getFilled p))
    else .keep .notALine
  | .part p =>
    match Sides.ofWords? (words value) with
    | some sides => .replace (sides.toList.map fun s => (borderLonghand s.1 p, s.2))
    | none => .keep .notOneToFourValues

/-- Refuses the value of a border shorthand. The words of a line are read one by one. -/
def BorderShorthand.check (b : BorderShorthand) (value : String) : Except OverlongInteger Unit := do
  checkIntegers value
  match b with
  | .part _ => pure ()
  | _ => checkWords (words value)

/-- What a property is taken apart into if it is a border shorthand. -/
def borderLonghands (prop value : String) : Decision :=
  match BorderShorthand.ofName? prop with
  | some b => b.takeApart value
  | none => .keep .notABorder

/-! ## All of them -/

/-- A shorthand that is taken apart. -/
inductive Compound where
  | box (name : String)
  | columns
  | border (b : BorderShorthand)
  deriving DecidableEq, Repr

namespace Compound

/-- The shorthand of a name. -/
def ofName? (name : String) : Option Compound :=
  if name == "margin" || name == "padding" then some (.box name)
  else if name == "columns" then some .columns
  else (BorderShorthand.ofName? name).map .border

/-- What a shorthand is taken apart into. -/
def takeApart (s : Compound) (value : String) : Decision :=
  match s with
  | .box name => boxLonghands name value
  | .columns => columnLonghands value
  | .border b => b.takeApart value

/-- Refuses the value of a shorthand. -/
def check (s : Compound) (value : String) : Except OverlongInteger Unit :=
  match s with
  | .box _ => checkIntegers value
  | .columns => do
    checkIntegers value
    checkWords (Columns.readWords (words value))
  | .border b => b.check value

end Compound

/-- What a declaration is taken apart into, by one level. -/
def longhands (ignored : Ignored) (prop value : String) : Decision :=
  match protectedBy? ignored prop value with
  | some reason => .keep reason
  | none =>
    match Compound.ofName? (Text.lower prop) with
    | some s => s.takeApart value
    | none => .keep .notCompound

/-- Refuses a value that `longhands` has to read. -/
def checkLonghands (ignored : Ignored) (prop value : String) : Except OverlongInteger Unit :=
  match protectedBy? ignored prop value, Compound.ofName? (Text.lower prop) with
  | none, some s => s.check value
  | _, _ => .ok ()

/-- Taking shorthands apart. -/
def Revision.longhands (ignored : Ignored) : Revision :=
  ⟨CssExpand.longhands ignored, checkLonghands ignored⟩

end CssExpand
