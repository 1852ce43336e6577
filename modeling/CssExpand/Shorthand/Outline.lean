import CssExpand.Shorthand.Spec
import CssExpand.Value.Border

/-!
# Outlines

An outline is a border line with one more style, `auto`, which the border grammar would take for a
color. A global keyword anywhere among the words takes all three slots.
-/

set_option autoImplicit false

namespace CssExpand

open Value

/-- The width, style and color of an outline. -/
def outlineSlots (ws : List String) : Option Slots :=
  match ws.find? (isOneOf wideKeywords) with
  | some keyword => some [some keyword, some keyword, some keyword]
  | none =>
    let autos := ws.filter (isOneOf ["auto"])
    let line := Border.ofWords (ws.filter (!isOneOf ["auto"] ·))
    let twoStyles := 1 < autos.length || (!autos.isEmpty && line.style.isSome)
    if !line.collisions.isEmpty || twoStyles then none
    else some [line.width, autos.head?.or line.style, line.color]

namespace Shorthand

/-- The `outline` shorthand. -/
def outline : Shorthand where
  name := "outline"
  slots := ["width", "style", "color"]
  defaults := BorderPart.all.map BorderPart.default
  assign := outlineSlots
  reads ws := if ws.any (isOneOf wideKeywords) then [] else ws

end Shorthand

end CssExpand
