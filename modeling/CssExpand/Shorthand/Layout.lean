import CssExpand.Shorthand.Spec
import CssExpand.Value.Word

/-!
# Flex and gap

The `flex` shorthand counts its plain numbers: grow, shrink, and a third one that can only be the
basis. The `gap` shorthand repeats a single word.
-/

set_option autoImplicit false

namespace CssExpand

open Value

/-! ## Flex -/

/-- Whether a word can be a flex basis. -/
def Flex.isBasis (word : String) : Bool :=
  isOneOf ["auto", "content"] word || isDimension word || isPercentage word ||
    startsWithOneOf mathStarts word

/-- The slots of a flex value. -/
structure Flex where
  grow : Option String := none
  shrink : Option String := none
  basis : Option String := none
  deriving DecidableEq, Repr

namespace Flex

/-- The value with one more word, if the word fits. -/
def add? (f : Flex) (word : String) : Option Flex :=
  if isBasis word then some { f with basis := some word }
  else if isNumber word then
    if f.grow.isNone then some { f with grow := some word }
    else if f.shrink.isNone then some { f with shrink := some word }
    else some { f with basis := some word }
  else none

/-- Classifies words. Alone, two keywords stand for whole values and a number sets the growth. -/
def ofWords? (ws : List String) : Option Flex :=
  match ws with
  | [word] =>
    if isOneOf ["none"] word then some ⟨some "0", some "0", some "auto"⟩
    else if isOneOf ["auto"] word then some ⟨some "1", some "1", some "auto"⟩
    else if isNumber word then some ⟨some word, none, none⟩
    else add? {} word
  | ws => ws.foldlM add? {}

/-- The slots in the order in which they are written. -/
def slots (f : Flex) : Slots := [f.grow, f.shrink, f.basis]

end Flex

/-! ## Gap -/

/-- The row gap and the column gap; one word is both. -/
def gapSlots : List String → Option Slots
  | [both] => some [some both, some both]
  | [row, column] => some [some row, some column]
  | _ => none

namespace Shorthand

/-- The `flex` shorthand. -/
def flex : Shorthand where
  name := "flex"
  slots := ["grow", "shrink", "basis"]
  defaults := ["0", "1", "0%"]
  assign ws := (Flex.ofWords? ws).map Flex.slots
  reads := takeThrough fun word => !(Flex.isBasis word || isNumber word)

/-- The `gap` shorthand. -/
def gap : Shorthand where
  name := "gap"
  slots := ["row-gap", "column-gap"]
  defaults := ["normal", "normal"]
  assign := gapSlots
  reads _ := []

end Shorthand

end CssExpand
