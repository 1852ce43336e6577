import CssExpand.Value.Words

/-!
# Shorthand specifications

A shorthand lists its slots with a default each, and its assignment says which word of a layer
belongs to which slot. Assigning never fills a slot that the author left out; filling does nothing
else. Completing a value is assigning, filling and joining the words of every layer.
-/

set_option autoImplicit false

namespace CssExpand

open Syntax Value

/-- The words in the slots of a layer; a slot that the author left out has none. -/
abbrev Slots := List (Option String)

/-- The elements of a list up to the first one that satisfies `p`, and that one. -/
def takeThrough {α : Type} (p : α → Bool) : List α → List α
  | [] => []
  | x :: xs => if p x then [x] else x :: takeThrough p xs

/-- Joins the non-empty words of a layer. -/
def joinPresent (ws : List String) : String := " ".intercalate (ws.filter (!·.isEmpty))

/-- The grammar of a shorthand. A grammar is data: whatever is done with shorthands is done once, for
all of them, from how the words are sorted and how the slots are written. -/
structure Shorthand where
  name : String
  slots : List String
  defaults : List String
  /-- Every slot has a default. -/
  length_defaults : defaults.length = slots.length := by rfl
  /-- The slots of the words of one layer, unless they do not make up a layer. -/
  assign : List String → Option Slots
  /-- The texts that are read to tell what the words of one layer are, in order. -/
  reads : List String → List String
  /-- Whether a value is a list of layers separated by commas. -/
  layered : Bool := false
  /-- Writes the filled slots of a layer. -/
  join : List String → String := joinPresent

namespace Shorthand

/-- The texts of a value that are classified one by one. -/
def layersOf (s : Shorthand) (value : String) : List String :=
  if s.layered then layers value else [value]

/-- The slots of one layer. -/
def slotsOfLayer? (s : Shorthand) (layer : String) : Option Slots :=
  match words layer with
  | [] => none
  | ws => (s.assign ws).filter fun slots => slots.length == s.slots.length

/-- The slots of every layer of a value. -/
def layerSlots? (s : Shorthand) (value : String) : Option (List Slots) :=
  match s.layersOf value with
  | [] => none
  | ls => ls.mapM s.slotsOfLayer?

/-- The words of a layer once its open slots have their defaults. -/
def fill (s : Shorthand) (slots : Slots) : List String :=
  List.zipWith (fun value default => value.getD default) slots s.defaults

/-- A value with every slot of every layer written out. -/
def complete (s : Shorthand) (value : String) : Option String :=
  (s.layerSlots? value).map fun ls => ", ".intercalate (ls.map fun slots => s.join (s.fill slots))

/-- Refuses layers that have to be read and hold an overlong integer, as a whole or in a text read to
classify them. What comes after a layer that is not classified is not read. -/
def checkLayers (s : Shorthand) : List String → Except OverlongInteger Unit
  | [] => .ok ()
  | layer :: ls => do
    checkIntegers layer
    checkWords (s.reads (words layer))
    if (s.slotsOfLayer? layer).isSome then checkLayers s ls else .ok ()

/-- Refuses a value that holds an overlong integer, as a whole or in its layers. -/
def check (s : Shorthand) (value : String) : Except OverlongInteger Unit := do
  if s.layered && !Text.isBlankText value then checkIntegers value
  s.checkLayers (s.layersOf value)

end Shorthand

end CssExpand
