import CssExpand.Revision.Decision
import CssExpand.Shorthand.Registry

/-!
# Defaults

Writing out the slots that a shorthand leaves to their defaults. A value that is complete already is
left alone.
-/

set_option autoImplicit false

namespace CssExpand

open Syntax

/-- A declaration with every slot of its shorthand written out. -/
def complete (registry : Registry) (ignored : Ignored) (prop value : String) : Decision :=
  match protectedBy? ignored prop value with
  | some reason => .keep reason
  | none =>
    let prop := Text.lower prop
    match registry.find? prop with
    | none => .keep .noGrammar
    | some shorthand =>
      match shorthand.complete value with
      | none => .keep .notClassifiable
      | some completed =>
        if completed = value then .keep .alreadyComplete else .replace [(prop, completed)]

/-- Refuses a value that `complete` has to read. -/
def checkComplete (registry : Registry) (ignored : Ignored) (prop value : String) :
    Except OverlongInteger Unit :=
  match protectedBy? ignored prop value, registry.find? (Text.lower prop) with
  | none, some shorthand => shorthand.check value
  | _, _ => .ok ()

/-- Writing out defaults. -/
def Revision.defaults (registry : Registry) (ignored : Ignored) : Revision :=
  ⟨complete registry ignored, checkComplete registry ignored⟩

end CssExpand
