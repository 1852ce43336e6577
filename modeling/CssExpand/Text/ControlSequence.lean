/-!
# Control sequences

The sequences of characters that tell a terminal what to do (ECMA-48): an escape and a bracket, then
parameters, then intermediate characters, and one final character. Text that goes to somewhere else
than a terminal is shown without them (`plain`).
-/

set_option autoImplicit false

namespace CssExpand.Text

/-- Whether a character belongs to the parameters of a control sequence. -/
def isControlParameter (c : Char) : Bool := '0' ≤ c && c ≤ '?'

/-- Whether a character stands between the parameters and the final character. -/
def isControlIntermediate (c : Char) : Bool := ' ' ≤ c && c ≤ '/'

/-- Whether a character ends a control sequence. -/
def isControlFinal (c : Char) : Bool := '@' ≤ c && c ≤ '~'

/-- The text after the control sequence at its start, if there is one. -/
def afterControl? : List Char → Option (List Char)
  | '\x1b' :: '[' :: rest =>
    match (rest.dropWhile isControlParameter).dropWhile isControlIntermediate with
    | c :: rest => if isControlFinal c then some rest else none
    | [] => none
  | _ => none

/-- A control sequence shortens the text. -/
theorem length_afterControl_lt {cs rest : List Char} (h : afterControl? cs = some rest) :
    rest.length < cs.length := by
  unfold afterControl? at h
  split at h
  · rename_i tail
    have h1 := (List.dropWhile_suffix isControlParameter (l := tail)).length_le
    have h2 := (List.dropWhile_suffix isControlIntermediate
      (l := tail.dropWhile isControlParameter)).length_le
    split at h
    · rename_i c rest' hr
      rw [hr] at h2
      split at h
      · cases h
        simp only [List.length_cons] at h2 ⊢
        omega
      · cases h
    · cases h
  · cases h

/-- Characters without the control sequences among them. What stands around a sequence is not read
again once the sequence is gone. -/
def dropControls (cs : List Char) : List Char :=
  match cs with
  | [] => []
  | c :: rest =>
    match _h : afterControl? (c :: rest) with
    | some after => dropControls after
    | none => c :: dropControls rest
termination_by cs.length
decreasing_by
  · exact length_afterControl_lt _h
  · simp only [List.length_cons]
    omega

/-- A text without control sequences. -/
def plain (s : String) : String := String.ofList (dropControls s.toList)

end CssExpand.Text
