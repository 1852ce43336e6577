import CssExpand.Shorthand.Spec
import CssExpand.Value.Word

/-!
# Animations and transitions

Both tell their words apart by what they look like, in a fixed order of rules: every word has the
kind of the first rule that it fits. Of two times the first is the duration and the last the delay.
Otherwise the last word of a kind counts, except that the first iteration count does.
-/

set_option autoImplicit false

namespace CssExpand

open Value

/-! ## Animation -/

def Animation.directionKeywords : List String :=
  ["normal", "reverse", "alternate", "alternate-reverse"]

def Animation.fillModeKeywords : List String := ["none", "forwards", "backwards", "both"]

def Animation.playStateKeywords : List String := ["running", "paused"]

/-- Whether a word is a number of iterations. -/
def Animation.isCount (word : String) : Bool :=
  isOneOf ["infinite"] word || (number? word).any (·.isNonnegative)

/-- What a word of an animation can be. -/
inductive AnimationWord where
  | time
  | timing
  | iterationCount
  | direction
  | fillMode
  | playState
  | name
  deriving DecidableEq, Repr

/-- The kind of a word, by the first rule that it fits. -/
def AnimationWord.ofWord (word : String) : AnimationWord :=
  if isTime word then .time
  else if isEasing word then .timing
  else if Animation.isCount word then .iterationCount
  else if isOneOf Animation.directionKeywords word then .direction
  else if isOneOf Animation.fillModeKeywords word then .fillMode
  else if isOneOf Animation.playStateKeywords word then .playState
  else .name

/-- The slots of an animation. -/
structure Animation where
  name : Option String := none
  duration : Option String := none
  timing : Option String := none
  delay : Option String := none
  iterationCount : Option String := none
  direction : Option String := none
  fillMode : Option String := none
  playState : Option String := none
  deriving DecidableEq, Repr

namespace Animation

/-- The animation with one more word. -/
def add (a : Animation) (word : String) : Animation :=
  match AnimationWord.ofWord word with
  | .time =>
    if a.duration.isNone then { a with duration := some word }
    else { a with delay := some word }
  | .timing => { a with timing := some word }
  | .iterationCount => { a with iterationCount := a.iterationCount.or (some word) }
  | .direction => { a with direction := some word }
  | .fillMode => { a with fillMode := some word }
  | .playState => { a with playState := some word }
  | .name => { a with name := some word }

/-- Classifies words. -/
def ofWords (ws : List String) : Animation := ws.foldl add {}

/-- The slots in the order in which they are written. -/
def slots (a : Animation) : Slots :=
  [a.name, a.duration, a.timing, a.delay, a.iterationCount, a.direction, a.fillMode, a.playState]

end Animation

namespace Shorthand

/-- The `animation` shorthand. -/
def animation : Shorthand where
  name := "animation"
  slots := ["name", "duration", "timing-function", "delay", "iteration-count", "direction",
    "fill-mode", "play-state"]
  defaults := ["none", "0s", "ease", "0s", "1", "normal", "none", "running"]
  assign ws := some (Animation.ofWords ws).slots
  reads ws := ws
  layered := true

end Shorthand

/-! ## Transition -/

/-- What a word of a transition can be. -/
inductive TransitionWord where
  | time
  | timing
  | property
  deriving DecidableEq, Repr

/-- The kind of a word, by the first rule that it fits. -/
def TransitionWord.ofWord (word : String) : TransitionWord :=
  if isTime word then .time else if isEasing word then .timing else .property

/-- The slots of a transition. -/
structure Transition where
  property : Option String := none
  duration : Option String := none
  timing : Option String := none
  delay : Option String := none
  deriving DecidableEq, Repr

namespace Transition

/-- The transition with one more word. -/
def add (t : Transition) (word : String) : Transition :=
  match TransitionWord.ofWord word with
  | .time =>
    if t.duration.isNone then { t with duration := some word }
    else { t with delay := some word }
  | .timing => { t with timing := some word }
  | .property => { t with property := some word }

/-- Classifies words. -/
def ofWords (ws : List String) : Transition := ws.foldl add {}

/-- The slots in the order in which they are written. -/
def slots (t : Transition) : Slots := [t.property, t.duration, t.timing, t.delay]

end Transition

namespace Shorthand

/-- The `transition` shorthand. -/
def transition : Shorthand where
  name := "transition"
  slots := ["property", "duration", "timing-function", "delay"]
  defaults := ["all", "0s", "ease", "0s"]
  assign ws := some (Transition.ofWords ws).slots
  reads ws := ws
  layered := true

end Shorthand

end CssExpand
