/-!
# Options

Splitting command line arguments into options and the rest. An option has one letter or a long name,
and may take a value: in the same argument or in the next one. Several letters may share an
argument. Two dashes end the options.
-/

set_option autoImplicit false

namespace CssExpand

/-- What an option is for. -/
inductive OptionKey where
  | version
  | verbose
  | help
  | input
  | output
  | ignore
  | noExplode
  | noDefaults
  | noUnits
  deriving DecidableEq, Repr

/-- An option of a command. -/
structure OptionSpec where
  key : OptionKey
  letter : Option Char
  long : String
  takesValue : Bool
  deriving DecidableEq, Repr

/-- The options of the program. -/
def programOptions : List OptionSpec :=
  [⟨.version, none, "--version", false⟩, ⟨.verbose, some 'v', "--verbose", false⟩,
   ⟨.help, none, "--help", false⟩]

/-- The options of every command. -/
def commandOptions : List OptionSpec :=
  [⟨.input, some 'i', "--input", true⟩, ⟨.output, some 'o', "--output", true⟩,
   ⟨.ignore, none, "--ignore", true⟩]

/-- The options that switch a pass off. -/
def switchOptions : List OptionSpec :=
  [⟨.noExplode, none, "--no-explode", false⟩, ⟨.noDefaults, none, "--no-defaults", false⟩,
   ⟨.noUnits, none, "--no-units", false⟩]

/-- The option that shows the help of a command. -/
def helpOption : OptionSpec := ⟨.help, none, "--help", false⟩

/-- What is wrong with the options. -/
inductive OptionError where
  | unknown (name : String)
  | needsValue (name : String)
  | takesNoValue (name : String)
  deriving DecidableEq, Repr

/-- Options with their values, in the order in which they were given, and the other arguments. -/
structure Parsed where
  options : List (OptionKey × String) := []
  rest : List String := []
  deriving DecidableEq, Repr

namespace Parsed

/-- With one more option at the front. -/
def push (key : OptionKey) (value : String) (p : Parsed) : Parsed :=
  { p with options := (key, value) :: p.options }

/-- With one more argument at the front. -/
def pushRest (arg : String) (p : Parsed) : Parsed := { p with rest := arg :: p.rest }

/-- The value of an option; the last one counts. -/
def value? (p : Parsed) (key : OptionKey) : Option String := p.options.reverse.lookup key

/-- Whether an option is given. -/
def has (p : Parsed) (key : OptionKey) : Bool := (p.value? key).isSome

end Parsed

/-- What one argument says about options: the options it holds, and the name of a last one that
still waits for its value. -/
structure OptionWord where
  options : List (OptionKey × String) := []
  waiting : Option (OptionKey × String) := none

/-- The options behind the letters of an argument. -/
def readLetters (specs : List OptionSpec) : List Char → Except OptionError OptionWord
  | [] => .ok {}
  | c :: cs =>
    match specs.find? (·.letter == some c) with
    | none => .error (.unknown (String.ofList ['-', c]))
    | some spec =>
      if spec.takesValue then
        if cs.isEmpty then .ok ⟨[], some (spec.key, String.ofList ['-', c])⟩
        else .ok ⟨[(spec.key, String.ofList cs)], none⟩
      else do
        let word ← readLetters specs cs
        pure { word with options := (spec.key, "") :: word.options }

/-- The option of an argument that starts with a dash. -/
def readOption (specs : List OptionSpec) (arg : String) : Except OptionError OptionWord :=
  let cs := arg.toList
  let name := String.ofList (cs.takeWhile (· != '='))
  let value := match cs.dropWhile (· != '=') with
    | [] => none
    | _ :: rest => some (String.ofList rest)
  match specs.find? (·.long == name) with
  | some spec =>
    match spec.takesValue, value with
    | true, some v => .ok ⟨[(spec.key, v)], none⟩
    | true, none => .ok ⟨[], some (spec.key, name)⟩
    | false, some _ => .error (.takesNoValue name)
    | false, none => .ok ⟨[(spec.key, "")], none⟩
  | none =>
    if ['-', '-'].isPrefixOf cs then .error (.unknown name) else readLetters specs cs.tail

/-- Whether an argument is an option. A single dash is none. -/
def isOption (arg : String) : Bool := arg.toList.head? == some '-' && arg != "-"

/-- Splits arguments into options and the rest. Unless options are `anywhere`, they end at the first
argument that is none. -/
def parseOptions (specs : List OptionSpec) (anywhere : Bool) :
    List String → Except OptionError Parsed
  | [] => .ok {}
  | arg :: args =>
    if arg == "--" then .ok ⟨[], args⟩
    else if isOption arg then do
      let word ← readOption specs arg
      match word.waiting, args with
      | some (_, name), [] => .error (.needsValue name)
      | some (key, _), value :: args => do
        let parsed ← parseOptions specs anywhere args
        pure { parsed with options := word.options ++ (key, value) :: parsed.options }
      | none, args => do
        let parsed ← parseOptions specs anywhere args
        pure { parsed with options := word.options ++ parsed.options }
    else if anywhere then do
      let parsed ← parseOptions specs anywhere args
      pure (parsed.pushRest arg)
    else .ok ⟨[], arg :: args⟩

end CssExpand
