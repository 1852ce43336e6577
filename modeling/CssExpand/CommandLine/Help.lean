import CssExpand.CommandLine.Options
import CssExpand.Settings
import CssExpand.Text.Quoted

/-!
# Commands and their help

The commands of the program, the texts that explain them, and the messages for arguments that make
no sense.
-/

set_option autoImplicit false

namespace CssExpand

/-- A command of the program. -/
inductive Command where
  | addDefaults
  | addUnits
  | explode
  | normalize
  deriving DecidableEq, Repr

namespace Command

/-- The name of a command. -/
def name : Command → String
  | .addDefaults => "add-defaults"
  | .addUnits => "add-units"
  | .explode => "explode"
  | .normalize => "normalize"

/-- The commands in the order of their names. -/
def all : List Command := [.addDefaults, .addUnits, .explode, .normalize]

/-- The command of a name. -/
def ofName? (name : String) : Option Command := all.find? (·.name == name)

/-- What a command does. -/
def description : Command → String
  | .addDefaults => "Write every slot of animation, transition, font, flex and friends."
  | .addUnits => "Rewrite `0` as `0px`, `0s` or `0deg` where the property implies a unit."
  | .explode => "Explode margin, padding, columns and border shorthands."
  | .normalize => "Explode, add defaults, then add units."

/-- The line about a command in the help of the program. -/
def summary : Command → String
  | .addDefaults => "  add-defaults  Write every slot of animation, transition, font, flex and..."
  | .addUnits => "  add-units     Rewrite `0` as `0px`, `0s` or `0deg` where the property..."
  | .explode => "  explode       Explode margin, padding, columns and border shorthands."
  | .normalize => "  normalize     Explode, add defaults, then add units."

/-- Whether the passes of a command can be switched off. -/
def hasSwitches : Command → Bool
  | .normalize => true
  | _ => false

/-- The options of a command. -/
def options (c : Command) : List OptionSpec :=
  commandOptions ++ (if c.hasSwitches then switchOptions else []) ++ [helpOption]

/-- The settings that a command and its switches ask for. -/
def settings (c : Command) (ignored : Ignored) (p : Parsed) : Settings :=
  match c with
  | .explode => ⟨ignored, true, false, false⟩
  | .addDefaults => ⟨ignored, false, true, false⟩
  | .addUnits => ⟨ignored, false, false, true⟩
  | .normalize => ⟨ignored, !p.has .noExplode, !p.has .noDefaults, !p.has .noUnits⟩

end Command

/-! ## Texts -/

/-- Lines with a line break after each of them. -/
def linesText (ls : List String) : String := String.join (ls.map (· ++ "\n"))

/-- The answer to a question about the version. -/
def versionText : String := linesText ["longhand, version 0.1.0"]

/-- How the program is called. -/
def programUsage : String := "Usage: cli [OPTIONS] COMMAND [ARGS]..."

/-- How a command is called. -/
def commandUsage (c : Command) : String := "Usage: cli " ++ c.name ++ " [OPTIONS]"

/-- The help of the program. -/
def programHelp : String :=
  linesText
    ([programUsage,
      "",
      "  longhand - explode CSS shorthands, fill their defaults and add units to zeros.",
      "",
      "Options:",
      "  --version      Show the version and exit.",
      "  -v, --verbose  Log every rewritten declaration.",
      "  --help         Show this message and exit.",
      "",
      "Commands:"] ++ Command.all.map Command.summary)

/-- The lines about the switches of a command. -/
def switchLines : List String :=
  ["  --no-explode       Skip the explode pass.",
   "  --no-defaults      Skip the add-defaults pass.",
   "  --no-units         Skip the add-units pass."]

/-- The help of a command. -/
def commandHelp (c : Command) : String :=
  linesText
    ([commandUsage c,
      "",
      "  " ++ c.description,
      "",
      "Options:",
      "  -i, --input FILE   Stylesheet to read.  [required]",
      "  -o, --output FILE  Where to write the result; '-' for stdout.  [required]",
      "  --ignore PROPS     Comma-separated properties to leave alone, e.g.",
      "                     'margin,opacity'."] ++
     (if c.hasSwitches then switchLines else []) ++
     ["  --help             Show this message and exit."])

/-! ## Messages -/

/-- What is wrong with the arguments of a call. -/
inductive UsageError where
  | option (cause : OptionError)
  | missingCommand
  | unknownCommand (name : String)
  | missingInput
  | missingOutput
  | inputMissing (name : String)
  | inputIsDirectory (name : String)
  | outputIsDirectory (name : String)
  | extraArguments (args : List String)
  deriving DecidableEq, Repr

/-- The message for a wrong option. -/
def OptionError.message : OptionError → String
  | .unknown name => "No such option " ++ Text.quoted name ++ "."
  | .needsValue name => "Option " ++ Text.quoted name ++ " requires an argument."
  | .takesNoValue name => "Option " ++ Text.quoted name ++ " does not take a value."

/-- The message for wrong arguments. -/
def UsageError.message : UsageError → String
  | .option cause => cause.message
  | .missingCommand => "Missing command."
  | .unknownCommand name => "No such command " ++ Text.quoted name ++ "."
  | .missingInput => "Missing option '-i' / '--input'."
  | .missingOutput => "Missing option '-o' / '--output'."
  | .inputMissing name =>
    "Invalid value for '-i' / '--input': File " ++ Text.quoted name ++ " does not exist."
  | .inputIsDirectory name =>
    "Invalid value for '-i' / '--input': File " ++ Text.quoted name ++ " is a directory."
  | .outputIsDirectory name =>
    "Invalid value for '-o' / '--output': File " ++ Text.quoted name ++ " is a directory."
  | .extraArguments args =>
    (if args.length = 1 then "Got unexpected extra argument (" else
      "Got unexpected extra arguments (") ++ " ".intercalate args ++ ")"

/-- Whether the usage is shown with a message. It is left out where an option and its value do not
fit together. -/
def UsageError.showsUsage : UsageError → Bool
  | .option (.needsValue _) | .option (.takesNoValue _) => false
  | _ => true

/-- What is shown for wrong arguments, of the program or of one of its commands. -/
def UsageError.report (e : UsageError) (command : Option Command) : String :=
  let usage :=
    match command with
    | none => [programUsage, "Try 'cli --help' for help.", ""]
    | some c => [commandUsage c, "Try 'cli " ++ c.name ++ " --help' for help.", ""]
  linesText ((if e.showsUsage then usage else []) ++ ["Error: " ++ e.message])

end CssExpand
