import CssExpand.CommandLine.FileTree
import CssExpand.CommandLine.Help
import CssExpand.Convert
import CssExpand.Text.ControlSequence

/-!
# Running the command line

What the program prints and writes for given arguments and files. The whole run is one function of
its arguments: nothing is written before the result is there, so a run that fails writes nothing.
What is printed is printed without control sequences, the log excepted, and files are written with
them.
-/

set_option autoImplicit false

namespace CssExpand

/-- Why a run breaks off without a message of its own. -/
inductive Crash where
  /-- The input is not UTF-8. -/
  | undecodable
  /-- No file can have a name that was given for one. -/
  | impossibleName
  | converting (cause : Failure)
  | writing (cause : WriteFault)
  deriving DecidableEq, Repr

/-- What is said about a run that breaks off. -/
def Crash.message : Crash → String
  | .undecodable => "The input is not valid UTF-8."
  | .impossibleName => "A file name holds a character that no file name can hold."
  | .converting cause => cause.message
  | .writing .parentIsFile => "The directory for the output is a file."
  | .writing .ancestorIsFile => "A directory on the way to the output is a file."
  | .writing .isDirectory => "The output is a directory."
  | .writing .nameTooLong => "The name of the output is too long."

/-- Why the arguments of a command are refused. -/
inductive Refusal where
  | usage (cause : UsageError)
  | crash (cause : Crash)
  deriving DecidableEq, Repr

/-- What a run leaves behind. A run writes one file at most. -/
structure Report where
  exit : Nat
  output : String := ""
  errors : String := ""
  crash : Option Crash := none
  /-- The file that is written, with its text. -/
  written : Option (String × String) := none

namespace Report

/-- A run that answers a question. -/
def answer (text : String) : Report := { exit := 0, output := text }

/-- A run with wrong arguments. -/
def usage (command : Option Command) (e : UsageError) : Report :=
  { exit := 2, errors := Text.plain (e.report command) }

/-- A run of a command whose arguments are refused. -/
def refused (command : Command) : Refusal → Report
  | .usage e => usage (some command) e
  | .crash cause => { exit := 1, crash := some cause }

end Report

/-! ## Reading -/

/-- Text with one line break for all of them. -/
def unifyLineEnds : List Char → List Char
  | [] => []
  | '\r' :: '\n' :: rest => '\n' :: unifyLineEnds rest
  | c :: rest => (if c = '\r' then '\n' else c) :: unifyLineEnds rest

/-- The text of a file. -/
def decodeFile (bytes : ByteArray) : Option String :=
  (String.fromUTF8? bytes).map fun text => String.ofList (unifyLineEnds text.toList)

/-! ## Checking options -/

/-- The checks of the input and the output, in the order in which the options were given; an option
that was not given is missed after those that were, the input before the output. -/
def checkOrder (p : Parsed) : List OptionKey :=
  let given := (p.options.map Prod.fst).filter fun key => key == .input || key == .output
  (given ++ [OptionKey.input, OptionKey.output]).eraseDups

/-- Checks an option. -/
def checkOption (place : String → Place) (p : Parsed) (key : OptionKey) : Except Refusal Unit :=
  match key, p.value? key with
  | .input, none => .error (.usage .missingInput)
  | .output, none => .error (.usage .missingOutput)
  | .input, some name =>
    match (place name).kind with
    | .missing => .error (.usage (.inputMissing name))
    | .directory => .error (.usage (.inputIsDirectory name))
    | .impossible => .error (.crash .impossibleName)
    | .file _ => .ok ()
  | .output, some name =>
    match (place name).kind with
    | .directory => .error (.usage (.outputIsDirectory name))
    | .impossible => .error (.crash .impossibleName)
    | _ => .ok ()
  | _, _ => .ok ()

/-- Checks the options of a command and that nothing else was given. -/
def checkArguments (place : String → Place) (p : Parsed) : Except Refusal Unit := do
  (checkOrder p).forM (checkOption place p)
  if !p.rest.isEmpty then throw (.usage (.extraArguments p.rest))

/-! ## Converting -/

/-- What is printed when a file has been written. -/
def doneText (input output : String) (ignored : Ignored) : String :=
  linesText
    (("Processed " ++ input ++ " -> " ++ output) ::
      if ignored.names.isEmpty then []
      else ["Ignored properties: " ++ ", ".intercalate ignored.sorted])

/-- Delivers a converted stylesheet: a dash stands for the standard output. -/
def deliver (place : String → Place) (input output : String) (ignored : Ignored)
    (log css : String) : Report :=
  if output = "-" then { exit := 0, output := Text.plain css, errors := log }
  else
    match (place output).target with
    | .error cause => { exit := 1, errors := log, crash := some (.writing cause) }
    | .ok path =>
      { exit := 0, output := Text.plain (doneText input output ignored), errors := log,
        written := path.map fun path => (path, css) }

/-- Reads the input, runs the passes of a command and delivers the result. -/
def runOn (place : String → Place) (verbose : Bool) (command : Command) (p : Parsed)
    (input output : String) (bytes : ByteArray) : Report :=
  let ignored := Ignored.ofText ((p.value? .ignore).getD "")
  match decodeFile bytes with
  | none => { exit := 1, crash := some .undecodable }
  | some css =>
    match convertWith (command.settings ignored p) css with
    | .error (.parse (.unfinished position)) =>
      { exit := 1,
        errors := linesText ["Error: " ++ (ParseError.unfinished position).message] }
    | .error cause => { exit := 1, crash := some (.converting cause) }
    | .ok result =>
      let log := if verbose then linesText (result.log.map LogLine.text) else ""
      deliver place input output ignored log result.css

/-- Runs a command with its own arguments. -/
def runCommand (place : String → Place) (verbose : Bool) (command : Command) (args : List String) :
    Report :=
  match parseOptions command.options true args with
  | .error cause => .usage (some command) (.option cause)
  | .ok p =>
    if p.has .help then .answer (commandHelp command)
    else
      match checkArguments place p with
      | .error e => .refused command e
      | .ok () =>
        match p.value? .input, p.value? .output with
        | some input, some output =>
          match (place input).kind with
          | .file bytes => runOn place verbose command p input output bytes
          | _ => .usage (some command) (.inputMissing input)
        | _, _ => .usage (some command) .missingInput

/-! ## The program -/

/-- The answer to the first question among the options of the program. -/
def programAnswer? (p : Parsed) : Option Report :=
  p.options.findSome? fun o =>
    match o.1 with
    | .help => some (.answer programHelp)
    | .version => some (.answer versionText)
    | _ => none

/-- The report for a name that is no command. One that looks like an option is read as one first. -/
def unknownCommand (name : String) (args : List String) : Report :=
  if isOption name then
    match parseOptions programOptions false (name :: args) with
    | .error cause => .usage none (.option cause)
    | .ok p => (programAnswer? p).getD (.usage none (.unknownCommand name))
  else .usage none (.unknownCommand name)

/-- Runs the program. Without arguments it shows its help as an error. -/
def runProgram (place : String → Place) (args : List String) : Report :=
  if args.isEmpty then { exit := 2, errors := programHelp }
  else
    match parseOptions programOptions false args with
    | .error cause => .usage none (.option cause)
    | .ok p =>
      match programAnswer? p with
      | some report => report
      | none =>
        match p.rest with
        | [] => .usage none .missingCommand
        | name :: args =>
          match Command.ofName? name with
          | some command => runCommand place (p.has .verbose) command args
          | none => unknownCommand name args

/-- The file names that a run may look at. -/
def namedFiles (args : List String) : List String :=
  match parseOptions programOptions false args with
  | .error _ => []
  | .ok p =>
    match p.rest with
    | [] => []
    | name :: args =>
      match Command.ofName? name with
      | none => []
      | some command =>
        match parseOptions command.options true args with
        | .error _ => []
        | .ok p => (p.value? .input).toList ++ (p.value? .output).toList

end CssExpand
