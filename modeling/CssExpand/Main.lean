import CssExpand.CommandLine.Run

/-!
# The program

Looks up the files that the arguments name, runs the command line on them, and carries out its
report.
-/

set_option autoImplicit false

namespace CssExpand

/-- What a file name names. -/
def lookUp (name : String) : IO PathKind := do
  try
    let path ← IO.FS.realPath name
    if ← path.isDir then return .directory
    if !(← path.pathExists) then return .missing
    return .file (← IO.FS.readBinFile path)
  catch _ => return .missing

/-- The directory part of a file name. -/
def directoryName (name : String) : String :=
  let parts := name.splitOn "/"
  if parts.length < 2 then "." else "/".intercalate parts.dropLast ++ "/"

/-- Writes a text to a file, making the directories for it. -/
def writeText (name text : String) : IO Unit := do
  IO.FS.createDirAll (directoryName name)
  IO.FS.writeFile name text

end CssExpand

open CssExpand

/-- Runs the program on its arguments. -/
def main (args : List String) : IO UInt32 := do
  let kinds ← (namedFiles args).mapM fun name => do
    return (name, ← lookUp name)
  let place (name : String) : Place := ⟨(kinds.lookup name).getD .missing, .ok (some name)⟩
  let report := runProgram place args
  if let some (name, text) := report.written then
    writeText name text
  (← IO.getStdout).putStr report.output
  (← IO.getStderr).putStr report.errors
  if let some crash := report.crash then
    (← IO.getStderr).putStrLn crash.message
  return report.exit.toUInt32
