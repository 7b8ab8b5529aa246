import MaskedViews.CommandLine

/-!
# The program

Reads the files that the arguments name, runs the command line on them and prints what it leaves
behind.
-/

namespace MaskedViews

/-- The text of a file, if it can be read. -/
def readText? (name : Text) : IO (Option Text) := do
  try
    let content ← IO.FS.readFile (String.ofList name)
    return some content.toList
  catch _ => return none

end MaskedViews

open MaskedViews

/-- The program. -/
def main (args : List String) : IO UInt32 := do
  let args := args.map String.toList
  let files ← (CommandLine.filesOf args).mapM fun name => do return (name, ← readText? name)
  let outcome := CommandLine.run (fun name => (files.lookup name).join) args
  (← IO.getStdout).putStr (String.ofList outcome.output)
  (← IO.getStderr).putStr (String.ofList outcome.complaint)
  return UInt32.ofNat outcome.code
