import TypeFlow.CommandLine.Output

/-!
# The program

Reads the files that the arguments name, and prints what the library makes of them.
-/

namespace TypeFlow.CommandLine

/-- The text of a file, if it can be read. -/
def readText (path : String) : IO (Option String) := do
  try
    let text ← IO.FS.readFile path
    return some text
  catch _ => return none

/-- The files that a request names, with their texts. -/
def readFiles : Option Request → IO (List (String × String))
  | some (.analyze i) => do
    let mut files := []
    for path in i.program :: i.config.toList do
      if let some text ← readText path then
        files := (path, text) :: files
    return files
  | _ => return []

end TypeFlow.CommandLine

open TypeFlow in
def main (args : List String) : IO UInt32 := do
  let files ← CommandLine.readFiles (CommandLine.parse args)
  let color := (← IO.getEnv "CLICOLOR_FORCE").any (· ≠ "0")
  let output := CommandLine.run (fun path => files.lookup path) color args
  (← IO.getStdout).putStr output.stdout
  if let some message := output.message then
    (← IO.getStderr).putStrLn message
  if output.code = 2 then
    (← IO.getStderr).putStr CommandLine.helpText
  return output.code.toUInt32
