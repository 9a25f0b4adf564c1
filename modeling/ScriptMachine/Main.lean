import ScriptMachine.Command.Report

/-!
# The program

Reads the files that the command line asks for, and writes what it has to say.
-/

namespace ScriptMachine

namespace Command

/-- The text of bytes, for the names of files. -/
def pathText (path : Bytes) : String := (String.fromUTF8? ⟨path.toArray⟩).getD ""

/-- The content of a file, if it can be read. -/
def readFile? (path : Bytes) : IO (Option Bytes) := do
  try
    let content ← IO.FS.readBinFile (pathText path)
    return some content.data.toList
  catch _ => return none

/-- The contents of files by their paths. -/
def readFiles (paths : List Bytes) : IO (List (Bytes × Option Bytes)) :=
  paths.mapM fun path => do return (path, ← readFile? path)

/-- The report on a request, its run being given more and more steps until it ends. -/
partial def Request.reportInFull (r : Request) (files : Bytes → Option Bytes) (fuel : Nat) :
    IO Report := do
  match r.report files fuel with
  | some report => return report
  | none => r.reportInFull files (fuel * 16)

end Command

end ScriptMachine

open ScriptMachine in
/-- The program: writes the report on its arguments, and gives its code. -/
def main (args : List String) : IO UInt32 := do
  let request := Command.Request.ofArguments (args.map Bytes.ofString)
  let contents ← Command.readFiles request.files
  let files (path : Bytes) : Option Bytes := (contents.lookup path).join
  let report ← request.reportInFull files 1000000
  (← IO.getStderr).write ⟨report.errors.toArray⟩
  (← IO.getStdout).write ⟨report.fullOutput.toArray⟩
  return report.code.toUInt32
