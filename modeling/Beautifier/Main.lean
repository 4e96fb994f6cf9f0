/-
The program.

The run itself is a function of a file tree (`run`).  Here the files that it
asks for are read, its report is printed, and the files that it changed are
written back.
-/
import Beautifier.Tool.Run

namespace Beautifier

/-- The number that the system gives to the attempt to read a folder. -/
def folderErrorNumber : UInt32 := 21

def foundFolder : IO.Error → Bool
  | .inappropriateType _ number _ => number == folderErrorNumber
  | _ => false

/-- The tree with what stands at a path, if anything does. -/
def loadPath (t : FileTree) (path : String) : IO FileTree := do
  try
    let bytes ← IO.FS.readBinFile path
    return { t with files := t.files ++ [(path, bytes.toList)] }
  catch e =>
    return if foundFolder e then { t with folders := t.folders ++ [path] } else t

/-- Reads files until the run asks for none that has not been tried. -/
partial def loadTree (arguments tried : List String) (t : FileTree) : IO FileTree := do
  match (run t arguments).ending with
  | .error (.read path .missing) =>
      if tried.contains path then return t
      else loadTree arguments (path :: tried) (← loadPath t path)
  | _ => return t

/-- Writes the files that differ between two trees. -/
def writeChanges (before after : FileTree) : IO Unit := do
  for (old, new) in before.files.zip after.files do
    if old.2 != new.2 then
      IO.FS.writeBinFile new.1 (ByteArray.mk new.2.toArray)

end Beautifier

def main (arguments : List String) : IO UInt32 := do
  let files := arguments.dropWhile Beautifier.Command.isOption
  let given ← files.eraseDups.foldlM Beautifier.loadPath ⟨[], []⟩
  let tree ← Beautifier.loadTree arguments files given
  let report := Beautifier.run tree arguments
  (← IO.getStdout).putStr report.output
  (← IO.getStderr).putStr report.diagnosticText
  try
    Beautifier.writeChanges tree report.files
    match report.ending with
    | .ok status => return status.toUInt32
    | .error e =>
        (← IO.getStderr).putStrLn e.message
        return 1
  catch e =>
    (← IO.getStderr).putStrLn ("Failed to write: " ++ toString e)
    return 1
