/-
A run of the tool, whatever libraries it is built on.

All files are formatted before any is written.  Then the files are settled
in order: one that cannot be read ends the run with an error, one that
cannot be formatted ends it with status 1, and one that changes is written,
or only counted in a dry run.
-/
import Beautifier.Tool.Selection

namespace Beautifier

/-- What formatting a file found. -/
inductive FileOutcome where
  | unchanged
  | changed (text : List UInt8)
  | failed (message : String)
deriving DecidableEq, Repr

/-- What a run leaves behind. -/
structure RunReport where
  /-- Lines of output. -/
  output : String
  /-- Diagnostic lines. -/
  diagnostics : List String
  files : FileTree
  /-- The exit status, unless an error ended the run. -/
  ending : Except ToolError Nat

namespace RunReport

/-- A run that says nothing and changes nothing. -/
def silent (t : FileTree) (ending : Except ToolError Nat) : RunReport := ⟨"", [], t, ending⟩

/-- A report with a diagnostic line in front. -/
def saying (line : String) (r : RunReport) : RunReport :=
  { r with diagnostics := line :: r.diagnostics }

def diagnosticText (r : RunReport) : String :=
  r.diagnostics.foldl (fun text line => text ++ line ++ "\n") ""

end RunReport

namespace Run

def toolName : String := "astyle-fmt"

def toolVersion : String := "0.1.0"

def formatFile (t : FileTree) (item : FileItem) : Except ToolError FileOutcome :=
  match t.read item.path with
  | .error e => .error (.read item.path e)
  | .ok source =>
      let outcome := transform source (Utf8.encode item.options) .exact
      match outcome.output with
      | some buffer =>
          .ok (if buffer.bytes == source then .unchanged else .changed buffer.bytes)
      | none => .ok (.failed ("\n".intercalate (outcome.events.map (·.message))))

/-- The end of a run in which so many files changed, or would have. -/
def finish (dryRun : Bool) (changed : Nat) (t : FileTree) : RunReport :=
  if changed = 0 then .silent t (.ok 0)
  else if dryRun then
    (RunReport.silent t (.ok 1)).saying
      ("Formatting errors found in " ++ toString changed ++ " files")
  else (RunReport.silent t (.ok 0)).saying ("Formatted " ++ toString changed ++ " files")

/-- Settles files in order, behind `changed` files that changed, or would have. -/
def settle (dryRun : Bool) (changed : Nat) (t : FileTree) :
    List (String × Except ToolError FileOutcome) → RunReport
  | [] => finish dryRun changed t
  | (path, outcome) :: rest =>
      match outcome with
      | .error e => .silent t (.error e)
      | .ok .unchanged => settle dryRun changed t rest
      | .ok (.failed message) =>
          (RunReport.silent t (.ok 1)).saying
            ("Error formatting " ++ path ++ ": error: " ++ message)
      | .ok (.changed text) =>
          if dryRun then
            (settle dryRun (changed + 1) t rest).saying ("Formatting error in " ++ path)
          else
            (settle dryRun (changed + 1) (t.write path text) rest).saying
              ("Formatting " ++ path)

def formatFiles (lib : RulesLibrary) (t : FileTree) (i : Invocation) : RunReport :=
  if i.files.isEmpty then (RunReport.silent t (.ok 0)).saying "No files specified"
  else match FileItem.select lib t i with
    | .error e => .silent t (.error e)
    | .ok [] =>
        if i.tool.rules.isSome then .silent t (.ok 0)
        else (RunReport.silent t (.ok 0)).saying
          "No files checked, excluded by --exclude/--exclude-list option"
    | .ok items =>
        settle i.tool.dryRun 0 t (items.map fun item => (item.path, formatFile t item))

/-- Does what an invocation asks for. -/
def invoke (lib : RulesLibrary) (t : FileTree) (i : Invocation) : RunReport :=
  let version := i.tool.engine.getD engineVersion
  if !ToolError.availableVersions.contains version then
    .silent t (.error (.unsupportedVersion version))
  else if i.tool.version then
    { RunReport.silent t (.ok 0) with
      output := toolName ++ " " ++ toolVersion ++ " with Astyle v" ++ version ++ "\n" }
  else
    let report := formatFiles lib t i
    if i.tool.quiet then { report with diagnostics := [] } else report

end Run

/-- Runs the tool, built on these libraries, on a tree with the arguments behind its name. -/
def runWith (lib : Libraries) (t : FileTree) (arguments : List String) : RunReport :=
  match Command.readWith lib.arguments t arguments with
  | .error e => .silent t (.error e)
  | .ok (@Command.help usage) => { RunReport.silent t (.ok 0) with output := usage }
  | .ok (.run i) => Run.invoke lib.rules t i

end Beautifier
