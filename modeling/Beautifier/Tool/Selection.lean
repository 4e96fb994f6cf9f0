/-
Which files are formatted, and under which options.
-/
import Beautifier.Tool.CommandLine

namespace Beautifier

/-- A file to be formatted under an options text. -/
structure FileItem where
  path : String
  options : String
deriving DecidableEq, Repr

namespace FileItem

def readRules (lib : RulesLibrary) (t : FileTree) (path : String) : Except ToolError Rules :=
  match t.readText path with
  | .error e => .error (.read path e)
  | .ok text =>
      match Rules.readWith lib text with
      | .ok rules => .ok rules
      | .error e => .error (.ofRules path e)

/-- Each file under the options of the rule that covers it, unless the rule says not to check. -/
def ofRules (rules : Rules) (files : List String) : List FileItem :=
  files.filterMap fun path =>
    let rule := rules.select path
    if rule.check then some ⟨path, rule.options⟩ else none

/-- The files that no pattern excludes, all under the forwarded options. -/
def ofPatterns (excludes forwarded files : List String) : Except ToolError (List FileItem) :=
  match Path.exclude excludes files with
  | .error pattern => .error (.invalidPattern pattern)
  | .ok kept => .ok (kept.map fun path => ⟨path, " ".intercalate forwarded⟩)

/-- The files to be formatted, in the order of the command line. -/
def select (lib : RulesLibrary) (t : FileTree) (i : Invocation) :
    Except ToolError (List FileItem) :=
  match i.tool.rules with
  | some path => (readRules lib t path).map fun rules => ofRules rules i.files
  | none => ofPatterns i.excludes i.forwarded i.files

end FileItem

end Beautifier
