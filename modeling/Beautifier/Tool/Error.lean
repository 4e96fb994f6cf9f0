/-
Why a run of the tool ends without a status.
-/
import Beautifier.Rules.Rule
import Beautifier.Tool.FileTree
import Beautifier.Transform.Entry

namespace Beautifier

/-- Why a run of the tool ends without a status. -/
inductive ToolError where
  /-- An option that needs a value has none. -/
  | missingValue (option : String)
  /-- What the library that reads the tool's own arguments says against them. -/
  | arguments (message : String)
  /-- A rules file stands beside other ways to choose files or options. -/
  | rulesConflict
  | unsupportedVersion (requested : String)
  | invalidPattern (pattern : String)
  | read (path : String) (e : ReadError)
  /-- A rules file holds no rules. -/
  | rulesFile (path : String)
  /-- A rule has an unknown key or a value of the wrong kind. -/
  | rule (name : String)
  /-- Options files name each other without end. -/
  | endlessOptions
deriving DecidableEq, Repr

namespace ToolError

def availableVersions : List String := [engineVersion]

def message : ToolError → String
  | missingValue option => "Option --" ++ option ++ " requires a value"
  | arguments message => message
  | rulesConflict =>
      "--options, --exclude, --exclude-list can't be used together with --rules"
  | unsupportedVersion requested =>
      "Unsupported astyle version: " ++ requested ++ ". Available versions: "
        ++ ", ".intercalate availableVersions
  | invalidPattern pattern =>
      "Likely invalid pattern '" ++ pattern ++ "': '**' should be followed by '/'"
  | read path e => "Failed to read " ++ path ++ ": " ++ e.message
  | rulesFile path => "Failed to parse rules file " ++ path
  | rule name => "Invalid rule " ++ name
  | endlessOptions => "Options files name each other without end"

def ofRules (path : String) : RulesError → ToolError
  | .notRules => rulesFile path
  | .badRule name => rule name
  | .badPattern pattern => invalidPattern pattern

end ToolError

end Beautifier
