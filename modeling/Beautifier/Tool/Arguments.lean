/-
The tool's own arguments.

What the command line says of the tool itself is put into arguments for a
library, which reads the values of the options from them
(`ArgumentReader`).  Nothing else is known of that library here.
-/
import Beautifier.Tool.Error

namespace Beautifier

/-- The values of the tool's own options. -/
structure ToolOptions where
  dryRun : Bool
  quiet : Bool
  version : Bool
  engine : Option String
  options : List String
  exclude : List String
  excludeList : List String
  rules : Option String
deriving DecidableEq, Repr

namespace ToolOptions

def none : ToolOptions := ⟨false, false, false, .none, [], [], [], .none⟩

/-- The names of options that stand alone. -/
def switches : List String := ["dry-run", "quiet", "version"]

/-- The names of options with a value. -/
def valued : List String := ["astyle-version", "options", "exclude", "exclude-list", "rules"]

end ToolOptions

/-- What a reader of arguments says where it finds no options: a text to be shown. -/
structure EarlyExit where
  output : String
  /-- The text was asked for; otherwise it says what is wrong with the arguments. -/
  requested : Bool
deriving DecidableEq, Repr

/-- A library that reads the tool's own arguments. -/
abbrev ArgumentReader := List String → Except EarlyExit ToolOptions

/-- The libraries that the tool is built on. -/
structure Libraries where
  arguments : ArgumentReader
  rules : RulesLibrary

end Beautifier
