/-
The tool as a program.

The tool is built on the readers of arguments and of rules texts that are
defined here.
-/
import Beautifier.Rules.Entry
import Beautifier.Tool.ArgumentReader
import Beautifier.Tool.Report

namespace Beautifier

/-- The libraries that read arguments and rules texts as defined here. -/
def Libraries.standard : Libraries where
  arguments := ToolOptions.read false .none
  rules := .standard

def Command.read (t : FileTree) (arguments : List String) : Except ToolError Command :=
  readWith Libraries.standard.arguments t arguments

def run (t : FileTree) (arguments : List String) : RunReport := runWith .standard t arguments

end Beautifier
