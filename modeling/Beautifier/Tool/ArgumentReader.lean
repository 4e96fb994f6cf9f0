/-
Reading the tool's own arguments.

Arguments are read from the first to the last: switches, options that take
the next argument as their value, and requests for help.  Behind `--` no
argument is an option, and an argument that is none is refused; so is an
option behind a request for help.
-/
import Beautifier.Tool.Arguments

namespace Beautifier.ToolOptions

/-- Turns a switch on; none if the argument is no switch. -/
def turnOn? (o : ToolOptions) : String → Option ToolOptions
  | "--dry-run" => some { o with dryRun := true }
  | "--quiet" => some { o with quiet := true }
  | "--version" => some { o with version := true }
  | _ => .none

def isValued (argument : String) : Bool := valued.any fun name => argument == "--" ++ name

def asksForHelp (argument : String) : Bool := argument == "help" || argument == "--help"

def usage : String :=
  "\n".intercalate
    ["Usage: astyle-fmt [--dry-run] [--quiet] [--version] [--astyle-version <astyle-version>] "
      ++ "[--options <options...>] [--exclude <exclude...>] [--exclude-list <exclude-list...>] "
      ++ "[--rules <rules>]",
     "",
     "Check or fix the formatting of C, C++, C# and Java files. Options not listed here are "
      ++ "passed to the formatter, for example `--style=allman`.",
     "",
     "Options:",
     "  --dry-run         only check formatting; exit with status 1 if any file would",
     "                    change",
     "  --quiet           do not print diagnostics",
     "  --version         print the version and exit",
     "  --astyle-version  version of the formatting engine to use",
     "  --options         file with further options, one per line",
     "  --exclude         exclude files matching the pattern",
     "  --exclude-list    file with exclude patterns, one per line",
     "  --rules           rules file (YAML) selecting options per file",
     "  --help, help      display usage information",
     ""]

/-! ## What is wrong with arguments -/

def unrecognized (argument : String) : EarlyExit :=
  ⟨"Unrecognized argument: " ++ argument ++ "\n", false⟩

def noValue (option : String) : EarlyExit :=
  ⟨"No value provided for option '" ++ option ++ "'.\n", false⟩

def duplicate (option value : String) : EarlyExit :=
  ⟨"Error parsing option '" ++ option ++ "' with value '" ++ value
    ++ "': duplicate values provided\n", false⟩

def behindHelp : EarlyExit := ⟨"Trailing arguments are not allowed after `help`.", false⟩

/-! ## Reading -/

/-- Gives an option its value.  An option for one value takes no second one. -/
def give (o : ToolOptions) (option value : String) : Except EarlyExit ToolOptions :=
  match option with
  | "--astyle-version" =>
      if o.engine.isSome then .error (duplicate option value)
      else .ok { o with engine := some value }
  | "--rules" =>
      if o.rules.isSome then .error (duplicate option value)
      else .ok { o with rules := some value }
  | "--options" => .ok { o with options := o.options ++ [value] }
  | "--exclude" => .ok { o with exclude := o.exclude ++ [value] }
  | "--exclude-list" => .ok { o with excludeList := o.excludeList ++ [value] }
  | _ => .error (unrecognized option)

/-- What has been read when no argument is left. -/
def finish (help : Bool) (o : ToolOptions) : Except EarlyExit ToolOptions :=
  if help then .error ⟨usage, true⟩ else .ok o

/-- Reads arguments on top of the options read so far; `help` says that help was asked for. -/
def read (help : Bool) (o : ToolOptions) : List String → Except EarlyExit ToolOptions
  | [] => finish help o
  | argument :: rest =>
      if asksForHelp argument then read true o rest
      else if argument == "--" then
        match rest with
        | [] => finish help o
        | next :: _ => .error (unrecognized next)
      else if argument.toList.head? != some '-' then .error (unrecognized argument)
      else if help then .error behindHelp
      else match o.turnOn? argument with
        | some o => read help o rest
        | .none =>
            if isValued argument then
              match rest with
              | [] => .error (noValue argument)
              | value :: rest =>
                  match o.give argument value with
                  | .ok o => read help o rest
                  | .error e => .error e
            else .error (unrecognized argument)

end Beautifier.ToolOptions
