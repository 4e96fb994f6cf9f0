/-
The command line.

Arguments in front that start with two dashes are options; the rest are
files.  Options wait in a queue: the tool's own are turned into arguments
for it, those it does not know are forwarded to the formatter, and the lines
of an options file join the queue at its end.
-/
import Beautifier.Tool.Arguments

namespace Beautifier

/-- A command line that asks for a run. -/
structure Invocation where
  tool : ToolOptions
  /-- Options for the formatter, in the order they were met. -/
  forwarded : List String
  /-- Exclude patterns, in the order they were met. -/
  excludes : List String
  files : List String
deriving DecidableEq, Repr

inductive Command where
  /-- Help, which is this text. -/
  | help {usage : String}
  | run (invocation : Invocation)
deriving DecidableEq, Repr

/-- The lines of an options or exclude file that count: not those that start with `#`, and of
the others, without white space at either end, those that hold something. -/
def significantLines (text : String) : List String :=
  let lines := pieces (· == '\n') text.toList
  let uncommented := lines.filter (·.head? != some '#')
  ((uncommented.map trim).filter (!·.isEmpty)).map String.ofList

/-- The significant lines of the file that a path leads to. -/
def FileTree.lines (t : FileTree) (path : String) : Except ToolError (List String) :=
  match t.readText path with
  | .ok text => .ok (significantLines text)
  | .error e => .error (.read path e)

/-- Options on their way through the queue. -/
structure Intake where
  /-- Options that wait. -/
  pending : List String
  /-- Arguments for the tool. -/
  arguments : List String
  forwarded : List String
  excludes : List String
deriving DecidableEq, Repr

namespace Intake

/-- Nothing but options that wait. -/
def ofOptions (options : List String) : Intake := ⟨options, [], [], []⟩

/-- The name of an option without its dashes, and its value. -/
def splitOption (option : String) : String × Option String :=
  let bare := match option.toList with
    | '-' :: '-' :: rest => rest
    | cs => cs
  match splitOnce '=' bare with
  | some (name, value) => (String.ofList name, some (String.ofList value))
  | none => (String.ofList bare, none)

/-- A switch becomes an argument, and a value given to it another one. -/
def takeSwitch (s : Intake) (name : String) (value : Option String) : Intake :=
  { s with arguments := s.arguments ++ ("--" ++ name) :: value.toList }

/-- An option with a value becomes two arguments. -/
def takeValued (s : Intake) (name value : String) : Intake :=
  { s with arguments := s.arguments ++ ["--" ++ name, value] }

/-- What the value of an option brings in: options that wait, or patterns. -/
def bringIn (t : FileTree) (s : Intake) (name value : String) : Except ToolError Intake :=
  if name == "options" then
    (t.lines value).map fun lines => { s with pending := s.pending ++ lines }
  else if name == "exclude" then .ok { s with excludes := s.excludes ++ [value] }
  else if name == "exclude-list" then
    (t.lines value).map fun lines => { s with excludes := s.excludes ++ lines }
  else .ok s

/-- Takes one option that has waited. -/
def takeOption (t : FileTree) (s : Intake) (option : String) : Except ToolError Intake :=
  let (name, value) := splitOption option
  if name == "help" then .ok (s.takeSwitch name none)
  else if ToolOptions.switches.contains name then .ok (s.takeSwitch name value)
  else if ToolOptions.valued.contains name then
    match value.filter (· != "") with
    | none => .error (.missingValue name)
    | some value => (s.bringIn t name value).map fun s => s.takeValued name value
  else .ok { s with forwarded := s.forwarded ++ [option] }

/-- Takes the option that has waited longest, if there is one. -/
def step (t : FileTree) (s : Intake) : Except ToolError Intake :=
  match s.pending with
  | [] => .ok s
  | option :: rest => takeOption t { s with pending := rest } option

/-- Takes options until none waits, at most so many. -/
def run (t : FileTree) : Nat → Intake → Except ToolError Intake
  | 0, s => if s.pending.isEmpty then .ok s else .error .endlessOptions
  | fuel + 1, s =>
      if s.pending.isEmpty then .ok s
      else match s.step t with
        | .ok s => run t fuel s
        | .error e => .error e

/-- A bound on the number of options taken unless options files name each other in a circle: no
file has more lines than all files together have bytes, and no chain of files is longer than
there are files. -/
def bound (t : FileTree) (options : Nat) : Nat :=
  options * Nat.pow (t.size + 1) (t.files.length + 1)

end Intake

namespace Command

def isOption (argument : String) : Bool :=
  match argument.toList with
  | '-' :: '-' :: _ => true
  | _ => false

/-- The command of what has been taken in.  A rules file tolerates no forwarded options and no
exclude patterns. -/
def ofIntake (reader : ArgumentReader) (s : Intake) (files : List String) :
    Except ToolError Command :=
  match reader s.arguments with
  | .error exit =>
      if exit.requested then .ok (@help exit.output)
      else .error (.arguments (String.ofList (trimRight isWhiteSpace exit.output.toList)))
  | .ok tool =>
      if tool.rules.isSome && !(s.forwarded.isEmpty && s.excludes.isEmpty) then
        .error .rulesConflict
      else .ok (.run ⟨tool, s.forwarded, s.excludes, files⟩)

/-- What the arguments behind the name of the tool ask for. -/
def readWith (reader : ArgumentReader) (t : FileTree) (arguments : List String) :
    Except ToolError Command :=
  let options := arguments.takeWhile isOption
  match (Intake.ofOptions options).run t (Intake.bound t options.length) with
  | .error e => .error e
  | .ok s => ofIntake reader s (arguments.dropWhile isOption)

end Command

end Beautifier
