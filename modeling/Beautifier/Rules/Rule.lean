/-
Rules that choose options by path.

A rules text maps names to entries.  The entry `DEFAULT` supplies what other
entries leave out, and is itself filled up from a built-in rule.  A path is
formatted under the last rule that includes it, or else under `DEFAULT`.

The text is read by a library (`RulesLibrary`), of which nothing is known here.
-/
import Beautifier.Path.Pattern
import Beautifier.Rules.Node

namespace Beautifier

/-- Why a rules text is refused. -/
inductive RulesError where
  /-- The text is no mapping at all. -/
  | notRules
  /-- The entry of a rule has an unknown key or a value of the wrong kind. -/
  | badRule (name : String)
  /-- A text in a list of patterns stands for no pattern. -/
  | badPattern (pattern : String)
deriving DecidableEq, Repr

/-- What the entry of a rule says; what it leaves out is none. -/
structure RuleEntry where
  options : Option String
  check : Option Bool
  includes : Option (List String)
deriving DecidableEq, Repr

namespace RuleEntry

def empty : RuleEntry := ⟨none, none, none⟩

end RuleEntry

/-- The library that rules texts are read with. -/
structure RulesLibrary where
  /-- The entries of a text that is a mapping, in the order they are written. -/
  entries : String → Option (List (String × Node))
  /-- What the value of an entry says, unless it is null. -/
  entry : Node → Option RuleEntry

structure Rule where
  name : String
  /-- The options text of the files under the rule. -/
  options : String
  /-- Whether the files under the rule are formatted at all. -/
  check : Bool
  includes : List Path.Pattern
deriving DecidableEq, Repr

namespace Rule

def defaultName : String := "DEFAULT"

/-- The rule that fills up the default one: no options, and every file. -/
def builtin : Rule := ⟨defaultName, "", true, [[.literal '/', .anyDirectories, .anyRun]]⟩

/-- The rule that an entry makes of another, which supplies what the entry leaves out. -/
def derive (base : Rule) (name : String) (e : RuleEntry) : Except RulesError Rule :=
  let rule (includes : List Path.Pattern) : Rule :=
    { name
      options := e.options.getD base.options
      check := e.check.getD base.check
      includes }
  match e.includes with
  | none => .ok (rule base.includes)
  | some texts =>
      match Path.Pattern.ofStrings texts with
      | .ok ps => .ok (rule ps)
      | .error text => .error (.badPattern text)

/-- The rule that a value makes of another; null says nothing. -/
def ofNode (lib : RulesLibrary) (base : Rule) (name : String) (value : Node) :
    Except RulesError Rule :=
  match if value.isNull then some .empty else lib.entry value with
  | some e => base.derive name e
  | none => .error (.badRule name)

def covers (r : Rule) (path : String) : Bool := Path.Pattern.anyMatch r.includes path

/-- The built-in rule includes what the pattern `*` matches. -/
theorem builtin_includes : Path.Pattern.ofStrings ["*"] = .ok builtin.includes := by
  rfl

end Rule

/-- A default rule and others, in the order they are written. -/
structure Rules where
  base : Rule
  others : List Rule
deriving DecidableEq, Repr

namespace Rules

/-- Entries with each name once: where a name is repeated, the last value stands in the place of
the first. -/
def mergeRepeated (entries : List (String × Node)) : List (String × Node) :=
  entries.foldl (fun merged (name, value) =>
    if merged.any (·.1 == name) then
      merged.map fun kv => if kv.1 == name then (name, value) else kv
    else merged ++ [(name, value)]) []

/-- The rules that entries make of a default rule, or the first reason against them. -/
def deriveAll (lib : RulesLibrary) (base : Rule) :
    List (String × Node) → Except RulesError (List Rule)
  | [] => .ok []
  | (name, value) :: rest =>
      match Rule.ofNode lib base name value with
      | .error e => .error e
      | .ok rule => (deriveAll lib base rest).map (rule :: ·)

/-- The rules of entries with distinct names.  The default rule comes first, wherever its entry
stands. -/
def ofEntries (lib : RulesLibrary) (entries : List (String × Node)) : Except RulesError Rules :=
  let others := entries.filter (·.1 != Rule.defaultName)
  let base := match entries.find? (·.1 == Rule.defaultName) with
    | some (_, value) => Rule.ofNode lib .builtin Rule.defaultName value
    | none => .ok Rule.builtin
  match base with
  | .error e => .error e
  | .ok base => (deriveAll lib base others).map (⟨base, ·⟩)

def readWith (lib : RulesLibrary) (text : String) : Except RulesError Rules :=
  match lib.entries text with
  | some entries => ofEntries lib (mergeRepeated entries)
  | none => .error .notRules

/-- The rule that a path is formatted under. -/
def select (rs : Rules) (path : String) : Rule :=
  (rs.others.reverse.find? (·.covers path)).getD rs.base

end Rules

end Beautifier
