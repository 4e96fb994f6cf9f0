/-
Reading rules texts.

A text is read as a document (`Document.read?`); what the value of an entry
says is found key by key.  A value stands for what it is, whatever names it
stands under.
-/
import Beautifier.Rules.Document
import Beautifier.Rules.Rule

namespace Beautifier

namespace RuleEntry

def texts? : List Node → Option (List String)
  | [] => some []
  | x :: rest =>
      match x.untagged with
      | .text s => (texts? rest).map (s :: ·)
      | _ => none

def setOptions? (e : RuleEntry) : Node → Option RuleEntry
  | .null => some { e with options := none }
  | value =>
      match value.untagged with
      | .text s => some { e with options := some s }
      | _ => none

def setCheck? (e : RuleEntry) : Node → Option RuleEntry
  | .null => some { e with check := none }
  | value =>
      match value.untagged with
      | .bool b => some { e with check := some b }
      | _ => none

/-- An entry with its patterns; under the name of a type, nothing is no pattern. -/
def setIncludes? (e : RuleEntry) : Node → Option RuleEntry
  | .null => some { e with includes := none }
  | value =>
      match value.untagged with
      | .list items => (texts? items).map fun ss => { e with includes := some ss }
      | .null => some { e with includes := some [] }
      | _ => none

/-- An entry with the value of a key. -/
def set? (e : RuleEntry) : String × Node → Option RuleEntry
  | ("options", v) => e.setOptions? v
  | ("check", v) => e.setCheck? v
  | ("include", v) => e.setIncludes? v
  | _ => none

/-- An entry with the values of several keys. -/
def setAll? (e : RuleEntry) : List (String × Node) → Option RuleEntry
  | [] => some e
  | kv :: rest => (e.set? kv).bind fun e => setAll? e rest

/-- The entries of a mapping whose keys are texts. -/
def named? : List (Node × Node) → Option (List (String × Node))
  | [] => some []
  | (k, v) :: rest =>
      match k.untagged with
      | .text s => (named? rest).map ((s, v) :: ·)
      | _ => none

/-- The entry of a mapping, in which no key is repeated. -/
def ofMapping? (entries : List (Node × Node)) : Option RuleEntry :=
  (named? entries).bind fun entries =>
    if (entries.map (·.1)).Nodup then empty.setAll? entries else none

/-- The entry that a value stands for: a mapping, nothing at all, or the three values in the
order options, check, include. -/
def ofNode? (value : Node) : Option RuleEntry :=
  match value.untagged with
  | .mapping entries => ofMapping? entries
  | .list [options, check, includes] =>
      ((empty.setOptions? options).bind (·.setCheck? check)).bind (·.setIncludes? includes)
  | .null => some empty
  | _ => none

end RuleEntry

/-- The library that reads texts and entries as defined here. -/
def RulesLibrary.standard : RulesLibrary where
  entries := Document.read?
  entry := RuleEntry.ofNode?

def Rules.read (text : String) : Except RulesError Rules := readWith .standard text

end Beautifier
