/-
Reading a configuration text.

A text is one document, which is a mapping.  Its keys are taken as they are
written; its values are nodes, whose plain scalars may stand for something
other than a text.  A node may stand in the place of a reference to it, as
long as the lists and mappings in the text are not nested too deeply and
references do not multiply it too often.
-/
import Beautifier.Rules.Node
import Beautifier.Rules.Outline

namespace Beautifier

namespace Outline

/-! ## References -/

mutual

/-- The nodes with a number in an outline, in the order in which they start. -/
def anchored : Outline → List (Nat × Outline)
  | reference _ => []
  | scalar names text plain => (names.anchor.map (·, scalar names text plain)).toList
  | list names items => (names.anchor.map (·, list names items)).toList ++ anchoredItems items
  | mapping names entries =>
      (names.anchor.map (·, mapping names entries)).toList ++ anchoredEntries entries

def anchoredItems : List Outline → List (Nat × Outline)
  | [] => []
  | x :: xs => anchored x ++ anchoredItems xs

def anchoredEntries : List (Outline × Outline) → List (Nat × Outline)
  | [] => []
  | (k, v) :: xs => anchored k ++ anchored v ++ anchoredEntries xs

end

mutual

/-- The number of the scalars and references in an outline, and of the ends of its lists and
mappings. -/
def size : Outline → Nat
  | list _ items => sizeItems items + 2
  | mapping _ entries => sizeEntries entries + 2
  | _ => 1

def sizeItems : List Outline → Nat
  | [] => 0
  | x :: xs => size x + sizeItems xs

def sizeEntries : List (Outline × Outline) → Nat
  | [] => 0
  | (k, v) :: xs => size k + size v + sizeEntries xs

end

/-- What a text needs to be read: the nodes with a number, the last one first. -/
abbrev Targets := List (Nat × Outline)

/-- A step of reading, which may fail and counts down the references that may still be followed. -/
abbrev Step := StateT Nat Option

/-- The node that a reference stands for, or the node itself. -/
def follow (targets : Targets) : Outline → Step Outline
  | reference n => do
      match ← get with
      | 0 => failure
      | left + 1 =>
          set left
          match targets.lookup n with
          | some node => pure node
          | none => failure
  | node => pure node

/-! ## Values -/

/-- The name of a type that the text itself sets, behind the mark that tells it from a common
one. -/
def ownTag? (names : NodeNames) : Option String :=
  match names.tag.map String.toList with
  | some ('!' :: name) => some (String.ofList name)
  | _ => none

/-- The value of a scalar of a common type. -/
def commonValue? (tag text : String) : Option Node :=
  if tag == "tag:yaml.org,2002:bool" then (Node.boolOfWord? text).map .bool
  else if tag == "tag:yaml.org,2002:int" then (Number.ofInteger? text.toList).map .number
  else if tag == "tag:yaml.org,2002:float" then (Number.ofDecimal? text.toList).map .number
  else if tag == "tag:yaml.org,2002:null" then
    if Node.nullWords.contains text then some .null else none
  else some (.text text)

/-- The value of a scalar without a type. -/
def wordValue? (text : String) (plain : Bool) : Option Node :=
  if plain then Node.ofPlain? text else some (.text text)

/-- The value of a node under the name of its type, if the text sets one.  `typed` says that a name
was set already, so that none counts here.  A set name is not empty. -/
def withTag (typed : Bool) (names : NodeNames) (value : Bool → Step Node) : Step Node :=
  match if typed then none else ownTag? names with
  | none => value typed
  | some name => if name.isEmpty then failure else Node.tagged name <$> value true

def scalarValue (names : NodeNames) (text : String) (plain typed : Bool) : Step Node :=
  match if typed then none else names.tag with
  | none => StateT.lift (wordValue? text plain)
  | some tag => StateT.lift (commonValue? tag text)

/-- A mapping, if no two of its keys are the same. -/
def distinctMapping (entries : List (Node × Node)) : Step Node :=
  if Node.distinct (entries.map (·.1)) then pure (.mapping entries) else failure

/-- The value of a node in which lists and mappings are nested at most `depth` deep.  The keys of a
mapping with a type are read as if they had one. -/
def toNode (targets : Targets) : Nat → Bool → Outline → Step Node
  | 0, typed, node => do
      match ← follow targets node with
      | scalar names text plain => withTag typed names (scalarValue names text plain)
      | _ => failure
  | depth + 1, typed, node => do
      match ← follow targets node with
      | scalar names text plain => withTag typed names (scalarValue names text plain)
      | list names items =>
          withTag typed names fun _ => .list <$> items.mapM (toNode targets depth false)
      | mapping names entries =>
          withTag typed names fun typed => do
            let entries ← entries.mapM fun (k, v) => do
              let key ← toNode targets depth typed k
              let value ← toNode targets depth false v
              pure (key, value)
            distinctMapping entries
      | reference _ => failure

/-! ## The whole text -/

def keyText (targets : Targets) (node : Outline) : Step String := do
  match ← follow targets node with
  | scalar _ text _ => pure text
  | _ => failure

/-- How deep lists and mappings may be nested in a document. -/
def depthLimit : Nat := 128

/-- How often a reference may be followed in a document, for each part of it. -/
def referenceLimit : Nat := 100

/-- The entries of a document; one that is left out has none. -/
def entries? : Outline → Option (List (String × Node))
  | scalar _ "" true => some []
  | mapping names entries =>
      let document := mapping names entries
      let targets := (anchored document).reverse
      let read : Step (List (String × Node)) := entries.mapM fun (k, v) => do
        let key ← keyText targets k
        let value ← toNode targets (depthLimit - 1) false v
        pure (key, value)
      (read.run (referenceLimit * document.size)).map (·.1)
  | _ => none

end Outline

namespace Document

/-- The entries of a text that is a mapping; a text that holds nothing has none.  The keys of
the text itself may be repeated, those of the mappings in it may not. -/
def read? (text : String) : Option (List (String × Node)) :=
  ((Letter.ofString? text).bind Lexeme.ofLetters?).bind fun lexemes =>
    match Outline.ofLexemes? lexemes with
    | some (some document) => document.entries?
    | some none => some []
    | none => none

end Document

end Beautifier
