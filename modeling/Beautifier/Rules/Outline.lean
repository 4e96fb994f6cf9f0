/-
The outline of a configuration text.

The outline says which scalars, lists and mappings a text is made of, and
leaves open what their words stand for.  It is read off the lexemes; what is
left out where a node is due is an empty scalar.
-/
import Beautifier.Rules.Lexeme

namespace Beautifier

/-- What a node is named: a number for references to it, and the name of its type. -/
structure NodeNames where
  anchor : Option Nat
  tag : Option String
deriving DecidableEq, Repr

/-- A node of a configuration text as it is written. -/
inductive Outline where
  /-- The node with a number. -/
  | reference (n : Nat)
  | scalar (names : NodeNames) (text : String) (plain : Bool)
  | list (names : NodeNames) (items : List Outline)
  | mapping (names : NodeNames) (entries : List (Outline × Outline))

namespace Outline

def noNames : NodeNames := ⟨none, none⟩

/-- What stands where a node is left out. -/
def absent : Outline := scalar noNames "" true

/-- The names in front of a node, in either order, and the rest. -/
def takeNames : List Lexeme → NodeNames × List Lexeme
  | .anchor n :: .tag t :: rest => (⟨some n, some t⟩, rest)
  | .tag t :: .anchor n :: rest => (⟨some n, some t⟩, rest)
  | .anchor n :: rest => (⟨some n, none⟩, rest)
  | .tag t :: rest => (⟨none, some t⟩, rest)
  | rest => (noNames, rest)

/-- A scalar.  The tag that is a mark alone says no more than that the scalar is one. -/
def ofScalar (names : NodeNames) (text : String) (plain : Bool) : Outline :=
  scalar (if names.tag == some "!" then { names with tag := none } else names) text plain

/-- Where a node can stand. -/
inductive Site where
  /-- Among lines. -/
  | block
  /-- Among lines behind a key, where the dashes of a list need not be indented. -/
  | entry
  /-- Between brackets. -/
  | flow
deriving DecidableEq, Repr

/-- Whether one of some lexemes, or the end, comes next. -/
def isNext (stops : List Lexeme) : List Lexeme → Bool
  | [] => false
  | x :: _ => stops.contains x

mutual

/-- The node that starts lexemes, and the rest. -/
def node? : Nat → Site → List Lexeme → Option (Outline × List Lexeme)
  | 0, _, _ => none
  | fuel + 1, site, lexemes =>
      match lexemes with
      | .reference n :: rest => some (.reference n, rest)
      | _ =>
          let (names, rest) := takeNames lexemes
          match rest with
          | .scalar text plain :: rest => some (ofScalar names text plain, rest)
          | .openBracket :: rest =>
              (flowItems? fuel true rest).map fun (items, rest) => (.list names items, rest)
          | .openBrace :: rest =>
              (flowEntries? fuel true rest).map fun (entries, rest) =>
                (.mapping names entries, rest)
          | rest =>
              if site == .entry && isNext [.dash] rest then
                (flatItems? fuel rest).map fun (items, rest) => (.list names items, rest)
              else if site != .flow && isNext [.listStart] rest then
                (blockItems? fuel rest.tail).map fun (items, rest) => (.list names items, rest)
              else if site != .flow && isNext [.mappingStart] rest then
                (blockEntries? fuel rest.tail).map fun (entries, rest) =>
                  (.mapping names entries, rest)
              else if names == noNames then none
              else some (.scalar names "" true, rest)

/-- The node that starts lexemes, if it is not left out in front of some others. -/
def nodeBefore? : Nat → Site → List Lexeme → List Lexeme → Option (Outline × List Lexeme)
  | 0, _, _, _ => none
  | fuel + 1, site, stops, lexemes =>
      if isNext stops lexemes then some (absent, lexemes) else node? fuel site lexemes

/-- The value behind a key, if there is a colon. -/
def valueBefore? : Nat → Site → List Lexeme → List Lexeme → Option (Outline × List Lexeme)
  | 0, _, _, _ => none
  | fuel + 1, site, stops, lexemes =>
      match lexemes with
      | .value :: rest => nodeBefore? fuel site stops rest
      | _ => some (absent, lexemes)

/-- The items of a list of lines up to its end. -/
def blockItems? : Nat → List Lexeme → Option (List Outline × List Lexeme)
  | 0, _ => none
  | fuel + 1, lexemes =>
      match lexemes with
      | .dash :: rest =>
          (nodeBefore? fuel .block [.dash, .blockEnd] rest).bind fun (item, rest) =>
            (blockItems? fuel rest).map fun (items, rest) => (item :: items, rest)
      | .blockEnd :: rest => some ([], rest)
      | _ => none

/-- The items of a list of lines that is not indented more than its key. -/
def flatItems? : Nat → List Lexeme → Option (List Outline × List Lexeme)
  | 0, _ => none
  | fuel + 1, lexemes =>
      match lexemes with
      | .dash :: rest =>
          (nodeBefore? fuel .block [.dash, .key, .value, .blockEnd] rest).bind fun (item, rest) =>
            (flatItems? fuel rest).map fun (items, rest) => (item :: items, rest)
      | _ => some ([], lexemes)

/-- The entries of a mapping of lines up to its end. -/
def blockEntries? : Nat → List Lexeme → Option (List (Outline × Outline) × List Lexeme)
  | 0, _ => none
  | fuel + 1, lexemes =>
      let stops : List Lexeme := [.key, .value, .blockEnd]
      match lexemes with
      | .key :: rest =>
          (nodeBefore? fuel .entry stops rest).bind fun (k, rest) =>
            (valueBefore? fuel .entry stops rest).bind fun (v, rest) =>
              (blockEntries? fuel rest).map fun (entries, rest) => ((k, v) :: entries, rest)
      | .blockEnd :: rest => some ([], rest)
      | _ => none

/-- The items of a list up to its closing bracket.  `first` says that no item stands before
them; a comma stands before each other item. -/
def flowItems? : Nat → Bool → List Lexeme → Option (List Outline × List Lexeme)
  | 0, _, _ => none
  | fuel + 1, first, lexemes =>
      if isNext [.closeBracket] lexemes then some ([], lexemes.tail)
      else if !first && !isNext [.comma] lexemes then none
      else
        let lexemes := if first then lexemes else lexemes.tail
        if isNext [.closeBracket] lexemes then some ([], lexemes.tail)
        else
          (flowItem? fuel lexemes).bind fun (item, rest) =>
            (flowItems? fuel false rest).map fun (items, rest) => (item :: items, rest)

/-- An item of a list in brackets: a node, or one entry of a mapping.  Where the key of the entry is
left out behind its question mark, so is the lexeme in its place. -/
def flowItem? : Nat → List Lexeme → Option (Outline × List Lexeme)
  | 0, _ => none
  | fuel + 1, lexemes =>
      match lexemes with
      | .key :: rest =>
          (nodeBefore? fuel .flow [.value, .comma, .closeBracket] rest).bind fun (k, behind) =>
            let behind :=
              if isNext [.value, .comma, .closeBracket] rest then behind.tail else behind
            (valueBefore? fuel .flow [.comma, .closeBracket] behind).map fun (v, rest) =>
              (.mapping noNames [(k, v)], rest)
      | _ => node? fuel .flow lexemes

/-- The entries of a mapping up to its closing brace.  A key without a mark of its own has no
value. -/
def flowEntries? :
    Nat → Bool → List Lexeme → Option (List (Outline × Outline) × List Lexeme)
  | 0, _, _ => none
  | fuel + 1, first, lexemes =>
      if isNext [.closeBrace] lexemes then some ([], lexemes.tail)
      else if !first && !isNext [.comma] lexemes then none
      else
        let lexemes := if first then lexemes else lexemes.tail
        if isNext [.closeBrace] lexemes then some ([], lexemes.tail)
        else
          (flowPair? fuel lexemes).bind fun (entry, rest) =>
            (flowEntries? fuel false rest).map fun (entries, rest) => (entry :: entries, rest)

/-- An entry of a mapping in braces. -/
def flowPair? : Nat → List Lexeme → Option ((Outline × Outline) × List Lexeme)
  | 0, _ => none
  | fuel + 1, lexemes =>
      match lexemes with
      | .key :: rest =>
          (nodeBefore? fuel .flow [.value, .comma, .closeBrace] rest).bind fun (k, rest) =>
            (valueBefore? fuel .flow [.comma, .closeBrace] rest).map fun (v, rest) =>
              ((k, v), rest)
      | _ => (node? fuel .flow lexemes).map fun (k, rest) => ((k, absent), rest)

end

/-! ## The whole text -/

/-- The lexemes of a document behind its directives and the mark of its start, and whether there
is such a mark.  Directives need one. -/
def body? (lexemes : List Lexeme) : Option (Bool × List Lexeme) :=
  match lexemes.dropWhile (· == .directive) with
  | .documentStart :: rest => some (true, rest)
  | _ => if isNext [.directive] lexemes then none else some (false, lexemes)

/-- The outline of a text that is one document; a text that holds nothing has none. -/
def ofLexemes? (lexemes : List Lexeme) : Option (Option Outline) :=
  if lexemes.isEmpty then some none
  else
    (body? lexemes).bind fun (isMarked, lexemes) =>
      let isLeftOut := lexemes.isEmpty
        || isNext [.directive, .documentStart, .documentEnd] lexemes
      let document :=
        if isMarked && isLeftOut then some (absent, lexemes)
        else node? (4 * lexemes.length + 4) .block lexemes
      document.bind fun (node, rest) =>
        if rest.all (· == .documentEnd) then some (some node) else none

end Outline

end Beautifier
