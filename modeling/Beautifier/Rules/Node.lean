/-
Values of a configuration text.
-/
import Beautifier.Rules.Number

namespace Beautifier

/-- A value of a configuration text. -/
inductive Node where
  | null
  | bool (b : Bool)
  | number (n : Number)
  | text (s : String)
  | list (items : List Node)
  /-- Keys with their values, in the order they are written. -/
  | mapping (entries : List (Node × Node))
  /-- A value under a name of its own. -/
  | tagged (name : String) (value : Node)

namespace Node

/-- A value without the names it stands under. -/
def untagged : Node → Node
  | tagged _ value => value.untagged
  | node => node

/-- Whether a value is null, under whatever names it stands. -/
def isNull (value : Node) : Bool :=
  match value.untagged with
  | null => true
  | _ => false

/-! ## Equality

Mappings are the same whatever the order of their entries. -/

mutual

def same : Node → Node → Bool
  | null, null => true
  | bool b, bool c => b == c
  | number m, number n => m.same n
  | text s, text t => s == t
  | list xs, list ys => sameItems xs ys
  | mapping xs, mapping ys => xs.length == ys.length && areEntries xs ys
  | tagged s x, tagged t y => s == t && same x y
  | _, _ => false

def sameItems : List Node → List Node → Bool
  | [], [] => true
  | x :: xs, y :: ys => same x y && sameItems xs ys
  | _, _ => false

/-- Whether every entry of one mapping is an entry of another. -/
def areEntries : List (Node × Node) → List (Node × Node) → Bool
  | [], _ => true
  | (k, x) :: xs, ys => ys.any (fun e => same k e.1 && same x e.2) && areEntries xs ys

end

/-- Whether no two values of a list are the same. -/
def distinct : List Node → Bool
  | [] => true
  | x :: xs => !xs.any (same x) && distinct xs

/-! ## Plain scalars

Words written without quotes may stand for something other than a text. -/

def nullWords : List String := ["~", "null", "Null", "NULL"]

def trueWords : List String := ["true", "True", "TRUE"]

def falseWords : List String := ["false", "False", "FALSE"]

def boolOfWord? (s : String) : Option Bool :=
  if trueWords.contains s then some true
  else if falseWords.contains s then some false
  else none

/-- The value of a plain scalar; an integer that is not held has none. -/
def ofPlain? (s : String) : Option Node :=
  if s.isEmpty || nullWords.contains s then some null
  else
    match boolOfWord? s with
    | some b => some (bool b)
    | none =>
        if Number.isUnheld s.toList then none
        else
          match Number.ofWord? s.toList with
          | some n => some (number n)
          | none => some (text s)

end Node

end Beautifier
