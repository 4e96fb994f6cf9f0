/-
What an opening brace opens.
-/
import Beautifier.Layout.LineStart

namespace Beautifier

/-- What the code of a statement up to its first parenthesis says about the block it opens. -/
structure Head where
  first : Option String
  nameSpace : Bool
  classWord : Bool
  enumWord : Bool
  linkageWord : Bool
  paren : Bool
  assign : Bool
  bracket : Bool
deriving DecidableEq, Repr

namespace Head

def empty : Head := ⟨none, false, false, false, false, false, false, false⟩

def addWord (h : Head) (word : String) : Head :=
  if word == "namespace" then { h with nameSpace := true }
  else if word == "enum" then { h with enumWord := true }
  else if word == "extern" then { h with linkageWord := true }
  else if Keyword.classWords.contains word then { h with classWord := true }
  else h

/-- The template brackets that are open behind a token. -/
def anglesAfter (angles : Nat) (t : Token) : Nat :=
  match t.text with
  | "<" => angles + 1
  | ">" => angles - 1
  | ">>" => angles - 2
  | _ => angles

/-- Reads the code tokens of a statement up to the first parenthesis.  In a template parameter
list, where `template` says so, only brackets count. -/
def read (template : Bool) (angles : Nat) (h : Head) : List Token → Head
  | [] => h
  | t :: rest =>
      let h := if h.first.isNone then { h with first := some t.text } else h
      if template then
        let angles := anglesAfter angles t
        read (0 < angles || t.isWord "template") angles h rest
      else match t.kind with
        | .word => read (t.text == "template") angles (h.addWord t.text) rest
        | .punctuation =>
            match t.text with
            | "(" => { h with paren := true }
            | "=" => read false angles { h with assign := true } rest
            | "[" => read false angles { h with bracket := true } rest
            | _ => read false angles h rest
        | _ => read false angles h rest

end Head

namespace Cursor

/-- The code tokens of the current statement before this one, in order. -/
def statementCode (c : Cursor) (s : State) : List Token :=
  ((c.since s.stmt.start).filter (!·.isTrivia)).reverse

def head (c : Cursor) (s : State) : Head := .read false 0 .empty (c.statementCode s)

/-- Whether the type behind an arrow ends before this token. -/
def afterTrailingReturn (c : Cursor) : Bool :=
  c.prevCode.any (·.kind == .word) && (firstCode (afterCode c.before)).any (·.is "->")

/-- Whether a declarator with parameters or dimensions ends before this token. -/
def afterDeclarator (c : Cursor) : Bool :=
  c.prevCode.any (fun prev => prev.is ")" || prev.is "]"
      || Keyword.declaratorSuffixes.contains prev.text)
    || c.afterTrailingReturn

/-- Whether a value must follow the token before this one. -/
def afterValueIntroducer (c : Cursor) : Bool :=
  c.prevCode.any fun prev =>
    prev.isWord "return" || prev.isOneOf ["=", ",", "(", "[", "\x7b", "?", ":", "<<"]

/-- Whether the name of a type or variable ends before this token. -/
def afterName (c : Cursor) : Bool :=
  c.prevCode.any fun prev =>
    prev.is ">" ||
      (prev.kind == .word
        && !Keyword.nonOperands.contains prev.text
        && !Keyword.declaratorSuffixes.contains prev.text
        && !Keyword.isHeader prev.text)

/-- Whether the expression or declaration ends behind the block that this token opens. -/
def endsBehindBlock (c : Cursor) : Bool :=
  match c.closer with
  | none => false
  | some close => (firstCode (c.afterPosition close)).any fun t => t.is ";" || t.is ","

/-- The kind of the block that the head of a statement announces: a declaration of its own, or
the body of a header that starts the statement. -/
def announced? (h : Head) : Option BlockKind :=
  if h.nameSpace then some .nameSpace
  else if h.linkageWord && !h.paren && !h.classWord && !h.enumWord then some .linkage
  else if h.enumWord && !h.paren then some .enumeration
  else if h.classWord && !h.paren then some .classBody
  else match h.first with
    | none => none
    | some first =>
        if Keyword.isHeader first then some (if first == "switch" then .switch else .control)
        else none

/-- The kind of the block that this token opens in a statement outside all brackets, and whether
it is part of an expression. -/
def classifyInStatement (c : Cursor) (s : State) : BlockKind × Bool :=
  let h := c.head s
  match announced? h with
  | some kind => (kind, false)
  | none =>
      if h.bracket && (h.assign || h.first == some "return") && c.afterDeclarator then
        (.plain, true)
      else if c.afterName && c.endsBehindBlock && (!h.paren || h.assign) then
        (.initializer, true)
      else if h.paren && !s.inCodeScope then (.function, false)
      else (.plain, false)

/-- The kind of the block that this token opens, and whether it is part of an expression. -/
def classify (c : Cursor) (s : State) : BlockKind × Bool :=
  if s.innermostIs (·.kind == .initializer) then (.initializer, true)
  else if !(s.stmt.active || s.stmt.headerBodyPending) then (.plain, false)
  else if !s.stmt.parens.isEmpty then
    (if c.afterDeclarator then .plain else .initializer, true)
  else if s.stmt.headerBodyPending then
    (if c.isWordAt s.stmt.start "switch" then .switch else .control, false)
  else if c.afterValueIntroducer then (.initializer, true)
  else c.classifyInStatement s

end Cursor

end Beautifier
