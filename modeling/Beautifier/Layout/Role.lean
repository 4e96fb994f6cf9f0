/-
How operators are used: unary, binary, or as part of a declarator.
-/
import Beautifier.Token.Keyword
import Beautifier.Layout.Cursor
import Beautifier.Layout.State

namespace Beautifier

/-- How a token is used as an operator. -/
inductive Role where
  | notOperator
  | unary
  | binary
  /-- `*`, `&` or `&&` in a declarator. -/
  | pointer
  /-- Perhaps part of a declarator, perhaps binary. -/
  | ambiguous
deriving DecidableEq, Repr

namespace Role

def binaryIf (b : Bool) : Role := if b then binary else notOperator

def endsOperand (t : Token) : Bool :=
  match t.kind with
  | .word => !Keyword.nonOperands.contains t.text
  | .number | .string | .character => true
  | .punctuation => t.text == ")" || t.text == "]"
  | _ => false

def isLiteral (t : Token) : Bool :=
  match t.kind with
  | .number | .string | .character => true
  | _ => false

/-! ## Comparisons and template brackets -/

/-- Whether no template bracket closes behind a `<`: the condition ends, or an operator that
joins conditions follows, before a `>` outside all brackets. -/
def noClosingAngle : Nat → List Token → Bool
  | _, [] => true
  | depth, t :: rest =>
      if t.kind != .punctuation then noClosingAngle depth rest
      else match t.text with
        | "(" | "[" => noClosingAngle (depth + 1) rest
        | ")" | "]" => if depth = 0 then true else noClosingAngle (depth - 1) rest
        | ">" | ">>" => if depth = 0 then false else noClosingAngle depth rest
        | ";" | "\x7b" | "\x7d" | "&&" | "||" | "?" => true
        | _ => noClosingAngle depth rest

/-- The tokens before a comparison back to where its condition starts, the nearest first. -/
def conditionBefore (ts : List Token) : List Token :=
  ts.takeWhile fun t => !t.isOneOf ["&&", "||", ",", ";"]

/-- Whether a token is the name of a cast, behind which template arguments stand. -/
def isCast (t : Token) : Bool := "_cast".toList.isSuffixOf t.text.toList

/-- Whether a `<` or `>` in the condition of a header compares.  In a `for` only what follows
the first semicolon is a condition. -/
def comparesInCondition (c : Cursor) (paren : OpenParen) : Bool :=
  let inside := c.since (paren.start + 1)
  let inFor := (firstCode (c.beforePosition paren.start)).any (·.isWord "for")
  if inFor && !inside.any (·.is ";") then false
  else
    let condition := conditionBefore inside
    if c.token.text == ">" then !condition.any (·.is "<")
    else if (firstCode condition).any isCast then false
    else noClosingAngle 0 c.after

/-- Whether a `<` or `>` behind an operand compares rather than encloses template arguments.
Outside the conditions of headers only a literal or a sign behind it shows that. -/
def isComparison (c : Cursor) (s : State) : Bool :=
  match c.nextCode with
  | none => false
  | some next =>
      if isLiteral next || next.is "-" then true
      else match s.stmt.parens with
        | [] => false
        | paren :: _ => paren.header && next.kind == .word && comparesInCondition c paren

/-! ## Pointers -/

/-- What stands before a `*` or `&` back to where its expression starts. -/
structure Declarator where
  words : Nat
  firstWord : Option String
  /-- The punctuation that the expression starts behind. -/
  boundary : Option String

/-- Reads the code tokens before a `*` or `&`, the nearest first; none if one of them shows an
operator.  `angles` counts the template brackets that are open. -/
def readDeclarator (angles : Nat) (d : Declarator) : List Token → Option Declarator
  | [] => some d
  | t :: rest =>
      match t.kind with
      | .word =>
          if Keyword.nonOperands.contains t.text then none
          else readDeclarator angles
            { d with words := d.words + 1, firstWord := some t.text } rest
      | .punctuation =>
          match t.text with
          | "::" | "*" | "&" => readDeclarator angles d rest
          | ">" => readDeclarator (angles + 1) d rest
          | ">>" => readDeclarator (angles + 2) d rest
          | "<" =>
              if 0 < angles then readDeclarator (angles - 1) d rest
              else some { d with boundary := some "<" }
          | "(" | "," | ";" | "\x7b" | "\x7d" => some { d with boundary := some t.text }
          | _ => none
      | _ => none

/-- The role of a `*` or `&` behind a word or template bracket, by what stands before it in the
statement. -/
def pointerContext (c : Cursor) (s : State) : Role :=
  let code := (c.since s.stmt.start).filter (!·.isTrivia)
  match readDeclarator 0 ⟨0, none, none⟩ code with
  | none => binary
  | some d =>
      let typeWord := d.firstWord.any (Keyword.typeWords.contains ·)
      if d.boundary == some "<" then
        if typeWord || 2 ≤ d.words then pointer else ambiguous
      else match s.stmt.parens with
        | [] => if 0 < d.words then pointer else ambiguous
        | paren :: _ =>
            if paren.declaration || typeWord || 2 ≤ d.words then pointer else ambiguous

def ofPointer (c : Cursor) (s : State) (hasPointers : Bool) (prev : Token) : Role :=
  let inContext :=
    if c.nextCodeIs (·.kind == .number) || !hasPointers then binary
    else match pointerContext c s with
      | ambiguous => if c.token.text == "&&" then binary else ambiguous
      | role => role
  if prev.isOneOf ["*", "&", "&&"] then if s.pointerRun then pointer else unary
  else match prev.kind with
    | .number | .string | .character => binary
    | .punctuation =>
        if prev.text == ")" || prev.text == "]" then binary
        else if prev.text == ">" then inContext
        else unary
    | .word => if Keyword.nonOperands.contains prev.text then unary else inContext
    | _ => inContext

/-! ## All operators -/

/-- Whether a `?` is followed by what shows that it belongs to a type. -/
def nullableBefore (next : Token) : Bool := next.isOneOf [".", "[", "?", ")", ",", ">", ";"]

/-- The role of a token behind the code token `prev` of its statement. -/
def ofPunctuation (c : Cursor) (s : State) (hasPointers : Bool) (prev : Option Token) : Role :=
  let operand := prev.any endsOperand
  match c.token.text with
  | "*" | "&" | "&&" =>
      match prev with
      | none => unary
      | some prev => ofPointer c s hasPointers prev
  | "+" | "-" | "<<" => if operand then binary else unary
  | "?" => binaryIf (operand && !c.nextCodeIs nullableBefore)
  | "<" | ">" => binaryIf (operand && isComparison c s)
  | ">>" =>
      binaryIf (operand && (c.nextCodeIs (·.kind == .number)
        || (!c.token.space.isEmpty && c.token.lineBreaks == 0)))
  | ":" => binaryIf (0 < s.stmt.ternary)
  | "=" | "==" | "!=" | "<=" | ">=" | "<=>" | "||" | "/" | "%" | "|" | "^" | "+=" | "-="
  | "*=" | "/=" | "%=" | "&=" | "|=" | "^=" | "<<=" | ">>=" =>
      binaryIf (operand && !c.nextCodeIs (·.isOneOf ["]", ")", ","]))
  | _ => notOperator

end Role

def Cursor.role (c : Cursor) (s : State) (hasPointers : Bool) : Role :=
  if c.token.kind != .punctuation then .notOperator
  else Role.ofPunctuation c s hasPointers (if s.stmt.active then c.prevCode else none)

end Beautifier
