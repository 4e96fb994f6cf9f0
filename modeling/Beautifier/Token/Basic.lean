/-
Tokens of a source, each with the white space in front of it.
-/

namespace Beautifier

/-- What a token is. -/
inductive TokenKind where
  /-- Identifier or keyword. -/
  | word
  | number
  /-- String literal, raw and verbatim strings included. -/
  | string
  | character
  /-- `//` up to the end of the line. -/
  | lineComment
  /-- A comment in `/*` and `*/`, over any number of lines. -/
  | blockComment
  /-- A whole preprocessor line with its continuations. -/
  | directive
  /-- Operator or punctuation. -/
  | punctuation
deriving DecidableEq, Repr

/-- A token and the white space in front of it. -/
structure Token where
  kind : TokenKind
  text : String
  /-- Line breaks between the token before and this one. -/
  lineBreaks : Nat
  /-- White space between this token and the start of its line or the token before. -/
  space : String
  /-- The visual column at which the token starts in the source. -/
  column : Nat
  /-- Whether the token was inserted and does not stand in the source. -/
  inserted : Bool
deriving DecidableEq, Repr

namespace Token

/-- Punctuation that does not stand in the source. -/
def insertedPunctuation (text : String) (lineBreaks : Nat) : Token :=
  { kind := .punctuation, text, lineBreaks, space := " ", column := 0, inserted := true }

def is (t : Token) (text : String) : Bool := t.kind == .punctuation && t.text == text

def isOneOf (t : Token) (texts : List String) : Bool :=
  t.kind == .punctuation && texts.contains t.text

def isWord (t : Token) (text : String) : Bool := t.kind == .word && t.text == text

/-- Comments and directives, which take no part in statements. -/
def isTrivia (t : Token) : Bool :=
  match t.kind with
  | .lineComment | .blockComment | .directive => true
  | _ => false

end Token

/-- The first token of a list that is neither comment nor directive. -/
def firstCode (ts : List Token) : Option Token := ts.find? (!·.isTrivia)

/-- What follows the first token of a list that is neither comment nor directive. -/
def afterCode : List Token → List Token
  | [] => []
  | t :: rest => if t.isTrivia then afterCode rest else rest

end Beautifier
