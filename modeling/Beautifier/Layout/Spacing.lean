/-
White space between two tokens on one line.
-/
import Beautifier.Text.Column
import Beautifier.Layout.Role

namespace Beautifier

/-- White space before a token that goes on with the line. -/
inductive Spacing where
  /-- As it stands in the source. -/
  | asWritten
  | none
  | one
  /-- As it stands in the source, or one space where nothing stands. -/
  | atLeastOne
deriving DecidableEq, Repr

namespace Spacing

/-- The same spacing, but never nothing. -/
def padded : Spacing → Spacing
  | asWritten => atLeastOne
  | none => one
  | s => s

/-- Whether a token sticks to what stands before it. -/
def isTight (t : Token) : Bool := t.isOneOf [";", ",", ")", "]", ".", "->", "::"]

/-- The source's spacing; a token that is brought up from a later line gets one space, or none
if it is tight. -/
def unforced (t : Token) : Spacing :=
  if t.lineBreaks = 0 then asWritten else if isTight t then none else one

def closesDeclarator (t : Token) : Bool := t.isOneOf [")", ",", ">", ">>", "]", ";"]

/-- The spacing before a `*` or `&` of a declarator. -/
def beforePointer (pointerRun : Bool) (align : PointerAlign) : Spacing :=
  if pointerRun || align == .type then none else one

/-- The spacing behind a run of `*` and `&` of a declarator. -/
def behindPointer (align : PointerAlign) (t : Token) : Spacing :=
  if align == .name || closesDeclarator t then none else one

/-- Whether padding that no option asks for is removed between two tokens. -/
def unpads (o : Options) (headerParen : Bool) (prev t : Token) : Bool :=
  let before := match prev.kind with
    | .word =>
        if headerParen then !o.padHeader else !Keyword.nonOperands.contains prev.text
    | _ => prev.is ")" || prev.is "]"
  (t.is "(" && before) || prev.is "(" || t.is ")"

/-- Whether the outside of a parenthesis is padded between two tokens. -/
def padsParenOut (prev t : Token) : Bool :=
  let tightBefore := prev.isOneOf ["(", "[", "!", "~", "::", ".", "->"]
  let tightAfter := t.isOneOf [")", "]", ";", ",", ".", "->", "[", "++", "--"]
  (t.is "(" && !tightBefore) || (prev.is ")" && !tightAfter)

/-- Whether the inside of a parenthesis is padded between two tokens. -/
def padsParenIn (prev t : Token) : Bool :=
  (prev.is "(" && !t.is ")") || (t.is ")" && !prev.is "(")

/-- Whether some option pads between two tokens. -/
def pads (o : Options) (s : State) (role : Role) (headerParen : Bool) (prev t : Token) : Bool :=
  (o.padHeader && headerParen)
    || (o.padParenOut && padsParenOut prev t)
    || (o.padParenIn && padsParenIn prev t)
    || (s.padNext && !isTight t)
    || (o.padOper && role == .binary)

/-- The spacing between two code tokens that are no part of an aligned declarator. -/
def ordinary (o : Options) (s : State) (role : Role) (prev t : Token) : Spacing :=
  let headerParen := t.is "(" && s.stmt.headerParenPending
  let base := if o.unpadParen && unpads o headerParen prev t then none else unforced t
  if pads o s role headerParen prev t then base.padded else base

/-- The spacing of a declarator with aligned `*` and `&`, if the token belongs to one. -/
def aligned? (o : Options) (s : State) (role : Role) (t : Token) : Option Spacing :=
  if role == .pointer && o.alignPointer.isSome then
    o.alignPointer.map (beforePointer s.pointerRun)
  else s.pointerAfter.map (behindPointer · t)

/-- The spacing before a code token behind the token `prev`. -/
def behind (o : Options) (s : State) (role : Role) (prev t : Token) : Spacing :=
  if prev.isTrivia then unforced t
  else (aligned? o s role t).getD (ordinary o s role prev t)

end Spacing

def Cursor.spacing (c : Cursor) (o : Options) (s : State) (role : Role) : Spacing :=
  match s.lastOnLine.bind c.tokenAt? with
  | none => .none
  | some prev => .behind o s role prev c.token

end Beautifier
