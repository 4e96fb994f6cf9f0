/-
Where each token goes.

A plan says, before a token is written, whether it starts a line (and with
which indentation, below how many empty lines) or goes on with the line (and
with which spacing), and in which state it is written.  Planning reads the
page but does not change it.
-/
import Beautifier.Layout.Block
import Beautifier.Layout.Spacing

namespace Beautifier

/-- Where a token goes. -/
inductive Layout where
  | newLine (indent : Indent) (blankLines : Nat)
  | sameLine (spacing : Spacing)
deriving DecidableEq, Repr

/-- What is known of a block when it opens. -/
structure Opening where
  kind : BlockKind
  expression : Bool
  isDo : Bool
  /-- The block stays on its line. -/
  keepOneLine : Bool
  /-- Nothing stands between the braces, which share a line. -/
  isEmpty : Bool
  /-- The block lies in one that stays on its line. -/
  inKeptLine : Bool
  /-- Indentation of the line that owns the block. -/
  base : Indent
  /-- Indentation of the statements in the block. -/
  body : Indent
deriving DecidableEq, Repr

/-- What is left to be done for a token once it is written. -/
inductive Action where
  | directive
  | comment
  /-- A code token: whether it starts a statement, and its role as an operator. -/
  | code (starts : Bool) (role : Role)
  | openBrace (opening : Opening)
  /-- A closing brace and the brace it closes, if there is one. -/
  | closeBrace (closed : Option OpenBrace)
deriving DecidableEq, Repr

/-- Where a token goes, and how the layout goes on. -/
structure Plan where
  action : Action
  /-- The state in which the token is written. -/
  state : State
  conditionals : List Conditional
  layout : Layout
deriving DecidableEq, Repr

namespace Plan

/-! ## Directives -/

/-- The name of a directive: the letters behind its `#`. -/
def directiveName (text : String) : String :=
  let behindHash := text.toList.dropWhile (· == '#')
  String.ofList ((behindHash.dropWhile isWhiteSpace).takeWhile Char.isAlpha)

/-- The state and the open conditionals at a directive.  Each branch of a conditional starts from
the state in which the conditional was opened, and what follows it from the state behind its
first branch. -/
def branch (name : String) (s : State) (cs : List Conditional) : State × List Conditional :=
  if name == "if" || name == "ifdef" || name == "ifndef" then (s, ⟨s, none⟩ :: cs)
  else if name == "elif" || name == "else" then
    match cs with
    | [] => (s, [])
    | c :: outer => (c.atIf, { c with afterFirst := c.afterFirst <|> some s } :: outer)
  else if name == "endif" then
    match cs with
    | [] => (s, [])
    | c :: outer => (c.afterFirst.getD s, outer)
  else (s, cs)

/-- A directive starts a line at the margin. -/
def directive (c : Cursor) (o : Options) (s : State) (cs : List Conditional) (page : Page) :
    Plan :=
  let (state, conditionals) := branch (directiveName c.token.text) s cs
  { action := .directive
    state, conditionals
    layout := .newLine .zero (c.blankLines o s page false false) }

/-! ## Comments -/

/-- The indentation of a comment that starts a line: a line comment at the margin stays there,
and a comment before the body of a header goes with the body. -/
def commentIndent (c : Cursor) (o : Options) (s : State) : Indent :=
  if c.token.kind == .lineComment && c.token.column == 0 then .zero
  else if s.stmt.headerBodyPending then (c.lineIndent o s).deeper 1
  else c.lineIndent o s

/-- A comment starts a line where it does in the source. -/
def comment (c : Cursor) (o : Options) (s : State) (cs : List Conditional) (page : Page) :
    Plan :=
  { action := .comment
    state := s
    conditionals := cs
    layout :=
      if page.isEmpty || 0 < c.token.lineBreaks then
        .newLine (commentIndent c o s) (c.blankLines o s page false false)
      else .sameLine .asWritten }

/-! ## Code -/

/-- Whether a word is a header that goes on behind a block. -/
def isClosingHeader (isDo : Bool) (t : Token) : Bool :=
  t.kind == .word &&
    (t.text == "else" || t.text == "catch" || t.text == "finally" || (isDo && t.text == "while"))

/-- Whether a code token behind a closing brace starts a line. -/
def breaksAfterClose (o : Options) (page : Page) (closed : ClosedBrace) (t : Token) : Bool :=
  if !page.canJoin then true
  else if t.isOneOf [";", ",", ")", "]"] then false
  else if isClosingHeader closed.isDo t then o.breakClosingHeaders.getD (0 < t.lineBreaks)
  else if closed.expression then 0 < t.lineBreaks
  else !((closed.kind == .classBody || closed.kind == .enumeration) && t.lineBreaks == 0)

/-- The statement at a code token: a pending header body starts with it, one level deeper unless
it is the empty statement. -/
def startBody (stmt : Statement) (starts semicolon : Bool) : Statement :=
  if stmt.headerBodyPending && (starts || semicolon) then
    { stmt with
      headerBodyPending := false
      headerExtra := if starts then stmt.headerExtra + 1 else stmt.headerExtra }
  else stmt

/-- A code token other than a brace. -/
def code (c : Cursor) (o : Options) (s : State) (cs : List Conditional) (page : Page) : Plan :=
  let semicolon := c.token.is ";"
  let starts := !s.stmt.active && !semicolon
  let state := { s with stmt := startBody s.stmt starts semicolon, afterClose := none }
  let role := c.role state o.language.hasPointers
  let newLine :=
    page.isEmpty || match s.afterClose with
      | some closed => breaksAfterClose o page closed c.token
      | none => s.forceBreak || 0 < c.token.lineBreaks
  let afterDo := s.afterClose.any (·.isDo)
  { action := .code starts role
    state := state
    conditionals := cs
    layout :=
      if newLine then .newLine (c.lineIndent o state) (c.blankLines o state page starts afterDo)
      else .sameLine (c.spacing o state role) }

/-! ## Opening braces -/

/-- Whether no line break stands between an opening brace and its closing brace. -/
def onOneLine (c : Cursor) : Bool :=
  match c.closer with
  | none => false
  | some close => (c.upTo close).all (·.lineBreaks == 0)

/-- The switch whose label a bare block follows. -/
def labelledSwitch? (s : State) (owned : Bool) (kind : BlockKind) : Option OpenBrace :=
  if !owned && kind == .plain && s.stmt.afterLabel then
    s.braces.head?.filter (·.kind == .switch)
  else none

/-- The indentation of the statements in a block whose owner is indented by `base`. -/
def bodyIndent (o : Options) (kind : BlockKind) (base : Indent) : Indent :=
  match kind with
  | .nameSpace => base.deeper o.indentNamespaces.toNat
  | .classBody => base.deeper (1 + o.indentClasses.toNat)
  | .switch => base.deeper (1 + o.indentSwitches.toNat)
  | _ => base.deeper 1

/-- A statement owns the block that opens next. -/
def ownsBlock (stmt : Statement) : Bool := stmt.active || stmt.headerBodyPending

def opening (c : Cursor) (o : Options) (s : State) : Opening :=
  let (kind, expression) := c.classify s
  let owned := ownsBlock s.stmt
  let oneLine := onOneLine c
  let isEmpty := oneLine && c.closer == some (c.position + 1)
  let base := match labelledSwitch? s owned kind with
    | some switch => switch.caseIndent.deeper o.indentCases.toNat
    | none => if owned then s.stmt.indent else c.statementIndent s
  { kind, expression, isEmpty, base
    isDo := owned && c.isWordAt s.stmt.start "do"
    keepOneLine := oneLine && !isEmpty && kind != .initializer
      && (o.keepOneLineBlocks || s.inKeptLine || expression)
    inKeptLine := s.inKeptLine
    body := bodyIndent o kind base }

/-- The placement of an opening brace: one in an expression, in a block that stays on its line
or behind a label of a switch is not moved. -/
def placement (o : Options) (s : State) (b : Opening) : Placement :=
  if b.keepOneLine || b.inKeptLine || b.expression
      || (labelledSwitch? s (ownsBlock s.stmt) b.kind).isSome then .keep
  else o.placement b.kind

/-- The contents of a block are indented more than its owner. -/
def Opening.shifted (b : Opening) : Bool := b.body != b.base

/-- The indentation of a brace in an expression that starts a line. -/
def expressionIndent (c : Cursor) (o : Options) (s : State) : Indent :=
  if s.stmt.active && s.stmt.parens.isEmpty && !s.inListBlock then s.stmt.indent
  else c.lineIndent o s

/-- The indentation of an opening brace that starts a line. -/
def openIndent (c : Cursor) (o : Options) (s : State) (b : Opening) : Indent :=
  if b.expression then expressionIndent c o s
  else if o.indentsBraces && Opening.shifted b then b.base.deeper 1
  else b.base

def opensLine (c : Cursor) (s : State) (page : Page) (p : Placement) : Bool :=
  page.isEmpty || s.forceBreak ||
    match p with
    | .keep => 0 < c.token.lineBreaks
    | .break => true
    | .attach => if ownsBlock s.stmt then !page.canJoin else 0 < c.token.lineBreaks

def openSpacing (c : Cursor) (s : State) (p : Placement) : Spacing :=
  if p == .attach || 0 < c.token.lineBreaks then .one
  else if s.padNext then .atLeastOne
  else .asWritten

def openBrace (c : Cursor) (o : Options) (s : State) (cs : List Conditional) (page : Page) :
    Plan :=
  let b := opening c o s
  let p := placement o s b
  { action := .openBrace b
    state := { s with afterClose := none }
    conditionals := cs
    layout :=
      if opensLine c s page p then
        .newLine (openIndent c o s b)
          (if c.token.lineBreaks = 0 then 0 else c.blankLines o s page false false)
      else .sameLine (openSpacing c s p) }

/-! ## Closing braces -/

/-- A closing brace that closes nothing stays where it is, at the margin if it starts a line. -/
def strayBrace (c : Cursor) (o : Options) (s : State) (cs : List Conditional) (page : Page) :
    Plan :=
  { action := .closeBrace none
    state := s
    conditionals := cs
    layout :=
      if page.isEmpty || 0 < c.token.lineBreaks then
        .newLine .zero (c.blankLines o s page false false)
      else .sameLine .asWritten }

/-- Whether the closing brace of a block starts a line, in the state around the block. -/
def closesLine (c : Cursor) (s : State) (page : Page) (b : OpenBrace) : Bool :=
  page.isEmpty ||
    if b.keepOneLine || b.isEmpty || s.inKeptLine || b.kind == .initializer then
      0 < c.token.lineBreaks
    else true

def closeBrace (c : Cursor) (o : Options) (s : State) (cs : List Conditional) (page : Page) :
    Plan :=
  match s.braces with
  | [] => strayBrace c o { s with afterClose := none } cs page
  | b :: outer =>
      let state := { s with afterClose := none, braces := outer }
      { action := .closeBrace (some b)
        state := state
        conditionals := cs
        layout :=
          if closesLine c state page b then
            .newLine (if b.expression then b.openIndent else b.closeIndent)
              (c.blankLines o state page false false)
          else .sameLine (if c.token.lineBreaks = 0 then .asWritten else .one) }

end Plan

def Cursor.plan (c : Cursor) (o : Options) (s : State) (cs : List Conditional) (page : Page) :
    Plan :=
  match c.token.kind with
  | .directive => .directive c o s cs page
  | .lineComment | .blockComment => .comment c o s cs page
  | _ =>
      if c.token.is "\x7b" then .openBrace c o s cs page
      else if c.token.is "\x7d" then .closeBrace c o s cs page
      else .code c o s cs page

end Beautifier
