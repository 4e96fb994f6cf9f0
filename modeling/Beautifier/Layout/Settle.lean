/-
What each token does to the state.

`State.placed` holds what every written token does; the rest is the
bookkeeping of statements and blocks, by the action of a plan.  The page is
not seen here but for the indentation of its newest line.
-/
import Beautifier.Layout.Plan

namespace Beautifier.State

/-- The state once a token is written.  A new line settles all that is owed before the next
token; code behind an open bracket on its line gives further lines their column. -/
def placed (s : State) (c : Cursor) (layout : Layout) (column : Nat) : State :=
  let s := match layout with
    | .newLine _ _ =>
        { s.amendParen fun p => { p with awaitsAlign := false } with
          forceBreak := false
          blankAfterBlock := false
          padNext := false
          pointerAfter := none }
    | .sameLine _ =>
        if c.token.isTrivia then s
        else s.amendParen fun p =>
          if p.awaitsAlign then { p with awaitsAlign := false, align := some column } else p
  { s with
    forceBreak := s.forceBreak && c.token.isTrivia
    lastOnLine := some c.position }

/-! ## Statements -/

def beginStatement (s : State) (c : Cursor) (layout : Layout) (lineIndent : Indent) : State :=
  let indent := match layout with
    | .newLine _ _ => lineIndent
    | .sameLine _ => c.statementIndent s
  { s with stmt := { s.stmt with
      active := true
      start := c.position
      indent
      ternary := 0
      afterLabel := false
      parens := [] } }

/-- A header is complete: its body comes next. -/
def completeHeader (s : State) : State :=
  { s with stmt := { s.stmt with
      active := false
      headerParenPending := false
      headerBodyPending := true } }

/-- A word may be a header at the start of a statement or behind `else`. -/
def headerKeyword (s : State) (c : Cursor) : State :=
  let word := c.token.text
  let parenNext := c.nextCodeIs (·.is "(")
  if !(s.stmt.start == c.position || c.prevCode.any (·.isWord "else")) then s
  else if word == "if" && parenNext then
    { s with stmt := { s.stmt with
        ifLevels := s.stmt.headerExtra :: s.stmt.ifLevels
        headerParenPending := true } }
  else if Keyword.conditionHeaders.contains word && parenNext then
    { s with stmt := { s.stmt with headerParenPending := true } }
  else if word == "else" then
    if c.nextCodeIs (·.isWord "if") then s else s.completeHeader
  else if word == "do" || word == "try" || word == "finally" then s.completeHeader
  else s

def openParen (s : State) (c : Cursor) (lineIndent : Indent) : State :=
  let header := c.token.is "(" && s.stmt.headerParenPending
  let declaration := !header && !s.inCodeScope && c.prevCode.any fun prev =>
    prev.kind == .word && !Keyword.nonOperands.contains prev.text
  let paren : OpenParen :=
    { start := c.position
      lineIndent
      align := none
      awaitsAlign := true
      header, declaration }
  { s with stmt := { s.stmt with
      headerParenPending := s.stmt.headerParenPending && !header
      parens := paren :: s.stmt.parens } }

/-- A closing bracket; that of a condition completes its header. -/
def closeParen (s : State) : State :=
  match s.stmt.parens with
  | [] => s
  | paren :: outer =>
      let s := { s with stmt := { s.stmt with parens := outer } }
      if paren.header && outer.isEmpty then s.completeHeader else s

/-- The levels owed behind a statement that may be followed by `else`: those of the innermost
`if`, or none. -/
def Statement.endBody (stmt : Statement) (beforeElse : Bool) : Statement :=
  match stmt.ifLevels with
  | level :: outer =>
      if beforeElse then { stmt with headerExtra := level, ifLevels := outer }
      else { stmt with headerExtra := 0, ifLevels := [] }
  | [] => { stmt with headerExtra := 0, ifLevels := [] }

/-- A semicolon ends the statement. -/
def endStatement (s : State) (c : Cursor) (o : Options) : State :=
  let ended := { s.stmt with
    active := false
    headerParenPending := false
    headerBodyPending := false
    ternary := 0 }
  let kept := o.keepOneLineStatements || s.inKeptLine
  { s with
    stmt := Statement.endBody ended (c.nextCodeIs (·.isWord "else"))
    forceBreak := s.forceBreak || !kept }

/-- Whether a colon ends a label: of a switch, an access modifier, or a jump target. -/
def endsLabel (s : State) (c : Cursor) : Bool :=
  match s.braces, c.statementCode s with
  | brace :: _, first :: others =>
      if brace.kind == .switch && (first.isWord "case" || first.isWord "default") then true
      else if brace.kind == .classBody then
        Keyword.startsAccess first.text && others.all (Keyword.sections.contains ·.text)
      else if brace.kind == .enumeration || brace.kind == .initializer then false
      else first.kind == .word && others.isEmpty && !Keyword.nonOperands.contains first.text
        && !Keyword.isHeader first.text
  | _, _ => false

/-- A colon ends a conditional expression, ends a label, or does nothing. -/
def colon (s : State) (c : Cursor) : State :=
  if 0 < s.stmt.ternary then { s with stmt := { s.stmt with ternary := s.stmt.ternary - 1 } }
  else if s.stmt.parens.isEmpty && s.endsLabel c then
    { s with stmt := { s.stmt with active := false, afterLabel := true } }
  else s

/-- What a code token does to the statement. -/
def afterCode (s : State) (c : Cursor) (o : Options) (lineIndent : Indent) : State :=
  match c.token.kind with
  | .word => s.headerKeyword c
  | .punctuation =>
      match c.token.text with
      | "(" | "[" => s.openParen c lineIndent
      | ")" | "]" => s.closeParen
      | ";" =>
          if s.stmt.parens.isEmpty && !s.innermostIs (·.kind == .initializer) then
            s.endStatement c o
          else s
      | "?" => { s with stmt := { s.stmt with ternary := s.stmt.ternary + 1 } }
      | ":" => s.colon c
      | _ => s
  | _ => s

/-- What a code token leaves for the spacing before the next one. -/
def owesSpacing (s : State) (c : Cursor) (o : Options) (role : Role) : State :=
  { s with
    afterOpenBrace := false
    padNext := (role == .binary && o.padOper) || (c.token.is "," && o.padsCommas)
    pointerRun := role == .pointer
    pointerAfter := if role == .pointer then o.alignPointer else none }

def settleCode (s : State) (c : Cursor) (o : Options) (layout : Layout) (lineIndent : Indent)
    (starts : Bool) (role : Role) : State :=
  let begun := if starts then s.beginStatement c layout lineIndent else s
  (begun.owesSpacing c o role).afterCode c o lineIndent

/-! ## Blocks -/

/-- The open brace of a block whose opening brace stands on a line indented by `lineIndent`. -/
def openedBrace (o : Options) (b : Opening) (lineIndent : Indent) (outer : Statement) :
    OpenBrace :=
  { kind := b.kind
    expression := b.expression
    isDo := b.isDo
    keepOneLine := b.keepOneLine
    isEmpty := b.isEmpty
    openIndent := if b.expression then lineIndent else b.base
    body := if b.expression then lineIndent.deeper 1 else b.body
    closeIndent :=
      if b.expression then lineIndent
      else if o.indentsClosingBraces && Plan.Opening.shifted b then b.base.deeper 1
      else b.base
    caseIndent := b.base.deeper o.indentSwitches.toNat
    modifierIndent :=
      (b.base.deeper o.indentClasses.toNat).plusSpaces
        (if o.indentModifiers then o.indentWidth / 2 else 0)
    outer }

/-- An opening brace has been written: its statement waits for the closing brace. -/
def settleOpen (s : State) (o : Options) (b : Opening) (lineIndent : Indent) : State :=
  { s with
    braces := openedBrace o b lineIndent s.stmt :: s.braces
    stmt := .fresh
    forceBreak := !(b.keepOneLine || b.inKeptLine || b.isEmpty || b.kind == .initializer)
    afterOpenBrace := true
    padNext := false
    pointerAfter := none
    pointerRun := false }

/-- The statement behind a block that it owns. -/
def Statement.endBlock (stmt : Statement) (beforeElse closingHeader : Bool) : Statement :=
  let ended := { stmt with
    active := false
    headerParenPending := false
    headerBodyPending := false
    ternary := 0
    parens := [] }
  if beforeElse then
    match ended.ifLevels with
    | [] => ended
    | level :: outer => { ended with headerExtra := level, ifLevels := outer }
  else if closingHeader then ended
  else { ended with headerExtra := 0, ifLevels := [] }

/-- A block that is no part of an expression ends its statement. -/
def finishBlock (s : State) (c : Cursor) (o : Options) (closed : ClosedBrace) : State :=
  let beforeElse := c.nextCodeIs (·.isWord "else")
  let closingHeader := c.nextCodeIs (Plan.isClosingHeader closed.isDo)
  let owesBlank := o.breakBlocks && (closed.kind == .control || closed.kind == .switch)
    && !closingHeader && !c.nextCodeIs (·.is "\x7d")
  { s with
    stmt := Statement.endBlock s.stmt beforeElse closingHeader
    forceBreak := !(s.inKeptLine || o.keepOneLineStatements)
    blankAfterBlock := s.blankAfterBlock || owesBlank }

/-- A closing brace has been written: the statement around the block goes on or ends. -/
def settleClose (s : State) (c : Cursor) (o : Options) (b : OpenBrace) : State :=
  let closed : ClosedBrace := ⟨b.kind, b.isDo, b.expression⟩
  let resumed := { s with
    stmt := b.outer
    afterClose := some closed
    afterOpenBrace := false
    padNext := false
    pointerAfter := none
    pointerRun := false }
  if b.expression then resumed else resumed.finishBlock c o closed

/-! ## All tokens -/

/-- The state behind a token that has been written as planned. -/
def settle (s : State) (c : Cursor) (o : Options) (p : Plan) (lineIndent : Indent) : State :=
  match p.action with
  | .directive | .comment | .closeBrace none => s
  | .code starts role => s.settleCode c o p.layout lineIndent starts role
  | .openBrace b => s.settleOpen o b lineIndent
  | .closeBrace (some b) => s.settleClose c o b

end Beautifier.State
