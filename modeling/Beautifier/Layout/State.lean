/-
What the layout remembers between two tokens.

Positions of tokens are counted from the start of the source.
-/
import Beautifier.Layout.Indent
import Beautifier.Options.Placement

namespace Beautifier

/-- An open parenthesis or square bracket. -/
structure OpenParen where
  /-- Position of the bracket. -/
  start : Nat
  /-- Indentation of the line the bracket stands on. -/
  lineIndent : Indent
  /-- Column that further lines align to, once code has followed the bracket on its line. -/
  align : Option Nat
  /-- Code may still follow on the line of the bracket. -/
  awaitsAlign : Bool
  /-- The condition of a header. -/
  header : Bool
  /-- The parameters of a declaration outside all functions. -/
  declaration : Bool
deriving DecidableEq, Repr

/-- The statement that is being laid out in the innermost block. -/
structure Statement where
  /-- It has started and not ended. -/
  active : Bool
  /-- Position of its first token. -/
  start : Nat
  /-- Indentation of its first line. -/
  indent : Indent
  /-- Open brackets, the innermost first. -/
  parens : List OpenParen
  /-- Levels owed to headers whose bodies are single statements. -/
  headerExtra : Nat
  /-- The levels owed at each `if` that may still meet its `else`, the innermost first. -/
  ifLevels : List Nat
  /-- A header keyword has been read and the parenthesis of its condition has not. -/
  headerParenPending : Bool
  /-- A header is complete and its body has not started. -/
  headerBodyPending : Bool
  /-- Question marks that wait for their colon. -/
  ternary : Nat
  /-- The statement before was a label. -/
  afterLabel : Bool
deriving DecidableEq, Repr

def Statement.fresh : Statement where
  active := false
  start := 0
  indent := .zero
  parens := []
  headerExtra := 0
  ifLevels := []
  headerParenPending := false
  headerBodyPending := false
  ternary := 0
  afterLabel := false

structure OpenBrace where
  kind : BlockKind
  /-- Part of an expression, which goes on behind the closing brace. -/
  expression : Bool
  /-- The body of a `do` loop. -/
  isDo : Bool
  /-- The whole block stays on the line it is written on. -/
  keepOneLine : Bool
  /-- Nothing stands in the block. -/
  isEmpty : Bool
  /-- Indentation of the line that owns the block. -/
  openIndent : Indent
  /-- Indentation of the statements in the block. -/
  body : Indent
  /-- Indentation of the closing brace. -/
  closeIndent : Indent
  /-- Indentation of the labels of a switch. -/
  caseIndent : Indent
  /-- Indentation of the access modifiers of a class. -/
  modifierIndent : Indent
  /-- The statement around the block. -/
  outer : Statement
deriving DecidableEq, Repr

/-- What the last closing brace closed. -/
structure ClosedBrace where
  kind : BlockKind
  isDo : Bool
  expression : Bool
deriving DecidableEq, Repr

/-- The state of the layout between two tokens. -/
structure State where
  /-- Open braces, the innermost first. -/
  braces : List OpenBrace
  stmt : Statement
  /-- The next code token starts a line. -/
  forceBreak : Bool
  /-- The block that ended with the last token. -/
  afterClose : Option ClosedBrace
  /-- A space is owed before the next token on this line. -/
  padNext : Bool
  /-- The alignment of the `*` or `&` that the last token was. -/
  pointerAfter : Option PointerAlign
  /-- The last token was a `*` or `&` of a declarator. -/
  pointerRun : Bool
  /-- An empty line is owed before the next line. -/
  blankAfterBlock : Bool
  /-- The last code token was an opening brace. -/
  afterOpenBrace : Bool
  /-- Position of the token written last. -/
  lastOnLine : Option Nat
deriving DecidableEq, Repr

/-- What is kept for the branches of a conditional directive. -/
structure Conditional where
  /-- The state before the directive that opens the conditional. -/
  atIf : State
  /-- The state behind the first branch, once there is a second. -/
  afterFirst : Option State
deriving DecidableEq, Repr

namespace State

def start : State where
  braces := []
  stmt := .fresh
  forceBreak := false
  afterClose := none
  padNext := false
  pointerAfter := none
  pointerRun := false
  blankAfterBlock := false
  afterOpenBrace := false
  lastOnLine := none

def innermostIs (s : State) (p : OpenBrace → Bool) : Bool :=
  match s.braces with
  | [] => false
  | b :: _ => p b

def inFunction (s : State) : Bool := s.braces.any (·.kind == .function)

/-- Inside a block of statements rather than declarations. -/
def inCodeScope (s : State) : Bool :=
  s.innermostIs fun b => match b.kind with
    | .nameSpace | .classBody | .linkage | .enumeration => false
    | _ => true

/-- Inside the list of an enumeration or initializer and outside all brackets. -/
def inListBlock (s : State) : Bool :=
  s.stmt.parens.isEmpty && s.innermostIs fun b => b.kind == .enumeration || b.kind == .initializer

/-- Inside a block that stays on its line. -/
def inKeptLine (s : State) : Bool := s.braces.any (·.keepOneLine)

/-- The innermost open bracket waits for the column of the code behind it. -/
def awaitsAlign (s : State) : Bool :=
  match s.stmt.parens with
  | [] => false
  | p :: _ => p.awaitsAlign

/-- The state with the innermost open bracket changed. -/
def amendParen (s : State) (f : OpenParen → OpenParen) : State :=
  match s.stmt.parens with
  | [] => s
  | p :: rest => { s with stmt := { s.stmt with parens := f p :: rest } }

end State

end Beautifier
