/-
How a line starts: its indentation and the empty lines above it.
-/
import Beautifier.Token.Keyword
import Beautifier.Layout.Cursor
import Beautifier.Layout.Page
import Beautifier.Layout.State

namespace Beautifier.Cursor

def isCaseLabel (c : Cursor) : Bool :=
  c.token.isWord "case" || (c.token.isWord "default" && c.nextCodeIs (·.is ":"))

/-- Whether a token starts an access label such as `public:` or `private slots:`. -/
def isAccessLabel (c : Cursor) : Bool :=
  c.token.kind == .word && Keyword.startsAccess c.token.text &&
    match c.nextCode with
    | none => false
    | some next =>
        next.is ":" ||
          (Keyword.sections.contains next.text && (firstCode (afterCode c.after)).any (·.is ":"))

def statementIndent (c : Cursor) (s : State) : Indent :=
  let base : Indent := match s.braces with
    | [] => .zero
    | brace :: _ =>
        if brace.kind == .switch && c.isCaseLabel then brace.caseIndent
        else if brace.kind == .classBody && c.isAccessLabel then brace.modifierIndent
        else brace.body
  base.deeper s.stmt.headerExtra

def parenIndent (c : Cursor) (o : Options) (paren : OpenParen) : Indent :=
  match paren.align with
  | some column => paren.lineIndent.alignedTo o.indentWidth column
  | none =>
      if c.token.is ")" || c.token.is "]" then paren.lineIndent else paren.lineIndent.deeper 1

def lineIndent (c : Cursor) (o : Options) (s : State) : Indent :=
  match s.stmt.parens, s.braces with
  | paren :: _, _ => c.parenIndent o paren
  | [], brace :: _ =>
      if brace.kind == .enumeration || brace.kind == .initializer then brace.body
      else if s.stmt.active then s.stmt.indent.deeper 1
      else c.statementIndent s
  | [], [] => if s.stmt.active then s.stmt.indent.deeper 1 else c.statementIndent s

/-- Whether an empty line is put above a header that starts a statement. -/
def setsHeaderApart (c : Cursor) (s : State) (page : Page) (afterDo : Bool) : Bool :=
  c.token.kind == .word
    && Keyword.blockHeaders.contains c.token.text
    && !(afterDo && c.token.text == "while")
    && !s.afterOpenBrace
    && !s.stmt.afterLabel
    && !page.onlyComments

/-- The number of empty lines above a line that starts with a token.  `startsStatement` says
that the token starts a statement, `afterDo` that it follows the body of a `do` loop. -/
def blankLines (c : Cursor) (o : Options) (s : State) (page : Page)
    (startsStatement afterDo : Bool) : Nat :=
  if c.token.inserted then 0
  else if page.isEmpty then c.token.lineBreaks
  else
    let kept := if o.deleteEmptyLines && s.inFunction then 0 else c.token.lineBreaks - 1
    let owed := (s.blankAfterBlock && !c.token.is "\x7d")
      || (startsStatement && c.setsHeaderApart s page afterDo)
    if o.breakBlocks && owed then max kept 1 else kept

end Beautifier.Cursor
