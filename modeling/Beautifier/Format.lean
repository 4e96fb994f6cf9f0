/-
Formatting a source.

The tokens of the source are written one after another: each is planned,
written to the page, and settled in the state.  A source without tokens, and
any text that makes no sense, is laid out all the same; formatting never
fails.
-/
import Beautifier.Options.Directive
import Beautifier.Token.Stream
import Beautifier.Layout.BraceInsertion
import Beautifier.Layout.Matching
import Beautifier.Layout.Settle

namespace Beautifier

/-- The layout between two tokens. -/
structure Progress where
  state : State
  /-- The open conditional directives, the innermost first. -/
  conditionals : List Conditional
  page : Page
deriving DecidableEq, Repr

/-- The white space of the source before a token that goes on with the newest line of a page. -/
def Page.sourceGap (p : Page) (o : Options) (t : Token) : String :=
  if o.convertTabs then
    String.ofList (Column.expandTabs o.indentWidth (p.column o.indentWidth) t.space.toList)
  else t.space

/-- The white space before a token that goes on with the newest line of a page. -/
def Page.gap (p : Page) (o : Options) (t : Token) : Spacing → String
  | .none => ""
  | .one => " "
  | .asWritten => p.sourceGap o t
  | .atLeastOne => if t.space.isEmpty || 0 < t.lineBreaks then " " else p.sourceGap o t

/-- The page made ready for a token: a new line, or white space on the newest. -/
def Page.ready (p : Page) (o : Options) (t : Token) : Layout → Page
  | .newLine indent blankLines => p.newLine indent blankLines
  | .sameLine spacing => p.space (p.gap o t spacing)

/-- The distance by which a token is moved from where it starts in the source; only that of a
block comment matters. -/
def Page.shift (p : Page) (o : Options) (t : Token) : Int :=
  if t.kind == .blockComment then (p.column o.indentWidth : Int) - t.column else 0

/-- The page with a token written behind its newest line. -/
def Page.write (p : Page) (o : Options) (t : Token) : Page :=
  p.push o.indentWidth t.kind (p.shift o t) t.text

namespace Progress

def start : Progress := ⟨.start, [], .blank⟩

/-- The layout behind one more token. -/
def step (o : Options) (r : Progress) (c : Cursor) : Progress :=
  let plan := c.plan o r.state r.conditionals r.page
  let ready := r.page.ready o c.token plan.layout
  let column := if plan.state.awaitsAlign then ready.column o.indentWidth else 0
  let placed := plan.state.placed c plan.layout column
  let page := ready.write o c.token
  { state := placed.settle c o plan page.currentIndent
    conditionals := plan.conditionals
    page }

/-- The layout behind the tokens `after`, which follow the tokens `before`. -/
def run (o : Options) (closers : Array (Option Nat)) (position : Nat) (before : List Token) :
    List Token → Progress → Progress
  | [], r => r
  | t :: after, r =>
      let cursor : Cursor :=
        { before, after, position
          token := t
          closer := closers[position]?.join }
      run o closers (position + 1) (t :: before) after (r.step o cursor)

end Progress

/-- The tokens that are laid out: those of the source, with braces added if they are asked for. -/
def tokensToLayOut (o : Options) (stream : TokenStream) : List Token :=
  if o.addBraces then BraceInsertion.insertBraces stream.tokens else stream.tokens

def layOut (o : Options) (tokens : List Token) : Page :=
  (Progress.start.run o (Matching.closers tokens) 0 [] tokens).page

/-- A source formatted.  Lines end as the options say, or else as the first line of the source,
or else in a line feed; there is a line ending at the end where the source has one. -/
def format (o : Options) (source : String) : String :=
  let stream := tokenize o.language o.indentWidth source
  let lineEnd := (o.lineEnd <|> stream.lineEnd).getD .linux
  (layOut o (tokensToLayOut o stream)).render o.indentKind o.indentWidth lineEnd
    stream.trailingBreaks

end Beautifier
