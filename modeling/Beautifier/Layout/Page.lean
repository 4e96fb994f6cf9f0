/-
The output while it is being written.

A page is a list of lines, each an indentation and a text.  White space and
token texts are appended to the newest line; a token text of several lines
opens new ones.  Only rendering turns indentation into characters, drops
blanks at the ends of lines and puts in the line endings.
-/
import Beautifier.Text.Blank
import Beautifier.Text.Column
import Beautifier.Token.Basic
import Beautifier.Layout.Indent

namespace Beautifier

structure Line where
  indent : Indent
  text : String
  /-- Blanks at the end are dropped. -/
  trimmed : Bool
  /-- The last line of some token that is neither comment nor directive. -/
  hasCode : Bool
  /-- Ends in a line comment. -/
  lineComment : Bool
  /-- Belongs to a directive. -/
  directive : Bool
deriving DecidableEq, Repr

namespace Line

def empty (indent : Indent) : Line where
  indent := indent
  text := ""
  trimmed := true
  hasCode := false
  lineComment := false
  directive := false

def append (l : Line) (s : String) : Line := { l with text := l.text ++ s }

def column (width : Nat) (l : Line) : Nat :=
  Column.advance width (l.indent.columns width) l.text.toList

/-- The line that holds a further line of a token's text.  A line of a block comment keeps its
distance from the start of the comment, which is moved by `shift` columns. -/
def continuation (kind : TokenKind) (width : Nat) (shift : Int) (piece : List Char) : Line :=
  match kind with
  | .blockComment =>
      let content := piece.dropWhile isBlank
      let column := Column.width width (piece.takeWhile isBlank)
      { empty (.ofSpaces (column + shift).toNat) with text := String.ofList content }
  | .directive => { empty .zero with text := String.ofList piece, directive := true }
  | _ => { empty .zero with text := String.ofList piece, trimmed := false }

/-- What a token leaves on the line that it ends on. -/
def mark (kind : TokenKind) (l : Line) : Line :=
  match kind with
  | .lineComment => { l with lineComment := true }
  | .blockComment => l
  | .directive => { l with directive := true }
  | _ => { l with hasCode := true }

/-- Whether a token text of several lines keeps the blanks at the ends of its lines. -/
def keepsBlanks : TokenKind → Bool
  | .blockComment | .directive => false
  | _ => true

/-- The characters of a line as they are written out; an empty line has no indentation. -/
def chars (kind : IndentKind) (width : Nat) (l : Line) : List Char :=
  let text := if l.trimmed then trimRight isBlank l.text.toList else l.text.toList
  if text.isEmpty then [] else l.indent.chars kind width ++ text

end Line

/-- The lines written so far, the newest first. -/
structure Page where
  lines : List Line
deriving DecidableEq, Repr

namespace Page

def blank : Page := ⟨[]⟩

def isEmpty (p : Page) : Bool := p.lines.isEmpty

/-- A page with a new line below `blankLines` empty ones. -/
def newLine (p : Page) (indent : Indent) (blankLines : Nat) : Page :=
  ⟨.empty indent :: (List.replicate blankLines (.empty .zero) ++ p.lines)⟩

/-- A page with its newest line changed; a blank page gets a line first. -/
def amend (p : Page) (f : Line → Line) : Page :=
  match p.lines with
  | [] => ⟨[f (.empty .zero)]⟩
  | l :: rest => ⟨f l :: rest⟩

def currentIndent (p : Page) : Indent :=
  match p.lines with
  | [] => .zero
  | l :: _ => l.indent

def column (width : Nat) (p : Page) : Nat :=
  match p.lines with
  | [] => 0
  | l :: _ => l.column width

/-- Whether code may follow on the newest line. -/
def canJoin (p : Page) : Bool :=
  match p.lines with
  | [] => false
  | l :: _ => l.hasCode && !l.lineComment && !l.directive

def onlyComments (p : Page) : Bool :=
  match p.lines with
  | [] => false
  | l :: _ => !l.hasCode && !l.text.isEmpty

def space (p : Page) (gap : String) : Page := p.amend (·.append gap)

def push (p : Page) (width : Nat) (kind : TokenKind) (shift : Int) (text : String) : Page :=
  let (first, others) := linesOf (glyphs text.toList)
  let begun := p.amend fun l =>
    let l := l.append (String.ofList first)
    if Line.keepsBlanks kind && !others.isEmpty then { l with trimmed := false } else l
  let continued : Page :=
    ⟨(others.map (Line.continuation kind width shift)).reverse ++ begun.lines⟩
  continued.amend (Line.mark kind)

/-- The text of a page: its lines joined by line endings, and more line endings behind. -/
def render (p : Page) (kind : IndentKind) (width : Nat) (lineEnd : LineEnd)
    (trailingBreaks : Nat) : String :=
  let lines := p.lines.reverse.map (Line.chars kind width)
  let joined := (lines.intersperse lineEnd.chars).flatten
  String.ofList (joined ++ (List.replicate trailingBreaks lineEnd.chars).flatten)

end Page

end Beautifier
