/-
The characters of a configuration text and their places.

Every character is read together with its line and its column, so that the
readers of the text need no count of their own.  The line endings of all
systems are one line feed; the two separators of Unicode end a line too and
are kept.
-/
import Beautifier.Text.Blank

namespace Beautifier

/-- A character with its place in a text. -/
structure Letter where
  char : Char
  line : Nat
  column : Nat
deriving DecidableEq, Repr

namespace Letter

/-- The separators of lines and of paragraphs. -/
def isSeparator (c : Char) : Bool := c == '\u2028' || c == '\u2029'

/-- Whether a character ends a line of a text in which every line ending is a line feed. -/
def endsLine (c : Char) : Bool := c == '\n' || isSeparator c

def isBreak (l : Letter) : Bool := endsLine l.char

def isBlank (l : Letter) : Bool := Beautifier.isBlank l.char

/-- White space: a blank or the end of a line. -/
def isSpace (l : Letter) : Bool := l.isBlank || l.isBreak

/-- Whether a character may stand in a configuration text: no control character but the tab and
the line endings, and no code point without a character. -/
def isAllowed (c : Char) : Bool :=
  c == '\t' || c == '\n' || c == '\r' || c == '\u0085'
    || (' ' ≤ c && c ≤ '~') || ('\u00A0' ≤ c && c ≤ '\uFFFD') || 0x10000 ≤ c.toNat

/-- The letters of a text that starts at a place. -/
def ofChars (line column : Nat) : List Char → List Letter
  | [] => []
  | '\r' :: '\n' :: rest => ⟨'\n', line, column⟩ :: ofChars (line + 1) 0 rest
  | c :: rest =>
      if isSeparator c then ⟨c, line, column⟩ :: ofChars (line + 1) 0 rest
      else if c == '\n' || c == '\r' || c == '\u0085' then
        ⟨'\n', line, column⟩ :: ofChars (line + 1) 0 rest
      else ⟨c, line, column⟩ :: ofChars line (column + 1) rest

/-- The letters of a text, if all its characters are allowed. -/
def ofString? (text : String) : Option (List Letter) :=
  if text.toList.all isAllowed then some (ofChars 0 0 text.toList) else none

def chars (letters : List Letter) : List Char := letters.map (·.char)

/-- Whether white space or the end of the text comes next. -/
def isApart : List Letter → Bool
  | [] => true
  | l :: _ => l.isSpace

/-- Whether a line ends here. -/
def isLineDone : List Letter → Bool
  | [] => true
  | l :: _ => l.isBreak

def isNext (c : Char) : List Letter → Bool
  | [] => false
  | l :: _ => l.char == c

/-- Letters without the blanks in front. -/
def skipBlanks (letters : List Letter) : List Letter := letters.dropWhile isBlank

/-- Letters without the blanks and the comment in front, which reach to the end of the line. -/
def skipRemark (letters : List Letter) : List Letter :=
  let letters := skipBlanks letters
  if isNext '#' letters then letters.dropWhile fun l => !l.isBreak else letters

/-- The character of the line that parts one document from another, three dashes or three points,
and what follows the three. -/
def documentMark? : List Letter → Option (Char × List Letter)
  | a :: b :: c :: rest =>
      if a.column == 0 && (a.char == '-' || a.char == '.') && b.char == a.char
          && c.char == a.char && isApart rest then some (a.char, rest)
      else none
  | _ => none

end Letter

end Beautifier
