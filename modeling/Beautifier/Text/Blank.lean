/-
Classes of white space, and trimming.

Three classes are told apart: blanks (space and tab), the gaps that stand
between two tokens on a line, and the characters with the Unicode property
`White_Space`.
-/

namespace Beautifier

/-- Space and tab. -/
def isBlank (c : Char) : Bool := c == ' ' || c == '\t'

/-- The white space of one line: space, tab, vertical tab and form feed. -/
def isGapChar (c : Char) : Bool := isBlank c || c == '\x0b' || c == '\x0c'

/-- The code points with the Unicode property `White_Space`, as closed ranges. -/
def whiteSpaceRanges : List (Nat × Nat) :=
  [(0x9, 0xD), (0x20, 0x20), (0x85, 0x85), (0xA0, 0xA0), (0x1680, 0x1680),
   (0x2000, 0x200A), (0x2028, 0x2029), (0x202F, 0x202F), (0x205F, 0x205F),
   (0x3000, 0x3000)]

def isWhiteSpace (c : Char) : Bool :=
  whiteSpaceRanges.any fun r => r.1 ≤ c.toNat && c.toNat ≤ r.2

/-- A text without the characters of a class at its end. -/
def trimRight (p : Char → Bool) (text : List Char) : List Char :=
  (text.reverse.dropWhile p).reverse

/-- A text without white space at either end. -/
def trim (text : List Char) : List Char :=
  trimRight isWhiteSpace (text.dropWhile isWhiteSpace)

/-- The pieces of a text between the characters of a class: the first one, and the others. -/
def piecesAt (p : Char → Bool) : List Char → List Char × List (List Char)
  | [] => ([], [])
  | c :: rest =>
      let (first, others) := piecesAt p rest
      if p c then ([], first :: others) else (c :: first, others)

/-- The pieces of a text between the characters of a class; an empty text is one empty piece. -/
def pieces (p : Char → Bool) (text : List Char) : List (List Char) :=
  (piecesAt p text).1 :: (piecesAt p text).2

/-- The part of a text before the first character `c` and the part behind it, if there is one. -/
def splitOnce (c : Char) : List Char → Option (List Char × List Char)
  | [] => none
  | d :: rest =>
      if d = c then some ([], rest) else (splitOnce c rest).map fun r => (d :: r.1, r.2)

end Beautifier
