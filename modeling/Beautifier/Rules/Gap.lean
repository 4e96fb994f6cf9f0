/-
The gaps between the pieces of a scalar.

Blanks that stand between two pieces on one line belong to the scalar.  Where
the line ends, the blanks on both sides of its end do not, and the end itself
is folded: one line ending is a space, and each further one is kept.
-/
import Beautifier.Rules.Letter

namespace Beautifier

/-- White space behind a piece of a scalar. -/
inductive Gap where
  /-- Blanks, on the line of the piece. -/
  | blanks (cs : List Char)
  /-- The end of the line and the ends of the empty lines below it; the first is none where it
  counts for nothing. -/
  | lines (first : Option Char) (others : List Char)

namespace Gap

def empty : Gap := blanks []

def isEmpty : Gap → Bool
  | blanks [] => true
  | _ => false

/-- Whether a gap reaches beyond the end of a line. -/
def hasLines : Gap → Bool
  | blanks _ => false
  | lines _ _ => true

/-- A gap with one more character of white space. -/
def add (c : Char) : Gap → Gap
  | blanks cs => if Letter.endsLine c then lines (some c) [] else blanks (cs ++ [c])
  | lines first others =>
      if Letter.endsLine c then lines first (others ++ [c]) else lines first others

/-- What a gap leaves in the scalar.  A line feed at the end of the first line is folded, and a
separator there is kept. -/
def folded : Gap → List Char
  | blanks cs => cs
  | lines none others => others
  | lines (some '\n') [] => [' ']
  | lines (some '\n') others => others
  | lines (some c) others => c :: others

end Gap

end Beautifier
