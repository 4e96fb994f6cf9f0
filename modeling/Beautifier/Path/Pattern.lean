/-
Path patterns.

A pattern that does not start with a slash matches at any depth, one that
ends with a slash everything below a directory.  `*` stands for characters
of one part of a path, `?` for one character, and `**/` for any number of
parts; `**` anywhere else is refused.  A pattern can also be written as a
regular expression that matches the same paths.
-/
import Beautifier.Path.Normal

namespace Beautifier.Path

/-- An element of a pattern. -/
inductive PatternPiece where
  /-- Any number of directories. -/
  | anyDirectories
  /-- Any number of characters other than a slash. -/
  | anyRun
  /-- One character other than a line feed. -/
  | anyChar
  | literal (c : Char)
deriving DecidableEq, Repr

/-- A pattern: the elements that a path is made of from its start to its end. -/
abbrev Pattern := List PatternPiece

namespace Pattern

/-! ## Reading -/

/-- A pattern anchored at the start of a path and down to a file. -/
def anchored (pattern : List Char) : List Char :=
  let started := if pattern.head? = some '/' then pattern else '/' :: '*' :: '*' :: '/' :: pattern
  if started.getLast? = some '/' then started ++ ['*', '*', '/', '*'] else started

/-- The elements of an anchored pattern; none where `**` stands before anything but a slash. -/
def elements? : List Char → Option Pattern
  | [] => some []
  | '*' :: '*' :: '/' :: rest => (elements? rest).map (.anyDirectories :: ·)
  | '*' :: '*' :: _ => none
  | '*' :: rest => (elements? rest).map (.anyRun :: ·)
  | '?' :: rest => (elements? rest).map (.anyChar :: ·)
  | c :: rest => (elements? rest).map (.literal c :: ·)

def ofString? (text : String) : Option Pattern := elements? (anchored text.toList)

/-- The patterns that texts stand for, or the first text that stands for none. -/
def ofStrings : List String → Except String (List Pattern)
  | [] => .ok []
  | text :: rest =>
      match ofString? text with
      | none => .error text
      | some p => (ofStrings rest).map (p :: ·)

/-! ## Matching -/

/-- Some beginning of a text without a slash is followed by what `k` accepts. -/
def runThen (k : List Char → Bool) : List Char → Bool
  | [] => k []
  | c :: rest => k (c :: rest) || (c != '/' && runThen k rest)

/-- Some beginning of a text that ends in a slash and has no line feed is followed by what `k`
accepts. -/
def directoriesThen (k : List Char → Bool) : List Char → Bool
  | [] => false
  | c :: rest => c != '\n' && ((c == '/' && k rest) || directoriesThen k rest)

/-- A text starts with what an element stands for, and `k` accepts what follows. -/
def pieceThen (piece : PatternPiece) (k : List Char → Bool) (text : List Char) : Bool :=
  match piece with
  | .anyDirectories => k text || directoriesThen k text
  | .anyRun => runThen k text
  | .anyChar =>
      match text with
      | [] => false
      | c :: rest => c != '\n' && k rest
  | .literal d =>
      match text with
      | [] => false
      | c :: rest => c == d && k rest

/-- Whether a pattern stands for a text from its start to its end. -/
def accepts (p : Pattern) : List Char → Bool := p.foldr pieceThen List.isEmpty

def isMatch (p : Pattern) (path : String) : Bool := p.accepts (normal path).toList

def anyMatch (ps : List Pattern) (path : String) : Bool := ps.any (·.isMatch path)

/-! ## Regular expressions -/

/-- The characters with a meaning of their own in a regular expression. -/
def metaCharacters : List Char :=
  ['\\', '.', '+', '*', '?', '(', ')', '|', '[', ']', '\x7b', '\x7d', '^', '$', '#', '&', '-',
   '~']

/-- A character as part of a regular expression; a dot stands in brackets. -/
def escape (c : Char) : List Char :=
  if c = '.' then ['[', '.', ']'] else if metaCharacters.contains c then ['\\', c] else [c]

def pieceRegex : PatternPiece → List Char
  | .anyDirectories => "(?:.*/)?".toList
  | .anyRun => "[^/]*".toList
  | .anyChar => ['.']
  | .literal c => escape c

def regex (p : Pattern) : String := String.ofList ('^' :: p.flatMap pieceRegex ++ ['$'])

end Pattern

/-- The paths that no pattern matches, or the first text that stands for no pattern. -/
def exclude (patterns paths : List String) : Except String (List String) :=
  (Pattern.ofStrings patterns).map fun ps => paths.filter fun path => !Pattern.anyMatch ps path

end Beautifier.Path
