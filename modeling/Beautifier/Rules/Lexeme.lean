/-
The lexemes of a configuration text.

Besides the marks that are written, there are lexemes for what the columns of
the text say: where a list or a mapping of lines starts and ends, and where a
key starts.  That something is a key shows only at the colon behind it, so the
place in front of a possible key is kept until then.
-/
import Beautifier.Rules.Scalar
import Beautifier.Rules.Verbatim
import Beautifier.Rules.Tag

namespace Beautifier

inductive Lexeme where
  | directive
  | documentStart
  | documentEnd
  /-- The start of a list of lines behind dashes. -/
  | listStart
  /-- The start of a mapping of lines with keys. -/
  | mappingStart
  /-- The end of a list or a mapping of lines. -/
  | blockEnd
  | openBracket
  | closeBracket
  | openBrace
  | closeBrace
  | comma
  | dash
  | key
  | value
  /-- The name of the node behind it, as a number. -/
  | anchor (n : Nat)
  /-- The name of a node that is written elsewhere. -/
  | reference (n : Nat)
  | tag (name : String)
  /-- A scalar, and whether it is plain. -/
  | scalar (text : String) (plain : Bool)
deriving DecidableEq, Repr

namespace Lexeme

open Letter (isApart isNext documentMark?)

/-- The start of what may turn out to be a key. -/
structure KeyStart where
  line : Nat
  column : Nat
  /-- Whether nothing else than a key may stand here. -/
  isDue : Bool
  /-- The number of lexemes in front. -/
  place : Nat

/-- What is known where a lexeme starts. -/
structure Reading where
  /-- The lexemes in front, the last one first. -/
  behind : List Lexeme
  /-- The number of lexemes in front. -/
  count : Nat
  /-- The columns of the lists and mappings of lines that are open, the innermost first. -/
  columns : List Nat
  /-- The possible key at this depth of brackets. -/
  keyStart : Option KeyStart
  /-- The possible keys outside the brackets that are open. -/
  outer : List (Option KeyStart)
  /-- Whether a key may start here. -/
  keyAllowed : Bool
  /-- The names of nodes with their numbers. -/
  names : List (String × Nat)
  /-- Whether the version was given. -/
  versioned : Bool
  /-- The handles that directives set. -/
  handles : List (String × String)

namespace Reading

def start : Reading :=
  { behind := [], count := 0, columns := [], keyStart := none, outer := [], keyAllowed := true,
    names := [], versioned := false, handles := [] }

/-- Whether a bracket is open. -/
def isFlow (r : Reading) : Bool := !r.outer.isEmpty

/-- The column that a line must reach at least to belong to the innermost list or mapping. -/
def least (r : Reading) : Nat :=
  match r.columns with
  | [] => 0
  | column :: _ => column + 1

def emit (r : Reading) (x : Lexeme) : Reading :=
  { r with behind := x :: r.behind, count := r.count + 1 }

/-- Lexemes, the last one first, in front of those that follow the first `place` ones. -/
def insert (r : Reading) (place : Nat) (xs : List Lexeme) : Reading :=
  let later := r.count - place
  { r with
    behind := r.behind.take later ++ xs ++ r.behind.drop later
    count := r.count + xs.length }

/-! ## Columns -/

/-- Ends the lists and mappings of lines whose column is `column` or more. -/
def closeFrom (column : Nat) (columns : List Nat) (r : Reading) : Reading :=
  match columns with
  | [] => { r with columns := [] }
  | c :: columns =>
      if column ≤ c then closeFrom column columns (r.emit .blockEnd)
      else { r with columns := c :: columns }

/-- Ends the lists and mappings of lines that lie deeper than a column.  Brackets hide columns. -/
def closeDeeper (r : Reading) (column : Nat) : Reading :=
  if r.isFlow then r else closeFrom (column + 1) r.columns r

/-- Ends all lists and mappings of lines. -/
def closeAll (r : Reading) : Reading := if r.isFlow then r else closeFrom 0 r.columns r

def opensAt (r : Reading) (column : Nat) : Bool := !r.isFlow && r.least ≤ column

/-- Starts a list or a mapping of lines at a column, if none is there. -/
def openBlock (r : Reading) (column : Nat) (x : Lexeme) : Reading :=
  if r.opensAt column then { r.emit x with columns := column :: r.columns } else r

/-! ## Keys -/

/-- Gives up a possible key that lies on another line or more than 1024 columns in front; none if
it is due. -/
def expire? (l : Letter) : Option KeyStart → Option (Option KeyStart)
  | none => some none
  | some k =>
      if k.line < l.line || k.column + 1024 < l.column then
        if k.isDue then none else some none
      else some (some k)

/-- Gives up the possible keys that are too far in front. -/
def expireKeys? (r : Reading) (l : Letter) : Option Reading :=
  (expire? l r.keyStart).bind fun keyStart =>
    (r.outer.mapM (expire? l)).map fun outer => { r with keyStart, outer }

/-- Gives up the possible key, which must not be due. -/
def dropKey? (r : Reading) : Option Reading :=
  if r.keyStart.any (·.isDue) then none else some { r with keyStart := none }

/-- Keeps the place in front of a possible key. -/
def saveKey? (r : Reading) (l : Letter) : Option Reading :=
  if r.keyAllowed then
    r.dropKey?.map fun r =>
      let isDue := !r.isFlow && r.columns.head? == some l.column
      { r with keyStart := some ⟨l.line, l.column, isDue, r.count⟩ }
  else some r

/-- Forbids or allows a key behind the lexeme. -/
def allowKey (r : Reading) (allowed : Bool) : Reading := { r with keyAllowed := allowed }

/-! ## One lexeme -/

/-- A lexeme behind which all lists and mappings of lines are ended. -/
def boundary? (r : Reading) (x : Lexeme) : Option Reading :=
  r.closeAll.dropKey?.map fun r => (r.allowKey false).emit x

def openFlow? (r : Reading) (l : Letter) (x : Lexeme) : Option Reading :=
  (r.saveKey? l).map fun r =>
    { r.emit x with keyStart := none, outer := r.keyStart :: r.outer, keyAllowed := true }

def closeFlow? (r : Reading) (x : Lexeme) : Option Reading :=
  r.dropKey?.map fun r =>
    { r.emit x with
      keyStart := r.outer.headD none, outer := r.outer.tail, keyAllowed := false }

/-- A comma, behind which a key may start. -/
def comma? (r : Reading) : Option Reading :=
  r.dropKey?.map fun r => (r.allowKey true).emit .comma

/-- A dash or a question mark that starts an item or a key.  Outside brackets it stands where a key
may start, and opens a list or a mapping of lines. -/
def leader? (r : Reading) (l : Letter) (block x : Lexeme) : Option Reading :=
  if !r.isFlow && !r.keyAllowed then none
  else (r.openBlock l.column block).dropKey?.map (·.emit x)

def dash? (r : Reading) (l : Letter) : Option Reading :=
  (r.leader? l .listStart .dash).map (·.allowKey true)

/-- The question mark of a key. -/
def key? (r : Reading) (l : Letter) : Option Reading :=
  (r.leader? l .mappingStart .key).map fun r => r.allowKey !r.isFlow

/-- The colon behind a key.  If a possible key stands in front, it is one, and the first key of a
mapping of lines starts the mapping. -/
def value? (r : Reading) (l : Letter) : Option Reading :=
  match r.keyStart with
  | some k =>
      let opens := r.opensAt k.column
      let r := r.insert k.place (if opens then [.key, .mappingStart] else [.key])
      let columns := if opens then k.column :: r.columns else r.columns
      some ({ r with keyStart := none, columns, keyAllowed := false }.emit .value)
  | none =>
      if !r.isFlow && !r.keyAllowed then none
      else some (((r.openBlock l.column .mappingStart).allowKey !r.isFlow).emit .value)

/-- The name of a node, which is numbered by the names before it. -/
def anchor? (r : Reading) (l : Letter) (letters : List Letter) :
    Option (Reading × List Letter) :=
  (r.saveKey? l).bind fun r =>
    (nodeName? letters).map fun (name, rest) =>
      let n := r.names.length
      let names := (name, n) :: r.names.filter (·.1 != name)
      ({ (r.allowKey false).emit (.anchor n) with names }, rest)

/-- A reference to a node by its name. -/
def reference? (r : Reading) (l : Letter) (letters : List Letter) :
    Option (Reading × List Letter) :=
  (r.saveKey? l).bind fun r =>
    (nodeName? letters).bind fun (name, rest) =>
      (r.names.lookup name).map fun n => ((r.allowKey false).emit (.reference n), rest)

/-- The tag behind an exclamation mark, with its handle written out. -/
def tag? (r : Reading) (l : Letter) (letters : List Letter) : Option (Reading × List Letter) :=
  (r.saveKey? l).bind fun r =>
    (Tag.read? r.isFlow letters).bind fun (t, rest) =>
      (t.resolve? r.handles).map fun name => ((r.allowKey false).emit (.tag name), rest)

/-- A scalar below a bar or an angle. -/
def verbatim? (r : Reading) (fold : Bool) (letters : List Letter) :
    Option (Reading × List Letter) :=
  r.dropKey?.bind fun r =>
    (Verbatim.read? fold (r.columns.headD 0) r.least letters).map fun (text, rest) =>
      ((r.allowKey true).emit (.scalar (String.ofList text) false), rest)

/-- A scalar behind its first quote. -/
def quoted? (r : Reading) (l : Letter) (letters : List Letter) : Option (Reading × List Letter) :=
  (r.saveKey? l).bind fun r =>
    (Scalar.quoted? l.char letters).map fun (text, rest) =>
      ((r.allowKey false).emit (.scalar (String.ofList text) false), rest)

/-- A plain scalar.  Behind it a key may start if the next lexeme stands on a further line. -/
def plain? (r : Reading) (l : Letter) (letters : List Letter) : Option (Reading × List Letter) :=
  (r.saveKey? l).bind fun r =>
    (Scalar.plain? r.isFlow r.least (l :: letters)).map fun (text, isBelow, rest) =>
      ((r.allowKey isBelow).emit (.scalar (String.ofList text) true), rest)

/-- A directive.  The version is given once, and each handle is set once. -/
def directive? (r : Reading) (letters : List Letter) : Option (Reading × List Letter) :=
  (r.boundary? .directive).bind fun r =>
    (Directive.read? letters).bind fun (d, rest) =>
      match d with
      | .version => if r.versioned then none else some ({ r with versioned := true }, rest)
      | .handle name text =>
          if (r.handles.lookup name).isSome then none
          else some ({ r with handles := (name, text) :: r.handles }, rest)

/-- The lexeme that starts with a letter, and the rest. -/
def next? (r : Reading) (l : Letter) (rest : List Letter) : Option (Reading × List Letter) :=
  let keep (r : Option Reading) := r.map fun r => (r, rest)
  if l.column == 0 && l.char == '%' then r.directive? rest
  else
    match documentMark? (l :: rest) with
    | some (c, rest) =>
        (r.boundary? (if c == '-' then .documentStart else .documentEnd)).map fun r => (r, rest)
    | none =>
        match l.char with
        | '[' => keep (r.openFlow? l .openBracket)
        | '\x7b' => keep (r.openFlow? l .openBrace)
        | ']' => keep (r.closeFlow? .closeBracket)
        | '\x7d' => keep (r.closeFlow? .closeBrace)
        | ',' => keep r.comma?
        | '*' => r.reference? l rest
        | '&' => r.anchor? l rest
        | '!' => r.tag? l rest
        | '\x27' => r.quoted? l rest
        | '\x22' => r.quoted? l rest
        | c =>
            if c == '-' && isApart rest then keep (r.dash? l)
            else if c == '?' && (r.isFlow || isApart rest) then keep (r.key? l)
            else if c == ':' && (r.isFlow || isApart rest) then keep (r.value? l)
            else if (c == '|' || c == '>') && !r.isFlow then r.verbatim? (c == '>') rest
            else if Scalar.startsPlain r.isFlow l rest then r.plain? l rest
            else none

end Reading

/-! ## All lexemes -/

/-- Letters from the next lexeme on, and whether a key may start there.  White space, comments and
a byte order mark at the start of a line are left out; a tab only where no key may start.
`comment` says that the letters start in a comment. -/
def skipToNext (flow keyAllowed comment : Bool) : List Letter → Bool × List Letter
  | [] => (keyAllowed, [])
  | l :: rest =>
      if l.isBreak then skipToNext flow (keyAllowed || !flow) false rest
      else if comment || l.char == ' ' || (l.char == '\t' && (flow || !keyAllowed))
          || (l.char == '\uFEFF' && l.column == 0) then skipToNext flow keyAllowed comment rest
      else if l.char == '#' then skipToNext flow keyAllowed true rest
      else (keyAllowed, l :: rest)

/-- The lexemes of letters behind others.  `fuel` bounds their number. -/
def from? : Nat → Reading → List Letter → Option (List Lexeme)
  | 0, _, _ => none
  | fuel + 1, r, letters =>
      let (keyAllowed, letters) := skipToNext r.isFlow r.keyAllowed false letters
      match letters with
      | [] => r.closeAll.dropKey?.map (·.behind.reverse)
      | l :: rest =>
          ((r.allowKey keyAllowed).expireKeys? l).bind fun r =>
            ((r.closeDeeper l.column).next? l rest).bind fun (r, rest) => from? fuel r rest

/-- The lexemes of letters.  Each takes a letter at least. -/
def ofLetters? (letters : List Letter) : Option (List Lexeme) :=
  from? (letters.length + 1) .start letters

end Lexeme

end Beautifier
