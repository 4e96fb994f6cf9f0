/-
Names of nodes and of types.

A node may be given a name to refer to it by, and a tag that names its type.
The handle that a tag starts with is short for a longer text, which directives
at the start of a document may set.
-/
import Beautifier.Rules.Letter
import Beautifier.Rules.Number
import Beautifier.Text.Utf8

namespace Beautifier

open Letter (isApart isNext isLineDone skipBlanks skipRemark)

/-- Letters, digits, underscore and dash. -/
def isNameChar (c : Char) : Bool := c.isAlphanum || c == '_' || c == '-'

def takeName (letters : List Letter) : List Char × List Letter :=
  (Letter.chars (letters.takeWhile fun l => isNameChar l.char),
    letters.dropWhile fun l => isNameChar l.char)

/-- Whether a name may end before a text. -/
def endsNodeName : List Letter → Bool
  | [] => true
  | l :: _ =>
      l.isSpace || l.char == '?' || l.char == ':' || l.char == ',' || l.char == ']'
        || l.char == '\x7d' || l.char == '%' || l.char == '@' || l.char == '\x60'

/-- The name of a node behind its mark, and the rest. -/
def nodeName? (letters : List Letter) : Option (String × List Letter) :=
  let (name, rest) := takeName letters
  if name.isEmpty || !endsNodeName rest then none else some (String.ofList name, rest)

/-- A tag as it is written: a handle and what follows it. -/
structure Tag where
  handle : String
  suffix : String
deriving DecidableEq, Repr

namespace Tag

/-- The tags of a document without directives: the texts that the handles are short for. -/
def usualHandles : List (String × String) := [("!", "!"), ("!!", "tag:yaml.org,2002:")]

/-- The full text of a tag, if its handle is known. -/
def resolve? (handles : List (String × String)) (t : Tag) : Option String :=
  if t.handle.isEmpty then some t.suffix
  else ((handles ++ usualHandles).lookup t.handle).map (· ++ t.suffix)

/-- Characters of a tag other than the percent sign.  Those that would end a list or an item may
only stand between angles. -/
def isTagChar (angled : Bool) (c : Char) : Bool :=
  isNameChar c || c == ';' || c == '/' || c == '?' || c == ':' || c == '@' || c == '&' || c == '='
    || c == '+' || c == '$' || c == '.' || c == '!' || c == '~' || c == '*' || c == '\x27'
    || c == '(' || c == ')' || (angled && (c == ',' || c == '[' || c == ']'))

/-- The bytes of the characters of a tag that start a text, and the rest.  A percent sign and two
digits are one byte. -/
def takeBytes? (angled : Bool) : List Letter → Option (List UInt8 × List Letter)
  | [] => some ([], [])
  | l :: rest =>
      if l.char == '%' then
        match rest with
        | a :: b :: rest =>
            match Number.digits? 16 [a.char, b.char] with
            | some n =>
                (takeBytes? angled rest).map fun (bytes, rest) => (UInt8.ofNat n :: bytes, rest)
            | none => none
        | _ => none
      else if isTagChar angled l.char then
        (takeBytes? angled rest).map fun (bytes, rest) =>
          (UInt8.ofNat l.char.toNat :: bytes, rest)
      else some ([], l :: rest)

/-- The text of the characters of a tag that start a text, and the rest. -/
def takeText? (angled : Bool) (letters : List Letter) : Option (String × List Letter) :=
  (takeBytes? angled letters).bind fun (bytes, rest) =>
    match Utf8.decode bytes with
    | .ok s => some (s, rest)
    | .error _ => none

/-- A text that is not empty. -/
def nonempty? : String × List Letter → Option (String × List Letter)
  | (s, rest) => if s.isEmpty then none else some (s, rest)

/-- The tag in angles behind the opening one, and the rest. -/
def angled? (letters : List Letter) : Option (Tag × List Letter) :=
  ((takeText? true letters).bind nonempty?).bind fun (suffix, rest) =>
    if isNext '>' rest then some (⟨"", suffix⟩, rest.tail) else none

/-- The tag behind an exclamation mark, without angles, and the rest.  A second mark behind a name
ends a handle; a mark alone is the tag of its own name. -/
def marked? (letters : List Letter) : Option (Tag × List Letter) :=
  let (name, behind) := takeName letters
  if isNext '!' behind then
    ((takeText? false behind.tail).bind nonempty?).map fun (suffix, rest) =>
      (⟨String.ofList ('!' :: name ++ ['!']), suffix⟩, rest)
  else
    (takeText? false letters).map fun (suffix, rest) =>
      (if suffix.isEmpty then ⟨"", "!"⟩ else ⟨"!", suffix⟩, rest)

/-- The tag behind an exclamation mark, and the rest.  White space follows it, or a comma between
brackets. -/
def read? (flow : Bool) (letters : List Letter) : Option (Tag × List Letter) :=
  (if isNext '<' letters then angled? letters.tail else marked? letters).bind fun (tag, rest) =>
    if isApart rest || (flow && isNext ',' rest) then some (tag, rest) else none

end Tag

/-! ## Directives -/

/-- A directive at the start of a document. -/
inductive Directive where
  | version
  /-- The text that a handle is short for. -/
  | handle (name text : String)
deriving DecidableEq, Repr

namespace Directive

/-- One part of a version number, and the rest. -/
def versionPart? (letters : List Letter) : Option (Nat × List Letter) :=
  let digits := letters.takeWhile fun l => l.char.isDigit
  if 9 < digits.length then none
  else (Number.digits? 10 (Letter.chars digits)).map fun n => (n, letters.drop digits.length)

/-- The version behind its directive's name, which is 1.1 or 1.2, and the rest. -/
def version? (letters : List Letter) : Option (Directive × List Letter) :=
  (versionPart? letters).bind fun (major, rest) =>
    if !isNext '.' rest then none
    else
      (versionPart? rest.tail).bind fun (minor, rest) =>
        if major == 1 && (minor == 1 || minor == 2) then some (version, rest) else none

/-- A handle, and the rest: an exclamation mark alone, or a name between two. -/
def handleName? (letters : List Letter) : Option (String × List Letter) :=
  if !isNext '!' letters then none
  else
    let (name, rest) := takeName letters.tail
    if isNext '!' rest then some (String.ofList ('!' :: name ++ ['!']), rest.tail)
    else if name.isEmpty then some ("!", rest)
    else none

/-- The handle and its text behind the directive's name, and the rest. -/
def handle? (letters : List Letter) : Option (Directive × List Letter) :=
  (handleName? letters).bind fun (name, rest) =>
    if !rest.head?.any Letter.isBlank then none
    else
      ((Tag.takeText? true (skipBlanks rest)).bind Tag.nonempty?).bind fun (text, rest) =>
        if isApart rest then some (handle name text, rest) else none

/-- The directive behind a percent sign, and what follows the end of its line. -/
def read? (letters : List Letter) : Option (Directive × List Letter) :=
  let (name, rest) := takeName letters
  if !isApart rest then none
  else
    let value := skipBlanks rest
    let directive :=
      if name == ['Y', 'A', 'M', 'L'] then version? value
      else if name == ['T', 'A', 'G'] then handle? value
      else none
    directive.bind fun (directive, rest) =>
      let rest := skipRemark rest
      if isLineDone rest then some (directive, rest.drop 1) else none

end Directive

end Beautifier
