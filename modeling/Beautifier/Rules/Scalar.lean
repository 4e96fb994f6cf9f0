/-
Scalars of a configuration text: in double quotes, in single quotes, plain.

Every reader takes a scalar off the front of a text and leaves the rest.  A
scalar may go on over several lines, whose ends are folded.
-/
import Beautifier.Rules.Gap
import Beautifier.Rules.Number

namespace Beautifier.Scalar

open Letter (isApart isNext documentMark?)

/-! ## Quotes -/

/-- The number of hexadecimal digits behind the letter of an escape. -/
def escapeDigits? : Char → Option Nat
  | 'x' => some 2
  | 'u' => some 4
  | 'U' => some 8
  | _ => none

/-- What a backslash and a character stand for. -/
def escape? : Char → Option Char
  | '0' => some '\x00'
  | 'a' => some '\x07'
  | 'b' => some '\x08'
  | 't' => some '\t'
  | '\t' => some '\t'
  | 'n' => some '\n'
  | 'v' => some '\x0b'
  | 'f' => some '\x0c'
  | 'r' => some '\r'
  | 'e' => some '\x1b'
  | ' ' => some ' '
  | '\x22' => some '\x22'
  | '/' => some '/'
  | '\\' => some '\\'
  | 'N' => some '\u0085'
  | '_' => some '\u00a0'
  | 'L' => some '\u2028'
  | 'P' => some '\u2029'
  | _ => none

/-- The character with a code point that is written in `count` hexadecimal digits. -/
def codePoint? (count : Nat) (letters : List Letter) : Option Char :=
  let digits := Letter.chars (letters.take count)
  if digits.length < count then none
  else (Number.digits? 16 digits).bind fun n => if n.isValidChar then some (Char.ofNat n) else none

/-- A piece of a scalar in quotes. -/
inductive QuotedPiece where
  /-- The quote at the end. -/
  | closing
  | char (c : Char)
  /-- A line end behind a backslash, which counts for nothing. -/
  | joint

/-- The piece behind a backslash, and the rest. -/
def escapedPiece? : List Letter → Option (QuotedPiece × List Letter)
  | [] => none
  | l :: rest =>
      if l.isBreak then some (.joint, rest)
      else
        match escapeDigits? l.char with
        | some count => (codePoint? count rest).map fun c => (.char c, rest.drop count)
        | none => (escape? l.char).map fun c => (.char c, rest)

/-- The piece that starts with a letter, and the rest.  Double quotes have escapes; between single
ones, a quote is written twice. -/
def quotedPiece? (quote : Char) (l : Letter) (rest : List Letter) :
    Option (QuotedPiece × List Letter) :=
  if l.char == quote then
    if quote == '\x27' && isNext quote rest then some (.char quote, rest.tail)
    else some (.closing, rest)
  else if quote == '\x22' && l.char == '\\' then escapedPiece? rest
  else some (.char l.char, rest)

/-- The rest of a scalar in quotes behind a gap, and what follows it.  `fuel` bounds the number of
its letters. -/
def quotedFrom? (quote : Char) : Nat → Gap → List Letter → Option (List Char × List Letter)
  | 0, _, _ => none
  | _ + 1, _, [] => none
  | fuel + 1, gap, l :: rest =>
      if l.isSpace then quotedFrom? quote fuel (gap.add l.char) rest
      else if (documentMark? (l :: rest)).isSome then none
      else
        match quotedPiece? quote l rest with
        | none => none
        | some (.closing, rest) => some (gap.folded, rest)
        | some (.char c, rest) =>
            (quotedFrom? quote fuel .empty rest).map fun (text, rest) =>
              (gap.folded ++ c :: text, rest)
        | some (.joint, rest) =>
            (quotedFrom? quote fuel (.lines none []) rest).map fun (text, rest) =>
              (gap.folded ++ text, rest)

/-- The scalar in quotes whose first quote stands before a text, and the rest. -/
def quoted? (quote : Char) (letters : List Letter) : Option (List Char × List Letter) :=
  quotedFrom? quote (letters.length + 1) .empty letters

/-! ## Plain scalars -/

/-- Brackets, braces and the comma, which end a plain scalar between brackets. -/
def isFlowMark (c : Char) : Bool :=
  c == ',' || c == '[' || c == ']' || c == '\x7b' || c == '\x7d'

/-- Characters that start something else than a plain scalar. -/
def isIndicator (c : Char) : Bool :=
  isFlowMark c || c == '-' || c == '?' || c == ':' || c == '#' || c == '&' || c == '*' || c == '!'
    || c == '|' || c == '>' || c == '\x27' || c == '\x22' || c == '%' || c == '@' || c == '\x60'

/-- Whether a letter starts a plain scalar.  A dash may, if no blank follows it, and so may a
question mark or a colon outside brackets. -/
def startsPlain (flow : Bool) (l : Letter) (rest : List Letter) : Bool :=
  (!l.isSpace && !isIndicator l.char)
    || (l.char == '-' && !isApart rest)
    || (!flow && (l.char == '?' || l.char == ':') && !isApart rest)

/-- Whether a letter in a plain scalar ends it: a colon that is set apart, or a mark between
brackets. -/
def endsPlain (flow : Bool) (l : Letter) (rest : List Letter) : Bool :=
  (l.char == ':' && isApart rest) || (flow && isFlowMark l.char)

/-- Whether what stands behind a gap in a plain scalar does not belong to it: a comment, the mark
of a document, or a line that is not indented enough. -/
def endsBehindGap (flow : Bool) (least : Nat) (l : Letter) (rest : List Letter) : Bool :=
  l.char == '#' || (documentMark? (l :: rest)).isSome || (!flow && l.column < least)

/-- Whether a letter is a colon between brackets that stands before a mark. -/
def isLostColon (flow : Bool) (l : Letter) (rest : List Letter) : Bool :=
  flow && l.char == ':' && rest.head?.any fun next => isFlowMark next.char || next.char == '?'

/-- The rest of a plain scalar behind a gap, the gap at its end, and what follows it.  No tab
stands before column `least` of a further line. -/
def plainFrom? (flow : Bool) (least : Nat) :
    Gap → List Letter → Option (List Char × Gap × List Letter)
  | gap, [] => some ([], gap, [])
  | gap, l :: rest =>
      if l.isSpace then
        if gap.hasLines && l.char == '\t' && l.column < least then none
        else plainFrom? flow least (gap.add l.char) rest
      else if endsPlain flow l rest || (!gap.isEmpty && endsBehindGap flow least l rest) then
        some ([], gap, l :: rest)
      else if isLostColon flow l rest then none
      else
        (plainFrom? flow least .empty rest).map fun (text, last, rest) =>
          (gap.folded ++ l.char :: text, last, rest)

/-- The plain scalar that starts a text, whether white space behind it reaches a further line, and
what follows that white space. -/
def plain? (flow : Bool) (least : Nat) (letters : List Letter) :
    Option (List Char × Bool × List Letter) :=
  (plainFrom? flow least .empty letters).map fun (text, gap, rest) => (text, gap.hasLines, rest)

end Beautifier.Scalar
