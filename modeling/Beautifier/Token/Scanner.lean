/-
Reading one token.

Each reader takes the glyphs of one token off the front of a source and
leaves the rest.  Nothing fails: an unterminated literal or comment runs to
the end of its line or of the source, and a character of no class is a
token of its own.  A token is never empty and the rest is never longer than
what was there (`scan_rest_le`).
-/
import Beautifier.Text.Glyph
import Beautifier.Text.Blank
import Beautifier.Language
import Beautifier.Token.Basic

namespace Beautifier

/-- The front of a source and what is left of it. -/
structure Cut where
  taken : List Glyph
  rest : List Glyph

namespace Cut

def push (g : Glyph) (c : Cut) : Cut := { c with taken := g :: c.taken }

def prepend (gs : List Glyph) (c : Cut) : Cut := { c with taken := gs ++ c.taken }

/-- Nothing taken. -/
def stop (rest : List Glyph) : Cut := ⟨[], rest⟩

end Cut

namespace Scanner

/-! ## Character classes -/

def isLetter (c : Char) : Bool := c.isAlpha

/-- Letters, `_`, `$` and everything outside ASCII start a word. -/
def isWordStart (c : Char) : Bool := isLetter c || c == '_' || c == '$' || 0x80 ≤ c.toNat

/-- What may stand in a word behind its first character. -/
def isWordChar (c : Char) : Bool := isWordStart c || c.isDigit

/-- What may stand in a number behind its first character, whatever stands before it. -/
def isNumberChar (c : Char) : Bool := c.isAlphanum || c == '_' || c == '.'

/-- Letters behind which a number may hold a sign. -/
def isExponent (hex : Bool) (c : Char) : Bool :=
  c == 'p' || c == 'P' || (!hex && (c == 'e' || c == 'E'))

/-! ## Comments -/

def lineComment : List Glyph → Cut
  | .char c :: rest => (lineComment rest).push (.char c)
  | rest => .stop rest

def blockComment : List Glyph → Cut
  | .char '*' :: .char '/' :: rest => ⟨[.char '*', .char '/'], rest⟩
  | g :: rest => (blockComment rest).push g
  | [] => .stop []

/-! ## Directives -/

/-- The part of a directive that a reader is in. -/
inductive DirectivePart where
  | code
  | lineComment
  | blockComment
deriving DecidableEq

/-- Whether a line continues that continued before the character `c`: its last character that
is not blank is a backslash. -/
def continuesLine (before : Bool) (c : Char) : Bool := if isBlank c then before else c == '\\'

/-- The rest of a directive: up to the end of its line, or of the first following line that
does not continue.  A line break in a block comment ends nothing. -/
def directive : DirectivePart → Bool → List Glyph → Cut
  | _, _, [] => .stop []
  | .blockComment, _, .char '*' :: .char '/' :: rest =>
      (directive .code false rest).prepend [.char '*', .char '/']
  | .blockComment, continued, .char c :: rest =>
      (directive .blockComment (continuesLine continued c) rest).push (.char c)
  | .blockComment, _, .lineBreak e :: rest =>
      (directive .blockComment false rest).push (.lineBreak e)
  | _, continued, .lineBreak e :: rest =>
      if continued then (directive .code false rest).push (.lineBreak e)
      else .stop (.lineBreak e :: rest)
  | .code, _, .char '/' :: .char '*' :: rest =>
      (directive .blockComment false rest).prepend [.char '/', .char '*']
  | .code, _, .char '/' :: .char '/' :: rest =>
      (directive .lineComment false rest).prepend [.char '/', .char '/']
  | part, continued, .char c :: rest =>
      (directive part (continuesLine continued c) rest).push (.char c)

/-! ## Literals -/

/-- The rest of a literal in quotes: up to the closing quote or the end of the line.  A
backslash takes the next character or line break along. -/
def quoted (quote : Char) : List Glyph → Cut
  | .char '\\' :: g :: rest => (quoted quote rest).prepend [.char '\\', g]
  | .char c :: rest =>
      if c = quote then ⟨[.char c], rest⟩ else (quoted quote rest).push (.char c)
  | rest => .stop rest

/-- The rest of a verbatim string: up to a quote that is not doubled. -/
def verbatim : List Glyph → Cut
  | .char '\x22' :: .char '\x22' :: rest =>
      (verbatim rest).prepend [.char '\x22', .char '\x22']
  | .char '\x22' :: rest => ⟨[.char '\x22'], rest⟩
  | g :: rest => (verbatim rest).push g
  | [] => .stop []

/-- The delimiter of a raw string, and whether it is one: a quote, backslash, space or line feed
before the opening parenthesis makes the literal an ordinary one.  A carriage return is a
character of the delimiter like any other and ends no line there. -/
def rawDelimiter : List Glyph → Bool × Cut
  | [] => (true, .stop [])
  | .char c :: rest =>
      if c == '(' then (true, .stop (.char c :: rest))
      else if c == '\x22' || c == '\\' || c == ' ' then (false, .stop (.char c :: rest))
      else
        let (raw, cut) := rawDelimiter rest
        (raw, cut.push (.char c))
  | .lineBreak .macOld :: rest =>
      let (raw, cut) := rawDelimiter rest
      (raw, cut.push (.char '\r'))
  | .lineBreak .windows :: rest => (false, ⟨[.char '\r'], .lineBreak .linux :: rest⟩)
  | .lineBreak .linux :: rest => (false, .stop (.lineBreak .linux :: rest))

/-- What follows the characters `cs` at the front of a source, if they stand there. -/
def dropChars? : List Char → List Glyph → Option (List Glyph)
  | [], rest => some rest
  | c :: cs, .char d :: rest => if c = d then dropChars? cs rest else none
  | '\r' :: cs, .lineBreak .macOld :: rest => dropChars? cs rest
  | _ :: _, _ => none

/-- The body of a raw string from its opening parenthesis up to the characters `closing`. -/
def rawBody (closing : List Char) : List Glyph → Cut
  | [] => .stop []
  | g :: rest =>
      match dropChars? closing (g :: rest) with
      | some behind => ⟨closing.map .char, behind⟩
      | none => (rawBody closing rest).push g

/-- The rest of a raw string behind its opening quote. -/
def rawString (source : List Glyph) : Cut :=
  let (raw, cut) := rawDelimiter source
  let body :=
    if raw then rawBody (')' :: Glyph.charsOf cut.taken ++ ['\x22']) cut.rest
    else quoted '\x22' cut.rest
  body.prepend cut.taken

/-- The words in front of a raw string. -/
def rawIntroducers : List String := ["R", "LR", "uR", "UR", "u8R"]

/-! ## Numbers, words and punctuation -/

/-- Whether a source starts with a character of a class. -/
def startsWith (p : Char → Bool) : List Glyph → Bool
  | .char c :: _ => p c
  | _ => false

/-- The rest of a number behind the character `previous`. -/
def number (hex : Bool) : Char → List Glyph → Cut
  | previous, .char c :: rest =>
      if isNumberChar c
          || ((c == '+' || c == '-') && isExponent hex previous)
          || (c == '\x27' && previous.isAlphanum && startsWith Char.isAlphanum rest) then
        (number hex c rest).push (.char c)
      else .stop (.char c :: rest)
  | _, rest => .stop rest

/-- Whether a number that starts with `first` is hexadecimal. -/
def isHex (first : Char) (rest : List Glyph) : Bool :=
  first == '0' && startsWith (fun c => c == 'x' || c == 'X') rest

def word : List Glyph → Cut
  | .char c :: rest =>
      if isWordChar c then (word rest).push (.char c) else .stop (.char c :: rest)
  | rest => .stop rest

/-- Punctuation of more than one character, a longer one before its own beginnings. -/
def longPunctuation : List (List Char) :=
  [['<', '<', '='], ['>', '>', '='], ['-', '>', '*'], ['.', '.', '.'], ['<', '=', '>'],
   [':', ':'], ['-', '>'], ['+', '+'], ['-', '-'], ['<', '<'], ['>', '>'], ['<', '='],
   ['>', '='], ['=', '='], ['!', '='], ['&', '&'], ['|', '|'], ['+', '='], ['-', '='],
   ['*', '='], ['/', '='], ['%', '='], ['&', '='], ['|', '='], ['^', '='], ['.', '*']]

/-- The rest of the punctuation that starts with `first`. -/
def punctuation (first : Char) (rest : List Glyph) : Cut :=
  let longer := longPunctuation.findSome? fun p =>
    match p with
    | c :: cs => if c = first then (dropChars? cs rest).map (⟨cs.map .char, ·⟩) else none
    | [] => none
  longer.getD (.stop rest)

/-! ## One token -/

/-- The token that starts with `first`: its kind, and the cut of the source behind `first`. -/
def scan (language : Language) (atLineStart : Bool) (first : Char) (rest : List Glyph) :
    TokenKind × Cut :=
  if first == '#' && atLineStart && language.hasDirectives then
    (.directive, directive .code false rest)
  else if first == '/' && startsWith (· == '/') rest then
    (.lineComment, lineComment rest)
  else if first == '/' && startsWith (· == '*') rest then
    (.blockComment, (blockComment rest.tail).push (.char '*'))
  else if first == '\x22' then (.string, quoted '\x22' rest)
  else if first == '\x27' then (.character, quoted '\x27' rest)
  else if first == '@' && startsWith (· == '\x22') rest && language.hasVerbatimStrings then
    (.string, (verbatim rest.tail).push (.char '\x22'))
  else if first.isDigit then (.number, number (isHex first rest) first rest)
  else if first == '.' && startsWith Char.isDigit rest then
    (.number, number false first rest)
  else if isWordStart first then
    let cut := word rest
    if startsWith (· == '\x22') cut.rest && language.hasRawStrings
        && rawIntroducers.contains (String.ofList (first :: Glyph.charsOf cut.taken)) then
      (.string, ((rawString cut.rest.tail).push (.char '\x22')).prepend cut.taken)
    else (.word, cut)
  else (.punctuation, punctuation first rest)

/-! ## The rest never grows -/

theorem lineComment_rest_le (gs : List Glyph) : (lineComment gs).rest.length ≤ gs.length := by
  fun_induction lineComment gs with
  | case1 c rest ih => simp only [Cut.push, List.length_cons]; omega
  | case2 => simp [Cut.stop]

theorem blockComment_rest_le (gs : List Glyph) : (blockComment gs).rest.length ≤ gs.length := by
  fun_induction blockComment gs with
  | case1 rest => simp only [List.length_cons]; omega
  | case2 g rest _ ih => simp only [Cut.push, List.length_cons]; omega
  | case3 => simp [Cut.stop]

theorem directive_rest_le (part : DirectivePart) (continued : Bool) (gs : List Glyph) :
    (directive part continued gs).rest.length ≤ gs.length := by
  fun_induction directive part continued gs <;>
    simp_all only [Cut.push, Cut.prepend, Cut.stop, List.length_cons, List.length_nil] <;> omega

theorem quoted_rest_le (quote : Char) (gs : List Glyph) :
    (quoted quote gs).rest.length ≤ gs.length := by
  fun_induction quoted quote gs <;>
    simp_all only [Cut.push, Cut.prepend, Cut.stop, List.length_cons] <;> omega

theorem verbatim_rest_le (gs : List Glyph) : (verbatim gs).rest.length ≤ gs.length := by
  fun_induction verbatim gs <;>
    simp_all only [Cut.push, Cut.prepend, Cut.stop, List.length_cons, List.length_nil] <;> omega

theorem rawDelimiter_rest_le (gs : List Glyph) :
    (rawDelimiter gs).2.rest.length ≤ gs.length := by
  fun_induction rawDelimiter gs <;>
    simp_all only [Cut.push, Cut.stop, List.length_cons, List.length_nil] <;> omega

theorem dropChars?_le {cs : List Char} {gs rest : List Glyph}
    (h : dropChars? cs gs = some rest) : rest.length ≤ gs.length := by
  fun_induction dropChars? cs gs <;> simp_all <;> omega

theorem rawBody_rest_le (closing : List Char) (gs : List Glyph) :
    (rawBody closing gs).rest.length ≤ gs.length := by
  fun_induction rawBody closing gs with
  | case1 => simp [Cut.stop]
  | case2 g rest behind h => exact dropChars?_le h
  | case3 g rest _ ih => simp only [Cut.push, List.length_cons]; omega

theorem rawString_rest_le (gs : List Glyph) : (rawString gs).rest.length ≤ gs.length := by
  have h := rawDelimiter_rest_le gs
  simp only [rawString, Cut.prepend]
  split
  · exact Nat.le_trans (rawBody_rest_le _ _) h
  · exact Nat.le_trans (quoted_rest_le _ _) h

theorem number_rest_le (hex : Bool) (previous : Char) (gs : List Glyph) :
    (number hex previous gs).rest.length ≤ gs.length := by
  fun_induction number hex previous gs <;>
    simp_all only [Cut.push, Cut.stop, List.length_cons] <;> omega

theorem word_rest_le (gs : List Glyph) : (word gs).rest.length ≤ gs.length := by
  fun_induction word gs <;> simp_all only [Cut.push, Cut.stop, List.length_cons] <;> omega

theorem punctuation_rest_le (first : Char) (gs : List Glyph) :
    (punctuation first gs).rest.length ≤ gs.length := by
  simp only [punctuation]
  generalize h : longPunctuation.findSome? _ = longer
  cases longer with
  | none => exact Nat.le_refl _
  | some cut =>
    obtain ⟨p, _, hp⟩ := List.exists_of_findSome?_eq_some h
    split at hp
    · split at hp
      · obtain ⟨rest, hrest, rfl⟩ := Option.map_eq_some_iff.1 hp
        exact dropChars?_le hrest
      · cases hp
    · cases hp

/-- A token leaves no more than there was behind its first character. -/
theorem scan_rest_le (language : Language) (atLineStart : Bool) (first : Char)
    (gs : List Glyph) : (scan language atLineStart first gs).2.rest.length ≤ gs.length := by
  have tail_le : gs.tail.length ≤ gs.length := by simp
  simp only [scan]
  repeat' split
  · exact directive_rest_le _ _ _
  · exact lineComment_rest_le _
  · exact Nat.le_trans (blockComment_rest_le _) tail_le
  · exact quoted_rest_le _ _
  · exact quoted_rest_le _ _
  · exact Nat.le_trans (verbatim_rest_le _) tail_le
  · exact number_rest_le _ _ _
  · exact number_rest_le _ _ _
  · refine Nat.le_trans (rawString_rest_le _) ?_
    have := word_rest_le gs
    simp only [List.length_tail]
    omega
  · exact word_rest_le _
  · exact punctuation_rest_le _ _

end Scanner

end Beautifier
