/-
Scalars that are written as indented lines below a bar or an angle.

Below a bar the lines are kept as they are; below an angle the end of a line
is folded into a space between two lines that start with no blank.
-/
import Beautifier.Rules.Letter

namespace Beautifier.Verbatim

open Letter (isNext isLineDone skipRemark)

/-- What becomes of the line endings behind the last line. -/
inductive Chomp where
  | strip
  /-- The first one is kept. -/
  | clip
  | keep
deriving DecidableEq, Repr

/-- What stands behind the bar or the angle. -/
structure Header where
  chomp : Chomp
  /-- The number of columns by which the lines are indented, if it is written. -/
  indent : Option Nat

/-- The sign for the line endings that starts a text, and the rest. -/
def takeChomp (letters : List Letter) : Chomp × List Letter :=
  if isNext '+' letters then (.keep, letters.tail)
  else if isNext '-' letters then (.strip, letters.tail)
  else (.clip, letters)

/-- The digit for the indentation that starts a text, and the rest.  It is not zero. -/
def takeIndent? : List Letter → Option (Option Nat × List Letter)
  | [] => some (none, [])
  | l :: rest =>
      if !l.char.isDigit then some (none, l :: rest)
      else if l.char == '0' then none
      else some (some (l.char.toNat - '0'.toNat), rest)

/-- The header behind a bar or an angle, and the lines below it. -/
def header? (letters : List Letter) : Option (Header × List Letter) :=
  let (early, letters) := takeChomp letters
  (takeIndent? letters).bind fun (indent, letters) =>
    let (late, letters) :=
      if early == .clip && indent.isSome then takeChomp letters else (early, letters)
    let letters := skipRemark letters
    if isLineDone letters then some (⟨late, indent⟩, letters.drop 1) else none

/-- The ends of the empty lines in front, the last column in them that was reached, and the rest.
Spaces up to the indentation are left out, and no tab stands among them; all spaces are left out
while the indentation is not known. -/
def emptyLines? (indent : Option Nat) (reached : Nat) :
    List Letter → Option (List Char × Nat × List Letter)
  | [] => some ([], reached, [])
  | l :: rest =>
      let within := indent.all fun n => decide (l.column < n)
      if l.char == ' ' && within then emptyLines? indent reached rest
      else
        let reached := max reached l.column
        if l.char == '\t' && within then none
        else if l.isBreak then
          (emptyLines? indent reached rest).map fun (ends, reached, rest) =>
            (l.char :: ends, reached, rest)
        else some ([], reached, l :: rest)

/-- The end of a line and those of the empty lines below it. -/
structure Tail where
  first : List Char
  others : List Char

/-- What stands between two lines.  `fold` says that the end of a line is folded, and `blank` that
one of the two starts with a blank. -/
def Tail.between (fold blank : Bool) (t : Tail) : List Char :=
  if fold && t.first == ['\n'] && !blank then
    if t.others.isEmpty then [' '] else t.others
  else t.first ++ t.others

/-- The lines in front that are indented by `indent`, the line endings behind the last of them, and
the rest.  `tail` stands before the lines and `blank` says that the line above starts with a
blank.  `fuel` bounds the number of lines. -/
def lines? (fold : Bool) (indent : Nat) :
    Nat → Tail → Bool → List Letter → Option (List Char × Tail × List Letter)
  | 0, _, _, _ => none
  | _ + 1, tail, _, [] => some ([], tail, [])
  | fuel + 1, tail, blank, l :: rest =>
      if l.column != indent then some ([], tail, l :: rest)
      else
        let line := (l :: rest).takeWhile fun l => !l.isBreak
        let below := (l :: rest).dropWhile fun l => !l.isBreak
        (emptyLines? (some indent) 0 (below.drop 1)).bind fun (others, _, below') =>
          let next : Tail := ⟨Letter.chars (below.take 1), others⟩
          (lines? fold indent fuel next l.isBlank below').map fun (text, last, rest) =>
            (tail.between fold (blank || l.isBlank) ++ Letter.chars line ++ text, last, rest)

/-- What is left of the line endings behind the last line. -/
def Chomp.apply : Chomp → Tail → List Char
  | strip, _ => []
  | clip, t => t.first
  | keep, t => t.first ++ t.others

/-- The scalar behind a bar or an angle, and what follows it.  Its lines are indented by `least`
columns at least; `base` is the indentation of what it stands in. -/
def read? (fold : Bool) (base least : Nat) (letters : List Letter) :
    Option (List Char × List Letter) :=
  (header? letters).bind fun (header, letters) =>
    let given := header.indent.map (base + ·)
    (emptyLines? given 0 letters).bind fun (ends, reached, letters) =>
      let indent := given.getD (max (max reached least) 1)
      (lines? fold indent (letters.length + 1) ⟨[], ends⟩ false letters).map
        fun (text, tail, rest) => (text ++ header.chomp.apply tail, rest)

end Beautifier.Verbatim
