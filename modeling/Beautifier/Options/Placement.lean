/-
Where braces go, by kind of block and brace style.
-/
import Beautifier.Options.Basic

namespace Beautifier

/-- What an opening brace opens. -/
inductive BlockKind where
  /-- The body of a namespace. -/
  | nameSpace
  /-- The body of a class, struct, union or interface. -/
  | classBody
  /-- The body of an enumeration. -/
  | enumeration
  /-- The body of a function or method. -/
  | function
  /-- The body of `if`, `for`, `while`, `do`, `try` and their like. -/
  | control
  /-- The body of a `switch`. -/
  | switch
  /-- The body of a linkage specification, as in `extern "C"`. -/
  | linkage
  /-- An array or aggregate initializer. -/
  | initializer
  /-- A bare block, a lambda body, a property. -/
  | plain
deriving DecidableEq, Repr

def BlockKind.all : List BlockKind :=
  [.nameSpace, .classBody, .enumeration, .function, .control, .switch, .linkage, .initializer,
   .plain]

/-- Where an opening brace goes. -/
inductive Placement where
  /-- Where it is. -/
  | keep
  /-- To the end of the line that owns it. -/
  | attach
  /-- Onto a line of its own. -/
  | break
deriving DecidableEq, Repr

/-- Whether a style breaks the brace of a block; none for the style that moves no brace. -/
def BraceStyle.breaks? (s : BraceStyle) (k : BlockKind) : Option Bool :=
  match s with
  | .unchanged => none
  | .allman | .whitesmith => some true
  | .java | .ratliff | .google => some false
  | .kernighanRitchie | .linux | .oneTrueBrace =>
      some (k == .nameSpace || k == .classBody || k == .function || k == .linkage)
  | .stroustrup | .webkit => some (k == .function)
  | .mozilla => some (k == .classBody || k == .enumeration || k == .function)

namespace Options

def placement (o : Options) (k : BlockKind) : Placement :=
  if k == .initializer then .keep
  else if k == .nameSpace && o.attachNamespaces then .attach
  else if k == .classBody && o.attachClasses then .attach
  else match o.style.breaks? k with
    | none => .keep
    | some true => .break
    | some false => .attach

/-- Whether a header that follows a closing brace starts a line; none leaves it where it is. -/
def breakClosingHeaders (o : Options) : Option Bool :=
  if o.breakClosingBraces then some true
  else match o.style with
    | .unchanged => none
    | .allman | .whitesmith | .stroustrup => some true
    | _ => some false

/-- Block braces sit one level in, with the contents of the block. -/
def indentsBraces (o : Options) : Bool := o.style == .whitesmith

/-- Closing braces sit one level in, with the contents of the block. -/
def indentsClosingBraces (o : Options) : Bool := o.style == .whitesmith || o.style == .ratliff

end Options

end Beautifier
