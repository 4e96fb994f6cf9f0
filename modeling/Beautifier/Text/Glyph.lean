/-
Glyphs: ordinary characters and line breaks.

A line ends in one of three ways.  The view of a text as a list of glyphs
makes each line ending one element, a carriage return followed by a line
feed included, so that every reader of the text below is a recursion on
glyphs.  The cut into glyphs loses nothing (`chars_glyphs`).
-/

namespace Beautifier

/-- The convention that ends a line. -/
inductive LineEnd where
  /-- Carriage return and line feed. -/
  | windows
  /-- Line feed. -/
  | linux
  /-- Carriage return. -/
  | macOld
deriving DecidableEq, Repr

namespace LineEnd

def chars : LineEnd → List Char
  | windows => ['\r', '\n']
  | linux => ['\n']
  | macOld => ['\r']

def text (e : LineEnd) : String := String.ofList e.chars

end LineEnd

/-- One element of a text: a character, or a line break of some kind. -/
inductive Glyph where
  | char (c : Char)
  | lineBreak (e : LineEnd)
deriving DecidableEq, Repr

namespace Glyph

def chars : Glyph → List Char
  | char c => [c]
  | lineBreak e => e.chars

def charsOf (gs : List Glyph) : List Char := gs.flatMap chars

def textOf (gs : List Glyph) : String := String.ofList (charsOf gs)

end Glyph

def glyphs : List Char → List Glyph
  | [] => []
  | '\r' :: '\n' :: rest => .lineBreak .windows :: glyphs rest
  | '\r' :: rest => .lineBreak .macOld :: glyphs rest
  | '\n' :: rest => .lineBreak .linux :: glyphs rest
  | c :: rest => .char c :: glyphs rest

/-- The lines of a text: the first one, and those behind a line break. -/
def linesOf : List Glyph → List Char × List (List Char)
  | [] => ([], [])
  | .lineBreak _ :: rest =>
      let (first, others) := linesOf rest
      ([], first :: others)
  | .char c :: rest =>
      let (first, others) := linesOf rest
      (c :: first, others)

/-! ## Nothing is lost -/

@[simp] theorem Glyph.charsOf_nil : Glyph.charsOf [] = [] := rfl

@[simp] theorem Glyph.charsOf_cons (g : Glyph) (gs : List Glyph) :
    Glyph.charsOf (g :: gs) = g.chars ++ Glyph.charsOf gs := by
  simp [Glyph.charsOf]

@[simp] theorem Glyph.charsOf_append (gs hs : List Glyph) :
    Glyph.charsOf (gs ++ hs) = Glyph.charsOf gs ++ Glyph.charsOf hs := by
  simp [Glyph.charsOf]

/-- A text is the characters of its glyphs. -/
theorem chars_glyphs (cs : List Char) : Glyph.charsOf (glyphs cs) = cs := by
  fun_induction glyphs cs with
  | case1 => rfl
  | case2 rest ih => simp [Glyph.chars, LineEnd.chars, ih]
  | case3 rest _ ih => simp [Glyph.chars, LineEnd.chars, ih]
  | case4 rest ih => simp [Glyph.chars, LineEnd.chars, ih]
  | case5 c rest _ _ _ ih => simp [Glyph.chars, ih]

end Beautifier
