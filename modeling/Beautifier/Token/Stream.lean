/-
The tokens of a source.

A source is gaps and tokens in turn.  Reading keeps track of the position:
the visual column, whether a token has been read on the line, and the first
line ending met.
-/
import Beautifier.Text.Column
import Beautifier.Token.Scanner

namespace Beautifier

structure Position where
  column : Nat
  /-- No token has been read since the last line break. -/
  atLineStart : Bool
  /-- The first line ending met. -/
  lineEnd : Option LineEnd
deriving DecidableEq, Repr

namespace Position

def start : Position := ⟨0, true, none⟩

def step (tabWidth : Nat) (p : Position) : Glyph → Position
  | .char c => { p with column := Column.step tabWidth p.column c }
  | .lineBreak e => ⟨0, true, p.lineEnd <|> some e⟩

def advance (tabWidth : Nat) (p : Position) (gs : List Glyph) : Position :=
  gs.foldl (step tabWidth) p

end Position

/-! ## Gaps -/

/-- The white space at the front of a source, and what follows it: a character that starts a
token, and the rest. -/
def splitGap : List Glyph → List Glyph × Option (Char × List Glyph)
  | [] => ([], none)
  | .lineBreak e :: rest =>
      let (gap, next) := splitGap rest
      (.lineBreak e :: gap, next)
  | .char c :: rest =>
      if isGapChar c then
        let (gap, next) := splitGap rest
        (.char c :: gap, next)
      else ([], some (c, rest))

/-- The number of line breaks in a gap. -/
def gapBreaks (gap : List Glyph) : Nat := (linesOf gap).2.length

/-- The characters of a gap behind its last line break. -/
def gapSpace (gap : List Glyph) : List Char := (linesOf gap).2.getLastD (linesOf gap).1

theorem splitGap_next_lt {source : List Glyph} {c : Char} {rest : List Glyph}
    (h : (splitGap source).2 = some (c, rest)) : rest.length < source.length := by
  fun_induction splitGap source with
  | case1 => cases h
  | case2 e tail gap next hnext ih =>
    have := ih (by rw [hnext]; exact h)
    simp only [List.length_cons]
    omega
  | case3 d tail _ gap next hnext ih =>
    have := ih (by rw [hnext]; exact h)
    simp only [List.length_cons]
    omega
  | case4 d tail =>
    cases h
    simp

/-! ## The whole source -/

/-- A source read into tokens. -/
structure TokenStream where
  tokens : List Token
  /-- Line breaks behind the last token. -/
  trailingBreaks : Nat
  /-- The first line ending of the source. -/
  lineEnd : Option LineEnd
deriving DecidableEq, Repr

def readTokens (language : Language) (tabWidth : Nat) (position : Position)
    (source : List Glyph) : TokenStream :=
  let gap := (splitGap source).1
  let start := position.advance tabWidth gap
  match _h : (splitGap source).2 with
  | none => { tokens := [], trailingBreaks := gapBreaks gap, lineEnd := start.lineEnd }
  | some (first, rest) =>
      let scanned := Scanner.scan language start.atLineStart first rest
      let taken := .char first :: scanned.2.taken
      let token : Token :=
        { kind := scanned.1
          text := Glyph.textOf taken
          lineBreaks := gapBreaks gap
          space := String.ofList (gapSpace gap)
          column := start.column
          inserted := false }
      let behind := { start.advance tabWidth taken with atLineStart := false }
      let others := readTokens language tabWidth behind scanned.2.rest
      { others with tokens := token :: others.tokens }
termination_by source.length
decreasing_by
  have := Scanner.scan_rest_le language
    (position.advance tabWidth (splitGap source).1).atLineStart first rest
  have := splitGap_next_lt _h
  omega

/-- The tokens of a source text.  The columns count tab stops of `tabWidth`, at least one. -/
def tokenize (language : Language) (tabWidth : Nat) (source : String) : TokenStream :=
  readTokens language (max tabWidth 1) .start (glyphs source.toList)

end Beautifier
