/-
Formatting options.

A brace style is a preset: it fixes where the opening brace of each kind of
block goes (`Options.placement`) and, for two of the styles, turns another
option on (`Options.withStyle`).
-/
import Beautifier.Text.Glyph
import Beautifier.Language

namespace Beautifier

inductive BraceStyle where
  /-- No style: opening braces stay where they are. -/
  | unchanged
  | allman
  | java
  | kernighanRitchie
  | stroustrup
  | whitesmith
  | ratliff
  | linux
  | oneTrueBrace
  | google
  | mozilla
  | webkit
deriving DecidableEq, Repr

namespace BraceStyle

def all : List BraceStyle :=
  [unchanged, allman, java, kernighanRitchie, stroustrup, whitesmith, ratliff, linux,
   oneTrueBrace, google, mozilla, webkit]

def name? : BraceStyle → Option String
  | unchanged => none
  | allman => some "allman"
  | java => some "java"
  | kernighanRitchie => some "kr"
  | stroustrup => some "stroustrup"
  | whitesmith => some "whitesmith"
  | ratliff => some "ratliff"
  | linux => some "linux"
  | oneTrueBrace => some "1tbs"
  | google => some "google"
  | mozilla => some "mozilla"
  | webkit => some "webkit"

def number? : BraceStyle → Option Nat
  | unchanged => none
  | allman => some 1
  | java => some 2
  | kernighanRitchie => some 3
  | stroustrup => some 4
  | whitesmith => some 5
  | ratliff => some 6
  | linux => some 8
  | oneTrueBrace => some 10
  | google => some 14
  | mozilla => some 16
  | webkit => some 17

/-- The style with a name; several have more than one. -/
def ofName? : String → Option BraceStyle
  | "allman" | "bsd" | "break" => some allman
  | "java" | "attach" => some java
  | "kr" | "k&r" | "k/r" => some kernighanRitchie
  | "stroustrup" => some stroustrup
  | "whitesmith" => some whitesmith
  | "ratliff" | "banner" => some ratliff
  | "linux" | "knf" => some linux
  | "1tbs" | "otbs" => some oneTrueBrace
  | "google" => some google
  | "mozilla" => some mozilla
  | "webkit" => some webkit
  | _ => none

def ofNumber? (n : Nat) : Option BraceStyle := all.find? fun s => s.number? == some n

end BraceStyle

/-- The characters of an indentation. -/
inductive IndentKind where
  | spaces
  /-- Tabs for levels, spaces for alignment. -/
  | tab
  /-- Tabs wherever a whole tab fits. -/
  | forceTab
deriving DecidableEq, Repr

/-- The place of `*` and `&` in a declaration. -/
inductive PointerAlign where
  /-- `char* p` -/
  | type
  /-- `char * p` -/
  | middle
  /-- `char *p` -/
  | name
deriving DecidableEq, Repr

inductive Flag where
  /-- Class bodies are indented one more level. -/
  | indentClasses
  /-- Access modifiers are indented half a level. -/
  | indentModifiers
  /-- Labels are indented in a switch. -/
  | indentSwitches
  /-- Blocks behind a label of a switch are indented. -/
  | indentCases
  | indentNamespaces
  /-- Namespace braces are attached in every style. -/
  | attachNamespaces
  /-- Class braces are attached in every style. -/
  | attachClasses
  /-- Headers that follow a closing brace start a line. -/
  | breakClosingBraces
  /-- Empty lines around header blocks. -/
  | breakBlocks
  /-- No empty lines in functions. -/
  | deleteEmptyLines
  | padOper
  | padComma
  | padParenOut
  | padParenIn
  | padHeader
  | unpadParen
  /-- Braces around the one-line bodies of headers. -/
  | addBraces
  | keepOneLineBlocks
  | keepOneLineStatements
  /-- Tabs between tokens become spaces. -/
  | convertTabs
deriving DecidableEq, Repr

namespace Flag

def all : List Flag :=
  [indentClasses, indentModifiers, indentSwitches, indentCases, indentNamespaces,
   attachNamespaces, attachClasses, breakClosingBraces, breakBlocks, deleteEmptyLines, padOper,
   padComma, padParenOut, padParenIn, padHeader, unpadParen, addBraces, keepOneLineBlocks,
   keepOneLineStatements, convertTabs]

end Flag

def defaultIndentWidth : Nat := 4

def minIndentWidth : Nat := 2

def maxIndentWidth : Nat := 20

/-- How a source is formatted. -/
structure Options where
  language : Language
  style : BraceStyle
  indentKind : IndentKind
  /-- Columns of one level of indentation. -/
  indentWidth : Nat
  indentClasses : Bool
  indentModifiers : Bool
  indentSwitches : Bool
  indentCases : Bool
  indentNamespaces : Bool
  attachNamespaces : Bool
  attachClasses : Bool
  breakClosingBraces : Bool
  breakBlocks : Bool
  deleteEmptyLines : Bool
  padOper : Bool
  padComma : Bool
  padParenOut : Bool
  padParenIn : Bool
  padHeader : Bool
  unpadParen : Bool
  addBraces : Bool
  keepOneLineBlocks : Bool
  keepOneLineStatements : Bool
  convertTabs : Bool
  /-- None leaves `*` and `&` where they are. -/
  alignPointer : Option PointerAlign
  /-- None keeps the line ending of the source. -/
  lineEnd : Option LineEnd
deriving DecidableEq, Repr

namespace Options

/-- Four spaces a level, and nothing else touched. -/
def default : Options where
  language := .c
  style := .unchanged
  indentKind := .spaces
  indentWidth := defaultIndentWidth
  indentClasses := false
  indentModifiers := false
  indentSwitches := false
  indentCases := false
  indentNamespaces := false
  attachNamespaces := false
  attachClasses := false
  breakClosingBraces := false
  breakBlocks := false
  deleteEmptyLines := false
  padOper := false
  padComma := false
  padParenOut := false
  padParenIn := false
  padHeader := false
  unpadParen := false
  addBraces := false
  keepOneLineBlocks := false
  keepOneLineStatements := false
  convertTabs := false
  alignPointer := none
  lineEnd := none

def isOn (o : Options) : Flag → Bool
  | .indentClasses => o.indentClasses
  | .indentModifiers => o.indentModifiers
  | .indentSwitches => o.indentSwitches
  | .indentCases => o.indentCases
  | .indentNamespaces => o.indentNamespaces
  | .attachNamespaces => o.attachNamespaces
  | .attachClasses => o.attachClasses
  | .breakClosingBraces => o.breakClosingBraces
  | .breakBlocks => o.breakBlocks
  | .deleteEmptyLines => o.deleteEmptyLines
  | .padOper => o.padOper
  | .padComma => o.padComma
  | .padParenOut => o.padParenOut
  | .padParenIn => o.padParenIn
  | .padHeader => o.padHeader
  | .unpadParen => o.unpadParen
  | .addBraces => o.addBraces
  | .keepOneLineBlocks => o.keepOneLineBlocks
  | .keepOneLineStatements => o.keepOneLineStatements
  | .convertTabs => o.convertTabs

def turnOn (o : Options) : Flag → Options
  | .indentClasses => { o with indentClasses := true }
  | .indentModifiers => { o with indentModifiers := true }
  | .indentSwitches => { o with indentSwitches := true }
  | .indentCases => { o with indentCases := true }
  | .indentNamespaces => { o with indentNamespaces := true }
  | .attachNamespaces => { o with attachNamespaces := true }
  | .attachClasses => { o with attachClasses := true }
  | .breakClosingBraces => { o with breakClosingBraces := true }
  | .breakBlocks => { o with breakBlocks := true }
  | .deleteEmptyLines => { o with deleteEmptyLines := true }
  | .padOper => { o with padOper := true }
  | .padComma => { o with padComma := true }
  | .padParenOut => { o with padParenOut := true }
  | .padParenIn => { o with padParenIn := true }
  | .padHeader => { o with padHeader := true }
  | .unpadParen => { o with unpadParen := true }
  | .addBraces => { o with addBraces := true }
  | .keepOneLineBlocks => { o with keepOneLineBlocks := true }
  | .keepOneLineStatements => { o with keepOneLineStatements := true }
  | .convertTabs => { o with convertTabs := true }

theorem isOn_turnOn (o : Options) (f g : Flag) :
    (o.turnOn f).isOn g = (decide (f = g) || o.isOn g) := by
  cases f <;> cases g <;> rfl

/-- The options with a brace style and what the style implies. -/
def withStyle (o : Options) (s : BraceStyle) : Options :=
  let o := { o with style := s }
  match s with
  | .oneTrueBrace => o.turnOn .addBraces
  | .google => o.turnOn .indentModifiers
  | _ => o

/-- Commas are padded with the operators or on their own. -/
def padsCommas (o : Options) : Bool := o.padComma || o.padOper

end Options

end Beautifier
