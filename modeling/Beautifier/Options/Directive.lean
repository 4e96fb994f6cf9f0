/-
Options text.

A text is cut into directives at white space and commas; `#` starts a
comment that runs to the end of its line.  A directive is a long option
(`--pad-oper`, `--indent=spaces=2`), a group of short options (`-pUxgk3`) or
a long option without its dashes.  Each directive means a list of settings
or nothing at all, whatever stands around it; a text with a directive that
means nothing is refused with the list of all of them.
-/
import Beautifier.Text.Blank
import Beautifier.Options.Basic

namespace Beautifier

/-- One thing that an option sets. -/
inductive Setting where
  | style (s : BraceStyle)
  | indent (kind : IndentKind) (width : Nat)
  | alignPointer (a : PointerAlign)
  | lineEnd (e : LineEnd)
  | language (l : Language)
  | turnOn (f : Flag)
deriving DecidableEq, Repr

/-- The options with one thing set. -/
def Options.apply (o : Options) : Setting → Options
  | .style s => o.withStyle s
  | .indent kind width => { o with indentKind := kind, indentWidth := width }
  | .alignPointer a => { o with alignPointer := some a }
  | .lineEnd e => { o with lineEnd := some e }
  | .language l => { o with language := l }
  | .turnOn f => o.turnOn f

def Flag.longName : Flag → String
  | indentClasses => "indent-classes"
  | indentModifiers => "indent-modifiers"
  | indentSwitches => "indent-switches"
  | indentCases => "indent-cases"
  | indentNamespaces => "indent-namespaces"
  | attachNamespaces => "attach-namespaces"
  | attachClasses => "attach-classes"
  | breakClosingBraces => "break-closing-braces"
  | breakBlocks => "break-blocks"
  | deleteEmptyLines => "delete-empty-lines"
  | padOper => "pad-oper"
  | padComma => "pad-comma"
  | padParenOut => "pad-paren-out"
  | padParenIn => "pad-paren-in"
  | padHeader => "pad-header"
  | unpadParen => "unpad-paren"
  | addBraces => "add-braces"
  | keepOneLineBlocks => "keep-one-line-blocks"
  | keepOneLineStatements => "keep-one-line-statements"
  | convertTabs => "convert-tabs"

/-- The short option of a flag: whether its letter stands behind an `x`, and the letter. -/
def Flag.shortName : Flag → Bool × Char
  | indentClasses => (false, 'C')
  | indentModifiers => (true, 'G')
  | indentSwitches => (false, 'S')
  | indentCases => (false, 'K')
  | indentNamespaces => (false, 'N')
  | attachNamespaces => (true, 'n')
  | attachClasses => (true, 'c')
  | breakClosingBraces => (false, 'y')
  | breakBlocks => (false, 'f')
  | deleteEmptyLines => (true, 'e')
  | padOper => (false, 'p')
  | padComma => (true, 'g')
  | padParenOut => (false, 'd')
  | padParenIn => (false, 'D')
  | padHeader => (false, 'H')
  | unpadParen => (false, 'U')
  | addBraces => (false, 'j')
  | keepOneLineBlocks => (false, 'O')
  | keepOneLineStatements => (false, 'o')
  | convertTabs => (false, 'c')

namespace Setting

/-- The indentation of a kind and width, if the width is in bounds. -/
def indent? (kind : IndentKind) (width : Nat) : Option Setting :=
  if minIndentWidth ≤ width ∧ width ≤ maxIndentWidth then some (.indent kind width) else none

def padParens : List Setting := [.turnOn .padParenOut, .turnOn .padParenIn]

end Setting

/-! ## Numerals -/

/-- The numbers a long option can hold: a machine word. -/
def longNumbers : Nat := UInt64.size

/-- The numbers a short option can hold. -/
def shortNumbers : Nat := UInt32.size

/-- The value of a numeral with one digit more, if it lies below `bound`. -/
def appendDigit? (bound value : Nat) (d : Char) : Option Nat :=
  let next := 10 * value + (d.toNat - '0'.toNat)
  if next < bound then some next else none

/-- The value of a list of digits, if no digit takes it to `bound` or beyond. -/
def decimal? (bound : Nat) (digits : List Char) : Option Nat := digits.foldlM (appendDigit? bound) 0

/-- The value of a numeral: digits, with one `+` allowed in front. -/
def readNumeral? (text : List Char) : Option Nat :=
  let digits := match text with
    | '+' :: rest => rest
    | _ => text
  if digits.isEmpty || !digits.all Char.isDigit then none else decimal? longNumbers digits

/-! ## Long options -/

/-- The indentation named by the value of a long option, such as `tab=8`. -/
def longIndent? (value : List Char) : Option Setting :=
  let (kind, width) := match splitOnce '=' value with
    | some (kind, width) => (kind, some width)
    | none => (value, none)
  let kind := match String.ofList kind with
    | "spaces" => some IndentKind.spaces
    | "tab" => some .tab
    | "force-tab" => some .forceTab
    | _ => none
  let width := match width with
    | some width => readNumeral? width
    | none => some defaultIndentWidth
  kind.bind fun k => width.bind fun w => Setting.indent? k w

/-- What a long option with a value sets. -/
def longWithValue? (name : String) (value : List Char) : Option Setting :=
  match name with
  | "style" => (BraceStyle.ofName? (String.ofList value)).map .style
  | "indent" => longIndent? value
  | "align-pointer" =>
      match String.ofList value with
      | "type" => some (.alignPointer .type)
      | "middle" => some (.alignPointer .middle)
      | "name" => some (.alignPointer .name)
      | _ => none
  | "lineend" =>
      match String.ofList value with
      | "windows" => some (.lineEnd .windows)
      | "linux" => some (.lineEnd .linux)
      | "macold" => some (.lineEnd .macOld)
      | _ => none
  | "mode" =>
      match String.ofList value with
      | "c" => some (.language .c)
      | "java" => some (.language .java)
      | "cs" => some (.language .cSharp)
      | _ => none
  | _ => none

/-- What a long option without a value sets. -/
def longWithoutValue? (name : String) : Option (List Setting) :=
  if name = "pad-paren" then some Setting.padParens
  else (Flag.all.find? (·.longName == name)).map fun f => [.turnOn f]

/-- What a long option without its dashes sets. -/
def readLong? (option : List Char) : Option (List Setting) :=
  match splitOnce '=' option with
  | some (name, value) => (longWithValue? (String.ofList name) value).map ([·])
  | none => longWithoutValue? (String.ofList option)

/-! ## Short options -/

/-- A short option: a letter, perhaps behind an `x`, perhaps with a number. -/
structure ShortOption where
  extended : Bool
  letter : Char
  number : Option Nat
deriving DecidableEq, Repr

/-- The number in front of a text, if there is one, and the rest.  A number that is too large fails,
whatever stands behind it. -/
def takeNumber (text : List Char) : Option (Option Nat) × List Char :=
  let digits := text.takeWhile Char.isDigit
  (if digits.isEmpty then some none else (decimal? shortNumbers digits).map some,
    text.dropWhile Char.isDigit)

theorem takeNumber_rest_le (text : List Char) : (takeNumber text).2.length ≤ text.length :=
  (List.dropWhile_suffix Char.isDigit).length_le

/-- The short options of a group.  An `x` at its end is no option. -/
def shortOptions? : List Char → Option (List ShortOption)
  | [] => some []
  | 'x' :: [] => none
  | 'x' :: letter :: rest =>
      (takeNumber rest).1.bind fun number =>
        (shortOptions? (takeNumber rest).2).map (⟨true, letter, number⟩ :: ·)
  | letter :: rest =>
      (takeNumber rest).1.bind fun number =>
        (shortOptions? (takeNumber rest).2).map (⟨false, letter, number⟩ :: ·)
termination_by text => text.length
decreasing_by
  all_goals
    have := takeNumber_rest_le rest
    simp only [List.length_cons]
    omega

def PointerAlign.ofNumber? : Nat → Option PointerAlign
  | 1 => some .type
  | 2 => some .middle
  | 3 => some .name
  | _ => none

def LineEnd.ofNumber? : Nat → Option LineEnd
  | 1 => some .windows
  | 2 => some .linux
  | 3 => some .macOld
  | _ => none

namespace ShortOption

def flag? (s : ShortOption) : Option (List Setting) :=
  if s.number.isSome then none
  else (Flag.all.find? (·.shortName == (s.extended, s.letter))).map fun f => [.turnOn f]

/-- The indentation that a short option asks for. -/
def indent? (s : ShortOption) (kind : IndentKind) : Option (List Setting) :=
  (Setting.indent? kind (s.number.getD defaultIndentWidth)).map ([·])

def read? (s : ShortOption) : Option (List Setting) :=
  if s.extended then s.flag?
  else if s.letter = 'A' then (s.number.bind BraceStyle.ofNumber?).map ([.style ·])
  else if s.letter = 's' then s.indent? .spaces
  else if s.letter = 't' then s.indent? .tab
  else if s.letter = 'T' then s.indent? .forceTab
  else if s.letter = 'k' then (s.number.bind PointerAlign.ofNumber?).map ([.alignPointer ·])
  else if s.letter = 'z' then (s.number.bind LineEnd.ofNumber?).map ([.lineEnd ·])
  else if s.letter = 'P' then if s.number.isSome then none else some Setting.padParens
  else s.flag?

end ShortOption

/-- The settings of all options of a list, if each of them means something. -/
def allSettings? : List (Option (List Setting)) → Option (List Setting)
  | [] => some []
  | none :: _ => none
  | some ss :: rest => (allSettings? rest).map (ss ++ ·)

/-- What a group of short options without its dash sets.  An empty group is no option. -/
def readShort? (group : List Char) : Option (List Setting) :=
  if group.isEmpty then none
  else (shortOptions? group).bind fun os => allSettings? (os.map ShortOption.read?)

/-! ## Directives -/

/-- What a directive sets, or the text to report it by: a long option without its dashes, any
other as it is written. -/
def readDirective (directive : List Char) : Except String (List Setting) :=
  match directive with
  | '-' :: '-' :: long =>
      match readLong? long with
      | some ss => .ok ss
      | none => .error (String.ofList long)
  | '-' :: short =>
      match readShort? short with
      | some ss => .ok ss
      | none => .error (String.ofList directive)
  | _ =>
      match readLong? directive with
      | some ss => .ok ss
      | none => .error (String.ofList directive)

def directives (text : String) : List (List Char) :=
  let lines := pieces (· == '\n') text.toList
  let uncommented := lines.map (·.takeWhile (· != '#'))
  let separated := uncommented.flatMap (pieces fun c => isWhiteSpace c || c == ',')
  separated.filter (!·.isEmpty)

/-- The directives of an options text that mean nothing, in order. -/
structure OptionsError where
  rejected : List String
deriving DecidableEq, Repr

def OptionsError.message (e : OptionsError) : String :=
  e.rejected.foldl (fun text directive => text ++ "\n\t" ++ directive)
    "Invalid Artistic Style options:"

/-- The reports of the readings that failed, in order. -/
def rejections {α : Type} (readings : List (Except String α)) : List String :=
  readings.filterMap fun r => match r with
    | .ok _ => none
    | .error e => some e

/-- The settings of the readings that succeeded, in order. -/
def settings (readings : List (Except String (List Setting))) : List Setting :=
  readings.flatMap fun r => match r with
    | .ok ss => ss
    | .error _ => []

def parseOptions (text : String) : Except OptionsError Options :=
  let readings := (directives text).map readDirective
  match rejections readings with
  | [] => .ok ((settings readings).foldl Options.apply .default)
  | rejected => .error ⟨rejected⟩

end Beautifier
