/-
The table of options.

An options text is read as single options: long options, bare names, and the
letters of short groups.  `SingleOption.Means` lists what each of them sets,
row by row, and the readers of long and short options find what the table
says and nothing else (`means_iff`).  `Setting.TurnsOn` says what a setting
turns on besides what it is named for.
-/
import Mathlib.Data.List.Basic
import Beautifier.Proofs.Options.Bounds

namespace Beautifier

/-! ## Names -/

def IndentKind.longName : IndentKind → String
  | spaces => "spaces"
  | tab => "tab"
  | forceTab => "force-tab"

def IndentKind.letter : IndentKind → Char
  | spaces => 's'
  | tab => 't'
  | forceTab => 'T'

def PointerAlign.longName : PointerAlign → String
  | type => "type"
  | middle => "middle"
  | name => "name"

def PointerAlign.number : PointerAlign → Nat
  | type => 1
  | middle => 2
  | name => 3

def LineEnd.longName : LineEnd → String
  | windows => "windows"
  | linux => "linux"
  | macOld => "macold"

def LineEnd.number : LineEnd → Nat
  | windows => 1
  | linux => 2
  | macOld => 3

def Language.longName : Language → String
  | c => "c"
  | java => "java"
  | cSharp => "cs"

/-! ## Single options -/

inductive SingleOption where
  /-- A long option, with its dashes or without, by the text behind them. -/
  | long (text : List Char)
  /-- A letter of a group. -/
  | short (option : ShortOption)
  /-- A group that is not a sequence of letters with their numbers. -/
  | broken (group : List Char)
deriving DecidableEq, Repr

/-- What a setting turns on: a flag by its name, two styles a flag besides. -/
inductive Setting.TurnsOn : Setting → Flag → Prop
  | flag (f : Flag) : TurnsOn (.turnOn f) f
  | oneTrueBrace : TurnsOn (.style .oneTrueBrace) .addBraces
  | google : TurnsOn (.style .google) .indentModifiers

namespace SingleOption

/-- What an option sets, row by row. -/
inductive Means : SingleOption → List Setting → Prop
  | longFlag (f : Flag) : Means (.long f.longName.toList) [.turnOn f]
  | shortFlag (f : Flag) : Means (.short ⟨f.shortName.1, f.shortName.2, none⟩) [.turnOn f]
  | longParens : Means (.long "pad-paren".toList) [.turnOn .padParenOut, .turnOn .padParenIn]
  | shortParens : Means (.short ⟨false, 'P', none⟩) [.turnOn .padParenOut, .turnOn .padParenIn]
  | longStyle {name : String} {s : BraceStyle} (hname : BraceStyle.ofName? name = some s) :
      Means (.long ("style".toList ++ '=' :: name.toList)) [.style s]
  | shortStyle {n : Nat} {s : BraceStyle} (hnumber : s.number? = some n) :
      Means (.short ⟨false, 'A', some n⟩) [.style s]
  | longIndent (kind : IndentKind) :
      Means (.long ("indent".toList ++ '=' :: kind.longName.toList))
        [.indent kind defaultIndentWidth]
  | longIndentWidth (kind : IndentKind) {numeral : List Char} {width : Nat}
      (hnumeral : readNumeral? numeral = some width) (hwidth : WidthInBounds width) :
      Means (.long ("indent".toList ++ '=' :: (kind.longName.toList ++ '=' :: numeral)))
        [.indent kind width]
  | shortIndent (kind : IndentKind) {number : Option Nat} {width : Nat}
      (hnumber : number.getD defaultIndentWidth = width) (hwidth : WidthInBounds width) :
      Means (.short ⟨false, kind.letter, number⟩) [.indent kind width]
  | longPointer (a : PointerAlign) :
      Means (.long ("align-pointer".toList ++ '=' :: a.longName.toList)) [.alignPointer a]
  | shortPointer (a : PointerAlign) :
      Means (.short ⟨false, 'k', some a.number⟩) [.alignPointer a]
  | longLineEnd (e : LineEnd) :
      Means (.long ("lineend".toList ++ '=' :: e.longName.toList)) [.lineEnd e]
  | shortLineEnd (e : LineEnd) : Means (.short ⟨false, 'z', some e.number⟩) [.lineEnd e]
  | longLanguage (l : Language) :
      Means (.long ("mode".toList ++ '=' :: l.longName.toList)) [.language l]

def settings? : SingleOption → Option (List Setting)
  | long text => readLong? text
  | short option => option.read?
  | broken _ => none

end SingleOption

/-! ## A text cut once -/

section SplitOnce

variable {c : Char} {text a b : List Char}

theorem splitOnce_append (ha : c ∉ a) : splitOnce c (a ++ c :: b) = some (a, b) := by
  induction a with
  | nil => simp [splitOnce]
  | cons d a ih =>
      rw [List.mem_cons, not_or] at ha
      simp [splitOnce, Ne.symm ha.1, ih ha.2]

theorem splitOnce_eq_none (htext : c ∉ text) : splitOnce c text = none := by
  induction text with
  | nil => rfl
  | cons d text ih =>
      rw [List.mem_cons, not_or] at htext
      simp [splitOnce, Ne.symm htext.1, ih htext.2]

theorem eq_append_of_splitOnce (h : splitOnce c text = some (a, b)) : text = a ++ c :: b := by
  induction text generalizing a with
  | nil => cases h
  | cons d text ih =>
      unfold splitOnce at h
      split at h
      · next hd =>
        cases h
        rw [hd, List.nil_append]
      · obtain ⟨⟨a', b'⟩, hcut, hcons⟩ := Option.map_eq_some_iff.mp h
        cases hcons
        rw [ih hcut, List.cons_append]

end SplitOnce

/-! ## Values -/

theorem BraceStyle.ofNumber?_eq_some_iff {n : Nat} {s : BraceStyle} :
    ofNumber? n = some s ↔ s.number? = some n := by
  constructor
  · intro h
    have hnumber := List.find?_some h
    exact eq_of_beq hnumber
  · intro h
    cases s <;> cases h <;> rfl

theorem PointerAlign.ofNumber?_eq_some_iff {n : Nat} {a : PointerAlign} :
    ofNumber? n = some a ↔ n = a.number := by
  constructor
  · intro h
    unfold ofNumber? at h
    split at h <;> cases h <;> rfl
  · rintro rfl
    cases a <;> rfl

theorem LineEnd.ofNumber?_eq_some_iff {n : Nat} {e : LineEnd} :
    ofNumber? n = some e ↔ n = e.number := by
  constructor
  · intro h
    unfold ofNumber? at h
    split at h <;> cases h <;> rfl
  · rintro rfl
    cases e <;> rfl

theorem Setting.indent?_eq_some_iff {kind : IndentKind} {width : Nat} {s : Setting} :
    indent? kind width = some s ↔ WidthInBounds width ∧ s = .indent kind width := by
  unfold indent?
  constructor
  · intro h
    split at h
    · next hwidth =>
      cases h
      exact ⟨hwidth, rfl⟩
    · cases h
  · rintro ⟨hwidth, rfl⟩
    exact if_pos hwidth

theorem find?_longName_eq_some_iff {name : String} {f : Flag} :
    Flag.all.find? (·.longName == name) = some f ↔ f.longName = name := by
  constructor
  · intro h
    have hname := List.find?_some h
    exact eq_of_beq hname
  · rintro rfl
    cases f <;> decide +kernel

theorem find?_shortName_eq_some_iff {name : Bool × Char} {f : Flag} :
    Flag.all.find? (·.shortName == name) = some f ↔ f.shortName = name := by
  constructor
  · intro h
    have hname := List.find?_some h
    exact eq_of_beq hname
  · rintro rfl
    cases f <;> decide +kernel

/-! ## Long options -/

theorem toList_eq_of_ofList_eq {text : List Char} {s : String} (h : String.ofList text = s) :
    text = s.toList := by
  rw [← h, String.toList_ofList]

theorem longIndent?_numeral (kind : IndentKind) (numeral : List Char) :
    longIndent? (kind.longName.toList ++ '=' :: numeral) =
      (readNumeral? numeral).bind (Setting.indent? kind) := by
  have hcut : splitOnce '=' (kind.longName.toList ++ '=' :: numeral) =
      some (kind.longName.toList, numeral) := splitOnce_append (by cases kind <;> decide)
  simp only [longIndent?, hcut]
  cases kind <;> rfl

namespace SingleOption

theorem means_of_longIndent? {value : List Char} {s : Setting} (h : longIndent? value = some s) :
    Means (.long ("indent".toList ++ '=' :: value)) [s] := by
  unfold longIndent? at h
  dsimp only at h
  obtain ⟨kind, hkind, h⟩ := Option.bind_eq_some_iff.mp h
  obtain ⟨width, hwidth, h⟩ := Option.bind_eq_some_iff.mp h
  obtain ⟨hbounds, rfl⟩ := Setting.indent?_eq_some_iff.mp h
  generalize hread : String.ofList _ = text at hkind
  have hname : text = kind.longName := by
    split at hkind <;> cases hkind <;> rfl
  rw [hname] at hread
  cases hcut : splitOnce '=' value with
  | none =>
      rw [hcut] at hread hwidth
      cases hwidth
      have hvalue : value = kind.longName.toList := toList_eq_of_ofList_eq hread
      rw [hvalue]
      exact .longIndent kind
  | some parts =>
      obtain ⟨name, numeral⟩ := parts
      rw [hcut] at hread hwidth
      have hvalue : name = kind.longName.toList := toList_eq_of_ofList_eq hread
      rw [eq_append_of_splitOnce hcut, hvalue]
      exact .longIndentWidth kind hwidth hbounds

theorem means_of_value {name text : String} {value : List Char} {ss : List Setting}
    (hvalue : String.ofList value = text)
    (h : Means (.long (name.toList ++ '=' :: text.toList)) ss) :
    Means (.long (name.toList ++ '=' :: value)) ss := by
  rw [toList_eq_of_ofList_eq hvalue]
  exact h

theorem means_of_longWithValue? {name : String} {value : List Char} {s : Setting}
    (h : longWithValue? name value = some s) : Means (.long (name.toList ++ '=' :: value)) [s] := by
  unfold longWithValue? at h
  split at h
  · obtain ⟨style, hstyle, rfl⟩ := Option.map_eq_some_iff.mp h
    have hvalue : (String.ofList value).toList = value := String.toList_ofList
    rw [← hvalue]
    exact .longStyle hstyle
  · exact means_of_longIndent? h
  · split at h
    · next hvalue =>
      cases h
      exact means_of_value hvalue (.longPointer .type)
    · next hvalue =>
      cases h
      exact means_of_value hvalue (.longPointer .middle)
    · next hvalue =>
      cases h
      exact means_of_value hvalue (.longPointer .name)
    · cases h
  · split at h
    · next hvalue =>
      cases h
      exact means_of_value hvalue (.longLineEnd .windows)
    · next hvalue =>
      cases h
      exact means_of_value hvalue (.longLineEnd .linux)
    · next hvalue =>
      cases h
      exact means_of_value hvalue (.longLineEnd .macOld)
    · cases h
  · split at h
    · next hvalue =>
      cases h
      exact means_of_value hvalue (.longLanguage .c)
    · next hvalue =>
      cases h
      exact means_of_value hvalue (.longLanguage .java)
    · next hvalue =>
      cases h
      exact means_of_value hvalue (.longLanguage .cSharp)
    · cases h
  · cases h

theorem means_of_longWithoutValue? {name : String} {ss : List Setting}
    (h : longWithoutValue? name = some ss) : Means (.long name.toList) ss := by
  unfold longWithoutValue? at h
  split at h
  · next hname =>
    cases h
    rw [hname]
    exact .longParens
  · obtain ⟨f, hf, rfl⟩ := Option.map_eq_some_iff.mp h
    rw [← find?_longName_eq_some_iff.mp hf]
    exact .longFlag f

theorem means_of_readLong? {text : List Char} {ss : List Setting} (h : readLong? text = some ss) :
    Means (.long text) ss := by
  unfold readLong? at h
  split at h
  · next name value hcut =>
    obtain ⟨s, hs, rfl⟩ := Option.map_eq_some_iff.mp h
    have hmeans := means_of_longWithValue? hs
    rw [String.toList_ofList] at hmeans
    rw [eq_append_of_splitOnce hcut]
    exact hmeans
  · have hmeans := means_of_longWithoutValue? h
    rw [String.toList_ofList] at hmeans
    exact hmeans

/-! ## Short options -/

theorem means_of_flag? {option : ShortOption} {ss : List Setting} (h : option.flag? = some ss) :
    Means (.short option) ss := by
  obtain ⟨extended, letter, number⟩ := option
  unfold ShortOption.flag? at h
  split at h
  · cases h
  · next hnumber =>
    obtain ⟨f, hf, rfl⟩ := Option.map_eq_some_iff.mp h
    obtain rfl := Option.not_isSome_iff_eq_none.mp hnumber
    have hname := find?_shortName_eq_some_iff.mp hf
    have hmeans := Means.shortFlag f
    rw [hname] at hmeans
    exact hmeans

theorem means_of_shortIndent? {kind : IndentKind} {number : Option Nat} {ss : List Setting}
    (h : ShortOption.indent? ⟨false, kind.letter, number⟩ kind = some ss) :
    Means (.short ⟨false, kind.letter, number⟩) ss := by
  obtain ⟨s, hs, rfl⟩ := Option.map_eq_some_iff.mp h
  obtain ⟨hwidth, rfl⟩ := Setting.indent?_eq_some_iff.mp hs
  exact .shortIndent kind rfl hwidth

theorem means_of_read? {option : ShortOption} {ss : List Setting} (h : option.read? = some ss) :
    Means (.short option) ss := by
  obtain ⟨extended, letter, number⟩ := option
  unfold ShortOption.read? at h
  dsimp only at h
  split at h
  · exact means_of_flag? h
  next hextended =>
  obtain rfl := Bool.eq_false_iff.mpr hextended
  split at h
  · next hletter =>
    subst hletter
    obtain ⟨style, hstyle, rfl⟩ := Option.map_eq_some_iff.mp h
    obtain ⟨n, rfl, hn⟩ := Option.bind_eq_some_iff.mp hstyle
    exact .shortStyle (BraceStyle.ofNumber?_eq_some_iff.mp hn)
  split at h
  · next hletter =>
    subst hletter
    exact @means_of_shortIndent? .spaces number ss h
  split at h
  · next hletter =>
    subst hletter
    exact @means_of_shortIndent? .tab number ss h
  split at h
  · next hletter =>
    subst hletter
    exact @means_of_shortIndent? .forceTab number ss h
  split at h
  · next hletter =>
    subst hletter
    obtain ⟨a, ha, rfl⟩ := Option.map_eq_some_iff.mp h
    obtain ⟨n, rfl, hn⟩ := Option.bind_eq_some_iff.mp ha
    obtain rfl := PointerAlign.ofNumber?_eq_some_iff.mp hn
    exact .shortPointer a
  split at h
  · next hletter =>
    subst hletter
    obtain ⟨e, he, rfl⟩ := Option.map_eq_some_iff.mp h
    obtain ⟨n, rfl, hn⟩ := Option.bind_eq_some_iff.mp he
    obtain rfl := LineEnd.ofNumber?_eq_some_iff.mp hn
    exact .shortLineEnd e
  split at h
  · next hletter =>
    subst hletter
    split at h
    · cases h
    · next hnumber =>
      obtain rfl := Option.not_isSome_iff_eq_none.mp hnumber
      cases h
      exact .shortParens
  · exact means_of_flag? h

/-! ## The table -/

theorem readLong?_append (name : String) (hname : '=' ∉ name.toList) (value : List Char) :
    readLong? (name.toList ++ '=' :: value) = (longWithValue? name value).map ([·]) := by
  rw [readLong?, splitOnce_append hname]
  dsimp only
  rw [String.ofList_toList]

theorem means_iff {option : SingleOption} {ss : List Setting} :
    option.Means ss ↔ option.settings? = some ss := by
  constructor
  · intro h
    cases h with
    | longFlag f => cases f <;> rfl
    | shortFlag f => cases f <;> rfl
    | longParens => rfl
    | shortParens => rfl
    | @longStyle name s hname =>
        have hread := readLong?_append "style" (by decide) name.toList
        rw [longWithValue?, String.ofList_toList, hname] at hread
        exact hread
    | @shortStyle n s hnumber =>
        have hread : settings? (.short ⟨false, 'A', some n⟩) =
          (BraceStyle.ofNumber? n).map ([.style ·]) := rfl
        rw [hread, BraceStyle.ofNumber?_eq_some_iff.mpr hnumber, Option.map_some]
    | longIndent kind => cases kind <;> rfl
    | @longIndentWidth kind numeral width hnumeral hwidth =>
        have hread := readLong?_append "indent" (by decide)
          (kind.longName.toList ++ '=' :: numeral)
        rw [longWithValue?, longIndent?_numeral, hnumeral, Option.bind_some,
          Setting.indent?_eq_some_iff.mpr ⟨hwidth, rfl⟩] at hread
        exact hread
    | @shortIndent kind number width hnumber hwidth =>
        have hread : settings? (.short ⟨false, kind.letter, number⟩) =
            (Setting.indent? kind (number.getD defaultIndentWidth)).map ([·]) := by
          cases kind <;> rfl
        rw [hread, hnumber, Setting.indent?_eq_some_iff.mpr ⟨hwidth, rfl⟩, Option.map_some]
    | longPointer a => cases a <;> rfl
    | shortPointer a => cases a <;> rfl
    | longLineEnd e => cases e <;> rfl
    | shortLineEnd e => cases e <;> rfl
    | longLanguage l => cases l <;> rfl
  · intro h
    cases option with
    | long text => exact means_of_readLong? h
    | short option => exact means_of_read? h
    | broken group => cases h

end SingleOption

end Beautifier
