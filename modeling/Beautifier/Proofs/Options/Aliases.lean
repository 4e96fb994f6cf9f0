/-
Short options and long options.

An option with a short alias can be written in four ways: long, as a bare
name, short on its own, or as a unit of a group.  A list of options written
in one of them is accepted if it is in the others, with the same result
(`aliases_agree`).

The numbers of long and of short options are held in machine words of
different sizes, and a numeral that fits neither is refused.  Since no width
near the size of a word is allowed, both readers find a width where its
value, however it is written, lies in bounds (`decimal?_bind`).  A group is
cut into its units whatever stands behind them (`shortOptions?_unit`).
-/
import Beautifier.Proofs.Options.Meaning

namespace Beautifier

/-! ## Numerals -/

theorem le_ofDigitChars (digits : List Char) (n : Nat) : n ≤ Nat.ofDigitChars 10 digits n := by
  induction digits generalizing n with
  | nil => exact Nat.le_refl n
  | cons d digits ih =>
      refine Nat.le_trans ?_ (ih (10 * n + (d.toNat - '0'.toNat)))
      omega

theorem foldlM_appendDigit? {bound n : Nat} (hn : n < bound) (digits : List Char) :
    digits.foldlM (appendDigit? bound) n =
      if Nat.ofDigitChars 10 digits n < bound then some (Nat.ofDigitChars 10 digits n)
      else none := by
  induction digits generalizing n with
  | nil => exact (if_pos hn).symm
  | cons d digits ih =>
      rw [List.foldlM_cons]
      have hvalue : Nat.ofDigitChars 10 (d :: digits) n =
          Nat.ofDigitChars 10 digits (10 * n + (d.toNat - '0'.toNat)) := rfl
      by_cases hnext : 10 * n + (d.toNat - '0'.toNat) < bound
      · rw [hvalue, appendDigit?, if_pos hnext]
        exact ih hnext
      · have hle := le_ofDigitChars digits (10 * n + (d.toNat - '0'.toNat))
        rw [hvalue, appendDigit?, if_neg hnext, if_neg (by omega)]
        rfl

theorem decimal?_eq {bound : Nat} (hbound : 0 < bound) (digits : List Char) :
    decimal? bound digits =
      if Nat.ofDigitChars 10 digits 0 < bound then some (Nat.ofDigitChars 10 digits 0) else none :=
  foldlM_appendDigit? hbound digits

/-- A width is found where the value of the numeral lies in bounds, whatever numbers can be held. -/
theorem decimal?_bind {bound : Nat} (hbound : maxIndentWidth < bound) (digits : List Char)
    (kind : IndentKind) :
    (decimal? bound digits).bind (Setting.indent? kind) =
      Setting.indent? kind (Nat.ofDigitChars 10 digits 0) := by
  rw [decimal?_eq (Nat.zero_lt_of_lt hbound)]
  split
  · rfl
  · next hlarge =>
    have hout : ¬WidthInBounds (Nat.ofDigitChars 10 digits 0) := fun h => hlarge (by
      have := h.2
      omega)
    exact (if_neg hout).symm

/-- A list of one or more digits. -/
structure Numeral where
  digits : List Char
  nonempty : digits ≠ []
  isDigit : ∀ c ∈ digits, c.isDigit

/-- The value of a numeral, however long it is. -/
def Numeral.value (n : Numeral) : Nat := Nat.ofDigitChars 10 n.digits 0

theorem Numeral.readNumeral?_digits (n : Numeral) :
    readNumeral? n.digits = decimal? longNumbers n.digits := by
  obtain ⟨digits, hnonempty, hdigits⟩ := n
  have hall : digits.all Char.isDigit = true := List.all_eq_true.mpr hdigits
  unfold readNumeral?
  dsimp only
  split
  · exact absurd (hdigits '+' List.mem_cons_self) (by decide)
  · rw [hall, List.isEmpty_eq_false_iff.mpr hnonempty]
    rfl

/-! ## Units of a group -/

/-- A unit of a group: a letter, perhaps behind an `x`, and the digits behind it. -/
structure ShortUnit where
  extended : Bool
  letter : Char
  digits : List Char
  isDigit : ∀ c ∈ digits, c.isDigit
  letter_ne : extended = false → letter ≠ 'x'

namespace ShortUnit

/-- A unit as it is written. -/
def text (u : ShortUnit) : List Char :=
  if u.extended then 'x' :: u.letter :: u.digits else u.letter :: u.digits

def number? (u : ShortUnit) : Option (Option Nat) :=
  if u.digits.isEmpty then some none else (decimal? shortNumbers u.digits).map some

/-- What a unit sets on its own. -/
def settings? (u : ShortUnit) : Option (List Setting) :=
  u.number?.bind fun number => ShortOption.read? ⟨u.extended, u.letter, number⟩

end ShortUnit

/-- A group is written as a list of units.  No unit could take up a digit of the next one. -/
inductive Units : List Char → List ShortUnit → Prop
  | nil : Units [] []
  | cons (u : ShortUnit) {rest : List Char} {us : List ShortUnit}
      (hrest : ∀ c ∈ rest.head?, c.isDigit = false) (h : Units rest us) :
      Units (u.text ++ rest) (u :: us)

theorem takeNumber_append {digits rest : List Char} (hdigits : ∀ c ∈ digits, c.isDigit)
    (hrest : ∀ c ∈ rest.head?, c.isDigit = false) :
    takeNumber (digits ++ rest) =
      (if digits.isEmpty then some none else (decimal? shortNumbers digits).map some, rest) := by
  have hstop : rest.takeWhile Char.isDigit = [] ∧ rest.dropWhile Char.isDigit = rest := by
    cases rest with
    | nil => exact ⟨rfl, rfl⟩
    | cons c rest =>
        have hc : ¬c.isDigit = true := by
          rw [hrest c rfl]
          exact Bool.false_ne_true
        exact ⟨List.takeWhile_cons_of_neg hc, List.dropWhile_cons_of_neg hc⟩
  unfold takeNumber
  rw [List.takeWhile_append_of_pos hdigits, List.dropWhile_append_of_pos hdigits, hstop.1, hstop.2,
    List.append_nil]

theorem shortOptions?_unit (u : ShortUnit) {rest : List Char}
    (hrest : ∀ c ∈ rest.head?, c.isDigit = false) :
    shortOptions? (u.text ++ rest) =
      u.number?.bind fun number =>
        (shortOptions? rest).map (⟨u.extended, u.letter, number⟩ :: ·) := by
  obtain ⟨extended, letter, digits, hdigits, hletter⟩ := u
  have htake := takeNumber_append hdigits hrest
  cases extended with
  | true =>
      show shortOptions? ('x' :: letter :: (digits ++ rest)) = _
      rw [shortOptions?, htake]
      rfl
  | false =>
      show shortOptions? (letter :: (digits ++ rest)) = _
      have hx : letter ≠ 'x' := hletter rfl
      rw [shortOptions?, htake]
      · rfl
      · exact fun h _ => hx h
      · exact fun _ _ h _ => hx h

theorem bind_allSettings?_cons {number : Option (Option Nat)} {options : Option (List ShortOption)}
    {extended : Bool} {letter : Char} :
    (number.bind fun n => options.map (⟨extended, letter, n⟩ :: ·)).bind
        (fun os => allSettings? (os.map ShortOption.read?)) =
      (number.bind fun n => ShortOption.read? ⟨extended, letter, n⟩).bind fun ss =>
        (options.bind fun os => allSettings? (os.map ShortOption.read?)).map (ss ++ ·) := by
  cases number with
  | none => rfl
  | some n =>
      cases options with
      | none =>
          cases hread : ShortOption.read? ⟨extended, letter, n⟩ <;> simp [hread]
      | some os =>
          cases hread : ShortOption.read? ⟨extended, letter, n⟩ <;> simp [hread, allSettings?]

theorem allSettings?_cons (reading : Option (List Setting)) (rest : List (Option (List Setting))) :
    allSettings? (reading :: rest) =
      reading.bind fun ss => (allSettings? rest).map (ss ++ ·) := by
  cases reading <;> rfl

/-- A group sets what its units set on their own, one after another. -/
theorem Units.bind_shortOptions? {group : List Char} {us : List ShortUnit} (h : Units group us) :
    ((shortOptions? group).bind fun os => allSettings? (os.map ShortOption.read?)) =
      allSettings? (us.map ShortUnit.settings?) := by
  induction h with
  | nil =>
      rw [shortOptions?]
      rfl
  | cons u hrest h ih =>
      rw [shortOptions?_unit u hrest, bind_allSettings?_cons, ih, List.map_cons, allSettings?_cons]
      rfl

theorem ShortUnit.text_ne_nil (u : ShortUnit) : u.text ≠ [] := by
  unfold text
  split <;> exact List.cons_ne_nil _ _

theorem Units.readShort? {group : List Char} {us : List ShortUnit} (h : Units group us)
    (hne : us ≠ []) : readShort? group = allSettings? (us.map ShortUnit.settings?) := by
  have hgroup : group.isEmpty = false := by
    cases h with
    | nil => exact absurd rfl hne
    | cons u hrest h =>
        rw [List.isEmpty_eq_false_iff]
        exact fun h => u.text_ne_nil (List.append_eq_nil_iff.mp h).1
  rw [Beautifier.readShort?, hgroup, if_neg Bool.false_ne_true, h.bind_shortOptions?]

theorem ShortUnit.units_text (u : ShortUnit) : Units u.text [u] := by
  have h : Units (u.text ++ []) [u] := .cons u (by simp) .nil
  rwa [List.append_nil] at h

theorem ShortUnit.readShort?_text (u : ShortUnit) : readShort? u.text = u.settings? :=
  (u.units_text.readShort? (List.cons_ne_nil _ _)).trans (allSettings?_singleton _)

/-! ## Aliases -/

/-- The names of the brace styles, each with the number of its short option. -/
def styleAliases : List (String × String) :=
  [("allman", "1"), ("bsd", "1"), ("break", "1"), ("java", "2"), ("attach", "2"), ("kr", "3"),
   ("k&r", "3"), ("k/r", "3"), ("stroustrup", "4"), ("whitesmith", "5"), ("ratliff", "6"),
   ("banner", "6"), ("linux", "8"), ("knf", "8"), ("1tbs", "10"), ("otbs", "10"),
   ("google", "14"), ("mozilla", "16"), ("webkit", "17")]

/-- An option that has a short alias. -/
inductive AliasedOption where
  | style (name number : String) (h : (name, number) ∈ styleAliases)
  | indent (kind : IndentKind) (width : Option Numeral)
  | alignPointer (a : PointerAlign)
  | lineEnd (e : LineEnd)
  | padParens
  | flag (f : Flag)

theorem isDigit_of_mem_styleAliases :
    ∀ row ∈ styleAliases, ∀ c ∈ row.2.toList, c.isDigit := by
  have hall : ∀ row ∈ styleAliases, row.2.toList.all Char.isDigit = true := by decide
  exact fun row hrow => List.all_eq_true.mp (hall row hrow)

namespace AliasedOption

/-- The name of an option, with its value. -/
def long : AliasedOption → List Char
  | style name _ _ => "style".toList ++ '=' :: name.toList
  | indent kind none => "indent".toList ++ '=' :: kind.longName.toList
  | indent kind (some n) => "indent".toList ++ '=' :: (kind.longName.toList ++ '=' :: n.digits)
  | alignPointer a => "align-pointer".toList ++ '=' :: a.longName.toList
  | lineEnd e => "lineend".toList ++ '=' :: e.longName.toList
  | padParens => "pad-paren".toList
  | flag f => f.longName.toList

/-- The unit of a group that is an option. -/
def short : AliasedOption → ShortUnit
  | style _ number h =>
      ⟨false, 'A', number.toList, isDigit_of_mem_styleAliases _ h, fun _ => by decide⟩
  | indent kind none => ⟨false, kind.letter, [], by simp, fun _ => by cases kind <;> decide⟩
  | indent kind (some n) =>
      ⟨false, kind.letter, n.digits, n.isDigit, fun _ => by cases kind <;> decide⟩
  | alignPointer a =>
      ⟨false, 'k', (toString a.number).toList, List.all_eq_true.mp (by cases a <;> decide),
        fun _ => by decide⟩
  | lineEnd e =>
      ⟨false, 'z', (toString e.number).toList, List.all_eq_true.mp (by cases e <;> decide),
        fun _ => by decide⟩
  | padParens => ⟨false, 'P', [], by simp, fun _ => by decide⟩
  | flag f => ⟨f.shortName.1, f.shortName.2, [], by simp, by cases f <;> decide⟩

theorem settings?_style :
    ∀ row ∈ styleAliases,
      ((decimal? shortNumbers row.2.toList).map some).bind
          (fun number => ShortOption.read? ⟨false, 'A', number⟩) =
        readLong? ("style".toList ++ '=' :: row.1.toList) ∧
      (readLong? ("style".toList ++ '=' :: row.1.toList)).isSome ∧ row.2.toList ≠ [] := by
  decide +kernel

theorem readLong?_indent (kind : IndentKind) (n : Numeral) :
    readLong? (long (.indent kind (some n))) = (Setting.indent? kind n.value).map ([·]) := by
  have hread := SingleOption.readLong?_append "indent" (by decide)
    (kind.longName.toList ++ '=' :: n.digits)
  rw [longWithValue?, longIndent?_numeral, n.readNumeral?_digits,
    decimal?_bind (by decide)] at hread
  exact hread

theorem settings?_indent (kind : IndentKind) (n : Numeral) :
    (short (.indent kind (some n))).settings? = (Setting.indent? kind n.value).map ([·]) := by
  have hread : ∀ width, ShortOption.read? ⟨false, kind.letter, some width⟩ =
      (Setting.indent? kind width).map ([·]) := by
    intro width
    cases kind <;> rfl
  have hnumber : (short (.indent kind (some n))).number? =
      (decimal? shortNumbers n.digits).map some :=
    if_neg (by rw [List.isEmpty_iff]; exact n.nonempty)
  rw [ShortUnit.settings?, hnumber, Option.bind_map, Numeral.value,
    ← @decimal?_bind shortNumbers (by decide), Option.map_bind]
  exact congrArg _ (funext hread)

theorem settings?_eq_of_means {u : ShortUnit} {number : Option Nat} {text : List Char}
    {ss : List Setting} (hnumber : u.number? = some number)
    (hshort : SingleOption.Means (.short ⟨u.extended, u.letter, number⟩) ss)
    (hlong : SingleOption.Means (.long text) ss) : u.settings? = readLong? text := by
  rw [ShortUnit.settings?, hnumber]
  exact (SingleOption.means_iff.mp hshort).trans (SingleOption.means_iff.mp hlong).symm

theorem settings?_short (o : AliasedOption) : o.short.settings? = readLong? o.long := by
  cases o with
  | style name number h =>
      obtain ⟨hread, -, hne⟩ := settings?_style _ h
      have hnumber : (short (.style name number h)).number? =
          (decimal? shortNumbers number.toList).map some :=
        if_neg (by rw [List.isEmpty_iff]; exact hne)
      rw [ShortUnit.settings?, hnumber]
      exact hread
  | indent kind width =>
      cases width with
      | none =>
          have hwidth : WidthInBounds defaultIndentWidth := ⟨by decide, by decide⟩
          exact settings?_eq_of_means rfl (.shortIndent kind rfl hwidth) (.longIndent kind)
      | some n => rw [settings?_indent, readLong?_indent]
  | alignPointer a =>
      have hnumber : (short (.alignPointer a)).number? = some (some a.number) := by
        cases a <;> decide
      exact settings?_eq_of_means hnumber (.shortPointer a) (.longPointer a)
  | lineEnd e =>
      have hnumber : (short (.lineEnd e)).number? = some (some e.number) := by
        cases e <;> decide
      exact settings?_eq_of_means hnumber (.shortLineEnd e) (.longLineEnd e)
  | padParens => exact settings?_eq_of_means rfl .shortParens .longParens
  | flag f => exact settings?_eq_of_means rfl (.shortFlag f) (.longFlag f)

theorem isSome_readLong?_long (o : AliasedOption) :
    (readLong? o.long).isSome ↔
      ∀ kind n, o = .indent kind (some n) → 2 ≤ n.value ∧ n.value ≤ 20 := by
  have hmeans : ∀ {text ss}, SingleOption.Means (.long text) ss → (readLong? text).isSome := by
    intro text ss h
    exact Option.isSome_of_eq_some (SingleOption.means_iff.mp h)
  cases o with
  | style name number h => exact iff_of_true (settings?_style _ h).2.1 (by rintro kind n ⟨⟩)
  | indent kind width =>
      cases width with
      | none => exact iff_of_true (hmeans (.longIndent kind)) (by rintro kind n ⟨⟩)
      | some n =>
          rw [readLong?_indent, Option.isSome_map, Option.isSome_iff_exists]
          constructor
          · rintro ⟨s, hs⟩ kind' n' heq
            cases heq
            exact (Setting.indent?_eq_some_iff.mp hs).1
          · intro hwidth
            exact ⟨_, Setting.indent?_eq_some_iff.mpr ⟨hwidth kind n rfl, rfl⟩⟩
  | alignPointer a => exact iff_of_true (hmeans (.longPointer a)) (by rintro kind n ⟨⟩)
  | lineEnd e => exact iff_of_true (hmeans (.longLineEnd e)) (by rintro kind n ⟨⟩)
  | padParens => exact iff_of_true (hmeans .longParens) (by rintro kind n ⟨⟩)
  | flag f => exact iff_of_true (hmeans (.longFlag f)) (by rintro kind n ⟨⟩)

end AliasedOption

/-! ## Directives joined with blanks -/

/-- A text that is one directive wherever it stands between blanks. -/
def IsDirective (d : List Char) : Prop :=
  d ≠ [] ∧ ∀ c ∈ d, isWhiteSpace c = false ∧ c ≠ ',' ∧ c ≠ '#'

instance (d : List Char) : Decidable (IsDirective d) :=
  @instDecidableAnd _ _ inferInstance (d.decidableBAll _)

section IsDirective

variable {d : List Char}

theorem isDirective_append {a b : List Char} (ha : IsDirective a)
    (hb : ∀ c ∈ b, isWhiteSpace c = false ∧ c ≠ ',' ∧ c ≠ '#') : IsDirective (a ++ b) :=
  ⟨List.append_ne_nil_of_left_ne_nil ha.1 b, List.forall_mem_append.mpr ⟨ha.2, hb⟩⟩

theorem not_separator_of_isDigit {c : Char} (h : c.isDigit) :
    isWhiteSpace c = false ∧ c ≠ ',' ∧ c ≠ '#' := by
  refine ⟨?_, ?_, ?_⟩
  · have hbounds : 48 ≤ c.toNat ∧ c.toNat ≤ 57 := by
      simpa [Char.isDigit, UInt32.le_iff_toNat_le] using h
    simp only [isWhiteSpace, whiteSpaceRanges, List.any_cons, List.any_nil, Bool.or_eq_false_iff,
      Bool.and_eq_false_iff, decide_eq_false_iff_not, and_true]
    omega
  · rintro rfl
    exact absurd h (by decide)
  · rintro rfl
    exact absurd h (by decide)

theorem optionLines_of_isDirective (h : IsDirective d) : optionLines (String.ofList d) = [d] := by
  rw [optionLines, String.toList_ofList]
  refine pieces_of_forall_not fun c hc => beq_eq_false_iff_ne.mpr ?_
  rintro rfl
  exact absurd (h.2 _ hc).1 (by decide)

theorem lineDirectives_of_isDirective (h : IsDirective d) : lineDirectives d = [d] := by
  have hself : d.takeWhile (· != '#') = d :=
    List.takeWhile_eq_self_iff.mpr fun c hc => bne_iff_ne.mpr (h.2 c hc).2.2
  have hpieces : pieces (fun c => isWhiteSpace c || c == ',') d = [d] := by
    refine pieces_of_forall_not fun c hc => ?_
    rw [(h.2 c hc).1, Bool.false_or, beq_eq_false_iff_ne]
    exact (h.2 c hc).2.1
  rw [lineDirectives, hself, hpieces]
  exact List.filter_eq_self.mpr (by simpa using h.1)

/-- Directives joined with blanks are read one by one. -/
theorem directives_intercalate {ds : List (List Char)} (h : ∀ d ∈ ds, IsDirective d) :
    directives (" ".intercalate (ds.map String.ofList)) = ds := by
  rw [directives_join]
  induction ds with
  | nil => rfl
  | cons d ds ih =>
      rw [List.forall_mem_cons] at h
      have hlines := optionLines_of_isDirective h.1
      have hcomment : commentsOn false (String.ofList d) = false := by
        rw [commentsOn, hlines]
        simpa using fun hmem => (h.1.2 '#' hmem).2.2 rfl
      have hshown : shownOf false [d] = [d] := by
        rw [shownOf, if_neg Bool.false_ne_true, List.flatMap_singleton,
          lineDirectives_of_isDirective h.1]
      rw [List.map_cons, shown, hcomment, hlines, hshown, ih h.2, List.singleton_append]

theorem directives_ofList (h : IsDirective d) : directives (String.ofList d) = [d] := by
  have hone := directives_intercalate (List.forall_mem_singleton.mpr h)
  rwa [List.map_singleton, String.intercalate_singleton] at hone

end IsDirective

/-- A text is accepted if each of its directives is. -/
theorem exists_parseOptions_iff_directives {text : String} :
    (∃ o, parseOptions text = .ok o) ↔
      (allSettings? ((directives text).map directiveSettings?)).isSome := by
  simp only [parseOptions_ok_iff_directives, Option.isSome_iff_exists]
  constructor
  · rintro ⟨o, ss, hss, -⟩
    exact ⟨ss, hss⟩
  · rintro ⟨ss, hss⟩
    exact ⟨_, ss, hss, rfl⟩

/-- Texts whose directives set the same are accepted alike, with the same options. -/
theorem parseOptions_congr {text text' : String}
    (h : allSettings? ((directives text).map directiveSettings?) =
      allSettings? ((directives text').map directiveSettings?)) (o : Options) :
    parseOptions text = .ok o ↔ parseOptions text' = .ok o := by
  rw [parseOptions_ok_iff_directives, parseOptions_ok_iff_directives, h]

theorem isSome_allSettings? {readings : List (Option (List Setting))} :
    (allSettings? readings).isSome ↔ ∀ reading ∈ readings, reading.isSome := by
  rw [Option.isSome_iff_exists]
  simp only [allSettings?_eq_some_iff]
  constructor
  · rintro ⟨ss, hall, -⟩
    exact hall
  · intro hall
    exact ⟨_, hall, rfl⟩

/-! ## Groups -/

/-- A list of digits names no option: every name has a dash in it. -/
theorem readLong?_digits {digits : List Char} (h : ∀ c ∈ digits, c.isDigit) :
    readLong? digits = none := by
  have hcut : splitOnce '=' digits = none := splitOnce_eq_none fun hmem => by
    exact absurd (h '=' hmem) (by decide)
  have hname : ∀ name : String, '-' ∈ name.toList → String.ofList digits ≠ name := by
    intro name hdash heq
    rw [← toList_eq_of_ofList_eq heq] at hdash
    exact absurd (h '-' hdash) (by decide)
  have hflag : Flag.all.find? (·.longName == String.ofList digits) = none := by
    refine List.find?_eq_none.mpr fun f _ hf => ?_
    exact hname f.longName (by cases f <;> decide) (eq_of_beq hf).symm
  rw [readLong?, hcut]
  dsimp only
  rw [longWithoutValue?, if_neg (hname "pad-paren" (by decide)), hflag, Option.map_none]

/-- What a unit sets on its own is what a group of it alone sets.  Behind a dash that is its letter
there are digits, and the two dashes in front of them make a long option of no name. -/
theorem directiveSettings?_unit (u : ShortUnit) :
    directiveSettings? ('-' :: u.text) = u.settings? := by
  by_cases hdash : u.extended = false ∧ u.letter = '-'
  · obtain ⟨extended, letter, digits, hdigits, hletter⟩ := u
    obtain ⟨rfl, rfl⟩ := hdash
    have hread : ∀ number, ShortOption.read? ⟨false, '-', number⟩ = none := by
      intro number
      cases number <;> rfl
    have hunit : ShortUnit.settings? ⟨false, '-', digits, hdigits, hletter⟩ = none :=
      Option.bind_eq_none_iff.mpr fun number _ => hread number
    rw [hunit]
    exact (directiveSettings?_long digits).trans (readLong?_digits hdigits)
  · rw [directiveSettings?_group, u.readShort?_text]
    intro text heq
    unfold ShortUnit.text at heq
    split at heq
    · exact absurd (List.cons.inj heq).1 (by decide)
    · next hextended => exact hdash ⟨Bool.eq_false_iff.mpr hextended, (List.cons.inj heq).1⟩

theorem isDirective_dash {d : List Char} (h : IsDirective d) : IsDirective ('-' :: d) := by
  refine ⟨List.cons_ne_nil _ _, List.forall_mem_cons.mpr ⟨by decide, h.2⟩⟩

theorem Units.subset {group : List Char} {us : List ShortUnit} (h : Units group us) :
    ∀ u ∈ us, u.text ⊆ group := by
  induction h with
  | nil => simp
  | cons u hrest h ih =>
      rw [List.forall_mem_cons]
      refine ⟨List.subset_append_left _ _, fun v hv => ?_⟩
      exact List.subset_append_of_subset_right _ (ih v hv)

/-- A group is accepted if each of its units is accepted on its own. -/
theorem exists_parseOptions_group_iff {group : List Char} {us : List ShortUnit}
    (h : Units group us) (hne : us ≠ []) (hgroup : IsDirective group)
    (hdash : group.head? ≠ some '-') :
    (∃ o, parseOptions (String.ofList ('-' :: group)) = .ok o) ↔
      ∀ u ∈ us, ∃ o, parseOptions (String.ofList ('-' :: u.text)) = .ok o := by
  have hunit : ∀ u ∈ us,
      ((∃ o, parseOptions (String.ofList ('-' :: u.text)) = .ok o) ↔ u.settings?.isSome) := by
    intro u hu
    have hd : IsDirective u.text := ⟨u.text_ne_nil, fun c hc => hgroup.2 c (h.subset u hu hc)⟩
    rw [exists_parseOptions_iff_directives, directives_ofList (isDirective_dash hd),
      List.map_singleton, allSettings?_singleton, directiveSettings?_unit]
  rw [exists_parseOptions_iff_directives, directives_ofList (isDirective_dash hgroup),
    List.map_singleton, allSettings?_singleton, directiveSettings?_group, h.readShort? hne,
    isSome_allSettings?, List.forall_mem_map]
  · exact forall₂_congr fun u hu => (hunit u hu).symm
  · rintro text rfl
    exact hdash rfl

/-! ## The four spellings -/

namespace AliasedOption

/-- The options of a list, each with its dashes. -/
def longText (os : List AliasedOption) : String :=
  " ".intercalate (os.map fun o => String.ofList ('-' :: '-' :: o.long))

/-- The names of the options of a list. -/
def bareText (os : List AliasedOption) : String :=
  " ".intercalate (os.map fun o => String.ofList o.long)

/-- The aliases of the options of a list, each on its own. -/
def shortText (os : List AliasedOption) : String :=
  " ".intercalate (os.map fun o => String.ofList ('-' :: o.short.text))

/-- The aliases of the options of a list in one group. -/
def groupText (os : List AliasedOption) : String :=
  String.ofList ('-' :: os.flatMap fun o => o.short.text)

/-- Options in their four spellings. -/
def spellings (os : List AliasedOption) : List String :=
  [longText os, bareText os, shortText os, groupText os]

theorem isDirective_style :
    ∀ row ∈ styleAliases, IsDirective ("style".toList ++ '=' :: row.1.toList) ∧
      IsDirective ('A' :: row.2.toList) := by
  decide +kernel

theorem isDirective_long (o : AliasedOption) : IsDirective o.long := by
  cases o with
  | style name number h => exact (isDirective_style _ h).1
  | indent kind width =>
      cases width with
      | none => cases kind <;> decide
      | some n =>
          have hname : IsDirective ("indent".toList ++ '=' :: (kind.longName.toList ++ ['='])) := by
            cases kind <;> decide
          have hlong := isDirective_append hname fun c hc =>
            not_separator_of_isDigit (n.isDigit c hc)
          rwa [List.append_assoc, List.cons_append, List.append_assoc] at hlong
  | alignPointer a => cases a <;> decide
  | lineEnd e => cases e <;> decide
  | padParens => decide
  | flag f => cases f <;> decide

theorem isDirective_short (o : AliasedOption) : IsDirective o.short.text := by
  cases o with
  | style name number h => exact (isDirective_style _ h).2
  | indent kind width =>
      have hletter : IsDirective [kind.letter] := by
        cases kind <;> decide
      cases width with
      | none => exact hletter
      | some n =>
          exact isDirective_append hletter fun c hc => not_separator_of_isDigit (n.isDigit c hc)
  | alignPointer a => cases a <;> decide
  | lineEnd e => cases e <;> decide
  | padParens => decide
  | flag f => cases f <;> decide

theorem exists_long_eq_cons (o : AliasedOption) : ∃ c rest, o.long = c :: rest ∧ c ≠ '-' := by
  cases o with
  | style name number h => exact ⟨'s', _, rfl, by decide⟩
  | indent kind width => cases width <;> exact ⟨'i', _, rfl, by decide⟩
  | alignPointer a => exact ⟨'a', _, rfl, by decide⟩
  | lineEnd e => exact ⟨'l', _, rfl, by decide⟩
  | padParens => exact ⟨'p', _, rfl, by decide⟩
  | flag f => cases f <;> exact ⟨_, _, rfl, by decide⟩

theorem exists_short_eq_cons (o : AliasedOption) :
    ∃ c rest, o.short.text = c :: rest ∧ c.isDigit = false ∧ c ≠ '-' := by
  cases o with
  | style name number h => exact ⟨'A', _, rfl, by decide, by decide⟩
  | indent kind width =>
      cases width <;>
        exact ⟨kind.letter, _, rfl, by cases kind <;> decide, by cases kind <;> decide⟩
  | alignPointer a => exact ⟨'k', _, rfl, by decide, by decide⟩
  | lineEnd e => exact ⟨'z', _, rfl, by decide, by decide⟩
  | padParens => exact ⟨'P', _, rfl, by decide, by decide⟩
  | flag f => cases f <;> exact ⟨_, _, rfl, by decide, by decide⟩

theorem units_group (os : List AliasedOption) :
    Units (os.flatMap fun o => o.short.text) (os.map short) := by
  induction os with
  | nil => exact .nil
  | cons o os ih =>
      rw [List.flatMap_cons, List.map_cons]
      refine .cons _ (fun c hc => ?_) ih
      cases os with
      | nil => cases hc
      | cons next os =>
          obtain ⟨d, rest, htext, hd, -⟩ := next.exists_short_eq_cons
          rw [List.flatMap_cons, htext] at hc
          cases hc
          exact hd

theorem isDirective_group {os : List AliasedOption} (hne : os ≠ []) :
    IsDirective (os.flatMap fun o => o.short.text) := by
  obtain ⟨o, rest, rfl⟩ := List.exists_cons_of_ne_nil hne
  rw [List.flatMap_cons]
  refine isDirective_append o.isDirective_short fun c hc => ?_
  obtain ⟨p, -, hc⟩ := List.mem_flatMap.mp hc
  exact p.isDirective_short.2 c hc

theorem long_ne_dash (o : AliasedOption) (text : List Char) : o.long ≠ '-' :: text := by
  obtain ⟨c, rest, hlong, hc⟩ := o.exists_long_eq_cons
  rw [hlong]
  exact fun h => hc (List.cons.inj h).1

theorem group_ne_dash (os : List AliasedOption) (text : List Char) :
    (os.flatMap fun o => o.short.text) ≠ '-' :: text := by
  cases os with
  | nil => exact (List.cons_ne_nil _ _).symm
  | cons o os =>
      obtain ⟨c, rest, hshort, -, hc⟩ := o.exists_short_eq_cons
      rw [List.flatMap_cons, hshort]
      exact fun h => hc (List.cons.inj h).1

theorem directives_spelling (os : List AliasedOption) {spell : AliasedOption → List Char}
    (hspell : ∀ o, IsDirective (spell o)) :
    directives (" ".intercalate (os.map fun o => String.ofList (spell o))) = os.map spell := by
  rw [← directives_intercalate (List.forall_mem_map.mpr fun o _ => hspell o), List.map_map]
  rfl

/-- What any spelling of a list of options sets is what the options set one after another. -/
theorem allSettings?_spellings {os : List AliasedOption} (hne : os ≠ []) :
    ∀ text ∈ spellings os, allSettings? ((directives text).map directiveSettings?) =
      allSettings? (os.map fun o => readLong? o.long) := by
  have hlong := directives_spelling os fun o =>
    isDirective_dash (isDirective_dash o.isDirective_long)
  have hbare := directives_spelling os isDirective_long
  have hshort := directives_spelling os fun o => isDirective_dash o.isDirective_short
  have hgroup : directives (groupText os) = ['-' :: os.flatMap fun o => o.short.text] :=
    directives_ofList (isDirective_dash (isDirective_group hne))
  have hread : (os.map short).map ShortUnit.settings? = os.map fun o => readLong? o.long := by
    rw [List.map_map]
    exact List.map_congr_left fun o _ => o.settings?_short
  intro text htext
  simp only [spellings, List.mem_cons, List.not_mem_nil, or_false] at htext
  rcases htext with rfl | rfl | rfl | rfl
  · rw [longText, hlong, List.map_map]
    exact congrArg _ (List.map_congr_left fun o _ => directiveSettings?_long o.long)
  · rw [bareText, hbare, List.map_map]
    exact congrArg _ (List.map_congr_left fun o _ => directiveSettings?_bare o.long_ne_dash)
  · rw [shortText, hshort, ← hread, List.map_map, List.map_map]
    exact congrArg _ (List.map_congr_left fun o _ => directiveSettings?_unit o.short)
  · rw [hgroup, List.map_singleton, allSettings?_singleton,
      directiveSettings?_group (group_ne_dash os),
      (units_group os).readShort? (by simpa using hne), hread]

end AliasedOption

open AliasedOption in
/-- A list of options is accepted in all four spellings with the same result, or in none.  It is
accepted if each width that it asks for lies in bounds, however long the numeral is; its group is
accepted if each unit is on its own, and so is any other group. -/
theorem aliases_agree (os : List AliasedOption) (hne : os ≠ []) :
    ((∃ o, ∀ text ∈ spellings os, parseOptions text = .ok o) ∨
        ∀ text ∈ spellings os, ∃ e, parseOptions text = .error e) ∧
      (∀ text ∈ spellings os, (∃ o, parseOptions text = .ok o) ↔
        ∀ kind n, .indent kind (some n) ∈ os → 2 ≤ n.value ∧ n.value ≤ 20) ∧
      ((∃ o, parseOptions (groupText os) = .ok o) ↔
        ∀ option ∈ os, ∃ o, parseOptions (shortText [option]) = .ok o) ∧
      ∀ group us, Units group us → us ≠ [] → IsDirective group → group.head? ≠ some '-' →
        ((∃ o, parseOptions (String.ofList ('-' :: group)) = .ok o) ↔
          ∀ u ∈ us, ∃ o, parseOptions (String.ofList ('-' :: u.text)) = .ok o) := by
  have hsame : ∀ text ∈ spellings os, ∀ o,
      parseOptions text = .ok o ↔ parseOptions (groupText os) = .ok o := by
    intro text htext
    refine parseOptions_congr ((allSettings?_spellings hne text htext).trans ?_)
    exact (allSettings?_spellings hne (groupText os) (by simp [spellings])).symm
  have haccepted : ∀ {os : List AliasedOption}, os ≠ [] → ∀ text ∈ spellings os,
      ((∃ o, parseOptions text = .ok o) ↔ ∀ option ∈ os, (readLong? option.long).isSome) := by
    intro os hne text htext
    rw [exists_parseOptions_iff_directives, allSettings?_spellings hne text htext,
      isSome_allSettings?, List.forall_mem_map]
  refine ⟨?_, ?_, ?_, fun group us => exists_parseOptions_group_iff⟩
  · cases hgroup : parseOptions (groupText os) with
    | ok o => exact .inl ⟨o, fun text htext => (hsame text htext o).mpr hgroup⟩
    | error e =>
        refine .inr fun text htext => ?_
        cases htext' : parseOptions text with
        | ok o =>
            rw [(hsame text htext o).mp htext'] at hgroup
            cases hgroup
        | error e' => exact ⟨e', rfl⟩
  · intro text htext
    rw [haccepted hne text htext]
    simp only [isSome_readLong?_long]
    constructor
    · intro h kind n hmem
      exact h _ hmem kind n rfl
    · rintro h option hmem kind n rfl
      exact h kind n hmem
  · rw [haccepted hne (groupText os) (by simp [spellings])]
    refine forall₂_congr fun option _ => ?_
    rw [haccepted (List.cons_ne_nil option []) (shortText [option]) (by simp [spellings]),
      List.forall_mem_singleton]

/-- A width behind zeros, one of two names of a style, and a unit behind an `x`. -/
theorem aliases_agree_padded :
    ∃ o, ∀ text ∈ ["--indent=spaces=007 --style=otbs --pad-comma",
      "indent=spaces=007 style=otbs pad-comma", "-s007 -A10 -xg", "-s007A10xg"],
      parseOptions text = .ok o := by
  let width : Numeral := ⟨['0', '0', '7'], by decide, List.all_eq_true.mp (by decide)⟩
  let os : List AliasedOption :=
    [.indent .spaces (some width), .style "otbs" "10" (by decide), .flag .padComma]
  have hspellings : AliasedOption.spellings os =
      ["--indent=spaces=007 --style=otbs --pad-comma", "indent=spaces=007 style=otbs pad-comma",
        "-s007 -A10 -xg", "-s007A10xg"] := by
    decide +kernel
  have hwidth : ∀ kind n, AliasedOption.indent kind (some n) ∈ os →
      2 ≤ n.value ∧ n.value ≤ 20 := by
    intro kind n hmem
    simp only [os, List.mem_cons, List.not_mem_nil, AliasedOption.indent.injEq, Option.some.injEq,
      reduceCtorEq, or_false] at hmem
    rw [hmem.2]
    decide
  obtain ⟨hsame, haccepted, -⟩ := aliases_agree os (List.cons_ne_nil _ _)
  rw [hspellings] at hsame haccepted
  rcases hsame with ho | herror
  · exact ho
  · obtain ⟨e, he⟩ := herror "-s007A10xg" (by simp)
    obtain ⟨o, ho⟩ := (haccepted "-s007A10xg" (by simp)).mpr hwidth
    rw [he] at ho
    cases ho

end Beautifier
