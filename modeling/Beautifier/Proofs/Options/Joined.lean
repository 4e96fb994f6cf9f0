/-
Options that are joined to one text.

The options forwarded to the formatter are joined with blanks, so that the
last line of one and the first line of the next are one line of the text.  A
`#` in the last line of an option makes a comment of all that follows in that
line.  What is read is each option on its own exactly if no directive stands
there (`forwarded_iff`).
-/
import Mathlib.Data.List.Flatten
import Mathlib.Data.List.TakeWhile
import Beautifier.Proofs.Text.Pieces
import Beautifier.Proofs.Transform.Answer
import Beautifier.Tool.Run

namespace Beautifier

/-! ## Lines of an options text -/

def optionLines (text : String) : List (List Char) := pieces (· == '\n') text.toList

def lineDirectives (line : List Char) : List (List Char) :=
  (pieces (fun c => isWhiteSpace c || c == ',') (line.takeWhile (· != '#'))).filter (!·.isEmpty)

theorem directives_eq (text : String) :
    directives text = (optionLines text).flatMap lineDirectives := by
  rw [directives, optionLines, List.filter_flatMap, List.flatMap_map]
  rfl

/-- A blank between two parts of a line parts their directives; a comment takes up the rest. -/
theorem lineDirectives_append (a b : List Char) :
    lineDirectives (a ++ ' ' :: b) =
      lineDirectives a ++ if '#' ∈ a then [] else lineDirectives b := by
  rw [lineDirectives, lineDirectives, List.takeWhile_append]
  by_cases h : '#' ∈ a
  · have hshort : (a.takeWhile (· != '#')).length ≠ a.length := by
      intro hlength
      have hself := (List.takeWhile_prefix (l := a) (· != '#')).eq_of_length hlength
      have hall := List.takeWhile_eq_self_iff.mp hself '#' h
      exact absurd hall (by decide)
    rw [if_neg hshort, if_pos h, List.append_nil]
  · have hself : a.takeWhile (· != '#') = a :=
      List.takeWhile_eq_self_iff.mpr fun c hc => by
        simpa using fun (heq : c = '#') => h (heq ▸ hc)
    rw [hself, if_pos rfl, if_neg h, List.takeWhile_cons_of_pos (by decide),
      pieces_append_sep _ _ (by decide), List.filter_append]
    rfl

theorem exists_optionLines (f : String) : ∃ front last, optionLines f = front ++ [last] :=
  exists_pieces _ _

theorem optionLines_join (f g : String) (fs : List String) :
    ∃ front last first others, optionLines f = front ++ [last] ∧
      optionLines (" ".intercalate (g :: fs)) = first :: others ∧
      optionLines (" ".intercalate (f :: g :: fs)) = front ++ (last ++ ' ' :: first) :: others := by
  obtain ⟨front, last, hf⟩ := exists_optionLines f
  refine ⟨front, last, _, _, hf, rfl, ?_⟩
  rw [optionLines, String.intercalate_cons_cons, String.toList_append, String.toList_append,
    List.append_assoc]
  exact pieces_append hf (pieces_cons_of_not_mem rfl rfl)

/-! ## What is read of joined options -/

/-- A directive stands in the first line of joined options. -/
def StartsWithDirective : List String → Prop
  | [] => False
  | f :: fs => lineDirectives ((optionLines f).headD []) ≠ [] ∨
      (optionLines f).length = 1 ∧ StartsWithDirective fs

/-- Behind a `#` in the last line of an option a directive stands in the same line of the joined
options. -/
def HidesDirective : List String → Prop
  | [] => False
  | f :: fs => '#' ∈ (optionLines f).getLastD [] ∧ StartsWithDirective fs ∨ HidesDirective fs

/-- The directives of lines, of which the first may stand in a comment. -/
def shownOf (commented : Bool) (lines : List (List Char)) : List (List Char) :=
  (if commented then lines.tail else lines).flatMap lineDirectives

/-- Whether a comment goes on behind an option: it starts in the last line of the option, or goes
on through the only one. -/
def commentsOn (commented : Bool) (f : String) : Bool :=
  ((optionLines f).getLastD []).contains '#' || (commented && (optionLines f).length == 1)

/-- The directives that are read of joined options, of which the first may stand in a comment. -/
def shown (commented : Bool) : List String → List (List Char)
  | [] => []
  | f :: fs => shownOf commented (optionLines f) ++ shown (commentsOn commented f) fs

theorem shownOf_cons_append (commented : Bool) (line : List Char)
    (lines lines' : List (List Char)) :
    shownOf commented (line :: lines ++ lines') =
      shownOf commented (line :: lines) ++ shownOf false lines' := by
  cases commented <;> simp [shownOf]

theorem shownOf_last (last first : List Char) (others : List (List Char)) :
    shownOf false ((last ++ ' ' :: first) :: others) =
      shownOf false [last] ++ shownOf (last.contains '#') (first :: others) := by
  by_cases h : '#' ∈ last <;> simp [shownOf, lineDirectives_append, h]

theorem shownOf_join (commented : Bool) (fs : List String) :
    shownOf commented (optionLines (" ".intercalate fs)) = shown commented fs := by
  induction fs generalizing commented with
  | nil => cases commented <;> rfl
  | cons f fs ih =>
      cases fs with
      | nil => rw [String.intercalate_singleton, shown, shown, List.append_nil]
      | cons g fs =>
          obtain ⟨front, last, first, others, hf, hrest, hjoin⟩ := optionLines_join f g fs
          rw [shown, ← ih, hrest, hjoin, hf]
          cases front with
          | nil =>
              cases commented with
              | false => simpa [commentsOn, hf] using shownOf_last last first others
              | true => simp [commentsOn, hf, shownOf]
          | cons line front =>
              have hon : commentsOn commented f = last.contains '#' := by
                rw [commentsOn, hf, List.getLastD_concat]
                simp
              rw [hon, shownOf_cons_append, shownOf_cons_append, shownOf_last, List.append_assoc]

/-- Joined options are read as their directives, but for those in a comment that starts in an
option before. -/
theorem directives_join (fs : List String) : directives (" ".intercalate fs) = shown false fs := by
  rw [directives_eq, ← shownOf_join]
  rfl

/-! ## Nothing is hidden -/

theorem append_eq_append_iff_of_sublist {α : Type} {a a' b b' : List α} (ha : a.Sublist a')
    (hb : b.Sublist b') : a ++ b = a' ++ b' ↔ a = a' ∧ b = b' := by
  constructor
  · intro h
    have hlength := congrArg List.length h
    rw [List.length_append, List.length_append] at hlength
    have hale := ha.length_le
    have hble := hb.length_le
    exact ⟨ha.eq_of_length (by omega), hb.eq_of_length (by omega)⟩
  · rintro ⟨rfl, rfl⟩
    rfl

theorem shownOf_sublist (commented : Bool) (f : String) :
    (shownOf commented (optionLines f)).Sublist (directives f) := by
  rw [directives_eq, shownOf]
  cases commented with
  | false => exact .refl _
  | true =>
      rw [if_pos rfl]
      exact (List.tail_sublist _).flatMap _

theorem shown_sublist (commented : Bool) (fs : List String) :
    (shown commented fs).Sublist (fs.flatMap directives) := by
  induction fs generalizing commented with
  | nil => exact .refl _
  | cons f fs ih => exact (shownOf_sublist commented f).append (ih _)

theorem shownOf_eq_iff (commented : Bool) (f : String) :
    shownOf commented (optionLines f) = directives f ↔
      (commented = true → lineDirectives ((optionLines f).headD []) = []) := by
  rw [directives_eq, shownOf]
  cases commented with
  | false => simp
  | true =>
      cases optionLines f with
      | nil => simp [lineDirectives, pieces, piecesAt]
      | cons line lines => simp

theorem shown_eq_iff (commented : Bool) (fs : List String) :
    shown commented fs = fs.flatMap directives ↔
      ¬(commented = true ∧ StartsWithDirective fs) ∧ ¬HidesDirective fs := by
  induction fs generalizing commented with
  | nil => simp [shown, StartsWithDirective, HidesDirective]
  | cons f fs ih =>
      rw [shown, List.flatMap_cons,
        append_eq_append_iff_of_sublist (shownOf_sublist _ _) (shown_sublist _ _),
        shownOf_eq_iff, ih, StartsWithDirective, HidesDirective]
      have hon : commentsOn commented f = true ↔ '#' ∈ (optionLines f).getLastD [] ∨
          commented = true ∧ (optionLines f).length = 1 := by
        simp [commentsOn]
      rw [hon]
      tauto

/-! ## Settings -/

/-- The settings of the directives of an options text, in order. -/
def settingsOf (text : String) : List Setting := settings ((directives text).map readDirective)

theorem parseOptions_eq_ok_iff {text : String} {o : Options} :
    parseOptions text = .ok o ↔
      rejectedOf text = [] ∧ o = (settingsOf text).foldl Options.apply .default := by
  dsimp only [parseOptions, rejectedOf]
  cases rejections ((directives text).map readDirective) with
  | nil => simp [settingsOf, eq_comm]
  | cons r rs => simp

theorem exists_parseOptions_iff {text : String} :
    (∃ o, parseOptions text = .ok o) ↔ rejectedOf text = [] := by
  constructor
  · rintro ⟨o, ho⟩
    exact (parseOptions_eq_ok_iff.mp ho).1
  · intro h
    exact ⟨_, parseOptions_eq_ok_iff.mpr ⟨h, rfl⟩⟩

theorem rejectedOf_of_directives_eq {text : String} {fs : List String}
    (h : directives text = fs.flatMap directives) :
    rejectedOf text = fs.flatMap rejectedOf := by
  rw [rejectedOf, rejections, h, List.map_flatMap, List.filterMap_flatMap]
  rfl

theorem settingsOf_of_directives_eq {text : String} {fs : List String}
    (h : directives text = fs.flatMap directives) :
    settingsOf text = fs.flatMap settingsOf := by
  rw [settingsOf, settings, h, List.map_flatMap, List.flatMap_assoc]
  rfl

/-- Without a rules file every file is formatted under the forwarded options, joined to one text.
The directives of the text are those of the options in order exactly if none is hidden by a comment
of an option before; then the text is accepted if each of the options is, what is refused of it is
what is refused of them, and it asks for what they set one after another. -/
theorem forwarded_iff (lib : RulesLibrary) {t : FileTree} {i : Invocation} {items : List FileItem}
    (hrules : i.tool.rules = none) (hselect : FileItem.select lib t i = .ok items) :
    ∀ item ∈ items,
      (directives item.options = i.forwarded.flatMap directives ↔ ¬HidesDirective i.forwarded) ∧
      (¬HidesDirective i.forwarded →
        ((∃ o, parseOptions item.options = .ok o) ↔
          ∀ f ∈ i.forwarded, ∃ o, parseOptions f = .ok o) ∧
        rejectedOf item.options = i.forwarded.flatMap rejectedOf ∧
        ∀ o, parseOptions item.options = .ok o →
          o = i.forwarded.foldl (fun o f => (settingsOf f).foldl Options.apply o) .default) := by
  intro item hitem
  have hoptions : item.options = " ".intercalate i.forwarded := by
    rw [FileItem.select, hrules] at hselect
    dsimp only at hselect
    rw [FileItem.ofPatterns] at hselect
    split at hselect
    · cases hselect
    · cases hselect
      obtain ⟨path, -, rfl⟩ := List.mem_map.mp hitem
      rfl
  have hiff : directives item.options = i.forwarded.flatMap directives ↔
      ¬HidesDirective i.forwarded := by
    rw [hoptions, directives_join, shown_eq_iff]
    simp
  refine ⟨hiff, fun hshown => ?_⟩
  have hdirectives := hiff.mpr hshown
  have hrejected := rejectedOf_of_directives_eq hdirectives
  refine ⟨?_, hrejected, fun o ho => ?_⟩
  · rw [exists_parseOptions_iff, hrejected, List.flatMap_eq_nil_iff]
    exact forall₂_congr fun f _ => exists_parseOptions_iff.symm
  · rw [(parseOptions_eq_ok_iff.mp ho).2, settingsOf_of_directives_eq hdirectives,
      List.foldl_flatMap]

theorem forwarded_iff_plain :
    ¬HidesDirective ["--style=java", "--pad-oper"] ∧
      rejectedOf "--style=java --pad-oper" = ["--style=java", "--pad-oper"].flatMap rejectedOf ∧
      ∀ o, parseOptions "--style=java --pad-oper" = .ok o →
        o = ["--style=java", "--pad-oper"].foldl
          (fun o f => (settingsOf f).foldl Options.apply o) .default := by
  have hshown : ¬HidesDirective ["--style=java", "--pad-oper"] := by
    rintro (⟨h, -⟩ | ⟨h, -⟩ | h)
    · exact absurd h (by decide)
    · exact absurd h (by decide)
    · exact h
  have hitem := forwarded_iff .standard (t := ⟨[], []⟩)
    (i := ⟨.none, ["--style=java", "--pad-oper"], [], ["a.c"]⟩) rfl rfl _
    (List.mem_singleton_self _)
  exact ⟨hshown, (hitem.2 hshown).2⟩

/-- A comment behind an option in an options file hides the option in the next line. -/
theorem forwarded_hidden :
    ∃ items item o, FileItem.select .standard ⟨[], []⟩
        ⟨.none, ["--style=java # attach", "--pad-oper"], [], ["a.c"]⟩ = .ok items ∧
      item ∈ items ∧ parseOptions item.options = .ok o ∧
      o ≠ ["--style=java # attach", "--pad-oper"].foldl
        (fun o f => (settingsOf f).foldl Options.apply o) .default := by
  refine ⟨_, _, _, rfl, List.mem_singleton_self _, rfl, ?_⟩
  decide

end Beautifier
