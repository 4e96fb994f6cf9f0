/-
Pages that match.

Two pages match if they are the same line by line, but for indentation and for
the white space that stands around some ink.  Such pages look alike to the
questions that a plan asks of the page.  White space in front of a token does
not outlast the token, so pages that match still do behind it
(`MatchesBehind.push`), and a token that is laid out alike on both starts a
line on both or on neither (`Matches.lineStart?`).
-/
import Beautifier.Proofs.Layout.Frame
import Beautifier.Proofs.Layout.Copied

namespace Beautifier

/-! ## Lines -/

namespace Line

/-- What is remembered of a line besides its indentation and its text. -/
def frame (l : Line) : Line := { l with indent := .zero, text := "" }

/-- Two lines are the same but for their indentation and the white space around their ink. -/
structure Matches (l l' : Line) : Prop where
  frame : l'.frame = l.frame
  text : l'.text = l.text ∨ ink l.text.toList ≠ [] ∧ ink l'.text.toList ≠ []

theorem frame_mark (kind : TokenKind) (l : Line) : (l.mark kind).frame = l.frame.mark kind := by
  cases kind <;> rfl

theorem matches_continuation (kind : TokenKind) (width width' : Nat) (shift shift' : Int)
    (piece : List Char) :
    (continuation kind width shift piece).Matches (continuation kind width' shift' piece) := by
  cases kind <;> exact ⟨rfl, .inl rfl⟩

namespace Matches

variable {l l' : Line}

theorem refl (l : Line) : l.Matches l := ⟨rfl, .inl rfl⟩

theorem mark (h : l.Matches l') (kind : TokenKind) : (l.mark kind).Matches (l'.mark kind) := by
  refine ⟨?_, ?_⟩
  · rw [frame_mark, frame_mark, h.frame]
  · rw [Page.text_mark, Page.text_mark]
    exact h.text

theorem ink_eq_nil (h : l.Matches l') : ink l'.text.toList = [] ↔ ink l.text.toList = [] := by
  rcases h.text with htext | ⟨hink, hink'⟩
  · rw [htext]
  · exact iff_of_false hink' hink

theorem isEmpty_text (h : l.Matches l') : l'.text.isEmpty = l.text.isEmpty := by
  have hne : ∀ {text : String}, ink text.toList ≠ [] → text.isEmpty = false := by
    intro text hink
    rw [← Bool.not_eq_true, String.isEmpty_iff]
    rintro rfl
    exact hink rfl
  rcases h.text with htext | ⟨hink, hink'⟩
  · rw [htext]
  · rw [hne hink, hne hink']

end Matches

theorem isEmpty_chars (kind : IndentKind) (width : Nat) (l : Line) :
    (l.chars kind width).isEmpty =
      (if l.trimmed then trimRight isBlank l.text.toList else l.text.toList).isEmpty := by
  simp only [chars]
  generalize (if l.trimmed then trimRight isBlank l.text.toList else l.text.toList) = text
  cases text with
  | nil => rfl
  | cons c text => simp

/-- Whether a line is written out empty does not depend on how lines are indented. -/
theorem Matches.isEmpty_chars {l l' : Line} (h : l.Matches l') (o o' : Options) :
    (l'.chars o'.indentKind o'.indentWidth).isEmpty
      = (l.chars o.indentKind o.indentWidth).isEmpty := by
  have htrimmed : l'.trimmed = l.trimmed := (Line.mk.inj h.frame).2.2.1
  have hne : ∀ {l : Line}, ink l.text.toList ≠ [] →
      (if l.trimmed then trimRight isBlank l.text.toList else l.text.toList).isEmpty = false := by
    intro l hink
    rw [← Bool.not_eq_true, List.isEmpty_iff]
    intro hnil
    refine hink ?_
    split at hnil
    · rw [← ink_trimRight, hnil, ink_nil]
    · rw [hnil, ink_nil]
  rw [Line.isEmpty_chars, Line.isEmpty_chars]
  rcases h.text with htext | ⟨hink, hink'⟩
  · rw [htext, htrimmed]
  · rw [hne hink, hne hink']

end Line

/-! ## Pages -/

namespace Page

def Matches (p q : Page) : Prop := List.Forall₂ Line.Matches p.lines q.lines

/-- Two pages are the same but for the white space on their newest lines. -/
structure MatchesBehind (p q : Page) : Prop where
  newest : q.newest.frame = p.newest.frame
  tail : List.Forall₂ Line.Matches p.lines.tail q.lines.tail

variable {o o' : Options} {p q : Page} {t u : Token} {layout layout' : Layout}

theorem Matches.refl (p : Page) : p.Matches p := List.forall₂_same.mpr fun l _ => .refl l

namespace Matches

theorem newest (h : p.Matches q) : p.newest.Matches q.newest := by
  cases p with
  | mk lines => cases q with
    | mk lines' =>
      cases h with
      | nil => exact .refl _
      | cons hl _ => exact hl

theorem tail (h : p.Matches q) : List.Forall₂ Line.Matches p.lines.tail q.lines.tail := by
  cases p with
  | mk lines => cases q with
    | mk lines' =>
      cases h with
      | nil => exact .nil
      | cons _ htail => exact htail

theorem isEmpty (h : p.Matches q) : q.isEmpty = p.isEmpty := by
  cases p with
  | mk lines => cases q with
    | mk lines' => cases h <;> rfl

theorem canJoin (h : p.Matches q) : q.canJoin = p.canJoin := by
  cases p with
  | mk lines => cases q with
    | mk lines' =>
      cases h with
      | nil => rfl
      | cons hl _ =>
          obtain ⟨-, -, -, hcode, hcomment, hdirective⟩ := Line.mk.inj hl.frame
          simp only [Page.canJoin, hcode, hcomment, hdirective]

theorem onlyComments (h : p.Matches q) : q.onlyComments = p.onlyComments := by
  cases p with
  | mk lines => cases q with
    | mk lines' =>
      cases h with
      | nil => rfl
      | cons hl _ =>
          obtain ⟨-, -, -, hcode, -, -⟩ := Line.mk.inj hl.frame
          simp only [Page.onlyComments, hcode, hl.isEmpty_text]

theorem ready (h : p.Matches q) (hlayout : layout'.blankLines? = layout.blankLines?) :
    (p.ready o t layout).MatchesBehind (q.ready o' u layout') := by
  cases layout with
  | newLine indent blankLines =>
      cases layout' with
      | sameLine => cases hlayout
      | newLine indent' blankLines' =>
          cases hlayout
          exact ⟨rfl, List.rel_append (List.forall₂_same.mpr fun l _ => .refl l) h⟩
  | sameLine spacing =>
      cases layout' with
      | newLine => cases hlayout
      | sameLine spacing' =>
          have hspace : ∀ (p : Page) (gap : String), (p.space gap).newest.frame = p.newest.frame ∧
              (p.space gap).lines.tail = p.lines.tail := by
            intro p gap
            rw [space, Page.newest, lines_amend]
            exact ⟨rfl, rfl⟩
          refine ⟨?_, ?_⟩
          · rw [ready, ready, (hspace ..).1, (hspace ..).1, h.newest.frame]
          · rw [ready, ready, (hspace ..).2, (hspace ..).2]
            exact h.tail

theorem amend_mark (h : p.Matches q) (kind : TokenKind) :
    (p.amend (Line.mark kind)).Matches (q.amend (Line.mark kind)) := by
  rw [Matches, lines_amend, lines_amend]
  exact .cons (h.newest.mark kind) h.tail

end Matches

/-- Where the text of a token starts with ink, the white space in front of it makes no difference
behind it. -/
theorem MatchesBehind.push (h : p.MatchesBehind q) (width width' : Nat) (kind : TokenKind)
    (shift shift' : Int) (text : String)
    (htext : Beautifier.ink (linesOf (glyphs text.toList)).1 ≠ []) :
    (p.push width kind shift text).Matches (q.push width' kind shift' text) := by
  simp only [Page.push]
  generalize (linesOf (glyphs text.toList)).1 = first at htext
  generalize (linesOf (glyphs text.toList)).2 = others
  refine Matches.amend_mark (List.rel_append ?_ ?_) kind
  · rw [List.forall₂_reverse_iff, List.forall₂_map_left_iff, List.forall₂_map_right_iff,
      List.forall₂_same]
    exact fun piece _ => Line.matches_continuation ..
  · rw [lines_amend, lines_amend]
    have hink : ∀ l : Line, Beautifier.ink (l.append (String.ofList first)).text.toList ≠ [] := by
      intro l
      rw [Line.append, String.toList_append, String.toList_ofList, ink_append]
      exact List.append_ne_nil_of_right_ne_nil _ htext
    have hnewest := h.newest
    split
    · exact .cons ⟨congrArg (fun l : Line => { l with trimmed := false }) hnewest,
        .inr ⟨hink _, hink _⟩⟩ h.tail
    · exact .cons ⟨hnewest, .inr ⟨hink _, hink _⟩⟩ h.tail

/-! ### Where a token stands -/

/-- The number of lines above the newest one that are written out empty, if nothing but white
space stands on the newest line. -/
def lineStart? (o : Options) (p : Page) : Option Nat :=
  if Beautifier.ink p.newest.text.toList = [] then
    some (p.lines.tail.takeWhile fun l => (l.chars o.indentKind o.indentWidth).isEmpty).length
  else none

theorem length_takeWhile_matches {ls ls' : List Line} (h : List.Forall₂ Line.Matches ls ls')
    (o o' : Options) :
    (ls'.takeWhile fun l => (l.chars o'.indentKind o'.indentWidth).isEmpty).length
      = (ls.takeWhile fun l => (l.chars o.indentKind o.indentWidth).isEmpty).length := by
  induction h with
  | nil => rfl
  | cons hl _ ih =>
      rw [List.takeWhile_cons, List.takeWhile_cons, hl.isEmpty_chars o o']
      split
      · rw [List.length_cons, List.length_cons, ih]
      · rfl

theorem ink_newest_ready (p : Page) (ht : t.HasSpace) (layout : Layout) :
    Beautifier.ink (p.ready o t layout).newest.text.toList
      = if layout.blankLines?.isSome then [] else Beautifier.ink p.newest.text.toList := by
  cases layout with
  | newLine => rfl
  | sameLine spacing =>
      have hgap : Beautifier.ink (p.gap o t spacing).toList = [] :=
        Beautifier.ink_eq_nil (p.forall_mem_gap o (q := fun c => isSpace c = true) rfl ht spacing)
      rw [ready, space, newest, lines_amend, List.headD_cons, Line.append, String.toList_append,
        ink_append, hgap, List.append_nil]
      rfl

/-- On pages that match, a token that is laid out alike starts a line on both or on neither, below
the same number of empty lines. -/
theorem Matches.lineStart? (h : p.Matches q) (hlayout : layout'.blankLines? = layout.blankLines?)
    (ht : t.HasSpace) (hu : u.HasSpace) :
    (q.ready o' u layout').lineStart? o' = (p.ready o t layout).lineStart? o := by
  have hbehind : (p.ready o t layout).MatchesBehind (q.ready o' u layout') := h.ready hlayout
  have hink : Beautifier.ink (q.ready o' u layout').newest.text.toList = []
      ↔ Beautifier.ink (p.ready o t layout).newest.text.toList = [] := by
    rw [ink_newest_ready q hu, ink_newest_ready p ht, hlayout]
    split
    · exact Iff.rfl
    · exact h.newest.ink_eq_nil
  rw [Page.lineStart?, Page.lineStart?, length_takeWhile_matches hbehind.tail o o']
  simp only [hink]

end Page

end Beautifier
