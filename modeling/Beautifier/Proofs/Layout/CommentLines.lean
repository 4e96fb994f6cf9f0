/-
Block comments move as a whole.

A block comment is written at some column, and its further lines keep the
distance that they have in the source from its start: each is indented by the
width of its own blanks and by as much as the comment has been moved, or not at
all where that would be less than nothing (`further_line`).  Nothing else is
written on such a line, but for the last one, which the next token may go on
with (`comment_lines`).
-/
import Beautifier.Proofs.Layout.Spots
import Beautifier.Proofs.Options.Bounds

namespace Beautifier

/-- The columns that a further line of a comment is indented by, if the comment starts in one
column in the source and is written in another. -/
def movedColumn (width source written : Nat) (piece : List Char) : Nat :=
  ((Column.width width (piece.takeWhile isBlank) : Int) + written - source).toNat

theorem exists_ink_of_dropWhile {piece : List Char} (h : piece.dropWhile isBlank ≠ []) :
    ∃ c rest, piece.dropWhile isBlank = c :: rest ∧ isBlank c = false := by
  obtain ⟨c, rest, hcontent⟩ := List.exists_cons_of_ne_nil h
  have hhead := List.head?_dropWhile_not isBlank piece
  rw [hcontent] at hhead
  exact ⟨c, rest, hcontent, by simpa using hhead⟩

section
variable {o : Options} {tokens : List Token} {n i : Nat} {t : Token} {piece : List Char}

/-- Behind a block comment its further lines stand on the page, moved as far as the comment. -/
theorem further_line (hw : 0 < o.indentWidth) (hget : tokens[n]? = some t)
    (hkind : t.kind = .blockComment) (hpiece : t.lines.2[i]? = some piece) :
    ∃ l, (stage o tokens (n + 1)).page.line? ((spotAt o tokens n t).line + 1 + i) = some l ∧
      l.indent = .ofSpaces
        (movedColumn o.indentWidth t.column ((spotAt o tokens n t).column o) piece) ∧
      l.text.toList = piece.dropWhile isBlank ∧ l.trimmed = true := by
  obtain ⟨l, hl, hunmarked⟩ := exists_furtherLine_stage (o := o) hget hpiece
  have hshift : ((stage o tokens n).page.ready o t (planAt o tokens n t).layout).shift o t
      = ((spotAt o tokens n t).column o : Int) - t.column := by
    rw [spotAt, Page.column_spot hw, Page.shift, hkind]
    rfl
  rw [hshift, hkind] at hunmarked
  refine ⟨l, hl, ?_, ?_, congrArg Line.trimmed hunmarked⟩
  · rw [movedColumn, Int.add_sub_assoc]
    exact congrArg Line.indent hunmarked
  · have htext := congrArg (fun l : Line => l.text.toList) hunmarked
    exact htext.trans (String.toList_ofList ..)

end

/-- A block comment moves as a whole.  It is written at some spot of the output, and each of its
further lines that is not blank is written below, without the blanks at its end, at the column that
keeps its distance from the start of the comment.  Only behind the last of them, and only if the
next token starts no line, there is more on the line. -/
theorem comment_lines {text : String} {o : Options} (ho : parseOptions text = .ok o)
    (source : String) :
    let tokens := tokensToLayOut o (tokenize o.language o.indentWidth source)
    ∀ n t, tokens[n]? = some t → t.kind = .blockComment →
      ∃ s, WrittenAt o source n s ∧
        ∀ i piece, t.lines.2[i]? = some piece → piece.dropWhile isBlank ≠ [] →
          ∃ blanks more, (∀ c ∈ blanks, isBlank c = true) ∧
            Column.width o.indentWidth blanks
              = movedColumn o.indentWidth t.column (s.column o) piece ∧
            (outputLines o source)[s.line + 1 + i]?
              = some (blanks ++ trimRight isBlank (piece.dropWhile isBlank) ++ more) ∧
            (more = [] ∨ i + 1 = t.lines.2.length ∧ n + 1 < tokens.length ∧
              startedLine? o tokens (n + 1) = none) := by
  intro tokens n t hget hkind
  have hw : 0 < o.indentWidth := Nat.lt_of_lt_of_le (by decide) (indentWidth_parseOptions ho).1
  refine ⟨spotAt o tokens n t, writtenAt_spotAt o source hget, fun i piece hpiece hne => ?_⟩
  obtain ⟨l, hl, hindent, htext, htrimmed⟩ := further_line (o := o) hw hget hkind hpiece
  have hn : n + 1 ≤ tokens.length := (List.getElem?_eq_some_iff.mp hget).1
  have hi : i < t.lines.2.length := (List.getElem?_eq_some_iff.mp hpiece).1
  have hcolumn : Column.width o.indentWidth (l.indent.chars o.indentKind o.indentWidth)
      = movedColumn o.indentWidth t.column ((spotAt o tokens n t).column o) piece := by
    rw [Column.width, Indent.advance_chars hw, hindent]
    simp [Indent.columns, Indent.ofSpaces]
  have hblanks : ∀ c ∈ l.indent.chars o.indentKind o.indentWidth, isBlank c = true :=
    isBlank_of_mem_indent
  obtain ⟨c, rest, hcontent, hc⟩ := exists_ink_of_dropWhile hne
  rcases lastOn_or_joined (o := o) (a := (spotAt o tokens n t).line + 1 + i) hget (by omega)
    (by omega) with hlast | ⟨hend, hnext, hstarts⟩
  · -- no token stands behind the piece on its line
    refine ⟨_, [], hblanks, hcolumn, ?_, .inl rfl⟩
    obtain ⟨rest', htrim⟩ := trimRight_cons hc rest
    rw [outputLines_of_line? (hlast.line?_layOut.trans hl), Line.chars, htrimmed, if_pos rfl, htext,
      hcontent, htrim]
    simp
  · obtain ⟨l', hl', hindent', hprefix⟩ := exists_line?_stage o tokens hn hl
    rw [htext] at hprefix
    obtain ⟨more, hmore⟩ := Line.exists_chars_eq o.indentKind o.indentWidth hcontent hc
      (show [] ++ _ <+: _ from hprefix)
    refine ⟨_, more, hblanks, hcolumn, ?_, .inr ⟨by omega, hnext, hstarts⟩⟩
    rw [← layOut_eq_stage] at hl'
    rw [outputLines_of_line? hl', hmore, hindent', List.append_nil]

/-- A comment that is moved to the body of a header, by one tab: its further lines are moved by the
four columns of the tab, whatever they start with. -/
theorem comment_lines_body :
    let o := { Options.default with indentKind := .tab }
    let source := "if (a)\n/* x\n y\t\n\t    z */ c;\n"
    parseOptions "indent=tab" = .ok o ∧
      (∃ blanks, (∀ c ∈ blanks, isBlank c = true) ∧ Column.width 4 blanks = 5 ∧
        (outputLines o source)[2]? = some (blanks ++ ['y'])) ∧
      ∃ blanks more, (∀ c ∈ blanks, isBlank c = true) ∧ Column.width 4 blanks = 12 ∧
        (outputLines o source)[3]? = some (blanks ++ ['z', ' ', '*', '/'] ++ more) := by
  intro o source
  have ho : parseOptions "indent=tab" = .ok o := by decide +kernel
  have htokens : tokensToLayOut o (tokenize o.language o.indentWidth source)
      = [⟨.word, "if", 0, "", 0, false⟩, ⟨.punctuation, "(", 0, " ", 3, false⟩,
          ⟨.word, "a", 0, "", 4, false⟩, ⟨.punctuation, ")", 0, "", 5, false⟩,
          ⟨.blockComment, "/* x\n y\t\n\t    z */", 1, "", 0, false⟩,
          ⟨.word, "c", 0, " ", 13, false⟩, ⟨.punctuation, ";", 0, "", 14, false⟩] := by
    show (tokenize .c 4 "if (a)\n/* x\n y\t\n\t    z */ c;\n").tokens = _
    decide +kernel
  have hget : (tokensToLayOut o (tokenize o.language o.indentWidth source))[4]?
      = some ⟨.blockComment, "/* x\n y\t\n\t    z */", 1, "", 0, false⟩ := by
    rw [htokens]
    rfl
  obtain ⟨s, hwritten, hpieces⟩ := comment_lines ho source 4 _ hget rfl
  have hs : s = ⟨1, ⟨1, 0⟩, []⟩ := by
    rw [hwritten.eq_spotAt hget, htokens]
    decide +kernel
  obtain ⟨blanks, more, hblanks, hcolumn, hline, hmore⟩ :=
    hpieces 0 [' ', 'y', '\t'] (by decide) (by decide)
  obtain ⟨blanks', more', hblanks', hcolumn', hline', -⟩ :=
    hpieces 1 ['\t', ' ', ' ', ' ', ' ', 'z', ' ', '*', '/'] (by decide) (by decide)
  have hnone : more = [] := hmore.resolve_right fun h => absurd h.1 (by decide)
  rw [hs] at hcolumn hline hcolumn' hline'
  rw [hnone, List.append_nil] at hline
  refine ⟨ho, ⟨blanks, hblanks, hcolumn.trans (by decide), hline⟩,
    blanks', more', hblanks', hcolumn'.trans (by decide), hline'⟩

end Beautifier
