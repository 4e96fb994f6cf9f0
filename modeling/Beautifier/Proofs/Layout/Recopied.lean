/-
Copies of copies.

What is written for a token is read back as a token of the same kind, with the
lines that were written for it (`Page.lines_relaid`).  Written again in the
same place it is written as it stands (`Page.copied_again`), and the line that
it ends on is the same but for its text (`Page.outline_write_again`).  Where a
layout looks at the tokens around a token, it sees no difference
(`Page.bare_relaid`).
-/
import Beautifier.Proofs.Layout.Blind
import Beautifier.Proofs.Layout.Relaid

namespace Beautifier

/-! ## Lines -/

namespace Line

variable {kind : IndentKind} {width : Nat} {k : TokenKind} {shift : Int} {piece : List Char}

/-- A line without its text. -/
def outline (l : Line) : Line := { l with text := "" }

theorem outline_mark (k : TokenKind) (l : Line) : (l.mark k).outline = l.outline.mark k := by
  cases k <;> rfl

/-- A line of a block comment that holds more than blanks keeps its indentation when it is written
again. -/
theorem continuation_again (hwidth : 0 < width)
    (hne : trimRight isBlank (piece.dropWhile isBlank) ≠ []) :
    continuation .blockComment width 0
        ((continuation .blockComment width shift piece).chars kind width)
      = { continuation .blockComment width shift piece with
          text := String.ofList (trimRight isBlank (piece.dropWhile isBlank)) } := by
  obtain ⟨cut, -, hcut⟩ := exists_trimRight_append isBlank (piece.dropWhile isBlank)
  have hhead := List.head?_dropWhile_not isBlank piece
  obtain ⟨c, more, htext⟩ := List.exists_cons_of_ne_nil hne
  rw [hcut, htext] at hhead
  have hc : isBlank c = false := hhead
  generalize hm : (Column.width width (piece.takeWhile isBlank) + shift).toNat = m
  have hchars : (continuation .blockComment width shift piece).chars kind width
      = (Indent.ofSpaces m).chars kind width ++ c :: more := by
    rw [Line.chars, ← htext]
    simp [continuation, empty, hne, hm]
  have htake : ((Indent.ofSpaces m).chars kind width ++ c :: more).takeWhile isBlank
      = (Indent.ofSpaces m).chars kind width := by
    rw [List.takeWhile_append_of_pos isBlank_of_mem_indent,
      List.takeWhile_cons_of_neg (by simp [hc]), List.append_nil]
  have hdrop : ((Indent.ofSpaces m).chars kind width ++ c :: more).dropWhile isBlank
      = c :: more := by
    rw [List.dropWhile_append_of_pos isBlank_of_mem_indent,
      List.dropWhile_cons_of_neg (by simp [hc])]
  have hcolumn : Column.width width ((Indent.ofSpaces m).chars kind width) = m := by
    rw [Column.width, Indent.advance_chars hwidth]
    simp [Indent.columns, Indent.ofSpaces]
  rw [hchars, continuation, htake, hdrop, hcolumn, htext]
  simp [continuation, empty, hm]

theorem chars_of_indent_zero {l : Line} (h : l.indent = .zero) :
    l.chars kind width
      = if l.trimmed then trimRight isBlank l.text.toList else l.text.toList := by
  rw [Line.chars, h, chars_zero]
  simp

/-- A further line of a token is written again as it stands. -/
theorem chars_continuation_again (hwidth : 0 < width) :
    (continuation k width 0 ((continuation k width shift piece).chars kind width)).chars kind width
      = (continuation k width shift piece).chars kind width := by
  cases k with
  | blockComment =>
      by_cases hnil : trimRight isBlank (piece.dropWhile isBlank) = []
      · have hchars : (continuation .blockComment width shift piece).chars kind width = [] := by
          rw [Line.chars]
          simp [continuation, empty, hnil]
        rw [hchars]
        rfl
      · rw [continuation_again hwidth hnil, Line.chars, Line.chars]
        simp [continuation, empty, trimRight_trimRight]
  | directive =>
      rw [chars_of_indent_zero rfl, chars_of_indent_zero rfl]
      simp [continuation, empty, trimRight_trimRight]
  | _ =>
      rw [chars_of_indent_zero rfl, chars_of_indent_zero rfl]
      simp [continuation, empty]

end Line

/-! ## Tokens on one line -/

theorem linesOf_of_chars {gs : List Glyph} (h : ∀ g ∈ gs, ∃ c, g = .char c) :
    (linesOf gs).2 = [] := by
  induction gs with
  | nil => rfl
  | cons g gs ih =>
      obtain ⟨c, rfl⟩ := h g List.mem_cons_self
      exact ih fun g hg => h g (List.mem_cons_of_mem _ hg)

theorem Token.text_eq_of_lines_eq {t u : Token} (h : u.lines = t.lines) (hone : t.lines.2 = []) :
    u.text = t.text := by
  have htext : ∀ v : Token, v.lines.2 = [] → v.text.toList = v.lines.1 := by
    intro v hv
    rw [← chars_glyphs v.text.toList, charsOf_of_line hv]
    rfl
  rw [← String.toList_inj, htext u (h ▸ hone), htext t hone, h]

/-! ## The names of directives -/

theorem isAlpha_eq_false {c : Char} (h : isWhiteSpace c = true) : c.isAlpha = false := by
  simp only [isWhiteSpace, whiteSpaceRanges, List.any_cons, List.any_nil, Bool.or_false,
    Bool.or_eq_true, Bool.and_eq_true, decide_eq_true_eq] at h
  refine Bool.eq_false_iff.mpr fun halpha => ?_
  have hletter : (decide ('A'.val ≤ c.val ∧ c.val ≤ 'Z'.val)
      || decide ('a'.val ≤ c.val) && decide (c.val ≤ 'z'.val)) = true := halpha
  simp only [Bool.or_eq_true, Bool.and_eq_true, decide_eq_true_eq, UInt32.le_iff_toNat_le]
    at hletter
  have hval : c.val.toNat = c.toNat := rfl
  have h1 : 'A'.val.toNat = 65 := rfl
  have h2 : 'Z'.val.toNat = 90 := rfl
  have h3 : 'a'.val.toNat = 97 := rfl
  have h4 : 'z'.val.toNat = 122 := rfl
  rw [hval, h1, h2, h3, h4] at hletter
  omega

theorem isWhiteSpace_of_isBlank {c : Char} (h : isBlank c = true) : isWhiteSpace c = true := by
  simp only [isBlank, Bool.or_eq_true, beq_iff_eq] at h
  rcases h with rfl | rfl <;> rfl

theorem isWhiteSpace_of_mem_lineEnd {e : LineEnd} {c : Char} (h : c ∈ e.chars) :
    isWhiteSpace c = true := by
  have hend : c = '\r' ∨ c = '\n' := by cases e <;> simp_all [LineEnd.chars]
  rcases hend with rfl | rfl <;> rfl

/-- The letters behind the white space at the start of a text. -/
def leadingWord (text : List Char) : List Char :=
  (text.dropWhile isWhiteSpace).takeWhile Char.isAlpha

theorem leadingWord_append {l white rest : List Char}
    (hwhite : ∀ c ∈ white, isWhiteSpace c = true) (hrest : white = [] → rest = []) :
    leadingWord (l ++ (white ++ rest))
      = if (l.dropWhile isWhiteSpace).isEmpty then leadingWord rest
        else (l.dropWhile isWhiteSpace).takeWhile Char.isAlpha := by
  rw [leadingWord, List.dropWhile_append]
  split
  · rw [List.dropWhile_append_of_pos hwhite]
    rfl
  · have hstop : (white ++ rest).takeWhile Char.isAlpha = [] := by
      cases white with
      | nil => rw [hrest rfl]; rfl
      | cons c white =>
          have hc := isAlpha_eq_false (hwhite c List.mem_cons_self)
          exact List.takeWhile_cons_of_neg (by simp [hc])
    rw [List.takeWhile_append, hstop, List.append_nil]
    split
    · next hall => rw [(List.takeWhile_prefix _).eq_of_length hall]
    · rfl

theorem charsOf_joinLines_nil (e : LineEnd) (first : List Char) :
    Glyph.charsOf (joinLines e first []) = first := by
  rw [joinLines, List.flatMap_nil, List.append_nil]
  simp [Glyph.charsOf, List.flatMap_map, Glyph.chars]

theorem charsOf_joinLines_cons (e : LineEnd) (first l : List Char) (others : List (List Char)) :
    Glyph.charsOf (joinLines e first (l :: others))
      = first ++ (e.chars ++ Glyph.charsOf (joinLines e l others)) := by
  rw [joinLines, joinLines, List.flatMap_cons, List.cons_append, Glyph.charsOf_append,
    Glyph.charsOf_cons]
  simp [Glyph.charsOf, List.flatMap_map, Glyph.chars]

theorem leadingWord_joinLines {first first' : List Char} {others others' : List (List Char)}
    (hfirst : Trimmed first first') (hothers : List.Forall₂ Trimmed others others')
    (e e' : LineEnd) : leadingWord (Glyph.charsOf (joinLines e' first' others'))
      = leadingWord (Glyph.charsOf (joinLines e first others)) := by
  induction hothers generalizing first first' with
  | nil =>
      obtain ⟨blanks, hblanks, rfl⟩ := hfirst
      have hkept := @leadingWord_append first' [] [] (by simp) fun _ => rfl
      have hcut := @leadingWord_append first' blanks []
        (fun c hc => isWhiteSpace_of_isBlank (hblanks c hc)) fun _ => rfl
      rw [List.append_nil] at hcut
      rw [List.append_nil, List.append_nil] at hkept
      rw [charsOf_joinLines_nil, charsOf_joinLines_nil, hkept, hcut]
  | cons hl _ ih =>
      obtain ⟨blanks, hblanks, rfl⟩ := hfirst
      have hne : ∀ e : LineEnd, e.chars ≠ [] := by
        intro e
        cases e <;> exact List.cons_ne_nil _ _
      rw [charsOf_joinLines_cons, charsOf_joinLines_cons, List.append_assoc,
        ← List.append_assoc blanks,
        leadingWord_append (fun _ => isWhiteSpace_of_mem_lineEnd) fun hnil => absurd hnil (hne e'),
        leadingWord_append, ih hl]
      · intro c hc
        rcases List.mem_append.mp hc with hc | hc
        · exact isWhiteSpace_of_isBlank (hblanks c hc)
        · exact isWhiteSpace_of_mem_lineEnd hc
      · exact fun hnil => absurd (List.append_eq_nil_iff.mp hnil).2 (hne e)

theorem dropWhile_hash_joinLines (e : LineEnd) (first : List Char) (others : List (List Char)) :
    (Glyph.charsOf (joinLines e first others)).dropWhile (· == '#')
      = Glyph.charsOf (joinLines e (first.dropWhile (· == '#')) others) := by
  cases others with
  | nil => rw [charsOf_joinLines_nil, charsOf_joinLines_nil]
  | cons l others =>
      rw [charsOf_joinLines_cons, charsOf_joinLines_cons, List.dropWhile_append]
      split
      · next hnil =>
        rw [List.isEmpty_iff.mp hnil, List.nil_append]
        cases e <;> rfl
      · rfl

theorem Trimmed.dropWhile_hash {l l' : List Char} (h : Trimmed l l') :
    Trimmed (l.dropWhile (· == '#')) (l'.dropWhile (· == '#')) := by
  obtain ⟨blanks, hblanks, rfl⟩ := h
  refine ⟨blanks, hblanks, ?_⟩
  rw [List.dropWhile_append]
  split
  · next hnil =>
    rw [List.isEmpty_iff.mp hnil, List.nil_append]
    cases blanks with
    | nil => rfl
    | cons c blanks =>
        refine List.dropWhile_cons_of_neg ?_
        rw [beq_iff_eq]
        rintro rfl
        exact absurd (hblanks '#' List.mem_cons_self) (by decide)
  · rfl

/-! ## Pages -/

namespace Page

variable {o : Options} {e : LineEnd} {p q : Page} {t u : Token} {front more : List Char} {c : Char}

theorem outline_begin (p : Page) (t : Token) : (p.begin t).newest.outline
    = if Line.keepsBlanks t.kind && !t.lines.2.isEmpty then
        { p.newest.outline with trimmed := false }
      else p.newest.outline := by
  rw [newest, begin, lines_amend, List.headD_cons]
  dsimp only
  split <;> rfl

theorem exists_first_copied (hfirst : t.lines.1 = c :: more) (hc : isBlank c = false) (p : Page) :
    ∃ more', (p.copied o t).1 = c :: more' := by
  rw [copied]
  dsimp only
  split
  · obtain ⟨cut, hcut, hsplit⟩ := exists_trimRight_append isBlank t.lines.1
    cases htrim : trimRight isBlank t.lines.1 with
    | nil =>
        rw [htrim, List.nil_append, hfirst] at hsplit
        rw [hcut c (hsplit ▸ List.mem_cons_self)] at hc
        cases hc
    | cons d rest =>
        rw [htrim, hfirst, List.cons_append] at hsplit
        obtain ⟨rfl, -⟩ := List.cons.inj hsplit
        exact ⟨rest, rfl⟩
  · exact ⟨more, hfirst⟩

theorem getLast?_copied (p : Page) (t : Token) : (p.copied o t).2.getLast?
    = t.lines.2.getLast?.map fun piece =>
        (Line.continuation t.kind o.indentWidth (p.shift o t) piece).chars
          o.indentKind o.indentWidth := by
  rw [copied, List.getLast?_map]

theorem exists_last_copied (hlast : t.lastLine = front ++ [c]) (hc : isBlank c = false)
    (p : Page) : ∃ front', (p.copied o t).2.getLastD (p.copied o t).1 = front' ++ [c] := by
  rw [Token.lastLine, ← Token.lines, List.getLastD_eq_getLast?] at hlast
  rw [List.getLastD_eq_getLast?, getLast?_copied]
  cases hothers : t.lines.2.getLast? with
  | none =>
      rw [hothers] at hlast
      have hone : t.lines.1 = front ++ [c] := hlast
      refine ⟨front, ?_⟩
      show (if _ then trimRight isBlank t.lines.1 else t.lines.1) = _
      rw [hone, trimRight_concat hc, ite_self]
  | some piece =>
      rw [hothers] at hlast
      have hpiece : piece = front ++ [c] := hlast
      obtain ⟨front', htext⟩ : ∃ front',
          (Line.continuation t.kind o.indentWidth (p.shift o t) piece).text.toList
            = front' ++ [c] := Line.text_continuation hc hpiece
      rw [Option.map_some, Option.getD_some, Line.chars_of_endsInk hc htext, Line.allChars, htext,
        ← List.append_assoc]
      exact ⟨_, rfl⟩

section
variable (hwidth : 0 < o.indentWidth) (hkind : u.kind = t.kind) (hlines : u.lines = p.copied o t)
  (houtline : q.newest.outline = p.newest.outline) (hshift : q.shift o u = 0)
include hkind hlines houtline

theorem outline_begin_again : (q.begin u).newest.outline = (p.begin t).newest.outline := by
  have hothers : u.lines.2.isEmpty = t.lines.2.isEmpty := by
    rw [hlines, copied, List.isEmpty_map]
  rw [outline_begin, outline_begin, hkind, hothers, houtline]

include hwidth hshift

theorem copied_again : q.copied o u = p.copied o t := by
  have hbegin := congrArg Line.trimmed (outline_begin_again hkind hlines houtline)
  have htrimmed : (q.begin u).newest.trimmed = (p.begin t).newest.trimmed := hbegin
  refine Prod.ext ?_ ?_
  · rw [copied, hlines, htrimmed, copied]
    dsimp only
    split
    · exact trimRight_trimRight ..
    · rfl
  · rw [copied, hlines, copied, hkind, hshift]
    dsimp only
    rw [List.map_map]
    exact List.map_congr_left fun piece _ => Line.chars_continuation_again hwidth

variable {language : Language} {atLineStart : Bool} {first : Char} {source : List Glyph} {cut : Cut}

theorem outline_write_again (ht : t.ReadFrom language atLineStart first source cut) :
    (q.write o u).newest.outline = (p.write o t).newest.outline := by
  rw [newest_write, newest_write, Line.outline_mark, Line.outline_mark, hlines, getLast?_copied,
    hkind, hshift]
  cases hlast : t.lines.2.getLast? with
  | none =>
      dsimp only [Option.map_none]
      rw [outline_begin_again hkind hlines houtline]
  | some piece =>
      dsimp only [Option.map_some]
      cases htkind : t.kind with
      | blockComment =>
          obtain ⟨front, c, hfront, hc⟩ := ht.exists_lastLine (by simp [Token.endsLine, htkind])
          rw [Token.lastLine, ← Token.lines, List.getLastD_eq_getLast?, hlast] at hfront
          obtain ⟨front', htext⟩ : ∃ front', (Line.continuation .blockComment o.indentWidth
              (p.shift o t) piece).text.toList = front' ++ [c] := Line.text_continuation hc hfront
          have hne : trimRight isBlank (piece.dropWhile isBlank) ≠ [] := by
            rw [← String.toList_ofList (l := piece.dropWhile isBlank)]
            rw [show (String.ofList (piece.dropWhile isBlank)).toList = _ from htext,
              trimRight_concat hc]
            simp
          rw [Line.continuation_again hwidth hne]
          rfl
      | _ => rfl

omit hwidth houtline in
/-- The line that the token ends on holds nothing exactly if it does the first time, unless a
directive ends in a line of blanks. -/
theorem text_write_again (ht : t.ReadFrom language atLineStart first source cut)
    (hblanks : t.kind = .directive → trimRight isBlank t.lastLine = [] → t.lastLine = []) :
    (q.write o u).newest.text.toList = [] ↔ (p.write o t).newest.text.toList = [] := by
  by_cases hends : t.endsLine = false
  · obtain ⟨front, c, hlast, hc⟩ := ht.exists_lastLine hends
    obtain ⟨front', hlast'⟩ := exists_last_copied (o := o) hlast hc p
    rw [← hlines] at hlast'
    obtain ⟨_, hp⟩ := text_newest_write (o := o) hlast hc p
    obtain ⟨_, hq⟩ := text_newest_write (o := o) (t := u) hlast' hc q
    rw [hp, hq]
    simp
  · rw [Token.lastLine, ← Token.lines, List.getLastD_eq_getLast?] at hblanks
    rw [newest_write, newest_write, text_mark, text_mark, hlines, getLast?_copied, hkind, hshift]
    cases hlast : t.lines.2.getLast? with
    | none =>
        obtain ⟨more, hfirst⟩ := ht.exists_firstLine
        obtain ⟨more', hfirst'⟩ := exists_first_copied (o := o) hfirst ht.not_isBlank p
        rw [← hlines] at hfirst'
        dsimp only [Option.map_none]
        rw [(q.text_newest_begin u).1, (p.text_newest_begin t).1, hfirst, hfirst']
        simp
    | some piece =>
        rw [hlast] at hblanks
        dsimp only [Option.map_some, Option.getD_some] at hblanks ⊢
        cases htkind : t.kind with
        | lineComment =>
            rw [Line.chars_of_indent_zero rfl]
            simp [Line.continuation, Line.empty]
        | directive =>
            rw [Line.chars_of_indent_zero rfl]
            simp only [Line.continuation, Line.empty, if_true, String.toList_ofList]
            constructor
            · exact hblanks htkind
            · rintro rfl
              rfl
        | _ => simp [Token.endsLine, htkind] at hends

end

/-! ## Tokens -/

section
variable {language : Language} {atLineStart : Bool} {first : Char} {source : List Glyph} {cut : Cut}
  (ht : t.ReadFrom language atLineStart first source cut)
include ht

theorem lines_relaid (p : Page) (layout : Layout) :
    (p.relaid o e t layout).lines = (p.ready o t layout).copied o t := by
  have hcopy := (copies_copied (o := o) (e := e) ht (p.ready o t layout)).plain ht.plain_text
  have htext : (p.relaid o e t layout).text = Glyph.textOf (joinLines e
      ((p.ready o t layout).copied o t).1 ((p.ready o t layout).copied o t).2) := rfl
  rw [Token.lines, htext, Glyph.textOf, String.toList_ofList, glyphs_charsOf hcopy,
    linesOf_joinLines]

/-- What stands on the page differs from the token in white space and blanks alone. -/
theorem bare_relaid (hinserted : t.inserted = false) (p : Page) (layout : Layout) :
    (p.relaid o e t layout).bare = t.bare := by
  have hlines := lines_relaid (o := o) (e := e) ht p layout
  have hexact : t.isExact = true → (p.relaid o e t layout).lines = t.lines := by
    intro hexact
    rw [hlines, copied_of_isExact ht hexact]
  have hchars : t.kind = .word ∨ t.kind = .number ∨ t.kind = .punctuation →
      (p.relaid o e t layout).text = t.text := by
    intro hkind
    refine Token.text_eq_of_lines_eq (hexact ?_) ?_
    · rcases hkind with h | h | h <;> simp [Token.isExact, Token.endsLine, h]
    · rw [Token.lines, ht.glyphs_eq]
      refine linesOf_of_chars fun g hg => ?_
      rcases List.mem_cons.mp hg with rfl | hg
      · exact ⟨first, rfl⟩
      · exact (ht.mayGoOn_of_mem hkind g hg).imp fun _ h => h.1
  have hliteral : t.isExact = true →
      (if (p.relaid o e t layout).lines.2.isEmpty then (p.relaid o e t layout).text
        else String.ofList ('\n' :: (p.relaid o e t layout).lastLine))
      = if t.lines.2.isEmpty then t.text else String.ofList ('\n' :: t.lastLine) := by
    intro h
    have hsame := hexact h
    have hlast : (p.relaid o e t layout).lastLine = t.lastLine :=
      congrArg (fun ls : List Char × List (List Char) => ls.2.getLastD ls.1) hsame
    rw [hlast, hsame]
    split
    · next hnil => exact Token.text_eq_of_lines_eq hsame (List.isEmpty_iff.mp hnil)
    · rfl
  have hkind : (p.relaid o e t layout).kind = t.kind := rfl
  have hnew : (p.relaid o e t layout).inserted = false := rfl
  rw [Token.bare, Token.bare, hkind, hnew, hinserted]
  cases htkind : t.kind with
  | word => rw [hchars (.inl htkind)]
  | number => rw [hchars (.inr (.inl htkind))]
  | punctuation => rw [hchars (.inr (.inr htkind))]
  | string => dsimp only; rw [hliteral (by simp [Token.isExact, Token.endsLine, htkind])]
  | character => dsimp only; rw [hliteral (by simp [Token.isExact, Token.endsLine, htkind])]
  | _ => rfl

theorem directiveName_relaid (hkind : t.kind = .directive) (p : Page) (layout : Layout) :
    Plan.directiveName (p.relaid o e t layout).text = Plan.directiveName t.text := by
  have htext : t.text.toList = Glyph.charsOf (joinLines .linux t.lines.1 t.lines.2) := by
    rw [Token.lines, joinLines_linesOf, map_withEnd ht.plain_text, chars_glyphs]
  have hcopy := copies_copied (o := o) (e := e) ht (p.ready o t layout)
  have hrelaid : (p.relaid o e t layout).text = Glyph.textOf (joinLines e
      ((p.ready o t layout).copied o t).1 ((p.ready o t layout).copied o t).2) := rfl
  rw [hrelaid, Plan.directiveName, Plan.directiveName, htext]
  generalize joinLines e ((p.ready o t layout).copied o t).1 ((p.ready o t layout).copied o t).2
    = copy at hcopy
  cases hcopy with
  | exact hexact => simp [Token.isExact, Token.endsLine, hkind] at hexact
  | respaced _ hfirst hothers =>
      have htrimmed := hothers.imp fun _ _ h => by
        rw [hkind] at h
        exact h.trimmed_of_false
      rw [Glyph.textOf, String.toList_ofList, dropWhile_hash_joinLines, dropWhile_hash_joinLines]
      exact congrArg String.ofList (leadingWord_joinLines hfirst.dropWhile_hash htrimmed _ _)

end

end Page

end Beautifier
