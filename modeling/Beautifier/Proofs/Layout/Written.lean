/-
What is written on a page.

A page becomes a list of glyphs: its lines with line breaks between them.  The
newest line is still open, so its trailing blanks count as written until the
next line is started (`Page.written`, `Page.rendered`).  A new line, white
space and the text of a token each put something behind what is written; the
text of a token is put there as a copy of the token (`exists_copy_write`).
-/
import Beautifier.Proofs.Token.Copy
import Beautifier.Proofs.Layout.Conservation
import Beautifier.Proofs.Layout.LastOnLine

namespace Beautifier

namespace Line

/-- A line with its indentation and the blanks at its end. -/
def allChars (kind : IndentKind) (width : Nat) (l : Line) : List Char :=
  l.indent.chars kind width ++ l.text.toList

variable {kind : IndentKind} {width : Nat}

theorem chars_zero : Indent.zero.chars kind width = [] := by
  cases kind <;> simp [Indent.chars, Indent.zero, Indent.columns]

theorem trimmed_chars (l : Line) : Trimmed (l.allChars kind width) (l.chars kind width) := by
  obtain ⟨cut, hcut, htext⟩ : Trimmed l.text.toList
      (if l.trimmed then trimRight isBlank l.text.toList else l.text.toList) := by
    split
    · exact exists_trimRight_append isBlank _
    · exact .refl _
  rw [allChars, Line.chars]
  generalize (if l.trimmed then trimRight isBlank l.text.toList else l.text.toList) = text
    at htext ⊢
  split
  · next hnil =>
    refine ⟨l.indent.chars kind width ++ cut, ?_, ?_⟩
    · intro c hc
      rcases List.mem_append.mp hc with hc | hc
      · exact isBlank_of_mem_indent c hc
      · exact hcut c hc
    · rw [htext, List.isEmpty_iff.mp hnil]
      rfl
  · exact ⟨cut, hcut, by rw [htext, List.append_assoc]⟩

theorem chars_of_not_trimmed {l : Line} (h : l.trimmed = false) (hne : l.text.toList ≠ []) :
    l.chars kind width = l.allChars kind width := by
  rw [Line.chars, allChars, h, if_neg Bool.false_ne_true, if_neg (by simpa using hne)]

end Line

namespace Page

variable {o : Options} {e : LineEnd}

/-- The glyphs of lines, the newest first, that newer lines stand below. -/
def finished (o : Options) (e : LineEnd) (ls : List Line) : List Glyph :=
  ls.reverse.flatMap fun l => (l.chars o.indentKind o.indentWidth).map .char ++ [.lineBreak e]

/-- The glyphs of a page, with the blanks at the end of its newest line. -/
def written (o : Options) (e : LineEnd) (p : Page) : List Glyph :=
  finished o e p.lines.tail
    ++ ((p.lines.headD (.empty .zero)).allChars o.indentKind o.indentWidth).map .char

/-- The glyphs of a page as it is rendered. -/
def rendered (o : Options) (e : LineEnd) (p : Page) : List Glyph :=
  finished o e p.lines.tail
    ++ ((p.lines.headD (.empty .zero)).chars o.indentKind o.indentWidth).map .char

theorem finished_cons (l : Line) (ls : List Line) : finished o e (l :: ls)
    = finished o e ls ++ ((l.chars o.indentKind o.indentWidth).map .char ++ [.lineBreak e]) := by
  simp [finished]

theorem exists_blanks (p : Page) : ∃ blanks : List Char, (∀ c ∈ blanks, isBlank c = true) ∧
    p.written o e = p.rendered o e ++ blanks.map .char := by
  obtain ⟨blanks, hblanks, heq⟩ := @Line.trimmed_chars o.indentKind o.indentWidth
    (p.lines.headD (.empty .zero))
  exact ⟨blanks, hblanks, by rw [written, rendered, heq, List.map_append, List.append_assoc]⟩

theorem toList_render (p : Page) (trailing : Nat) :
    (p.render o.indentKind o.indentWidth e trailing).toList
      = Glyph.charsOf (p.rendered o e ++ List.replicate trailing (.lineBreak e)) := by
  have hchars : ∀ cs : List Char, Glyph.charsOf (cs.map .char) = cs := by
    intro cs
    simp [Glyph.charsOf, List.flatMap_map, Glyph.chars]
  have hlines : ∀ ls (l : Line),
      (((ls ++ [l]).map (Line.chars o.indentKind o.indentWidth)).intersperse e.chars).flatten
        = Glyph.charsOf (ls.flatMap fun l =>
            (l.chars o.indentKind o.indentWidth).map .char ++ [.lineBreak e])
          ++ l.chars o.indentKind o.indentWidth := by
    intro ls l
    induction ls with
    | nil => simp
    | cons x ls ih =>
        obtain ⟨y, ys, hys⟩ := List.exists_cons_of_ne_nil
          (l := (ls ++ [l]).map (Line.chars o.indentKind o.indentWidth)) (by simp)
        rw [List.cons_append, List.map_cons, hys, List.intersperse_cons_cons, List.flatten_cons,
          List.flatten_cons, ← hys, ih, List.flatMap_cons]
        simp [hchars, Glyph.chars]
  have hbreaks : (List.replicate trailing e.chars).flatten
      = Glyph.charsOf (List.replicate trailing (.lineBreak e)) := by
    simp [Glyph.charsOf, List.flatMap_replicate, Glyph.chars]
  rw [render, String.toList_ofList, Glyph.charsOf_append, ← hbreaks, rendered,
    Glyph.charsOf_append, hchars]
  congr 1
  cases hp : p.lines with
  | nil => simp [finished, Line.chars, Line.empty, trimRight]
  | cons l ls =>
      rw [List.reverse_cons, hlines]
      rfl

/-! ## New lines and white space -/

theorem written_blank : Page.blank.written o e = [] := by
  simp [written, blank, finished, Line.allChars, Line.empty, Line.chars_zero]

theorem written_newLine (p : Page) (indent : Indent) (blankLines : Nat) :
    (p.newLine indent blankLines).written o e = p.rendered o e
      ++ (List.replicate ((if p.isEmpty then 0 else 1) + blankLines) (.lineBreak e)
        ++ (indent.chars o.indentKind o.indentWidth).map .char) := by
  have hempty : (Line.empty .zero).chars o.indentKind o.indentWidth = [] := rfl
  have hlines : ∀ ls, finished o e (List.replicate blankLines (.empty .zero) ++ ls)
      = finished o e ls ++ List.replicate blankLines (.lineBreak e) := by
    intro ls
    simp [finished, hempty, List.flatMap_replicate]
  have hpage : finished o e p.lines
      = p.rendered o e ++ List.replicate (if p.isEmpty then 0 else 1) (.lineBreak e) := by
    rw [rendered, isEmpty]
    cases p.lines with
    | nil => simp [finished, hempty]
    | cons l ls => simp [finished_cons]
  have hnew : (Line.empty indent).allChars o.indentKind o.indentWidth
      = indent.chars o.indentKind o.indentWidth := by simp [Line.allChars, Line.empty]
  rw [written, newLine, List.tail_cons, List.headD_cons, hlines, hpage, hnew,
    List.replicate_add]
  simp only [List.append_assoc]

theorem written_amend (p : Page) {f : Line → Line} {more : List Char}
    (hindent : ∀ l, (f l).indent = l.indent)
    (htext : ∀ l, (f l).text.toList = l.text.toList ++ more) :
    (p.amend f).written o e = p.written o e ++ more.map .char := by
  rw [written, written, lines_amend, List.tail_cons, List.headD_cons, Line.allChars, hindent,
    htext, Line.allChars]
  simp

theorem written_space (p : Page) (gap : String) :
    (p.space gap).written o e = p.written o e ++ gap.toList.map .char :=
  written_amend p (fun _ => rfl) fun l => by simp [Line.append]

theorem written_mark (p : Page) (kind : TokenKind) :
    (p.amend (Line.mark kind)).written o e = p.written o e := by
  have h := @written_amend o e p (Line.mark kind) []
    (fun l => by cases kind <;> rfl) fun l => by rw [text_mark, List.append_nil]
  rwa [List.map_nil, List.append_nil] at h

/-- The lines of a text that follow the first one, put below a page.  `R` relates each of them to
what its line holds, with the blanks at the end and without. -/
theorem written_below {R : List Char → List Char → Prop} {line : List Char → Line}
    (hall : ∀ piece, R piece ((line piece).allChars o.indentKind o.indentWidth))
    (hchars : ∀ piece, R piece ((line piece).chars o.indentKind o.indentWidth)) (p : Page)
    (hp : p.lines ≠ []) (piece : List Char) (pieces : List (List Char)) :
    ∃ others, List.Forall₂ R (piece :: pieces) others ∧
      (Page.mk (((piece :: pieces).map line).reverse ++ p.lines)).written o e
        = p.rendered o e ++ others.flatMap fun l => .lineBreak e :: l.map .char := by
  induction pieces generalizing p piece with
  | nil =>
      refine ⟨[(line piece).allChars o.indentKind o.indentWidth], .cons (hall piece) .nil, ?_⟩
      obtain ⟨l, ls, hl⟩ := List.exists_cons_of_ne_nil hp
      simp [written, rendered, hl, finished_cons]
  | cons next pieces ih =>
      obtain ⟨others, hothers, hwritten⟩ := ih ⟨line piece :: p.lines⟩ (List.cons_ne_nil _ _) next
      refine ⟨(line piece).chars o.indentKind o.indentWidth :: others,
        .cons (hchars piece) hothers, ?_⟩
      have hbelow : (((piece :: next :: pieces).map line).reverse ++ p.lines)
          = ((next :: pieces).map line).reverse ++ line piece :: p.lines := by simp
      rw [hbelow, hwritten]
      obtain ⟨l, ls, hl⟩ := List.exists_cons_of_ne_nil hp
      simp [rendered, hl, finished_cons]

/-! ## The text of a token -/

theorem reblanked_continuation {t : Token} (ht : t.isExact = false) (width : Nat) (shift : Int)
    (piece : List Char) : Reblanked (t.kind == .blockComment) piece
      ((Line.continuation t.kind width shift piece).allChars o.indentKind o.indentWidth) := by
  have hsame : ∀ {l : Line}, l.indent = .zero → l.text = String.ofList piece →
      ∀ lead, Reblanked lead piece (l.allChars o.indentKind o.indentWidth) := by
    intro l hindent htext lead
    rw [Line.allChars, hindent, htext, Line.chars_zero, List.nil_append, String.toList_ofList]
    exact (Trimmed.refl piece).reblanked lead
  cases hkind : t.kind with
  | blockComment =>
      refine ⟨piece.takeWhile isBlank,
        (Line.continuation .blockComment width shift piece).indent.chars o.indentKind o.indentWidth,
        piece.dropWhile isBlank, piece.dropWhile isBlank, fun c hc => List.mem_takeWhile_imp hc,
        isBlank_of_mem_indent, nofun, .refl _, List.takeWhile_append_dropWhile.symm, ?_⟩
      rw [Line.allChars]
      congr 1
      exact String.toList_ofList
  | directive => exact hsame rfl rfl _
  | lineComment => exact hsame rfl rfl _
  | _ => simp [Token.isExact, Token.endsLine, hkind] at ht

theorem continuation_of_isExact {t : Token} (ht : t.isExact = true) (width : Nat) (shift : Int)
    (piece : List Char) :
    (Line.continuation t.kind width shift piece).allChars o.indentKind o.indentWidth = piece ∧
      (Line.continuation t.kind width shift piece).chars o.indentKind o.indentWidth = piece := by
  have hline : Line.continuation t.kind width shift piece
      = { Line.empty .zero with text := String.ofList piece, trimmed := false } := by
    cases hkind : t.kind <;>
      simp_all [Token.isExact, Token.endsLine, Line.continuation]
  rw [hline]
  constructor
  · simp [Line.allChars, Line.empty, Line.chars_zero]
  · cases piece with
    | nil => rfl
    | cons c piece => simp [Line.chars, Line.empty, Line.chars_zero]

/-- A page with the first line of a token's text behind its newest line. -/
def begin (p : Page) (t : Token) : Page :=
  p.amend fun l =>
    let l := l.append (String.ofList t.lines.1)
    if Line.keepsBlanks t.kind && !t.lines.2.isEmpty then { l with trimmed := false } else l

theorem written_begin (p : Page) (t : Token) :
    (p.begin t).written o e = p.written o e ++ t.lines.1.map .char := by
  refine written_amend p (fun l => ?_) fun l => ?_
  · dsimp only
    split <;> rfl
  · dsimp only
    split <;> simp [Line.append]

theorem rendered_begin {p : Page} {t : Token} (ht : t.isExact = true) {piece : List Char}
    {pieces : List (List Char)} (hothers : t.lines.2 = piece :: pieces) (hfirst : t.lines.1 ≠ []) :
    (p.begin t).rendered o e = (p.begin t).written o e := by
  have hkeeps : Line.keepsBlanks t.kind = true := by
    cases hkind : t.kind <;> simp_all [Token.isExact, Token.endsLine, Line.keepsBlanks]
  rw [rendered, written, Line.chars_of_not_trimmed]
  · simp [begin, lines_amend, hkeeps, hothers]
  · simp [begin, lines_amend, hkeeps, hothers, Line.append, hfirst]

/-- Cutting blanks off the end of a line reaches no further than the text put there last. -/
theorem rendered_of_written {p q : Page} {c : Char} {more : List Char} (hc : isBlank c = false)
    (h : q.written o e = p.written o e ++ (c :: more).map .char) :
    ∃ more', Trimmed (c :: more) more' ∧ q.rendered o e = p.written o e ++ more'.map .char := by
  obtain ⟨blanks, hblanks, hq⟩ := exists_blanks (o := o) (e := e) q
  rw [h] at hq
  rcases List.append_eq_append_iff.mp hq with ⟨kept, hkept, hmore⟩ | ⟨cut, -, hcut⟩
  · obtain ⟨more', blanks', hsplit, rfl, hblanks'⟩ := List.map_eq_append_iff.mp hmore
    have hsame : blanks' = blanks :=
      List.map_injective_iff.mpr (fun _ _ => Glyph.char.inj) hblanks'
    rw [hsame] at hsplit
    exact ⟨more', ⟨blanks, hblanks, hsplit⟩, hkept⟩
  · have hmem : Glyph.char c ∈ blanks.map .char := by
      rw [hcut]
      exact List.mem_append_right _ List.mem_cons_self
    obtain ⟨d, hd, heq⟩ := List.mem_map.mp hmem
    cases heq
    rw [hblanks c hd] at hc
    cases hc

theorem written_write (p : Page) (t : Token) : (p.write o t).written o e
    = (Page.mk ((t.lines.2.map (Line.continuation t.kind o.indentWidth (p.shift o t))).reverse
        ++ (p.begin t).lines)).written o e := written_mark _ _

theorem lines_begin (p : Page) (t : Token) : (p.begin t).lines ≠ [] := by
  rw [begin, lines_amend]
  exact List.cons_ne_nil _ _

theorem written_write_of_isExact {t : Token} (ht : t.isExact = true) (hfirst : t.lines.1 ≠ [])
    (p : Page) :
    (p.write o t).written o e = p.written o e ++ joinLines e t.lines.1 t.lines.2 := by
  rw [written_write]
  cases hothers : t.lines.2 with
  | nil =>
      show (p.begin t).written o e = _
      rw [written_begin]
      simp [joinLines]
  | cons piece pieces =>
      obtain ⟨others, hsame, hwritten⟩ := written_below (R := Eq)
        (fun piece => (continuation_of_isExact ht o.indentWidth (p.shift o t) piece).1.symm)
        (fun piece => (continuation_of_isExact ht o.indentWidth (p.shift o t) piece).2.symm)
        (p.begin t) (lines_begin p t) piece pieces
      rw [List.forall₂_eq_eq_eq] at hsame
      subst hsame
      rw [hwritten, rendered_begin ht hothers hfirst, written_begin, joinLines, List.append_assoc]

/-- What holds of the further lines of a token, with the blanks at their ends and without, holds of
what is put behind what is written. -/
theorem exists_joinLines_write {t : Token} {c : Char} {more : List Char}
    (hfirst : t.lines.1 = c :: more) (hc : isBlank c = false) {R : List Char → List Char → Prop}
    (p : Page)
    (hall : ∀ piece, R piece ((Line.continuation t.kind o.indentWidth (p.shift o t) piece).allChars
      o.indentKind o.indentWidth))
    (hchars : ∀ piece, R piece ((Line.continuation t.kind o.indentWidth (p.shift o t) piece).chars
      o.indentKind o.indentWidth)) :
    ∃ first others, Trimmed t.lines.1 first ∧ List.Forall₂ R t.lines.2 others ∧
      (p.write o t).written o e = p.written o e ++ joinLines e first others := by
  rw [written_write]
  cases hothers : t.lines.2 with
  | nil =>
      refine ⟨t.lines.1, [], .refl _, .nil, ?_⟩
      show (p.begin t).written o e = _
      rw [written_begin]
      simp [joinLines]
  | cons piece pieces =>
      obtain ⟨others, hre, hwritten⟩ :=
        written_below hall hchars (p.begin t) (lines_begin p t) piece pieces
      have hbegin := written_begin (o := o) (e := e) p t
      rw [hfirst] at hbegin
      obtain ⟨first, htrimmed, hrendered⟩ := rendered_of_written hc hbegin
      rw [← hfirst] at htrimmed
      exact ⟨first, others, htrimmed, hre, by
        rw [hwritten, hrendered, joinLines, List.append_assoc]⟩

theorem exists_respaced_write {t : Token} (ht : t.isExact = false) {c : Char} {more : List Char}
    (hfirst : t.lines.1 = c :: more) (hc : isBlank c = false) (p : Page) :
    ∃ first others, Trimmed t.lines.1 first ∧
      List.Forall₂ (Reblanked (t.kind == .blockComment)) t.lines.2 others ∧
      (p.write o t).written o e = p.written o e ++ joinLines e first others :=
  exists_joinLines_write hfirst hc p (reblanked_continuation ht _ _) fun piece =>
    (reblanked_continuation ht _ _ piece).trimmed (Line.trimmed_chars _)

theorem exists_copy_write {language : Language} {t : Token} {atLineStart : Bool} {first : Char}
    {source : List Glyph} {cut : Cut} (ht : t.ReadFrom language atLineStart first source cut)
    (o : Options) (p : Page) :
    ∃ copy, Copies e t copy ∧ (p.write o t).written o e = p.written o e ++ copy := by
  obtain ⟨more, hfirst⟩ : ∃ more, t.lines.1 = first :: more := by
    rw [Token.lines, ht.glyphs_eq]
    exact ⟨_, rfl⟩
  cases hexact : t.isExact with
  | true =>
      have hne : t.lines.1 ≠ [] := by
        rw [hfirst]
        exact List.cons_ne_nil _ _
      exact ⟨_, .exact hexact, written_write_of_isExact hexact hne p⟩
  | false =>
      obtain ⟨first', others, htrimmed, hre, hwritten⟩ :=
        exists_respaced_write hexact hfirst ht.not_isBlank p
      exact ⟨_, .respaced hexact htrimmed hre, hwritten⟩

end Page

end Beautifier
