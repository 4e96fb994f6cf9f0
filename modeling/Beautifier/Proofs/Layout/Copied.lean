/-
What is written for a token, to the character.

`Page.copied` are the lines of a token as they stand on the page: blanks at
their ends are cut off, unless a literal of several lines keeps them, and
those of a block comment are shifted.  A token that does not run up to the end
of its line leaves nothing behind it that is cut off later
(`Page.written_write_eq`).
-/
import Beautifier.Proofs.Layout.Written

namespace Beautifier

/-! ## Trimming -/

theorem trimRight_trimRight (p : Char → Bool) (text : List Char) :
    trimRight p (trimRight p text) = trimRight p text := by
  obtain ⟨cut, hcut, htext⟩ := exists_trimRight_append p text
  conv => rhs; rw [htext, trimRight_append hcut]

theorem getLastD_linesOf (gs : List Glyph) (c : Char) :
    ∃ front, (linesOf (gs ++ [.char c])).2.getLastD (linesOf (gs ++ [.char c])).1
      = front ++ [c] := by
  induction gs with
  | nil => exact ⟨[], rfl⟩
  | cons g gs ih =>
      obtain ⟨front, ih⟩ := ih
      rw [List.cons_append]
      generalize hlines : linesOf (gs ++ [.char c]) = ls at ih
      obtain ⟨l, others⟩ := ls
      cases g with
      | lineBreak e =>
          refine ⟨front, ?_⟩
          rw [linesOf, hlines, ← ih]
          cases others <;> rfl
      | char d =>
          rw [linesOf, hlines]
          cases others with
          | nil => exact ⟨d :: front, congrArg (d :: ·) ih⟩
          | cons l' others => exact ⟨front, ih⟩

namespace Token.ReadFrom

variable {language : Language} {t : Token} {atLineStart : Bool} {first : Char}
  {source : List Glyph} {cut : Cut}

theorem exists_firstLine (h : t.ReadFrom language atLineStart first source cut) :
    ∃ more, t.lines.1 = first :: more := by
  rw [Token.lines, h.glyphs_eq]
  exact ⟨_, rfl⟩

theorem exists_lastLine (h : t.ReadFrom language atLineStart first source cut)
    (ht : t.endsLine = false) :
    ∃ front c, t.lastLine = front ++ [c] ∧ isBlank c = false := by
  obtain ⟨gs, c, hgs, hc⟩ := h.endsInk ht
  obtain ⟨front, hlast⟩ := getLastD_linesOf gs c
  exact ⟨front, c, by rw [lastLine, h.glyphs_eq, hgs, hlast], hc⟩

end Token.ReadFrom

/-! ## Lines -/

namespace Line

variable {kind : IndentKind} {width : Nat}

@[simp] theorem chars_mark (k : TokenKind) (l : Line) :
    (l.mark k).chars kind width = l.chars kind width := by
  cases k <;> rfl

theorem chars_of_endsInk {l : Line} {front : List Char} {c : Char} (hc : isBlank c = false)
    (h : l.text.toList = front ++ [c]) : l.chars kind width = l.allChars kind width := by
  rw [Line.chars, allChars, h, trimRight_concat hc]
  simp

theorem text_continuation {k : TokenKind} {shift : Int} {piece front : List Char} {c : Char}
    (hc : isBlank c = false) (h : piece = front ++ [c]) :
    ∃ front', (continuation k width shift piece).text.toList = front' ++ [c] := by
  cases k with
  | blockComment =>
      refine ⟨front.dropWhile isBlank, ?_⟩
      show (String.ofList (piece.dropWhile isBlank)).toList = _
      rw [String.toList_ofList, h, List.dropWhile_append]
      split
      · next hnil => simp [hc, List.isEmpty_iff.mp hnil]
      · rfl
  | _ => exact ⟨front, (String.toList_ofList ..).trans h⟩

end Line

namespace Page

variable {o : Options} {e : LineEnd}

/-- The line that is written on. -/
def newest (p : Page) : Line := p.lines.headD (.empty .zero)

theorem rendered_mark (p : Page) (kind : TokenKind) :
    (p.amend (Line.mark kind)).rendered o e = p.rendered o e := by
  rw [rendered, rendered, lines_amend, List.tail_cons, List.headD_cons, Line.chars_mark]

theorem rendered_below (line : List Char → Line) (pieces : List (List Char)) (p : Page)
    (hp : p.lines ≠ []) : (Page.mk ((pieces.map line).reverse ++ p.lines)).rendered o e
      = p.rendered o e ++ (pieces.map fun piece =>
          (line piece).chars o.indentKind o.indentWidth).flatMap
            fun l => .lineBreak e :: l.map .char := by
  induction pieces generalizing p with
  | nil => simp
  | cons piece pieces ih =>
      have hbelow : ((piece :: pieces).map line).reverse ++ p.lines
          = (pieces.map line).reverse ++ line piece :: p.lines := by simp
      obtain ⟨l, ls, hl⟩ := List.exists_cons_of_ne_nil hp
      rw [hbelow, ih ⟨line piece :: p.lines⟩ (List.cons_ne_nil _ _)]
      simp [rendered, hl, finished_cons]

/-- The lines of a token as they stand on a page that it is written on. -/
def copied (o : Options) (p : Page) (t : Token) : List Char × List (List Char) :=
  (if (p.begin t).newest.trimmed then trimRight isBlank t.lines.1 else t.lines.1,
    t.lines.2.map fun piece =>
      (Line.continuation t.kind o.indentWidth (p.shift o t) piece).chars o.indentKind o.indentWidth)

theorem text_newest_begin (p : Page) (t : Token) :
    (p.begin t).newest.text.toList = p.newest.text.toList ++ t.lines.1 ∧
      (p.begin t).newest.indent = p.newest.indent := by
  rw [newest, begin, lines_amend, List.headD_cons]
  dsimp only
  split <;> simp [Line.append, newest]

theorem rendered_begin_eq {p : Page} {t : Token} {c : Char} {more : List Char}
    (hfirst : t.lines.1 = c :: more) (hc : isBlank c = false) :
    (p.begin t).rendered o e = p.written o e ++ (p.copied o t).1.map .char := by
  obtain ⟨htext, hindent⟩ := p.text_newest_begin t
  have htail : (p.begin t).lines.tail = p.lines.tail := by rw [begin, lines_amend, List.tail_cons]
  have hchars : ((p.begin t).newest).chars o.indentKind o.indentWidth
      = p.newest.allChars o.indentKind o.indentWidth ++ (p.copied o t).1 := by
    rw [Line.chars, htext, hindent, Line.allChars, copied, hfirst, trimRight_append_cons hc]
    obtain ⟨d, rest, hne⟩ : ∃ d rest, trimRight isBlank (c :: more) = d :: rest := by
      refine List.exists_cons_of_ne_nil fun hnil => ?_
      obtain ⟨cut, hcut, hsplit⟩ := exists_trimRight_append isBlank (c :: more)
      rw [hnil, List.nil_append] at hsplit
      rw [hcut c (hsplit ▸ List.mem_cons_self)] at hc
      cases hc
    split <;> simp [hne]
  rw [newest, newest] at hchars
  rw [rendered, htail, hchars, written, List.map_append, List.append_assoc]

theorem rendered_write {p : Page} {t : Token} {c : Char} {more : List Char}
    (hfirst : t.lines.1 = c :: more) (hc : isBlank c = false) :
    (p.write o t).rendered o e
      = p.written o e ++ joinLines e (p.copied o t).1 (p.copied o t).2 := by
  show (Page.amend ⟨_⟩ _).rendered o e = _
  rw [rendered_mark]
  refine (rendered_below _ _ (p.begin t) (lines_begin p t)).trans ?_
  rw [rendered_begin_eq hfirst hc, joinLines, List.append_assoc]
  rfl

/-- The line that a token ends on. -/
theorem newest_write (p : Page) (t : Token) : (p.write o t).newest
    = Line.mark t.kind (match t.lines.2.getLast? with
      | none => (p.begin t).newest
      | some piece => Line.continuation t.kind o.indentWidth (p.shift o t) piece) := by
  show (Page.amend ⟨((t.lines.2.map _).reverse ++ (p.begin t).lines)⟩ _).newest = _
  rw [newest, lines_amend, List.headD_cons]
  cases t.lines.2 using List.reverseRecOn with
  | nil => rfl
  | append_singleton others piece => simp

theorem text_newest_write {t : Token} {front : List Char} {c : Char}
    (hlast : t.lastLine = front ++ [c]) (hc : isBlank c = false) (p : Page) :
    ∃ front', (p.write o t).newest.text.toList = front' ++ [c] := by
  rw [Token.lastLine, ← Token.lines] at hlast
  rw [newest_write, text_mark]
  cases hothers : t.lines.2.getLast? with
  | none =>
      rw [List.getLast?_eq_none_iff.mp hothers] at hlast
      exact ⟨_, by rw [(p.text_newest_begin t).1, show t.lines.1 = _ from hlast,
        ← List.append_assoc]⟩
  | some piece =>
      rw [List.getLastD_eq_getLast?, hothers] at hlast
      exact Line.text_continuation hc hlast

theorem written_write_eq {t : Token} {front : List Char} {c : Char}
    (hlast : t.lastLine = front ++ [c]) (hc : isBlank c = false) (p : Page) :
    (p.write o t).written o e = (p.write o t).rendered o e := by
  obtain ⟨front', htext⟩ := text_newest_write (o := o) hlast hc p
  rw [newest] at htext
  rw [written, rendered, Line.chars_of_endsInk hc htext]

end Page

end Beautifier
