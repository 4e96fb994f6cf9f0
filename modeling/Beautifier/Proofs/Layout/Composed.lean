/-
The output as gaps and copies.

Whatever the source, the output is made up of one piece for each token: white
space, and a copy of the token (`exists_composition`).  The layout may put
blanks of its own in front of the token and in front of the further lines of a
block comment; where it indents with spaces and converts tabs, it puts none of
its own that are tabs (`Piece.Fits`).

A page is followed through the run in two forms, with the blanks at the end of
its newest line and without, for the next token may be written behind the
blanks or leave them out (`composed_stage`).
-/
import Beautifier.Proofs.Layout.Relaid

namespace Beautifier

/-! ## Pieces that fit their tokens -/

/-- The second line is the first one as a further line of a token is written: blanks at its end may
be left out, and in a block comment those at its start are replaced by an indentation, with tabs
only where `tabs` allows them. -/
def Reindented (tabs lead : Bool) (l l' : List Char) : Prop :=
  ∃ indentation content, l' = indentation ++ content ∧
    (∀ c ∈ indentation, c = ' ' ∨ tabs = true ∧ c = '\t') ∧
    (lead = false → indentation = []) ∧
    Trimmed (if lead then l.dropWhile isBlank else l) content

/-- A piece is white space and a copy of its token; the layout has put tabs in only where `tabs`
allows them. -/
structure Piece.Fits (tabs : Bool) (e : LineEnd) (p : Piece) : Prop where
  isGap : ∀ g ∈ p.gap, g.isGap = true
  plain : Plain e p.gap
  noTab : tabs = false → .char '\t' ∉ p.gap
  copy : ∃ first others, Trimmed p.token.lines.1 first ∧
    List.Forall₂ (Reindented tabs (p.token.kind == .blockComment)) p.token.lines.2 others ∧
    p.copy = joinLines e first others

variable {tabs : Bool} {e : LineEnd}

/-! ### Lines -/

theorem Reindented.trimmed {lead : Bool} {l l' l'' : List Char} (h : Reindented tabs lead l l')
    (h' : Trimmed l' l'') : Reindented tabs lead l l'' := by
  obtain ⟨indentation, content, rfl, hindentation, hlead, htrimmed⟩ := h
  obtain ⟨cut, hcut, heq⟩ := h'
  rcases List.append_eq_append_iff.mp heq with ⟨content', rfl, rfl⟩ | ⟨more, rfl, rfl⟩
  · exact ⟨indentation, content', rfl, hindentation, hlead, htrimmed.trans ⟨cut, hcut, rfl⟩⟩
  · -- the cut reaches into the indentation
    refine ⟨l'', [], (List.append_nil _).symm,
      fun c hc => hindentation c (List.mem_append_left _ hc),
      fun hfalse => (List.append_eq_nil_iff.mp (hlead hfalse)).1,
      htrimmed.trans ⟨content, fun c hc => hcut c (List.mem_append_right _ hc), rfl⟩⟩

theorem ink_eq_of_trimmed {l l' : List Char} (h : Trimmed l l') : ink l' = ink l := by
  obtain ⟨cut, hcut, rfl⟩ := h
  rw [ink_append, ink_eq_nil fun c hc => isSpace_of_isBlank (hcut c hc), List.append_nil]

theorem Reindented.ink_eq {lead : Bool} {l l' : List Char} (h : Reindented tabs lead l l') :
    ink l' = ink l := by
  obtain ⟨indentation, content, rfl, hindentation, -, htrimmed⟩ := h
  have hspace : ∀ c ∈ indentation, isSpace c = true := by
    intro c hc
    rcases hindentation c hc with rfl | ⟨-, rfl⟩ <;> rfl
  rw [ink_append, ink_eq_nil hspace, List.nil_append, ink_eq_of_trimmed htrimmed]
  split
  · exact ink_dropWhile l
  · rfl

theorem flatMap_ink_eq {lead : Bool} {ls ls' : List (List Char)}
    (h : List.Forall₂ (Reindented tabs lead) ls ls') : ls'.flatMap ink = ls.flatMap ink := by
  induction h with
  | nil => rfl
  | cons hl _ ih => rw [List.flatMap_cons, List.flatMap_cons, hl.ink_eq, ih]

theorem Reindented.mem {lead : Bool} {l l' : List Char} (h : Reindented tabs lead l l') {c : Char}
    (hc : c ∈ l') : c ∈ l ∨ c = ' ' ∨ tabs = true ∧ c = '\t' := by
  obtain ⟨indentation, content, rfl, hindentation, -, htrimmed⟩ := h
  rcases List.mem_append.mp hc with hc | hc
  · exact .inr (hindentation c hc)
  · have hmem := htrimmed.subset hc
    split at hmem
    · exact .inl ((List.dropWhile_sublist _).subset hmem)
    · exact .inl hmem

theorem Indent.of_mem_chars {kind : IndentKind} {width : Nat} {i : Indent}
    (hkind : tabs = false → kind = .spaces) :
    ∀ c ∈ i.chars kind width, c = ' ' ∨ tabs = true ∧ c = '\t' := by
  intro c hc
  cases htabs : tabs with
  | true =>
      have hblank := isBlank_of_mem_indent c hc
      simpa [isBlank] using hblank
  | false =>
      rw [hkind htabs] at hc
      simp only [chars, List.replicate_zero, List.nil_append] at hc
      exact .inl (List.mem_replicate.mp hc).2

theorem reindented_continuation {o : Options} (hkind : tabs = false → o.indentKind = .spaces)
    (kind : TokenKind) (width : Nat) (shift : Int) (piece : List Char) :
    Reindented tabs (kind == .blockComment) piece
      ((Line.continuation kind width shift piece).allChars o.indentKind o.indentWidth) := by
  have hsame : ∀ {l : Line}, l.indent = .zero → l.text = String.ofList piece →
      Reindented tabs false piece (l.allChars o.indentKind o.indentWidth) := by
    intro l hindent htext
    rw [Line.allChars, hindent, htext, Line.chars_zero, List.nil_append, String.toList_ofList]
    exact ⟨[], piece, rfl, fun c hc => absurd hc List.not_mem_nil, fun _ => rfl, .refl piece⟩
  cases kind with
  | blockComment =>
      exact ⟨_, piece.dropWhile isBlank, congrArg _ (String.toList_ofList ..),
        Indent.of_mem_chars hkind, fun h => absurd h (by decide), .refl _⟩
  | _ => exact hsame rfl rfl

/-! ### Gaps -/

theorem gap_fits {o : Options}
    (htabs : tabs = false → o.indentKind = .spaces ∧ o.convertTabs = true) {t : Token}
    (ht : ∀ c ∈ t.space.toList, isGapChar c = true) (p : Page) (layout : Layout) :
    (∀ g ∈ (p.piece o e t layout).gap, g.isGap = true) ∧ Plain e (p.piece o e t layout).gap ∧
      (tabs = false → .char '\t' ∉ (p.piece o e t layout).gap) := by
  have hspace : (∀ c ∈ (layout.space o p t).toList, isGapChar c = true) ∧
      (tabs = false → '\t' ∉ (layout.space o p t).toList) := by
    cases layout with
    | newLine indent blankLines =>
        rw [Layout.space, String.toList_ofList]
        refine ⟨fun c hc => ?_, fun hfalse hmem => ?_⟩
        · simp [isGapChar, isBlank_of_mem_indent c hc]
        · rcases Indent.of_mem_chars (fun h => (htabs h).1) _ hmem with h | ⟨h, -⟩
          · cases h
          · rw [hfalse] at h
            cases h
    | sameLine spacing =>
        exact ⟨p.forall_mem_gap o (q := fun c => isGapChar c = true) rfl ht spacing,
          fun hfalse => Page.noTab_gap (htabs hfalse).2 p t spacing⟩
  refine ⟨?_, plain_append.mpr ⟨?_, plain_of_isGapChar hspace.1⟩, fun hfalse hmem => ?_⟩
  · intro g hg
    rcases List.mem_append.mp hg with hg | hg
    · rw [(List.mem_replicate.mp hg).2]
      rfl
    · exact isGap_of_isGapChar hspace.1 g hg
  · intro g hg
    rw [(List.mem_replicate.mp hg).2]
  · rcases List.mem_append.mp hmem with hmem | hmem
    · cases (List.mem_replicate.mp hmem).2
    · obtain ⟨c, hc, heq⟩ := List.mem_map.mp hmem
      exact hspace.2 hfalse (Glyph.char.inj heq ▸ hc)

/-! ## The run -/

/-- Glyphs are made up of one piece for each token. -/
def Composed (tabs : Bool) (e : LineEnd) (tokens : List Token) (gs : List Glyph) : Prop :=
  ∃ pieces : List Piece, pieces.map Piece.token = tokens ∧ (∀ p ∈ pieces, p.Fits tabs e) ∧
    pieces.flatMap Piece.glyphs = gs

theorem Composed.snoc {tokens : List Token} {gs : List Glyph} (h : Composed tabs e tokens gs)
    {p : Piece} (hp : p.Fits tabs e) : Composed tabs e (tokens ++ [p.token]) (gs ++ p.glyphs) := by
  obtain ⟨pieces, rfl, hfits, rfl⟩ := h
  refine ⟨pieces ++ [p], by simp, fun q hq => ?_, by simp⟩
  rcases List.mem_append.mp hq with hq | hq
  · exact hfits q hq
  · exact List.mem_singleton.mp hq ▸ hp

/-- A token whose text starts with ink. -/
def Token.StartsInInk (t : Token) : Prop :=
  ∃ first behind, t.text.toList = first :: behind ∧ isSpace first = false

theorem Token.StartsInInk.exists_firstLine {t : Token} (h : t.StartsInInk) :
    ∃ first more, t.lines.1 = first :: more ∧ isSpace first = false := by
  obtain ⟨first, behind, htext, hfirst⟩ := h
  have hbreak : first ≠ '\r' ∧ first ≠ '\n' := by
    constructor <;> rintro rfl <;> cases hfirst
  rw [Token.lines, htext, glyphs_cons hbreak.1 hbreak.2, linesOf]
  exact ⟨first, _, rfl, hfirst⟩

theorem isBlank_eq_false {c : Char} (h : isSpace c = false) : isBlank c = false := by
  by_contra hblank
  rw [isSpace_of_isBlank (by simpa using hblank)] at h
  cases h

section
variable {o : Options} {t : Token} {tokens : List Token} {n : Nat}

/-- Both forms of a page are made up of pieces behind a token if they were in front of it. -/
theorem composed_write (htabs : tabs = false → o.indentKind = .spaces ∧ o.convertTabs = true)
    (ht : t.StartsInInk) (hspace : ∀ c ∈ t.space.toList, isGapChar c = true) {p : Page}
    (hwritten : Composed tabs e tokens (p.written o e))
    (hrendered : Composed tabs e tokens (p.rendered o e)) (layout : Layout) :
    Composed tabs e (tokens ++ [t]) (((p.ready o t layout).write o t).written o e) ∧
      Composed tabs e (tokens ++ [t]) (((p.ready o t layout).write o t).rendered o e) := by
  obtain ⟨first, more, hfirst, hink⟩ := ht.exists_firstLine
  have hblank := isBlank_eq_false hink
  obtain ⟨front, hfront, hready⟩ : ∃ front, Composed tabs e tokens front ∧
      (p.ready o t layout).written o e = front ++ (p.piece o e t layout).gap := by
    rw [Page.written_ready]
    cases layout with
    | newLine => exact ⟨_, hrendered, rfl⟩
    | sameLine => exact ⟨_, hwritten, rfl⟩
  obtain ⟨hisGap, hplain, hnoTab⟩ := gap_fits (e := e) htabs hspace p layout
  have hsnoc : ∀ first' others, Trimmed t.lines.1 first' →
      List.Forall₂ (Reindented tabs (t.kind == .blockComment)) t.lines.2 others →
      Composed tabs e (tokens ++ [t])
        ((p.ready o t layout).written o e ++ joinLines e first' others) := by
    intro first' others htrimmed hothers
    rw [hready, List.append_assoc]
    exact hfront.snoc (p := ⟨t, (p.piece o e t layout).gap, joinLines e first' others⟩)
      ⟨hisGap, hplain, hnoTab, first', others, htrimmed, hothers, rfl⟩
  have hcontinued : ∀ shift piece, Reindented tabs (t.kind == .blockComment) piece
      ((Line.continuation t.kind o.indentWidth shift piece).allChars o.indentKind o.indentWidth) :=
    reindented_continuation (fun h => (htabs h).1) t.kind o.indentWidth
  constructor
  · obtain ⟨first', others, htrimmed, hothers, heq⟩ := Page.exists_joinLines_write (e := e) hfirst
      hblank (p.ready o t layout) (hcontinued _) fun piece =>
        (hcontinued _ piece).trimmed (Line.trimmed_chars _)
    rw [heq]
    exact hsnoc first' others htrimmed hothers
  · rw [Page.rendered_write hfirst hblank]
    refine hsnoc _ _ ?_ ?_
    · rw [Page.copied]
      dsimp only
      split
      · exact exists_trimRight_append isBlank _
      · exact .refl _
    · rw [Page.copied, List.forall₂_map_right_iff, List.forall₂_same]
      exact fun piece _ => (hcontinued _ piece).trimmed (Line.trimmed_chars _)

/-- In front of every token the page is made up of the pieces of the tokens before. -/
theorem composed_stage (htabs : tabs = false → o.indentKind = .spaces ∧ o.convertTabs = true)
    (hstarts : ∀ t ∈ tokens, t.StartsInInk)
    (hspaces : ∀ t ∈ tokens, ∀ c ∈ t.space.toList, isGapChar c = true)
    (hn : n ≤ tokens.length) :
    Composed tabs e (tokens.take n) ((stage o tokens n).page.written o e) ∧
      Composed tabs e (tokens.take n) ((stage o tokens n).page.rendered o e) := by
  induction n with
  | zero =>
      have hnil : Composed tabs e [] [] := ⟨[], rfl, nofun, rfl⟩
      exact ⟨Page.written_blank ▸ hnil, hnil⟩
  | succ n ih =>
      obtain ⟨hwritten, hrendered⟩ := ih (Nat.le_of_succ_le hn)
      have hget : tokens[n]? = some tokens[n] := List.getElem?_eq_getElem hn
      have hmem := List.mem_of_getElem? hget
      rw [page_stage_succ hget, List.take_add_one, hget]
      exact composed_write htabs (hstarts _ hmem) (hspaces _ hmem) hwritten hrendered _

end

/-! ## The output -/

/-- Pieces that the output for a source is made up of, one for each token that is laid out, and
behind them the line breaks at the end of the source. -/
structure Composition (tabs : Bool) (o : Options) (source : String) (pieces : List Piece) :
    Prop where
  tokens : pieces.map Piece.token = tokensToLayOut o (tokenize o.language o.indentWidth source)
  fits : ∀ p ∈ pieces, p.Fits tabs (lineEndOf o source)
  output : glyphs (format o source).toList = pieces.flatMap Piece.glyphs
    ++ List.replicate (tokenize o.language o.indentWidth source).trailingBreaks
      (.lineBreak (lineEndOf o source))

theorem plain_map_withEnd (e : LineEnd) (cs : List Char) :
    Plain e ((glyphs cs).map (Glyph.withEnd e)) := by
  fun_induction glyphs cs with
  | case1 => exact plain_nil
  | case2 rest ih => exact plain_cons.mpr ⟨by simp [Plain, Glyph.withEnd], ih⟩
  | case3 rest _ ih => exact plain_cons.mpr ⟨by simp [Plain, Glyph.withEnd], ih⟩
  | case4 rest ih => exact plain_cons.mpr ⟨by simp [Plain, Glyph.withEnd], ih⟩
  | case5 c rest _ hreturn hfeed ih =>
      exact plain_cons.mpr ⟨by simpa [Plain, Glyph.withEnd] using ⟨hreturn, hfeed⟩, ih⟩

namespace Piece.Fits

variable {p : Piece}

theorem mem_copy (h : p.Fits tabs e) {c : Char} (hc : .char c ∈ p.copy) :
    c ∈ p.token.lines.1 ∨ (∃ l ∈ p.token.lines.2, c ∈ l) ∨ c = ' ' ∨ tabs = true ∧ c = '\t' := by
  obtain ⟨first, others, hfirst, hothers, hcopy⟩ := h.copy
  rw [hcopy, joinLines] at hc
  rcases List.mem_append.mp hc with hc | hc
  · obtain ⟨d, hd, heq⟩ := List.mem_map.mp hc
    cases heq
    exact .inl (hfirst.subset hd)
  · obtain ⟨l', hl', hc⟩ := List.mem_flatMap.mp hc
    have hc : c ∈ l' := by simpa using hc
    obtain ⟨n, hn, rfl⟩ := List.mem_iff_getElem.mp hl'
    have hl := List.getElem_mem (hothers.length_eq ▸ hn)
    rcases (hothers.get _ hn).mem hc with hc | hc
    · exact .inr (.inl ⟨_, hl, hc⟩)
    · exact .inr (.inr hc)

theorem plain_glyphs (h : p.Fits tabs e) : Plain e p.glyphs := by
  have hlines := plain_map_withEnd e p.token.text.toList
  rw [← joinLines_linesOf, ← Token.lines, plain_joinLines] at hlines
  refine plain_append.mpr ⟨h.plain, fun g hg => ?_⟩
  cases g with
  | char c =>
      rcases h.mem_copy hg with hc | ⟨l, hl, hc⟩ | rfl | ⟨-, rfl⟩
      · exact hlines.1 c hc
      · exact hlines.2 l hl c hc
      · exact ⟨by decide, by decide⟩
      · exact ⟨by decide, by decide⟩
  | lineBreak e' =>
      obtain ⟨first, others, -, -, hcopy⟩ := h.copy
      rw [hcopy] at hg
      simp only [joinLines, List.mem_append, List.mem_map, List.mem_flatMap, List.mem_cons,
        reduceCtorEq, and_false, exists_false, or_false, false_or] at hg
      obtain ⟨-, -, hg⟩ := hg
      exact Glyph.lineBreak.inj hg

theorem ink_glyphs (h : p.Fits tabs e) :
    ink (Glyph.charsOf p.glyphs) = ink p.token.text.toList := by
  obtain ⟨first, others, hfirst, hothers, hcopy⟩ := h.copy
  have hgap : ink (Glyph.charsOf p.gap) = [] := ink_eq_nil (isSpace_of_isGap h.isGap)
  have htext := ink_linesOf (Beautifier.glyphs p.token.text.toList)
  rw [chars_glyphs, ← Token.lines] at htext
  have hlines := ink_linesOf (joinLines e first others)
  rw [linesOf_joinLines] at hlines
  rw [Piece.glyphs, Glyph.charsOf_append, ink_append, hgap, List.nil_append, hcopy, ← hlines,
    ink_eq_of_trimmed hfirst, flatMap_ink_eq hothers, htext]

end Piece.Fits

theorem isGapChar_of_mem_tokensToLayOut (o : Options) (language : Language) (width : Nat)
    (source : String) : ∀ t ∈ tokensToLayOut o (tokenize language width source),
      ∀ c ∈ t.space.toList, isGapChar c = true := by
  have hone : ∀ c ∈ " ".toList, isGapChar c = true := by
    intro c hc
    rw [List.mem_singleton.mp hc]
    rfl
  have hpart := partition_tokenize language width source
  exact forall_mem_tokensToLayOut o hpart.isGapChar_of_mem_space hone hone

theorem composed_layOut {o : Options}
    (htabs : tabs = false → o.indentKind = .spaces ∧ o.convertTabs = true) (source : String) :
    Composed tabs e (tokensToLayOut o (tokenize o.language o.indentWidth source))
      ((layOut o (tokensToLayOut o (tokenize o.language o.indentWidth source))).rendered o e) := by
  have hstage := (composed_stage (e := e) htabs
    (starts_tokensToLayOut o o.language o.indentWidth source)
    (isGapChar_of_mem_tokensToLayOut o o.language o.indentWidth source) (Nat.le_refl _)).2
  rw [← layOut_eq_stage, List.take_length] at hstage
  exact hstage

/-- The output for any source is what the page holds behind the last token, and the line breaks at
the end of the source. -/
theorem glyphs_format_eq_rendered (o : Options) (source : String) :
    glyphs (format o source).toList
      = (layOut o (tokensToLayOut o (tokenize o.language o.indentWidth source))).rendered o
          (lineEndOf o source)
        ++ List.replicate (tokenize o.language o.indentWidth source).trailingBreaks
          (.lineBreak (lineEndOf o source)) := by
  have hany : true = false → o.indentKind = .spaces ∧ o.convertTabs = true := nofun
  obtain ⟨pieces, -, hfits, hglyphs⟩ := composed_layOut (e := lineEndOf o source) hany source
  have hplain : Plain (lineEndOf o source)
      ((layOut o (tokensToLayOut o (tokenize o.language o.indentWidth source))).rendered o
          (lineEndOf o source)
        ++ List.replicate (tokenize o.language o.indentWidth source).trailingBreaks
          (.lineBreak (lineEndOf o source))) := by
    rw [← hglyphs]
    refine plain_append.mpr ⟨fun g hg => ?_, fun g hg => ?_⟩
    · obtain ⟨p, hp, hg⟩ := List.mem_flatMap.mp hg
      exact (hfits p hp).plain_glyphs g hg
    · rw [(List.mem_replicate.mp hg).2]
  rw [← glyphs_charsOf hplain]
  exact congrArg glyphs (Page.toList_render _ _)

/-- The output for any source is made up of one piece for each token; where lines are indented with
spaces and tabs are converted, the layout puts in no tabs of its own. -/
theorem exists_composition {o : Options}
    (htabs : tabs = false → o.indentKind = .spaces ∧ o.convertTabs = true) (source : String) :
    ∃ pieces, Composition tabs o source pieces := by
  obtain ⟨pieces, htokens, hfits, hglyphs⟩ := composed_layOut (e := lineEndOf o source) htabs source
  refine ⟨pieces, htokens, hfits, ?_⟩
  rw [hglyphs]
  exact glyphs_format_eq_rendered o source

end Beautifier
