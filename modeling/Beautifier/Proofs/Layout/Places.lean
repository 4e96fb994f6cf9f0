/-
Where tokens stand, with tabs and with spaces.

Options that differ in no more than how white space is written lead to pages
that are drawn alike, so the outputs have the same lines but for their tabs.
From the lines alone it can be told where the ink of a text stands; a token
starts with ink, and the ink in front of it is that of the tokens before.  So
in whatever way the two outputs are cut into gaps and tokens, each token
starts at the same place in both (`places_eq`).

What a tab is worth is not left to the reader of the output: stops stand at
the multiples of the indentation width that the options share.
-/
import Beautifier.Proofs.Layout.Composed
import Beautifier.Proofs.Layout.Drawn

namespace Beautifier

/-! ## The places of pieces -/

namespace Piece

variable {tabs : Bool} {e : LineEnd} {w : Nat}

/-- The places at which the tokens of pieces start. -/
def places (w : Nat) : Place → List Piece → List Place
  | _, [] => []
  | start, p :: ps => start.advance w p.gap :: places w (start.advance w p.glyphs) ps

theorem length_places (w : Nat) (start : Place) (ps : List Piece) :
    (places w start ps).length = ps.length := by
  induction ps generalizing start with
  | nil => rfl
  | cons p ps ih => rw [places, List.length_cons, List.length_cons, ih]

theorem Fits.exists_copy {p : Piece} (h : p.Fits tabs e) (hstarts : p.token.StartsInInk) :
    ∃ first tail, p.copy = .char first :: tail ∧ isSpace first = false := by
  obtain ⟨first, more, hfirst, hink⟩ := hstarts.exists_firstLine
  obtain ⟨line, others, ⟨cut, hcut, hline⟩, -, hcopy⟩ := h.copy
  rw [hfirst] at hline
  cases line with
  | nil =>
      rw [List.nil_append] at hline
      have hblank := hcut first (hline ▸ List.mem_cons_self)
      rw [isBlank_eq_false hink] at hblank
      cases hblank
  | cons c line =>
      cases (List.cons.inj hline).1
      exact ⟨first, _, hcopy, hink⟩

/-- The ink in front of a token is that of the tokens before, and the token starts where the ink
that follows stands. -/
theorem getElem?_places {ps : List Piece} (hfits : ∀ p ∈ ps, p.Fits tabs e)
    (hstarts : ∀ p ∈ ps, p.token.StartsInInk) (start : Place) (behind : List Glyph) {n : Nat}
    (hn : n < ps.length) : (places w start ps)[n]?
      = (inkPlaces w start (ps.flatMap glyphs ++ behind))[
          (((ps.map token).take n).flatMap fun t => ink t.text.toList).length]? := by
  induction ps generalizing start n with
  | nil => exact absurd hn (Nat.not_lt_zero n)
  | cons p ps ih =>
      obtain ⟨hp, hps⟩ := List.forall_mem_cons.mp hfits
      obtain ⟨hpStarts, hpsStarts⟩ := List.forall_mem_cons.mp hstarts
      rw [List.flatMap_cons, List.append_assoc]
      cases n with
      | zero =>
          obtain ⟨first, tail, hcopy, hfirst⟩ := hp.exists_copy hpStarts
          have hgap : ink (Glyph.charsOf p.gap) = [] := ink_eq_nil (isSpace_of_isGap hp.isGap)
          have hplace := getElem?_inkPlaces hfirst w start p.gap
            (tail ++ (ps.flatMap glyphs ++ behind))
          rw [hgap, ← List.cons_append, ← hcopy, ← List.append_assoc] at hplace
          exact hplace.symm
      | succ n =>
          have hrest := ih hps hpsStarts (start.advance w p.glyphs) (Nat.lt_of_succ_lt_succ hn)
          have hlength := length_inkPlaces w start p.glyphs
          rw [hp.ink_glyphs] at hlength
          rw [List.map_cons, List.take_succ_cons, List.flatMap_cons, List.length_append,
            inkPlaces_append, ← hlength, List.getElem?_append_right (Nat.le_add_right _ _),
            Nat.add_sub_cancel_left]
          exact hrest

theorem places_eq (hw : 0 < w) {tabs' : Bool} {e' : LineEnd} {ps ps' : List Piece}
    (hfits : ∀ p ∈ ps, p.Fits tabs e) (hfits' : ∀ p ∈ ps', p.Fits tabs' e')
    (htokens : ps'.map token = ps.map token) (hstarts : ∀ t ∈ ps.map token, t.StartsInInk)
    {behind behind' : List Glyph}
    (h : untab w 0 (ps'.flatMap glyphs ++ behind') = untab w 0 (ps.flatMap glyphs ++ behind)) :
    places w .start ps' = places w .start ps := by
  have hlength : ps'.length = ps.length := by
    rw [← List.length_map (f := token), htokens, List.length_map]
  have hink : inkPlaces w .start (ps'.flatMap glyphs ++ behind')
      = inkPlaces w .start (ps.flatMap glyphs ++ behind) := by
    rw [← inkPlaces_untab hw .start, ← inkPlaces_untab hw .start (ps.flatMap glyphs ++ behind)]
    exact congrArg (inkPlaces w .start) h
  refine List.ext_getElem? fun n => ?_
  by_cases hn : n < ps.length
  · have hstarts' : ∀ t ∈ ps'.map token, t.StartsInInk := htokens ▸ hstarts
    rw [getElem?_places hfits (fun p hp => hstarts _ (List.mem_map_of_mem hp)) .start behind hn,
      getElem?_places hfits' (fun p hp => hstarts' _ (List.mem_map_of_mem hp)) .start behind'
        (hlength ▸ hn), hink, htokens]
  · rw [List.getElem?_eq_none (by rw [length_places]; omega),
      List.getElem?_eq_none (by rw [length_places]; omega)]

end Piece

/-! ## Tabs of tokens -/

/-- Words, numbers and operators hold no white space. -/
theorem Partition.isGapChar_eq_false {language : Language} {source : List Glyph}
    {ts : List Token} {trailing : Nat} (h : Partition language source ts trailing) :
    ∀ t ∈ ts, t.kind = .word ∨ t.kind = .number ∨ t.kind = .punctuation →
      ∀ c ∈ t.text.toList, isGapChar c = false := by
  induction h with
  | done => exact fun t ht => absurd ht List.not_mem_nil
  | @token _ _ first _ cut _ _ _ _ hfirst hreads htext _ _ _ _ ih =>
      intro t ht hkind c hc
      rcases List.mem_cons.mp ht with rfl | ht
      · rw [htext, Glyph.textOf, String.toList_ofList, Glyph.charsOf_cons] at hc
        rcases List.mem_append.mp hc with hc | hc
        · rw [List.mem_singleton.mp hc]
          exact hfirst
        · obtain ⟨g, hg, hc⟩ := List.mem_flatMap.mp hc
          obtain ⟨d, rfl, hd⟩ := hreads.mayGoOn_of_mem hkind g hg
          rw [mayGoOn, Bool.and_eq_true, Bool.not_eq_true'] at hd
          rw [List.mem_singleton.mp hc]
          exact hd.1
      · exact ih t ht hkind c hc

theorem kind_of_tab (o : Options) (language : Language) (width : Nat) (source : String) :
    ∀ t ∈ tokensToLayOut o (tokenize language width source), '\t' ∈ t.text.toList →
      t.kind ∈ [.string, .character, .lineComment, .blockComment, .directive] := by
  refine forall_mem_tokensToLayOut o (fun t ht htab => ?_) ?_ ?_
  · have hgap := (partition_tokenize language width source).isGapChar_eq_false t ht
    have hno : ¬(t.kind = .word ∨ t.kind = .number ∨ t.kind = .punctuation) := by
      intro hkind
      cases hgap hkind _ htab
    cases hkind : t.kind <;> simp_all
  · intro htab
    cases List.mem_singleton.mp htab
  · intro htab
    cases List.mem_singleton.mp htab

/-- Where the layout puts in no tabs, those of a copy stand in the token. -/
theorem Piece.Fits.mem_text {e : LineEnd} {p : Piece} (h : p.Fits false e)
    (hcopy : .char '\t' ∈ p.copy) : '\t' ∈ p.token.text.toList := by
  have hline : ∀ l, l = p.token.lines.1 ∨ l ∈ p.token.lines.2 → '\t' ∈ l →
      '\t' ∈ p.token.text.toList := by
    intro l hl hc
    rw [← chars_glyphs p.token.text.toList]
    exact List.mem_flatMap.mpr ⟨_, Partition.mem_linesOf hl _ hc, List.mem_singleton_self _⟩
  rcases h.mem_copy hcopy with hc | ⟨l, hl, hc⟩ | hc | ⟨hc, -⟩
  · exact hline _ (.inl rfl) hc
  · exact hline l (.inr hl) hc
  · cases hc
  · cases hc

/-! ## The outputs -/

section
variable {o o' : Options}

theorem tokens_eq_of_sameColumns (h : o.SameColumns o') (source : String) :
    tokensToLayOut o' (tokenize o'.language o'.indentWidth source)
      = tokensToLayOut o (tokenize o.language o.indentWidth source) := by
  rw [h]
  rfl

/-- But for their tabs the outputs are the same. -/
theorem untab_format (hw : 0 < o.indentWidth) (h : o.SameColumns o') (source : String) :
    untab o.indentWidth 0 (glyphs (format o' source).toList)
      = untab o.indentWidth 0 (glyphs (format o source).toList) := by
  have hdrawn := drawn_layOut hw h (tokensToLayOut o (tokenize o.language o.indentWidth source))
  have hwidth : o'.indentWidth = o.indentWidth := by rw [h]
  have hlineEnd : lineEndOf o' source = lineEndOf o source := by
    rw [h]
    rfl
  have htrailing : (tokenize o'.language o'.indentWidth source).trailingBreaks
      = (tokenize o.language o.indentWidth source).trailingBreaks := by rw [h]
  have hrendered := Page.untab_rendered (hwidth ▸ hw) (lineEndOf o source)
    (layOut o' (tokensToLayOut o (tokenize o.language o.indentWidth source)))
    (tokenize o.language o.indentWidth source).trailingBreaks
  rw [hwidth, hdrawn, ← Page.untab_rendered hw] at hrendered
  rw [glyphs_format_eq_rendered, glyphs_format_eq_rendered, tokens_eq_of_sameColumns h, hlineEnd,
    htrailing]
  exact hrendered

/-- Neither tabs nor spaces move a token.  Under accepted options that differ in no more than what
lines are indented with and whether tabs are converted, any source is formatted to the same lines,
as far as can be seen with a stop at every multiple of the indentation width; and in whatever way
the outputs are cut into gaps and copies of the tokens, each token starts on the same line at the
same column.  With spaces and converted tabs, every tab of the output lies inside the text of a
literal, a comment or a directive, where it lies in the source. -/
theorem format_sameColumns {text : String} (ho : parseOptions text = .ok o)
    (h : o.SameColumns o') (source : String) :
    untab o.indentWidth 0 (glyphs (format o' source).toList)
        = untab o.indentWidth 0 (glyphs (format o source).toList) ∧
      (∃ pieces, Composition true o source pieces) ∧
      (∃ pieces, Composition true o' source pieces) ∧
      (∀ pieces pieces', Composition true o source pieces → Composition true o' source pieces' →
        Piece.places o.indentWidth .start pieces' = Piece.places o.indentWidth .start pieces) ∧
      (o.indentKind = .spaces → o.convertTabs = true →
        ∃ pieces, Composition false o source pieces ∧
          ∀ p ∈ pieces, .char '\t' ∉ p.gap ∧ (.char '\t' ∈ p.copy → '\t' ∈ p.token.text.toList ∧
            p.token.kind ∈ [.string, .character, .lineComment, .blockComment, .directive])) := by
  have hw : 0 < o.indentWidth := Nat.lt_of_lt_of_le (by decide) (indentWidth_parseOptions ho).1
  have hlines := untab_format hw h source
  have hmade : ∀ o, ∃ pieces, Composition true o source pieces := by
    intro o
    have hany : true = false → o.indentKind = .spaces ∧ o.convertTabs = true := nofun
    exact exists_composition hany source
  refine ⟨hlines, hmade o, hmade o', ?_, ?_⟩
  · intro pieces pieces' hpieces hpieces'
    have htokens : pieces'.map Piece.token = pieces.map Piece.token := by
      rw [hpieces'.tokens, hpieces.tokens, tokens_eq_of_sameColumns h]
    have hstarts : ∀ t ∈ pieces.map Piece.token, t.StartsInInk := by
      rw [hpieces.tokens]
      exact starts_tokensToLayOut o o.language o.indentWidth source
    rw [hpieces.output, hpieces'.output] at hlines
    exact Piece.places_eq hw hpieces.fits hpieces'.fits htokens hstarts hlines
  · intro hkind hconvert
    obtain ⟨pieces, hpieces⟩ : ∃ pieces, Composition false o source pieces :=
      exists_composition (fun _ => ⟨hkind, hconvert⟩) source
    refine ⟨pieces, hpieces, fun p hp => ⟨(hpieces.fits p hp).noTab rfl, fun hcopy => ?_⟩⟩
    have htext := (hpieces.fits p hp).mem_text hcopy
    have hmem : p.token ∈ tokensToLayOut o (tokenize o.language o.indentWidth source) :=
      hpieces.tokens ▸ List.mem_map_of_mem hp
    exact ⟨htext, kind_of_tab o o.language o.indentWidth source p.token hmem htext⟩

end

/-- A header with its body on the next line, a tab in front of a comment and one inside it: with
spaces the tab of the comment is the only one that is left. -/
theorem format_sameColumns_tabs :
    let o := { Options.default with convertTabs := true }
    let o' := { Options.default with indentKind := .tab }
    let source := "if (a)\nb(c,\t// d\te\nf);\n"
    parseOptions "convert-tabs" = .ok o ∧ o.SameColumns o' ∧
      untab 4 0 (glyphs (format o' source).toList) = untab 4 0 (glyphs (format o source).toList) ∧
      (∃ pieces, Composition false o source pieces ∧ ∀ p ∈ pieces, .char '\t' ∉ p.gap) ∧
      format o source = "if (a)\n    b(c,    // d\te\n      f);\n" ∧
      format o' source = "if (a)\n\tb(c,\t// d\te\n\t  f);\n" := by
  intro o o' source
  have ho : parseOptions "convert-tabs" = .ok o := by decide +kernel
  have h : o.SameColumns o' := rfl
  obtain ⟨hlines, -, -, -, hspaces⟩ := format_sameColumns ho h source
  obtain ⟨pieces, hpieces, htabs⟩ := hspaces rfl rfl
  have hread : tokenize .c 4 "if (a)\nb(c,\t// d\te\nf);\n"
      = ⟨[⟨.word, "if", 0, "", 0, false⟩, ⟨.punctuation, "(", 0, " ", 3, false⟩,
          ⟨.word, "a", 0, "", 4, false⟩, ⟨.punctuation, ")", 0, "", 5, false⟩,
          ⟨.word, "b", 1, "", 0, false⟩, ⟨.punctuation, "(", 0, "", 1, false⟩,
          ⟨.word, "c", 0, "", 2, false⟩, ⟨.punctuation, ",", 0, "", 3, false⟩,
          ⟨.lineComment, "// d\te", 0, "\t", 8, false⟩, ⟨.word, "f", 1, "", 0, false⟩,
          ⟨.punctuation, ")", 0, "", 1, false⟩, ⟨.punctuation, ";", 0, "", 2, false⟩],
        1, some .linux⟩ := by
    decide +kernel
  have hwritten : ∀ p : Options, p.language = .c → p.indentWidth = 4 → format p source
      = (layOut p (tokensToLayOut p (tokenize .c 4 "if (a)\nb(c,\t// d\te\nf);\n"))).render
        p.indentKind 4
        ((p.lineEnd <|> (tokenize .c 4 "if (a)\nb(c,\t// d\te\nf);\n").lineEnd).getD .linux)
        (tokenize .c 4 "if (a)\nb(c,\t// d\te\nf);\n").trailingBreaks := by
    intro p hlanguage hwidth
    rw [format, hlanguage, hwidth]
  refine ⟨ho, h, hlines, ⟨pieces, hpieces, fun p hp => (htabs p hp).1⟩, ?_, ?_⟩
  · rw [hwritten o rfl rfl, hread]
    decide +kernel
  · rw [hwritten o' rfl rfl, hread]
    decide +kernel

end Beautifier
