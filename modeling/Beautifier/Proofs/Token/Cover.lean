/-
Tokens and gaps cover a source, character by character.

`Partition` cuts the glyphs of a source.  A glyph stands for one character or
for a whole line ending, and in one place, the delimiter of a raw string, a
line ending is cut in two.  What is left behind the cut are still the glyphs
of the characters that are left (`Canonical`), so each gap holds the line
breaks that are counted for it, and the source is its gaps and its tokens in
turn with no character over (`exists_gaps_tokenize`).
-/
import Mathlib.Data.List.Forall2
import Beautifier.Proofs.Token.Partition
import Beautifier.Proofs.Text.Lines

namespace Beautifier

/-- The line breaks in a text; a carriage return and the line feed behind it are one. -/
def countBreaks : List Char → Nat
  | [] => 0
  | '\r' :: '\n' :: rest => countBreaks rest + 1
  | '\r' :: rest => countBreaks rest + 1
  | '\n' :: rest => countBreaks rest + 1
  | _ :: rest => countBreaks rest

/-- What is recorded of a token and of the white space in front of it is true of the gap that it
stands behind. -/
structure Token.Follows (t : Token) (gap : List Char) : Prop where
  isSpace_gap : ∀ c ∈ gap, isSpace c = true
  /-- The text starts, and not with white space. -/
  starts : ∃ first behind, t.text.toList = first :: behind ∧ isSpace first = false
  lineBreaks_eq : t.lineBreaks = countBreaks gap
  space_suffix : t.space.toList <:+ gap
  space_oneLine : ∀ c ∈ t.space.toList, c ≠ '\r' ∧ c ≠ '\n'
  space_eq : t.lineBreaks = 0 → t.space.toList = gap

/-- Glyphs that are read back from their characters. -/
def Canonical (gs : List Glyph) : Prop := glyphs (Glyph.charsOf gs) = gs

variable {gs hs : List Glyph}

/-! ## Glyphs of characters -/

theorem canonical_glyphs (cs : List Char) : Canonical (glyphs cs) := by
  rw [Canonical, chars_glyphs]

/-- A glyph in front of others is read back if it does not run into them. -/
theorem canonical_cons {g : Glyph} : Canonical (g :: gs) ↔ Canonical gs ∧ match g with
    | .char c => c ≠ '\r' ∧ c ≠ '\n'
    | .lineBreak .macOld => ∀ rest, Glyph.charsOf gs ≠ '\n' :: rest
    | .lineBreak _ => True := by
  rw [Canonical, Canonical, Glyph.charsOf_cons]
  cases g with
  | char c =>
      simp only [Glyph.chars, List.cons_append, List.nil_append]
      constructor
      · intro h
        have hc : c ≠ '\r' ∧ c ≠ '\n' := by
          constructor
          · rintro rfl
            unfold glyphs at h
            split at h <;> simp_all
          · rintro rfl
            simp [glyphs] at h
        rw [glyphs_cons hc.1 hc.2] at h
        exact ⟨(List.cons.inj h).2, hc⟩
      · rintro ⟨h, hr, hn⟩
        rw [glyphs_cons hr hn, h]
  | lineBreak e =>
      cases e with
      | windows => simp [Glyph.chars, LineEnd.chars, glyphs]
      | linux => simp [Glyph.chars, LineEnd.chars, glyphs]
      | macOld =>
          simp only [Glyph.chars, LineEnd.chars, List.cons_append, List.nil_append]
          generalize Glyph.charsOf gs = cs
          by_cases hfeed : ∃ rest, cs = '\n' :: rest
          · obtain ⟨rest, rfl⟩ := hfeed
            simp [glyphs]
          · have hread : glyphs ('\r' :: cs) = .lineBreak .macOld :: glyphs cs := by
              rw [glyphs]
              rintro rest rfl
              exact hfeed ⟨rest, rfl⟩
            rw [hread, List.cons.injEq]
            exact ⟨fun h => ⟨h.2, fun rest hcs => hfeed ⟨rest, hcs⟩⟩, fun h => ⟨rfl, h.1⟩⟩

theorem Canonical.tail {g : Glyph} (h : Canonical (g :: gs)) : Canonical gs :=
  (canonical_cons.mp h).1

theorem Canonical.suffix (h : Canonical gs) (hsub : hs <:+ gs) : Canonical hs := by
  obtain ⟨front, rfl⟩ := hsub
  induction front with
  | nil => exact h
  | cons g front ih => exact ih h.tail

theorem Canonical.left (h : Canonical (gs ++ hs)) : Canonical gs := by
  induction gs with
  | nil => rfl
  | cons g gs ih =>
      obtain ⟨htail, hg⟩ := canonical_cons.mp h
      refine canonical_cons.mpr ⟨ih htail, ?_⟩
      cases g with
      | char c => exact hg
      | lineBreak e =>
          cases e with
          | macOld =>
              intro rest hfeed
              refine hg (rest ++ Glyph.charsOf hs) ?_
              rw [List.append_eq, Glyph.charsOf_append, hfeed, List.cons_append]
          | _ => trivial

/-! ## What a reader leaves -/

namespace Scanner

theorem suffix_of_source {cut : Cut} (h : cut.source = gs) : cut.rest <:+ gs :=
  ⟨cut.taken, h⟩

theorem suffix_of_dropChars? {cs : List Char} {rest : List Glyph}
    (h : dropChars? cs gs = some rest) : rest <:+ gs := by
  fun_induction dropChars? cs gs with
  | case1 =>
      cases h
      exact List.suffix_rfl
  | case2 cs d tail ih => exact (ih h).trans (List.suffix_cons _ _)
  | case3 => cases h
  | case4 cs tail ih => exact (ih h).trans (List.suffix_cons _ _)
  | case5 => cases h

theorem suffix_rawBody (closing : List Char) (gs : List Glyph) :
    (rawBody closing gs).rest <:+ gs := by
  fun_induction rawBody closing gs with
  | case1 => exact List.suffix_rfl
  | case2 g rest behind h => exact suffix_of_dropChars? h
  | case3 g rest _ ih => exact ih.trans (List.suffix_cons g rest)

/-- Where the delimiter of a raw string ends between a carriage return and its line feed, the line
feed is what is left of the line ending. -/
theorem canonical_rawDelimiter (h : Canonical gs) : Canonical (rawDelimiter gs).2.rest := by
  fun_induction rawDelimiter gs with
  | case1 => exact h
  | case2 => exact h
  | case3 => exact h
  | case4 c rest _ _ raw cut hcut ih =>
      rw [hcut] at ih
      exact ih h.tail
  | case5 rest raw cut hcut ih =>
      rw [hcut] at ih
      exact ih h.tail
  | case6 rest => exact canonical_cons.mpr ⟨h.tail, trivial⟩
  | case7 => exact h

theorem canonical_rawString (h : Canonical gs) : Canonical (rawString gs).rest := by
  have hrest := canonical_rawDelimiter h
  simp only [rawString, Cut.prepend]
  split
  · exact hrest.suffix (suffix_rawBody _ _)
  · exact hrest.suffix (suffix_of_source (source_quoted _ _))

theorem Reads.canonical_rest {language : Language} {atLineStart : Bool} {first : Char}
    {kind : TokenKind} {cut : Cut} (h : Reads language atLineStart first gs kind cut)
    (hgs : Canonical gs) : Canonical cut.rest := by
  cases h with
  | directive => exact hgs.suffix (suffix_of_source (source_directive ..))
  | lineComment => exact hgs.suffix (suffix_of_source (source_lineComment _))
  | @blockComment rest =>
      have hrest := suffix_of_source (source_blockComment rest)
      exact hgs.tail.suffix hrest
  | string => exact hgs.suffix (suffix_of_source (source_quoted ..))
  | character => exact hgs.suffix (suffix_of_source (source_quoted ..))
  | @verbatim rest =>
      have hrest := suffix_of_source (source_verbatim rest)
      exact hgs.tail.suffix hrest
  | number => exact hgs.suffix (suffix_of_source (source_number ..))
  | fraction => exact hgs.suffix (suffix_of_source (source_number ..))
  | rawString _ hquote =>
      have hword := hgs.suffix (suffix_of_source (source_word gs))
      rw [hquote] at hword
      exact canonical_rawString hword.tail
  | word => exact hgs.suffix (suffix_of_source (source_word _))
  | punctuation => exact hgs.suffix (suffix_of_source (source_punctuation ..))

end Scanner

/-! ## Gaps -/

theorem length_linesOf_glyphs (cs : List Char) :
    (linesOf (glyphs cs)).2.length = countBreaks cs := by
  fun_induction glyphs cs with
  | case1 => rfl
  | case2 rest ih => simp [linesOf, countBreaks, ih]
  | case3 rest hfeed ih =>
      rw [countBreaks, ← ih, linesOf, List.length_cons]
      exact hfeed
  | case4 rest ih => simp [linesOf, countBreaks, ih]
  | case5 c rest hpair hreturn hfeed ih =>
      rw [linesOf, ih, countBreaks]
      · exact hpair
      · exact hreturn
      · exact hfeed

theorem gapBreaks_eq {gap : List Glyph} (h : Canonical gap) :
    gapBreaks gap = countBreaks (Glyph.charsOf gap) := by
  conv => lhs; rw [← h]
  exact length_linesOf_glyphs _

theorem gapSpace_suffix (gap : List Glyph) : gapSpace gap <:+ Glyph.charsOf gap := by
  by_cases h : (linesOf gap).2 = []
  · rw [gapSpace, h, charsOf_of_line h]
    exact List.suffix_rfl
  · obtain ⟨front, x, -, hchars⟩ := exists_charsOf_eq h
    rw [hchars]
    exact (List.suffix_cons x _).trans (List.suffix_append front _)

theorem gapSpace_eq {gap : List Glyph} (h : gapBreaks gap = 0) :
    gapSpace gap = Glyph.charsOf gap := by
  have hline : (linesOf gap).2 = [] := List.length_eq_zero_iff.mp h
  rw [gapSpace, hline, charsOf_of_line hline]
  rfl

theorem isSpace_of_isGap {gap : List Glyph} (hgap : ∀ g ∈ gap, g.isGap = true) :
    ∀ c ∈ Glyph.charsOf gap, isSpace c = true := by
  have hink := List.filter_eq_nil_iff.mp (Partition.ink_gap hgap)
  exact fun c hc => by simpa using hink c hc

theorem ne_of_isGapChar {c : Char} (h : isGapChar c = true) : c ≠ '\r' ∧ c ≠ '\n' := by
  constructor <;> rintro rfl <;> exact absurd h (by decide)

/-! ## The whole source -/

theorem Token.Follows.of_taken {gap rest taken : List Glyph} {first : Char} {t : Token}
    (hsource : Canonical (gap ++ .char first :: rest)) (hgap : ∀ g ∈ gap, g.isGap = true)
    (hfirst : isGapChar first = false) (htext : t.text = Glyph.textOf (.char first :: taken))
    (hbreaks : t.lineBreaks = gapBreaks gap) (hspace : t.space = String.ofList (gapSpace gap)) :
    t.Follows (Glyph.charsOf gap) := by
  have hbehind : Canonical (.char first :: rest) := hsource.suffix (List.suffix_append gap _)
  obtain ⟨-, hreturn, hfeed⟩ := canonical_cons.mp hbehind
  have hinSpace : t.space.toList = gapSpace gap := by rw [hspace, String.toList_ofList]
  refine ⟨isSpace_of_isGap hgap, ⟨first, Glyph.charsOf taken, ?_, ?_⟩, ?_, ?_, ?_, ?_⟩
  · rw [htext, Glyph.textOf, String.toList_ofList, Glyph.charsOf_cons]
    rfl
  · simp [isSpace, hfirst, hreturn, hfeed]
  · rw [hbreaks, gapBreaks_eq hsource.left]
  · rw [hinSpace]
    exact gapSpace_suffix gap
  · rw [hinSpace]
    exact fun c hc => ne_of_isGapChar (Partition.isGapChar_of_mem_gapSpace hgap c hc)
  · rw [hinSpace, hbreaks]
    exact gapSpace_eq

namespace Partition

variable {language : Language} {source : List Glyph} {ts : List Token} {trailing : Nat}

/-- Gaps for the tokens of a source, and what is left behind the last one. -/
theorem exists_gaps (h : Partition language source ts trailing) (hsource : Canonical source) :
    ∃ (gaps : List (List Char)) (last : List Char), List.Forall₂ Token.Follows ts gaps ∧
      (∀ c ∈ last, isSpace c = true) ∧ trailing = countBreaks last ∧
      Glyph.charsOf source
        = (List.zipWith (fun gap t => gap ++ t.text.toList) gaps ts).flatten ++ last := by
  induction h with
  | @done gap hgap =>
      exact ⟨[], Glyph.charsOf gap, .nil, isSpace_of_isGap hgap, gapBreaks_eq hsource, rfl⟩
  | @token gap rest first _ cut t ts _ hgap hfirst hreads htext hbreaks hspace _ _ ih =>
      have hrest : Canonical rest := (hsource.suffix (List.suffix_append gap _)).tail
      obtain ⟨gaps, last, hall, hlast, htrailing, hchars⟩ := ih (hreads.canonical_rest hrest)
      have htake : Glyph.charsOf cut.taken ++ Glyph.charsOf cut.rest = Glyph.charsOf rest := by
        rw [← Glyph.charsOf_append]
        exact hreads.chars_eq
      refine ⟨Glyph.charsOf gap :: gaps, last,
        .cons (.of_taken hsource hgap hfirst htext hbreaks hspace) hall, hlast, htrailing, ?_⟩
      rw [Glyph.charsOf_append, Glyph.charsOf_cons, ← htake, hchars, List.zipWith_cons_cons,
        List.flatten_cons, htext, Glyph.textOf, String.toList_ofList, Glyph.charsOf_cons]
      simp [Glyph.chars]

end Partition

/-- A source is gaps and token texts in turn, and a gap at the end.  The gaps are white space, no
token starts with any, and what a token records of the gap in front of it is true of it: the line
breaks, and the white space behind the last of them.  This holds of every source, however
malformed, in every language and for every tab width. -/
theorem exists_gaps_tokenize (language : Language) (tabWidth : Nat) (source : String) :
    let stream := tokenize language tabWidth source
    ∃ (gaps : List (List Char)) (last : List Char),
      List.Forall₂ Token.Follows stream.tokens gaps ∧
      (∀ c ∈ last, isSpace c = true) ∧ stream.trailingBreaks = countBreaks last ∧
      source.toList = (List.zipWith (fun gap t => gap ++ t.text.toList) gaps
        stream.tokens).flatten ++ last := by
  intro stream
  obtain ⟨gaps, last, hall, hlast, htrailing, hchars⟩ :=
    (partition_tokenize language tabWidth source).exists_gaps (canonical_glyphs _)
  rw [chars_glyphs] at hchars
  exact ⟨gaps, last, hall, hlast, htrailing, hchars⟩

end Beautifier
