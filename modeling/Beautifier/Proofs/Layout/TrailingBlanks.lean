/-
Blanks at the ends of lines.

A line is written without the blanks at its end, unless it has been marked as
one that keeps them, and only literals of several lines mark the lines that they
reach.  So blanks are left at the end of a line if they lie in such a literal,
or if the literal ends on the line and what is written last behind it ends in
blanks (`trimmed_newest_stage`).  Words, numbers and operators end in ink, and
directives stand alone, so only another literal can, or a comment: the blanks of
such a comment are left on the line, and they are all that is left outside of
literals (`blanks_in_literals_iff`).
-/
import Beautifier.Proofs.Layout.LineEndings
import Beautifier.Proofs.Layout.Places
import Beautifier.Proofs.Layout.Spots

namespace Beautifier

/-! ## Texts that end in blanks -/

def endsInBlank (text : List Char) : Bool := text.getLast?.any isBlank

theorem endsInBlank_append {text : List Char} (h : text ≠ []) (front : List Char) :
    endsInBlank (front ++ text) = endsInBlank text := by
  rw [endsInBlank, List.getLast?_append_of_ne_nil _ h]
  rfl

theorem ne_nil_of_endsInBlank {text : List Char} (h : endsInBlank text = true) : text ≠ [] := by
  rintro rfl
  cases h

theorem endsInBlank_trimRight (text : List Char) :
    endsInBlank (trimRight isBlank text) = false := by
  have hhead := List.head?_dropWhile_not isBlank text.reverse
  rw [endsInBlank, trimRight, List.getLast?_reverse]
  cases hfirst : (text.reverse.dropWhile isBlank).head? with
  | none => rfl
  | some c =>
      rw [hfirst] at hhead
      simpa using hhead

theorem Line.endsInBlank_chars (kind : IndentKind) (width : Nat) (l : Line) :
    endsInBlank (l.chars kind width) = (!l.trimmed && endsInBlank l.text.toList) := by
  have hshown : ∀ text : List Char, endsInBlank
      (if text.isEmpty then [] else l.indent.chars kind width ++ text) = endsInBlank text := by
    intro text
    split
    · next hnil => rw [List.isEmpty_iff.mp hnil]
    · next hne => exact endsInBlank_append (by simpa using hne) _
  rw [Line.chars]
  refine (hshown _).trans ?_
  cases l.trimmed with
  | true => exact endsInBlank_trimRight _
  | false => rfl

theorem Line.suffix_chars_of_endsInBlank {kind : IndentKind} {width : Nat} {l : Line}
    (h : endsInBlank (l.chars kind width) = true) : l.text.toList <:+ l.chars kind width := by
  rw [endsInBlank_chars, Bool.and_eq_true, Bool.not_eq_true'] at h
  rw [chars_of_not_trimmed h.1 (ne_nil_of_endsInBlank h.2), allChars]
  exact List.suffix_append _ _

/-! ## Tokens of one line -/

namespace Token

def isLiteral (t : Token) : Bool := t.kind == .string || t.kind == .character

/-- A literal of several lines. -/
def SpansLines (t : Token) : Prop := t.isLiteral = true ∧ t.lines.2 ≠ []

/-- What is known of the lines of a token: words, numbers, operators and line comments are a single
line, and but for line comments they end in ink. -/
structure Tidy (t : Token) : Prop where
  starts : t.StartsInInk
  oneLine : t.kind.isOneLine = true → t.lines.2 = []
  endsInInk : t.kind.isOneLine = true → t.kind ≠ .lineComment → endsInBlank t.lines.1 = false

theorem lines_of_breakless {t : Token} (h : ∀ c ∈ t.text.toList, isBreak c = false) :
    t.lines = (t.text.toList, []) := by
  have hplain : Plain .linux (t.text.toList.map Glyph.char) := by
    rw [plain_chars]
    intro c hc
    simpa [isBreak] using h c hc
  have hchars : Glyph.charsOf (t.text.toList.map Glyph.char) = t.text.toList := by
    simp [Glyph.charsOf, List.flatMap_map, Glyph.chars]
  have hglyphs := glyphs_charsOf hplain
  have hlines := linesOf_chars t.text.toList []
  rw [hchars] at hglyphs
  rw [List.append_nil] at hlines
  rw [lines, hglyphs, hlines]
  simp [linesOf]

variable {t : Token}

theorem Tidy.keepsBlanks_iff (h : t.Tidy) :
    (Line.keepsBlanks t.kind && !t.lines.2.isEmpty) = true ↔ t.SpansLines := by
  have hone := h.oneLine
  cases hkind : t.kind <;>
    simp_all [Line.keepsBlanks, SpansLines, isLiteral, TokenKind.isOneLine]

theorem Tidy.trimmed_continuation_iff (h : t.Tidy) (hne : t.lines.2 ≠ []) (width : Nat)
    (shift : Int) (piece : List Char) :
    (Line.continuation t.kind width shift piece).trimmed = false ↔ t.SpansLines := by
  have hone := h.oneLine
  cases hkind : t.kind <;>
    simp_all [Line.continuation, Line.empty, SpansLines, isLiteral, TokenKind.isOneLine]

end Token

theorem tidy_tokensToLayOut (o : Options) (language : Language) (width : Nat) (source : String) :
    ∀ t ∈ tokensToLayOut o (tokenize language width source), t.Tidy := by
  have hstarts := starts_tokensToLayOut o language width source
  have hlines : ∀ t ∈ tokensToLayOut o (tokenize language width source),
      t.kind.isOneLine = true → t.lines.2 = [] ∧
        (t.kind ≠ .lineComment → endsInBlank t.lines.1 = false) := by
    refine forall_mem_tokensToLayOut o (fun t ht hkind => ?_) ?_ ?_
    · have hpart := partition_tokenize language width source
      rw [Token.lines_of_breakless (hpart.breakless (canonical_glyphs _) t ht hkind)]
      refine ⟨rfl, fun hcomment => ?_⟩
      have hink := hpart.isGapChar_eq_false t ht <| by
        cases hcases : t.kind <;> simp_all [TokenKind.isOneLine]
      rw [endsInBlank]
      cases hlast : t.text.toList.getLast? with
      | none => rfl
      | some c =>
          have hc := hink c (List.mem_of_getLast? hlast)
          simp only [isGapChar, Bool.or_eq_false_iff] at hc
          exact hc.1.1
    · exact fun _ => by decide
    · exact fun _ => by decide
  exact fun t ht => ⟨hstarts t ht, fun h => (hlines t ht h).1, fun h => (hlines t ht h).2⟩

/-! ## Lines that keep their blanks -/

/-- A literal of several lines among the tokens in front of a position ends on a line. -/
def LiteralEnds (o : Options) (tokens : List Token) (n a : Nat) : Prop :=
  ∃ m u, m < n ∧ tokens[m]? = some u ∧ u.SpansLines ∧
    (spotAt o tokens m u).line + u.lines.2.length = a

section
variable {o : Options} {tokens : List Token} {n a : Nat} {t : Token}

theorem literalEnds_succ (hget : tokens[n]? = some t) : LiteralEnds o tokens (n + 1) a ↔
    LiteralEnds o tokens n a ∨
      t.SpansLines ∧ (spotAt o tokens n t).line + t.lines.2.length = a := by
  constructor
  · rintro ⟨m, u, hm, hu, hspans, ha⟩
    rcases Nat.lt_succ_iff_lt_or_eq.mp hm with hlt | rfl
    · exact .inl ⟨m, u, hlt, hu, hspans, ha⟩
    · rw [hget] at hu
      cases hu
      exact .inr ⟨hspans, ha⟩
  · rintro (⟨m, u, hm, hrest⟩ | ⟨hspans, ha⟩)
    · exact ⟨m, u, Nat.lt_succ_of_lt hm, hrest⟩
    · exact ⟨n, t, Nat.lt_succ_self n, hget, hspans, ha⟩

theorem LiteralEnds.lt_length (h : LiteralEnds o tokens n a) :
    a < (stage o tokens n).page.lines.length := by
  obtain ⟨m, u, hm, hu, -, rfl⟩ := h
  have hbehind := length_stage_succ (o := o) hu
  have hle := length_stage_le (m := m + 1) o tokens hm
  omega

theorem not_literalEnds_of_newLine {indent : Indent} {blankLines : Nat}
    (hlayout : (planAt o tokens n t).layout = .newLine indent blankLines) :
    ¬LiteralEnds o tokens n (spotAt o tokens n t).line := by
  intro h
  have hlt := h.lt_length
  rw [spotAt_of_newLine hlayout] at hlt
  exact absurd hlt (Nat.not_lt_of_le (Nat.le_add_right _ _))

theorem trimmed_ready (h : (stage o tokens n).page.newest.trimmed = false ↔
      LiteralEnds o tokens n (stage o tokens n).page.spot.line) (t : Token) :
    ((stage o tokens n).page.ready o t (planAt o tokens n t).layout).newest.trimmed = false ↔
      LiteralEnds o tokens n (spotAt o tokens n t).line := by
  cases hlayout : (planAt o tokens n t).layout with
  | newLine indent blankLines => exact iff_of_false nofun (not_literalEnds_of_newLine hlayout)
  | sameLine spacing =>
      rw [spotAt_of_sameLine hlayout, ← h, Page.ready, Page.space, Page.newest, Page.lines_amend]
      rfl

theorem trimmed_begin (htidy : t.Tidy) (h : (stage o tokens n).page.newest.trimmed = false ↔
      LiteralEnds o tokens n (stage o tokens n).page.spot.line) :
    (((stage o tokens n).page.ready o t
        (planAt o tokens n t).layout).begin t).newest.trimmed = false
      ↔ t.SpansLines ∨ LiteralEnds o tokens n (spotAt o tokens n t).line := by
  have hready := trimmed_ready h t
  have hkeeps := htidy.keepsBlanks_iff
  generalize (stage o tokens n).page.ready o t (planAt o tokens n t).layout = p at hready ⊢
  rw [Page.newest, Page.begin, Page.lines_amend, List.headD_cons, ← hready, ← hkeeps]
  dsimp only
  split
  · next hyes => exact iff_of_true rfl (.inl hyes)
  · next hno => exact (or_iff_right hno).symm

/-- The newest line keeps its blanks exactly if a literal of several lines ends on it. -/
theorem trimmed_newest_stage (htidy : ∀ t ∈ tokens, t.Tidy) : ∀ n ≤ tokens.length,
    ((stage o tokens n).page.newest.trimmed = false ↔
      LiteralEnds o tokens n (stage o tokens n).page.spot.line) := by
  intro n
  induction n with
  | zero =>
      refine fun _ => iff_of_false nofun ?_
      rintro ⟨m, u, hm, -⟩
      exact absurd hm (Nat.not_lt_zero m)
  | succ n ih =>
      intro hn
      have hget : tokens[n]? = some tokens[n] := List.getElem?_eq_getElem hn
      have ht := htidy tokens[n] (List.getElem_mem hn)
      have hbegin := trimmed_begin ht (ih (Nat.le_of_succ_le hn))
      generalize tokens[n] = t at hget ht hbegin
      have hspot : (stage o tokens (n + 1)).page.spot.line
          = (spotAt o tokens n t).line + t.lines.2.length := by
        rw [Page.spot, length_stage_succ hget]
        dsimp only
        omega
      have hmark : ∀ l : Line, (l.mark t.kind).trimmed = l.trimmed := by
        intro l
        cases t.kind <;> rfl
      rw [hspot, literalEnds_succ hget, page_stage_succ hget, Page.newest_write, hmark]
      cases hothers : t.lines.2.getLast? with
      | none =>
          rw [List.getLast?_eq_none_iff] at hothers
          simp only [hbegin, hothers, List.length_nil, Nat.add_zero, Token.SpansLines, ne_eq,
            not_true_eq_false, and_false, false_or, or_false, false_and]
      | some piece =>
          have hne : t.lines.2 ≠ [] := by
            intro hnil
            rw [hnil] at hothers
            cases hothers
          have hno : ¬LiteralEnds o tokens n ((spotAt o tokens n t).line + t.lines.2.length) := by
            intro h
            have hlt := h.lt_length
            have hle := length_stage_le_line o tokens n t
            have hpos := List.length_pos_iff.mpr hne
            omega
          simp only [ht.trimmed_continuation_iff hne, hno, false_or, and_true]

/-! ## What a line ends in -/

/-- No two tokens are the last one on a line. -/
theorem LastOn.unique {m : Nat} {u : Token} (hn : LastOn o tokens n t a)
    (hm : LastOn o tokens m u a) : n = m ∧ t = u := by
  have hlt : ∀ {n m : Nat} {t u : Token}, LastOn o tokens n t a → LastOn o tokens m u a →
      ¬n < m := by
    intro n m t u hn hm hlt
    have hlength := (List.getElem?_eq_some_iff.mp hm.get).1
    have hget : tokens[n + 1]? = some tokens[n + 1] := List.getElem?_eq_getElem (by omega)
    have hnext := hn.next _ hget
    have hfirst := hm.first
    rcases Nat.eq_or_lt_of_le (show n + 1 ≤ m from hlt) with heq | hless
    · have hsame := hm.get
      rw [← heq, hget] at hsame
      rw [← heq, ← Option.some.inj hsame] at hfirst
      omega
    · have hle := line_le_spotAt (o := o) hless hget u
      omega
  have heq : n = m := Nat.le_antisymm (Nat.le_of_not_lt (hlt hm hn)) (Nat.le_of_not_lt (hlt hn hm))
  subst heq
  exact ⟨rfl, Option.some.inj (hn.get.symm.trans hm.get)⟩

def Token.pieces (t : Token) : List (List Char) := t.lines.1 :: t.lines.2

theorem Token.eq_first_of_pieces {piece : List Char} (h : t.pieces[a - a]? = some piece) :
    piece = t.lines.1 := by
  rw [Nat.sub_self] at h
  exact (Option.some.inj h).symm

theorem endsInBlank_firstLine (htidy : ∀ t ∈ tokens, t.Tidy) (hget : tokens[n]? = some t) {l : Line}
    (hl : (stage o tokens (n + 1)).page.line? (spotAt o tokens n t).line = some l) :
    (endsInBlank (l.chars o.indentKind o.indentWidth) = true ↔ endsInBlank t.lines.1 = true ∧
      (t.SpansLines ∨ LiteralEnds o tokens n (spotAt o tokens n t).line)) ∧
      t.lines.1 <:+ l.text.toList := by
  have hn : n ≤ tokens.length := Nat.le_of_lt (List.getElem?_eq_some_iff.mp hget).1
  have ht := htidy t (List.mem_of_getElem? hget)
  obtain ⟨l', hl', -, htext, htrimmed⟩ := exists_firstLine_stage (o := o) hget
  cases hl.symm.trans hl'
  have hbegin := trimmed_begin (o := o) ht (trimmed_newest_stage htidy n hn)
  obtain ⟨c, more, hfirst, -⟩ := ht.starts.exists_firstLine
  have hne : t.lines.1 ≠ [] := by
    rw [hfirst]
    exact List.cons_ne_nil c more
  refine ⟨?_, htext ▸ List.suffix_append _ _⟩
  rw [Line.endsInBlank_chars, Bool.and_eq_true, Bool.not_eq_true', htrimmed, hbegin, htext,
    endsInBlank_append hne, and_comm]

theorem endsInBlank_furtherLine (ht : t.Tidy) (hget : tokens[n]? = some t) {i : Nat}
    {piece : List Char} (hpiece : t.lines.2[i]? = some piece) {l : Line}
    (hl : (stage o tokens (n + 1)).page.line? ((spotAt o tokens n t).line + 1 + i) = some l) :
    (endsInBlank (l.chars o.indentKind o.indentWidth) = true ↔
      endsInBlank piece = true ∧ t.SpansLines) ∧ (t.SpansLines → l.text.toList = piece) := by
  have hi : i < t.lines.2.length := (List.getElem?_eq_some_iff.mp hpiece).1
  obtain ⟨l', hl', hunmarked⟩ := exists_furtherLine_stage (o := o) hget hpiece
  cases hl.symm.trans hl'
  have hkeeps : l.trimmed = false ↔ t.SpansLines := by
    rw [← ht.trimmed_continuation_iff (List.ne_nil_of_length_pos (Nat.zero_lt_of_lt hi))]
    have htrimmed := congrArg Line.trimmed hunmarked
    exact Iff.of_eq (congrArg (· = false) htrimmed)
  have htext : t.SpansLines → l.text.toList = piece := by
    intro hspans
    have hline := congrArg (fun l : Line => l.text.toList) hunmarked
    have hkind : t.kind = .string ∨ t.kind = .character := by
      simpa [Token.isLiteral] using hspans.1
    rcases hkind with hkind | hkind
    · rw [hkind] at hline
      exact hline.trans (String.toList_ofList ..)
    · rw [hkind] at hline
      exact hline.trans (String.toList_ofList ..)
  refine ⟨?_, htext⟩
  rw [Line.endsInBlank_chars, Bool.and_eq_true, Bool.not_eq_true', hkeeps, and_comm]
  exact and_congr_left fun hspans => by rw [htext hspans]

/-- What the last token has on a line ends the line, and the line ends in a blank if that does and
the line keeps it. -/
theorem endsInBlank_iff_of_lastOn (htidy : ∀ t ∈ tokens, t.Tidy) (hlast : LastOn o tokens n t a)
    {l : Line} (hl : (stage o tokens (n + 1)).page.line? a = some l) :
    ∃ piece, t.pieces[a - (spotAt o tokens n t).line]? = some piece ∧
      (endsInBlank (l.chars o.indentKind o.indentWidth) = true ↔ endsInBlank piece = true ∧
        (t.SpansLines ∨ a = (spotAt o tokens n t).line ∧ LiteralEnds o tokens n a)) ∧
      (endsInBlank (l.chars o.indentKind o.indentWidth) = true →
        piece <:+ l.chars o.indentKind o.indentWidth) := by
  have hsuffix : ∀ piece : List Char, piece <:+ l.text.toList →
      endsInBlank (l.chars o.indentKind o.indentWidth) = true →
        piece <:+ l.chars o.indentKind o.indentWidth :=
    fun piece hpiece h => hpiece.trans (Line.suffix_chars_of_endsInBlank h)
  rcases Nat.eq_or_lt_of_le hlast.first with rfl | hlt
  · obtain ⟨hiff, hends⟩ := endsInBlank_firstLine htidy hlast.get hl
    refine ⟨t.lines.1, by rw [Nat.sub_self]; rfl, ?_, hsuffix _ hends⟩
    rw [hiff]
    simp only [true_and]
  · obtain ⟨i, rfl⟩ := Nat.exists_eq_add_of_le (show (spotAt o tokens n t).line + 1 ≤ a from hlt)
    have hi : i < t.lines.2.length := by
      have hend := hlast.last
      omega
    have hindex : (spotAt o tokens n t).line + 1 + i - (spotAt o tokens n t).line = i + 1 := by
      omega
    have hpiece : t.lines.2[i]? = some t.lines.2[i] := List.getElem?_eq_getElem hi
    have hbelow : ¬(spotAt o tokens n t).line + 1 + i = (spotAt o tokens n t).line := by omega
    obtain ⟨hiff, htext⟩ := endsInBlank_furtherLine (htidy t (List.mem_of_getElem? hlast.get))
      hlast.get hpiece hl
    refine ⟨t.lines.2[i], by rw [hindex]; exact hpiece, ?_, fun h => ?_⟩
    · rw [hiff]
      simp only [hbelow, false_and, or_false]
    · exact hsuffix _ (htext (hiff.mp h).2 ▸ List.suffix_rfl) h

end

/-! ## The output -/

/-- A line ends in the text of a literal: a literal is the last token on it, and the line ends in
what the literal has on it, which is not nothing. -/
def EndsInLiteral (o : Options) (source : String) (a : Nat) (line : List Char) : Prop :=
  let tokens := tokensToLayOut o (tokenize o.language o.indentWidth source)
  ∃ n t piece, LastOn o tokens n t a ∧ t.isLiteral = true ∧
    t.pieces[a - (spotAt o tokens n t).line]? = some piece ∧ piece ≠ [] ∧ piece <:+ line

/-- Where blanks are left at the ends of lines.  All of them lie in string and character literals,
unless a comment whose first line ends in blanks is written behind a literal of several lines, on
the line that the literal ends on, with nothing behind it there.  If there is such a comment, its
blanks are left as well. -/
theorem blanks_in_literals_iff (o : Options) (source : String) :
    let tokens := tokensToLayOut o (tokenize o.language o.indentWidth source)
    (∀ a line, (outputLines o source)[a]? = some line → endsInBlank line = true →
        EndsInLiteral o source a line) ↔
      ∀ n t, LastOn o tokens n t (spotAt o tokens n t).line →
        t.kind = .lineComment ∨ t.kind = .blockComment → endsInBlank t.lines.1 = true →
          ¬LiteralEnds o tokens n (spotAt o tokens n t).line := by
  intro tokens
  have htidy : ∀ t ∈ tokens, t.Tidy := tidy_tokensToLayOut o o.language o.indentWidth source
  constructor
  · intro hall n t hlast hkind hblank hends
    obtain ⟨l, hl, -⟩ := exists_firstLine_stage (o := o) hlast.get
    have hline := outputLines_of_line? (hlast.line?_layOut.trans hl)
    obtain ⟨piece, hpiece, hiff, -⟩ := endsInBlank_iff_of_lastOn htidy hlast hl
    have hfirst := Token.eq_first_of_pieces hpiece
    obtain ⟨m, u, -, hlast', hliteral, -⟩ :=
      hall _ _ hline (hiff.mpr ⟨hfirst ▸ hblank, .inr ⟨rfl, hends⟩⟩)
    obtain ⟨-, rfl⟩ := hlast.unique hlast'
    rcases hkind with hkind | hkind
    · simp [Token.isLiteral, hkind] at hliteral
    · simp [Token.isLiteral, hkind] at hliteral
  · intro hnone a line hline hblank
    obtain ⟨n, t, l, hlast, hl, rfl⟩ := exists_lastOn hline (ne_nil_of_endsInBlank hblank)
    obtain ⟨piece, hpiece, hiff, hsuffix⟩ := endsInBlank_iff_of_lastOn htidy hlast hl
    obtain ⟨hends, hcase⟩ := hiff.mp hblank
    refine ⟨n, t, piece, hlast, ?_, hpiece, ne_nil_of_endsInBlank hends, hsuffix hblank⟩
    rcases hcase with hspans | ⟨rfl, hends'⟩
    · exact hspans.1
    · -- the token is put behind a literal of several lines, and is neither comment nor directive
      have ht := htidy t (List.mem_of_getElem? hlast.get)
      rw [Token.eq_first_of_pieces hpiece] at hends
      cases hkind : t.kind with
      | string => simp [Token.isLiteral, hkind]
      | character => simp [Token.isLiteral, hkind]
      | lineComment => exact absurd hends' (hnone n t hlast (.inl hkind) hends)
      | blockComment => exact absurd hends' (hnone n t hlast (.inr hkind) hends)
      | directive =>
          obtain ⟨blankLines, hlayout⟩ := layout_directive o tokens n hkind
          exact absurd hends' (not_literalEnds_of_newLine hlayout)
      | word | number | punctuation =>
          have hink := ht.endsInInk (hkind ▸ rfl) (hkind ▸ nofun)
          rw [hends] at hink
          cases hink

/-- The blank behind a comment that follows a string of two lines is left. -/
theorem not_blanks_in_literals :
    let source := "s = \x22a\\\nb\x22; // c \n"
    ¬∀ a line, (outputLines .default source)[a]? = some line → endsInBlank line = true →
      EndsInLiteral .default source a line := by
  intro source hall
  have hread : tokenize .c 4 source
      = ⟨[⟨.word, "s", 0, "", 0, false⟩, ⟨.punctuation, "=", 0, " ", 2, false⟩,
          ⟨.string, "\x22a\\\nb\x22", 0, " ", 4, false⟩, ⟨.punctuation, ";", 0, "", 2, false⟩,
          ⟨.lineComment, "// c ", 0, " ", 4, false⟩], 1, some .linux⟩ := by
    show tokenize .c 4 "s = \x22a\\\nb\x22; // c \n" = _
    decide +kernel
  have hformat : format .default source = source := by
    have hsame : format .default source
        = (layOut .default (tokenize .c 4 source).tokens).render .spaces 4 .linux 1 := by
      rw [format]
      show (layOut .default (tokenize .c 4 source).tokens).render .spaces 4
        ((tokenize .c 4 source).lineEnd.getD .linux) (tokenize .c 4 source).trailingBreaks = _
      rw [hread]
      rfl
    rw [hsame, hread]
    decide +kernel
  have hline : (outputLines .default source)[1]? = some "b\x22; // c ".toList := by
    rw [outputLines, hformat]
    decide +kernel
  obtain ⟨n, t, piece, hlast, hliteral, -⟩ := hall 1 _ hline (by decide)
  have hcomment : LastOn .default (tokensToLayOut .default (tokenize .c 4 source)) 4
      ⟨.lineComment, "// c ", 0, " ", 4, false⟩ 1 := by
    have hspot : (spotAt .default (tokensToLayOut .default (tokenize .c 4 source)) 4
        ⟨.lineComment, "// c ", 0, " ", 4, false⟩).line = 1 := by
      rw [hread]
      decide +kernel
    refine ⟨by rw [hread]; rfl, Nat.le_of_eq hspot, by rw [hspot]; exact Nat.le_add_right _ _, ?_⟩
    rw [hread]
    intro u hu
    cases hu
  obtain ⟨-, rfl⟩ := hlast.unique hcomment
  cases hliteral

end Beautifier
