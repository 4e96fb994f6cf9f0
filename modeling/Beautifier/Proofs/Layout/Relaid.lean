/-
A source as it stands in the output.

`relaid` are the tokens of a source with the white space, the columns and the
texts that the layout gives them.  The output of the formatter is read as these
tokens and no others (`tokenize_format`): each token is a piece of the output,
and the pieces make up all that is written (`rendered_stage`).
-/
import Beautifier.Proofs.Token.Pieces
import Beautifier.Proofs.Text.Tabs
import Beautifier.Proofs.Layout.Copied
import Beautifier.Proofs.Layout.Preservation
import Beautifier.Proofs.Options.Bounds

namespace Beautifier

/-! ## Columns -/

theorem Position.column_advance_chars (width : Nat) (p : Position) (cs : List Char) :
    (p.advance width (cs.map .char)).column = Column.advance width p.column cs := by
  induction cs generalizing p with
  | nil => rfl
  | cons c cs ih => exact ih _

namespace Page

variable {o : Options} {e : LineEnd}

theorem column_finished (width : Nat) (ls : List Line) :
    (Position.start.advance width (finished o e ls)).column = 0 := by
  cases ls with
  | nil => rfl
  | cons l ls =>
      rw [finished_cons, Position.advance_append, Position.advance_append]
      rfl

theorem column_written (hwidth : 0 < o.indentWidth) (p : Page) :
    (Position.start.advance o.indentWidth (p.written o e)).column = p.column o.indentWidth := by
  rw [written, Position.advance_append, Position.column_advance_chars, column_finished,
    Line.allChars, Column.advance_append, Indent.advance_chars hwidth, column]
  cases p.lines with
  | nil => simp [Line.empty, Indent.columns, Indent.zero, Column.advance_nil]
  | cons l ls => rfl

end Page

/-! ## Tokens in the output -/

def planAt (o : Options) (tokens : List Token) (n : Nat) (t : Token) : Plan :=
  (cursorAt tokens n t).plan o (stage o tokens n).state (stage o tokens n).conditionals
    (stage o tokens n).page

namespace Layout

/-- The line breaks written in front of a token. -/
def breaks (page : Page) : Layout → Nat
  | newLine _ blankLines => (if page.isEmpty then 0 else 1) + blankLines
  | sameLine _ => 0

theorem breaks_newLine_pos {page : Page} (h : page.isEmpty = false) (indent : Indent)
    (blankLines : Nat) : 0 < (newLine indent blankLines).breaks page := by
  rw [breaks, h]
  exact Nat.add_pos_left Nat.one_pos _

/-- The white space written in front of a token, behind the line breaks. -/
def space (o : Options) (page : Page) (t : Token) : Layout → String
  | newLine indent _ => String.ofList (indent.chars o.indentKind o.indentWidth)
  | sameLine spacing => page.gap o t spacing

end Layout

namespace Page

variable {o : Options} {e : LineEnd}

/-- What is written on a page for a token. -/
def piece (o : Options) (e : LineEnd) (p : Page) (t : Token) (layout : Layout) : Piece where
  token := t
  gap := List.replicate (layout.breaks p) (.lineBreak e)
    ++ (layout.space o p t).toList.map .char
  copy := joinLines e ((p.ready o t layout).copied o t).1 ((p.ready o t layout).copied o t).2

/-- A token as it stands on a page once it is written. -/
def relaid (o : Options) (e : LineEnd) (p : Page) (t : Token) (layout : Layout) : Token where
  kind := t.kind
  text := Glyph.textOf (p.piece o e t layout).copy
  lineBreaks := layout.breaks p
  space := layout.space o p t
  column := (p.ready o t layout).column o.indentWidth
  inserted := false

theorem written_ready (p : Page) (t : Token) (layout : Layout) :
    (p.ready o t layout).written o e
      = (match layout with
          | .newLine _ _ => p.rendered o e
          | .sameLine _ => p.written o e) ++ (p.piece o e t layout).gap := by
  cases layout with
  | newLine indent blankLines =>
      simp [ready, written_newLine, piece, Layout.breaks, Layout.space]
  | sameLine spacing => simp [ready, written_space, piece, Layout.breaks, Layout.space]

theorem copied_of_isExact {language : Language} {t : Token} {atLineStart : Bool} {first : Char}
    {source : List Glyph} {cut : Cut} (ht : t.ReadFrom language atLineStart first source cut)
    (hexact : t.isExact = true) (p : Page) : p.copied o t = t.lines := by
  obtain ⟨more, hfirst⟩ := ht.exists_firstLine
  have hothers : (p.copied o t).2 = t.lines.2 :=
    (List.map_congr_left fun piece _ =>
      (continuation_of_isExact hexact _ _ piece).2).trans (List.map_id _)
  have hone : (p.copied o t).1 = t.lines.1 := by
    rw [copied]
    dsimp only
    split
    · next htrimmed =>
      -- a literal of several lines keeps its blanks, and other tokens end in ink
      have hsingle : t.lines.2 = [] := by
        by_contra hne
        have hkeeps : Line.keepsBlanks t.kind = true := by
          cases hkind : t.kind <;> simp_all [Token.isExact, Token.endsLine, Line.keepsBlanks]
        rw [newest, begin, lines_amend, List.headD_cons] at htrimmed
        simp [hkeeps, hne] at htrimmed
      obtain ⟨front, c, hlast, hc⟩ := ht.exists_lastLine (by simp_all [Token.isExact])
      have hlast : t.lines.1 = front ++ [c] := by
        rw [← hlast, Token.lastLine, ← Token.lines, hsingle]
        rfl
      rw [hlast, trimRight_concat hc]
    · rfl
  exact Prod.ext hone hothers

theorem copies_copied {language : Language} {t : Token} {atLineStart : Bool} {first : Char}
    {source : List Glyph} {cut : Cut} (ht : t.ReadFrom language atLineStart first source cut)
    (p : Page) : Copies e t (joinLines e (p.copied o t).1 (p.copied o t).2) := by
  cases hexact : t.isExact with
  | false =>
      refine .respaced hexact ?_ ?_
      · rw [copied]
        dsimp only
        split
        · exact exists_trimRight_append isBlank _
        · exact .refl _
      · rw [copied, List.forall₂_map_right_iff, List.forall₂_same]
        exact fun piece _ => (reblanked_continuation hexact _ _ piece).trimmed
          (Line.trimmed_chars _)
  | true =>
      rw [copied_of_isExact ht hexact]
      exact .exact hexact

end Page

def relaidAt (o : Options) (e : LineEnd) (tokens : List Token) (n : Nat) (t : Token) : Token :=
  (stage o tokens n).page.relaid o e t (planAt o tokens n t).layout

/-- The tokens as they stand in the output. -/
def relaid (o : Options) (e : LineEnd) (tokens : List Token) : List Token :=
  tokens.mapIdx (relaidAt o e tokens)

def pieceAt (o : Options) (e : LineEnd) (tokens : List Token) (n : Nat) (t : Token) : Piece :=
  (stage o tokens n).page.piece o e t (planAt o tokens n t).layout

def piecesOf (o : Options) (e : LineEnd) (tokens : List Token) : List Piece :=
  tokens.mapIdx (pieceAt o e tokens)

section
variable {language : Language} {o : Options} {tokens : List Token} {e : LineEnd} {n : Nat}
  {t : Token}

theorem map_token_piecesOf (o : Options) (e : LineEnd) (tokens : List Token) :
    (piecesOf o e tokens).map Piece.token = tokens := by
  refine List.ext_getElem? fun n => ?_
  rw [List.getElem?_map, piecesOf, List.getElem?_mapIdx, Option.map_map]
  exact Option.map_id' ..

theorem take_succ_piecesOf (hget : tokens[n]? = some t) : (piecesOf o e tokens).take (n + 1)
    = (piecesOf o e tokens).take n ++ [pieceAt o e tokens n t] := by
  rw [List.take_add_one, piecesOf, List.getElem?_mapIdx, hget]
  rfl

theorem page_stage_succ (hget : tokens[n]? = some t) : (stage o tokens (n + 1)).page
    = ((stage o tokens n).page.ready o t (planAt o tokens n t).layout).write o t := by
  rw [stage_succ hget]
  rfl

theorem joins_pieceAt (htokens : Faithful language tokens) (hwidth : 0 < o.indentWidth)
    (hfuse : ∀ n, ¬FusesAt o tokens n) (hget : tokens[n]? = some t) :
    Joins e (tokens.take n).getLast? t (pieceAt o e tokens n t).gap := by
  have hlt : n < tokens.length := (List.getElem?_eq_some_iff.mp hget).1
  rw [pieceAt, Page.piece]
  cases hlayout : (planAt o tokens n t).layout with
  | newLine indent blankLines =>
      refine joins_newLine t (fun c hc => ?_) fun p hp => ?_
      · rw [Layout.space, String.toList_ofList] at hc
        simp [isGapChar, isBlank_of_mem_indent c hc]
      · obtain ⟨m, rfl, -⟩ := exists_of_getLast?_take hlt.le hp
        rw [Layout.breaks, isEmpty_stage o tokens (Nat.lt_of_succ_lt hlt)]
        exact Nat.lt_of_lt_of_le Nat.zero_lt_one (Nat.le_add_right 1 _)
  | sameLine spacing => exact joins_sameLine htokens hwidth (fun _ m _ => hfuse m) hget hlayout

/-- A token goes on with the line only behind one that does not run up to its end. -/
theorem endsLine_of_sameLine (htokens : Faithful language tokens) (hwidth : 0 < o.indentWidth)
    (hfuse : ∀ n, ¬FusesAt o tokens n) (hget : tokens[n]? = some t) {spacing : Spacing}
    (hlayout : (planAt o tokens n t).layout = .sameLine spacing) :
    ∀ p ∈ (tokens.take n).getLast?, p.endsLine = false := by
  intro p hp
  by_contra hends
  obtain ⟨gap, hgap⟩ :=
    (joins_pieceAt (e := .linux) htokens hwidth hfuse hget).ends p hp (by simpa using hends)
  rw [pieceAt, hlayout] at hgap
  simp [Page.piece, Layout.breaks, List.map_eq_cons_iff] at hgap

theorem written_ready_stage (htokens : Faithful language tokens) (hwidth : 0 < o.indentWidth)
    (hfuse : ∀ n, ¬FusesAt o tokens n) (hget : tokens[n]? = some t) {gs : List Glyph}
    (hrendered : (stage o tokens n).page.rendered o e = gs)
    (hwritten : (∀ p ∈ (tokens.take n).getLast?, p.endsLine = false) →
      (stage o tokens n).page.written o e = (stage o tokens n).page.rendered o e) :
    ((stage o tokens n).page.ready o t (planAt o tokens n t).layout).written o e
      = gs ++ (pieceAt o e tokens n t).gap := by
  rw [Page.written_ready, ← hrendered, pieceAt]
  cases hlayout : (planAt o tokens n t).layout with
  | newLine => rfl
  | sameLine spacing => rw [hwritten (endsLine_of_sameLine htokens hwidth hfuse hget hlayout)]

/-- After every step the page holds the pieces of the tokens before, and nothing is cut off behind
a token that does not run up to the end of its line. -/
theorem rendered_stage (htokens : Faithful language tokens) (hwidth : 0 < o.indentWidth)
    (hfuse : ∀ n, ¬FusesAt o tokens n) (hn : n ≤ tokens.length) :
    (stage o tokens n).page.rendered o e = ((piecesOf o e tokens).take n).flatMap Piece.glyphs ∧
      Piece.Chain e none ((piecesOf o e tokens).take n) ∧
      ((∀ p ∈ (tokens.take n).getLast?, p.endsLine = false) →
        (stage o tokens n).page.written o e = (stage o tokens n).page.rendered o e) := by
  induction n with
  | zero => exact ⟨rfl, .nil, fun _ => Page.written_blank⟩
  | succ n ih =>
      obtain ⟨hrendered, hchain, hwritten⟩ := ih (Nat.le_of_succ_le hn)
      have hget : tokens[n]? = some tokens[n] := List.getElem?_eq_getElem hn
      obtain ⟨_, first, _, _, ht⟩ := htokens.isRead tokens[n] (List.getElem_mem hn)
      obtain ⟨more, hfirst⟩ := ht.exists_firstLine
      have hready := written_ready_stage htokens hwidth hfuse hget hrendered hwritten
      refine ⟨?_, ?_, fun hends => ?_⟩
      · rw [page_stage_succ hget, Page.rendered_write hfirst ht.not_isBlank, hready,
          take_succ_piecesOf hget, List.flatMap_append, List.append_assoc, List.flatMap_singleton]
        rfl
      · rw [take_succ_piecesOf hget]
        refine hchain.snoc ?_ (Page.copies_copied ht _)
        rw [List.map_take, map_token_piecesOf, Option.orElse_eq_orElse, Option.orElse_eq_or,
          Option.or_none]
        exact joins_pieceAt htokens hwidth hfuse hget
      · rw [page_stage_succ hget]
        have hlast : tokens[n] ∈ (tokens.take (n + 1)).getLast? := by
          rw [List.take_add_one, hget, Option.toList_some, List.getLast?_concat]
          rfl
        obtain ⟨front, c, hlast, hc⟩ := ht.exists_lastLine (hends _ hlast)
        exact Page.written_write_eq hlast hc _

/-- The pieces of the output are read as the tokens as they stand there. -/
theorem read_piecesOf (htokens : Faithful language tokens) (hwidth : 0 < o.indentWidth)
    (hfuse : ∀ n, ¬FusesAt o tokens n) :
    Piece.read o.indentWidth .start (piecesOf o e tokens) = relaid o e tokens := by
  refine List.ext_getElem? fun n => ?_
  by_cases hn : n < tokens.length
  · have hget : tokens[n]? = some tokens[n] := List.getElem?_eq_getElem hn
    have hpiece : (piecesOf o e tokens)[n]? = some (pieceAt o e tokens n tokens[n]) := by
      rw [piecesOf, List.getElem?_mapIdx, hget]
      rfl
    obtain ⟨position, hcolumn, hread⟩ :=
      Piece.exists_getElem?_read o.indentWidth .start hpiece
    obtain ⟨hrendered, -, hwritten⟩ := rendered_stage (e := e) htokens hwidth hfuse hn.le
    have hready := written_ready_stage htokens hwidth hfuse hget hrendered hwritten
    have hbehind : (position.advance o.indentWidth (pieceAt o e tokens n tokens[n]).gap).column
        = (relaidAt o e tokens n tokens[n]).column := by
      rw [Position.column_advance_congr hcolumn, ← Position.advance_append, ← hready,
        Page.column_written hwidth]
      rfl
    obtain ⟨hbreaks, hspace⟩ := gapBreaks_replicate e
      ((planAt o tokens n tokens[n]).layout.breaks (stage o tokens n).page)
      ((planAt o tokens n tokens[n]).layout.space o (stage o tokens n).page tokens[n]).toList
    have htoken : Token.readBehind o.indentWidth position tokens[n].kind
        (pieceAt o e tokens n tokens[n]).gap (pieceAt o e tokens n tokens[n]).copy
          = relaidAt o e tokens n tokens[n] := by
      rw [Token.readBehind, hbehind, pieceAt, Page.piece, hbreaks, hspace, String.ofList_toList]
      rfl
    rw [hread, relaid, List.getElem?_mapIdx, hget]
    exact congrArg some htoken
  · rw [List.getElem?_eq_none (by rw [Piece.length_read, piecesOf, List.length_mapIdx]; omega),
      List.getElem?_eq_none (by rw [relaid, List.length_mapIdx]; omega)]

end

/-! ## The output -/

theorem lineEndOf_eq_linux {o : Options} (hend : o.lineEnd = none) {source : String}
    (hplain : Plain .linux (glyphs source.toList)) : lineEndOf o source = .linux := by
  have hfirst : ∀ e ∈ (tokenize o.language o.indentWidth source).lineEnd, e = .linux :=
    lineEnd_readTokens _ _ hplain nofun
  rw [lineEndOf, hend]
  cases hline : (tokenize o.language o.indentWidth source).lineEnd with
  | none => rfl
  | some e => exact hfirst e hline

/-- An output that ends its lines in one way is given the same line ending again. -/
theorem lineEndOf_format {o : Options} {source : String} {gs : List Glyph} {trailing : Nat}
    (hsource : Plain .linux (glyphs source.toList)) (hgs : Plain (lineEndOf o source) gs)
    (hglyphs : glyphs (format o source).toList
      = gs ++ List.replicate trailing (.lineBreak (lineEndOf o source))) :
    lineEndOf o (format o source) = lineEndOf o source := by
  cases hend : o.lineEnd with
  | some e =>
      rw [lineEndOf, lineEndOf, hend]
      rfl
  | none =>
      have hlinux := lineEndOf_eq_linux hend hsource
      refine (lineEndOf_eq_linux hend ?_).trans hlinux.symm
      rw [hglyphs, ← hlinux]
      refine plain_append.mpr ⟨hgs, fun g hg => ?_⟩
      rw [(List.mem_replicate.mp hg).2]

/-- The output of the formatter is read as the tokens of the source as they stand there, and it
ends its lines and itself as the options and the source say. -/
theorem tokenize_format {text : String} {o : Options} (ho : parseOptions text = .ok o)
    (hbraces : o.addBraces = false) {source : String} (hreturn : '\r' ∉ source.toList)
    (hclosed : ∀ t ∈ (tokenize o.language o.indentWidth source).tokens,
      t.mayStayOpen = true → t.isClosed o.language = true)
    (hhash : ∀ t ∈ (tokenize o.language o.indentWidth source).tokens, t.is "#" = false)
    (hfuse : ∀ n, ¬FusesAt o (tokenize o.language o.indentWidth source).tokens n) :
    (tokenize o.language o.indentWidth (format o source)).tokens
        = relaid o (lineEndOf o source) (tokenize o.language o.indentWidth source).tokens ∧
      (tokenize o.language o.indentWidth (format o source)).trailingBreaks
        = (tokenize o.language o.indentWidth source).trailingBreaks ∧
      lineEndOf o (format o source) = lineEndOf o source := by
  have hplain := plain_glyphs hreturn
  have hpart := partition_tokenize o.language o.indentWidth source
  have hsettled : ∀ t ∈ (tokenize o.language o.indentWidth source).tokens,
      t.Settled o.language := fun t ht => ⟨hclosed t ht, hhash t ht⟩
  have htokens := hpart.faithful hplain hsettled
  have hwidth : 0 < o.indentWidth :=
    Nat.lt_of_lt_of_le (by decide) (indentWidth_parseOptions ho).1
  obtain ⟨hrendered, hchain, -⟩ :=
    rendered_stage (e := lineEndOf o source) htokens hwidth hfuse (Nat.le_refl _)
  have hall :
      (piecesOf o (lineEndOf o source) (tokenize o.language o.indentWidth source).tokens).take
      (tokenize o.language o.indentWidth source).tokens.length = piecesOf o (lineEndOf o source)
        (tokenize o.language o.indentWidth source).tokens :=
    List.take_of_length_le (by rw [piecesOf, List.length_mapIdx])
  rw [hall] at hrendered hchain
  have hspells := hchain.spells
  rw [map_token_piecesOf, ← hrendered] at hspells
  have hglyphs := glyphs_format hbraces (by
    rw [layOut_eq_stage]
    exact hspells.plain htokens.isRead)
  rw [layOut_eq_stage, hrendered] at hglyphs
  rw [← map_token_piecesOf o (lineEndOf o source)
    (tokenize o.language o.indentWidth source).tokens] at hpart
  obtain ⟨htokens', htrailing⟩ := hpart.readTokens_pieces hplain
    (fun p hp => hsettled _ (by
      have hmem := List.mem_map_of_mem (f := Piece.token) hp
      rwa [map_token_piecesOf] at hmem))
    hchain o.indentWidth .start fun _ => rfl
  have hread : tokenize o.language o.indentWidth (format o source)
      = readTokens o.language o.indentWidth .start (List.flatMap Piece.glyphs
          (piecesOf o (lineEndOf o source) (tokenize o.language o.indentWidth source).tokens)
        ++ List.replicate (tokenize o.language o.indentWidth source).trailingBreaks
          (.lineBreak (lineEndOf o source))) := by
    rw [tokenize, Nat.max_eq_left hwidth, hglyphs]
  refine ⟨?_, ?_, ?_⟩
  · rw [hread, htokens', read_piecesOf htokens hwidth hfuse]
  · rw [hread, htrailing]
  · refine lineEndOf_format hplain ?_ hglyphs
    rw [← hrendered]
    exact hspells.plain htokens.isRead

end Beautifier
