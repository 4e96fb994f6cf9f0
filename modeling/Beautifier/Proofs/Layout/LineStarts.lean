/-
Where lines start.

Two runs over the same tokens, with options that differ in columns alone, are
compared: in front of every token the states have the same frame, and the
pages match (`InParallel`).  A token is planned alike in both
(`InParallel.plan`) and keeps them in parallel (`InParallel.step`), so it
starts a line in both or in neither, below the same number of empty lines
(`lineStarts_eq`).
-/
import Beautifier.Proofs.Layout.Matches
import Beautifier.Proofs.Layout.Fixpoint

namespace Beautifier

/-- What a plan says about lines. -/
def Plan.outline (p : Plan) : Action × State × List Conditional × Option Nat :=
  (p.action.frame, p.state.frame, p.conditionals.map Conditional.frame, p.layout.blankLines?)

variable {o o' : Options} {c c' : Cursor} {p q : Page}

@[simp] theorem Conditional.frame_frame (c : Conditional) : c.frame.frame = c.frame := by
  simp only [Conditional.frame, State.frame_frame, Option.map_map]
  congr 2
  funext s
  exact s.frame_frame

theorem Conditional.map_frame_frame (cs : List Conditional) :
    (cs.map Conditional.frame).map Conditional.frame = cs.map Conditional.frame := by
  rw [List.map_map]
  exact List.map_congr_left fun c _ => c.frame_frame

theorem Layout.blankLines?_ite (starts : Bool) (indent : Indent) (blankLines : Nat)
    (spacing : Spacing) :
    (if starts then newLine indent blankLines else sameLine spacing).blankLines?
      = if starts then some blankLines else none := by
  cases starts <;> rfl

/-- The empty lines above a line are counted alike. -/
theorem Cursor.blankLines_frame (ho : o.SameLines o') (hc : c'.columnless = c.columnless)
    (hp : p.Matches q) (s : State) (starts afterDo : Bool) :
    c'.blankLines o' s.frame q starts afterDo = c.blankLines o s p starts afterDo := by
  have hheader : c'.setsHeaderApart s.frame q afterDo = c.setsHeaderApart s p afterDo := by
    rw [eq_of_bare (·.setsHeaderApart s.frame q afterDo)
      (fun c => c.setsHeaderApart_bare s.frame q afterDo) (bare_eq hc), setsHeaderApart,
      setsHeaderApart, hp.onlyComments]
    rfl
  simp only [blankLines, inserted_eq hc, lineBreaks_eq hc, is_eq (bare_eq hc), hp.isEmpty, hheader,
    State.inFunction_frame, ho.deleteEmptyLines, ho.breakBlocks]
  rfl

namespace Plan

theorem branch_frame (name : String) (s : State) (cs : List Conditional) :
    branch name s.frame (cs.map Conditional.frame)
      = ((branch name s cs).1.frame, (branch name s cs).2.map Conditional.frame) := by
  simp only [branch]
  split
  · rfl
  · split
    · cases cs with
      | nil => rfl
      | cons c outer => cases hfirst : c.afterFirst <;> simp [Conditional.frame, hfirst]
    · split
      · cases cs with
        | nil => rfl
        | cons c outer => cases hfirst : c.afterFirst <;> simp [Conditional.frame, hfirst]
      · rfl

theorem outline_directive (ho : o.SameLines o') (hc : c'.columnless = c.columnless)
    (hp : p.Matches q) (s : State) (cs : List Conditional) :
    (directive c' o' s.frame (cs.map Conditional.frame) q).outline
      = (directive c o s cs p).outline := by
  simp only [directive, Cursor.text_eq hc, branch_frame, outline, Layout.blankLines?,
    Cursor.blankLines_frame ho hc hp, State.frame_frame, Conditional.map_frame_frame]

theorem outline_comment (ho : o.SameLines o') (hc : c'.columnless = c.columnless)
    (hp : p.Matches q) (s : State) (cs : List Conditional) :
    (comment c' o' s.frame (cs.map Conditional.frame) q).outline
      = (comment c o s cs p).outline := by
  simp only [comment, outline, hp.isEmpty, Cursor.lineBreaks_eq hc, Layout.blankLines?_ite,
    Cursor.blankLines_frame ho hc hp, State.frame_frame, Conditional.map_frame_frame]

theorem breaksAfterClose_eq (ho : o.SameLines o') (hc : c'.columnless = c.columnless)
    (hp : p.Matches q) (closed : ClosedBrace) :
    breaksAfterClose o' q closed c'.token = breaksAfterClose o p closed c.token := by
  have htoken := Cursor.token_bare_eq (Cursor.bare_eq hc)
  have htight : c'.token.isOneOf [";", ",", ")", "]"] = c.token.isOneOf [";", ",", ")", "]"] := by
    rw [← Token.isOneOf_bare, htoken, Token.isOneOf_bare]
  rw [breaksAfterClose, breaksAfterClose, hp.canJoin, htight, isClosingHeader_eq htoken,
    ho.breakClosingHeaders, Cursor.lineBreaks_eq hc]

theorem outline_code (ho : o.SameLines o') (hc : c'.columnless = c.columnless)
    (hp : p.Matches q) (s : State) (cs : List Conditional) :
    (code c' o' s.frame (cs.map Conditional.frame) q).outline = (code c o s cs p).outline := by
  have hsemicolon : c'.token.is ";" = c.token.is ";" := Cursor.is_eq (Cursor.bare_eq hc) ";"
  have hbody : ∀ starts semicolon : Bool,
      { s.frame with
        stmt := startBody s.frame.stmt starts semicolon
        afterClose := none : State }
      = { s with stmt := startBody s.stmt starts semicolon, afterClose := none : State }.frame := by
    intro starts semicolon
    have hstmt : startBody s.stmt.frame starts semicolon
        = (startBody s.stmt starts semicolon).frame := by
      simp only [startBody, apply_ite Statement.frame]
      rfl
    exact congrArg (fun stmt => { s.frame with stmt := stmt, afterClose := none : State }) hstmt
  have hactive : s.frame.stmt.active = s.stmt.active := rfl
  have hforce : s.frame.forceBreak = s.forceBreak := rfl
  have hframe : s.frame.afterClose = s.afterClose := rfl
  simp only [code, hsemicolon, hactive, hbody]
  cases hclose : s.afterClose <;>
    simp only [hforce, hframe, hclose, Cursor.role_eq hc, Cursor.role_frame, ho.language,
      hp.isEmpty, breaksAfterClose_eq ho hc hp,
      Cursor.lineBreaks_eq hc, outline, Action.frame, State.frame_frame,
      Conditional.map_frame_frame, Layout.blankLines?_ite, Cursor.blankLines_frame ho hc hp]

theorem outline_openBrace (ho : o.SameLines o') (hc : c'.columnless = c.columnless)
    (hp : p.Matches q) (s : State) (cs : List Conditional) :
    (openBrace c' o' s.frame (cs.map Conditional.frame) q).outline
      = (openBrace c o s cs p).outline := by
  have hopening := opening_frame ho hc s
  have hplacement : placement o' s.frame (opening c' o' s.frame)
      = placement o s (opening c o s) := by
    rw [← placement_frame ho, ← hopening]
    rfl
  have hline : ∀ placement, opensLine c' s.frame q placement = opensLine c s p placement := by
    intro placement
    simp only [opensLine, hp.isEmpty, hp.canJoin, Cursor.lineBreaks_eq hc]
    rfl
  have hstate : { s.frame with afterClose := none : State }
      = { s with afterClose := none : State }.frame := rfl
  simp only [openBrace, hstate, outline, Action.frame, hopening, hplacement, hline,
    Cursor.lineBreaks_eq hc, Layout.blankLines?_ite, Cursor.blankLines_frame ho hc hp,
    State.frame_frame, Conditional.map_frame_frame]

theorem outline_strayBrace (ho : o.SameLines o') (hc : c'.columnless = c.columnless)
    (hp : p.Matches q) (s : State) (cs : List Conditional) :
    (strayBrace c' o' s.frame (cs.map Conditional.frame) q).outline
      = (strayBrace c o s cs p).outline := by
  simp only [strayBrace, outline, hp.isEmpty, Cursor.lineBreaks_eq hc, Layout.blankLines?_ite,
    Cursor.blankLines_frame ho hc hp, State.frame_frame, Conditional.map_frame_frame]

theorem outline_closeBrace (ho : o.SameLines o') (hc : c'.columnless = c.columnless)
    (hp : p.Matches q) (s : State) (cs : List Conditional) :
    (closeBrace c' o' s.frame (cs.map Conditional.frame) q).outline
      = (closeBrace c o s cs p).outline := by
  cases hbraces : s.braces with
  | nil =>
      have hframe : s.frame.braces = [] := congrArg (List.map OpenBrace.frame) hbraces
      rw [closeBrace, closeBrace, hbraces, hframe]
      exact outline_strayBrace ho hc hp { s with braces := [], afterClose := none } cs
  | cons b outer =>
      have hframe : s.frame.braces = b.frame :: outer.map OpenBrace.frame :=
        congrArg (List.map OpenBrace.frame) hbraces
      have hstate : { s.frame with
            afterClose := none
            braces := outer.map OpenBrace.frame : State }
          = { s with afterClose := none, braces := outer : State }.frame := rfl
      have hline : ∀ s : State, closesLine c' s.frame q b.frame = closesLine c s p b := by
        intro s
        rw [closesLine, closesLine, hp.isEmpty, Cursor.lineBreaks_eq hc, State.inKeptLine_frame]
        rfl
      simp only [closeBrace, hbraces, hframe, hstate, hline, outline, Action.frame, Option.map_some,
        OpenBrace.frame_frame, Layout.blankLines?_ite, Cursor.blankLines_frame ho hc hp,
        State.frame_frame, Conditional.map_frame_frame]

end Plan

/-- A token is planned alike in states with one frame and on pages that match. -/
theorem Cursor.outline_plan (ho : o.SameLines o') (hc : c'.columnless = c.columnless)
    (hp : p.Matches q) (s : State) (cs : List Conditional) :
    (c'.plan o' s.frame (cs.map Conditional.frame) q).outline = (c.plan o s cs p).outline := by
  rw [plan, plan, kind_eq (bare_eq hc), is_eq (bare_eq hc), is_eq (bare_eq hc)]
  have hcode : (if c.token.is "\x7b" then
        Plan.openBrace c' o' s.frame (cs.map Conditional.frame) q
      else if c.token.is "\x7d" then Plan.closeBrace c' o' s.frame (cs.map Conditional.frame) q
      else Plan.code c' o' s.frame (cs.map Conditional.frame) q).outline
      = (if c.token.is "\x7b" then Plan.openBrace c o s cs p
        else if c.token.is "\x7d" then Plan.closeBrace c o s cs p
        else Plan.code c o s cs p).outline := by
    split
    · exact Plan.outline_openBrace ho hc hp s cs
    · split
      · exact Plan.outline_closeBrace ho hc hp s cs
      · exact Plan.outline_code ho hc hp s cs
  cases c.token.kind with
  | directive => exact Plan.outline_directive ho hc hp s cs
  | lineComment => exact Plan.outline_comment ho hc hp s cs
  | blockComment => exact Plan.outline_comment ho hc hp s cs
  | _ => exact hcode

/-! ## Two runs -/

/-- Two runs have come to states with one frame and to pages that match. -/
structure InParallel (r r' : Progress) : Prop where
  state : r'.state.frame = r.state.frame
  conditionals : r'.conditionals.map Conditional.frame = r.conditionals.map Conditional.frame
  page : r.page.Matches r'.page

namespace InParallel

variable {r r' : Progress}

theorem start : InParallel .start .start := ⟨rfl, rfl, .refl _⟩

theorem plan (h : InParallel r r') (ho : o.SameLines o') (hc : c'.columnless = c.columnless) :
    (c'.plan o' r'.state r'.conditionals r'.page).outline
      = (c.plan o r.state r.conditionals r.page).outline := by
  rw [← Cursor.outline_plan (.refl o') rfl (.refl r'.page), h.state, h.conditionals,
    Cursor.outline_plan ho hc h.page]

theorem step (h : InParallel r r') (ho : o.SameLines o') (hc : c'.columnless = c.columnless)
    (htext : ink c.token.lines.1 ≠ []) : InParallel (r.step o c) (r'.step o' c') := by
  have hplan := h.plan ho hc
  simp only [Plan.outline, Prod.mk.injEq] at hplan
  obtain ⟨haction, hstate, hconditionals, hlayout⟩ := hplan
  refine ⟨?_, hconditionals, ?_⟩
  · exact State.settle_congr (State.placed_congr hstate hc hlayout _ _) ho hc haction _ _
  · have hkind : c'.token.kind = c.token.kind := Cursor.kind_eq (Cursor.bare_eq hc)
    simp only [Progress.step, Page.write, hkind, Cursor.text_eq hc]
    exact (h.page.ready hlayout).push _ _ _ _ _ _ htext

end InParallel

/-! ## All tokens -/

section

variable {tokens tokens' : List Token} {n : Nat} {t t' : Token}

theorem closers_columnless (h : tokens'.map Token.columnless = tokens.map Token.columnless) :
    Matching.closers tokens' = Matching.closers tokens := by
  have hbare : ∀ ts : List Token, (ts.map Token.columnless).map Token.bare = ts.map Token.bare := by
    intro ts
    rw [List.map_map]
    rfl
  rw [← Matching.closers_map_bare, ← hbare, h, hbare, Matching.closers_map_bare]

theorem columnless_cursorAt (h : tokens'.map Token.columnless = tokens.map Token.columnless)
    (ht : t'.columnless = t.columnless) (n : Nat) :
    (cursorAt tokens' n t').columnless = (cursorAt tokens n t).columnless := by
  simp only [cursorAt, Cursor.columnless, List.map_reverse, List.map_take, List.map_drop, h, ht,
    closers_columnless h]

/-- Over tokens that differ in columns alone two runs stay in parallel. -/
theorem inParallel_stage (ho : o.SameLines o')
    (h : tokens'.map Token.columnless = tokens.map Token.columnless)
    (htexts : ∀ t ∈ tokens, ink t.lines.1 ≠ []) (n : Nat) :
    InParallel (stage o tokens n) (stage o' tokens' n) := by
  induction n with
  | zero => exact .start
  | succ n ih =>
      have hget : tokens'[n]?.map Token.columnless = tokens[n]?.map Token.columnless := by
        rw [← List.getElem?_map, h, List.getElem?_map]
      cases ht : tokens[n]? with
      | none =>
          rw [ht, Option.map_none, Option.map_eq_none_iff] at hget
          rw [stage, stage, ht, hget]
          exact ih
      | some t =>
          rw [ht, Option.map_some, Option.map_eq_some_iff] at hget
          obtain ⟨t', ht', htoken⟩ := hget
          rw [stage_succ ht, stage_succ ht']
          exact ih.step ho (columnless_cursorAt h htoken n)
            (htexts t (List.mem_of_getElem? ht))

/-- The number of empty lines above the line that a token starts, if it starts one. -/
def lineStartAt? (o : Options) (tokens : List Token) (n : Nat) (t : Token) : Option Nat :=
  ((stage o tokens n).page.ready o t (planAt o tokens n t).layout).lineStart? o

theorem lineStartAt?_eq (ho : o.SameLines o')
    (h : tokens'.map Token.columnless = tokens.map Token.columnless)
    (htexts : ∀ t ∈ tokens, ink t.lines.1 ≠ []) (hspaces : ∀ t ∈ tokens, t.HasSpace)
    (ht : tokens[n]? = some t) (htoken : t'.columnless = t.columnless) :
    lineStartAt? o' tokens' n t' = lineStartAt? o tokens n t := by
  have hparallel := inParallel_stage ho h htexts n
  have hspace : t.HasSpace := hspaces t (List.mem_of_getElem? ht)
  have hspace' : t'.HasSpace := by
    rw [Token.HasSpace, (Token.mk.inj htoken).2.2.2.1]
    exact hspace
  have hplan := hparallel.plan ho (columnless_cursorAt h htoken n)
  simp only [Plan.outline, Prod.mk.injEq] at hplan
  exact hparallel.page.lineStart? hplan.2.2.2 hspace hspace'

end

/-! ## The whole source -/

theorem ink_lines_of_starts {t : Token} {first : Char} {behind : List Char}
    (ht : t.text.toList = first :: behind) (hfirst : isSpace first = false) :
    ink t.lines.1 ≠ [] := by
  have hbreak : first ≠ '\r' ∧ first ≠ '\n' := by
    constructor <;> rintro rfl <;> exact absurd hfirst (by decide)
  rw [Token.lines, ht, glyphs_cons hbreak.1 hbreak.2, linesOf]
  simp [ink, hfirst]

/-- Every token that is laid out starts with ink. -/
theorem ink_lines_tokensToLayOut (o : Options) (language : Language) (width : Nat)
    (source : String) :
    ∀ t ∈ tokensToLayOut o (tokenize language width source), ink t.lines.1 ≠ [] := by
  intro t ht
  obtain ⟨first, behind, htext, hfirst⟩ := starts_tokensToLayOut o language width source t ht
  exact ink_lines_of_starts htext hfirst

/-- The tokens that are laid out for a source, and for each that starts a line the number of empty
lines above it. -/
def lineStarts (o : Options) (source : String) : List (TokenKind × String × Option Nat) :=
  let tokens := tokensToLayOut o (tokenize o.language o.indentWidth source)
  tokens.mapIdx fun n t => (t.kind, t.text, lineStartAt? o tokens n t)

/-- Padding, the alignment of pointers, tabs, indentation and line endings make no difference to
lines: under options that differ in nothing else, the same tokens start a line, below the same
number of empty lines. -/
theorem lineStarts_eq {o o' : Options} (h : o.SameLines o') (source : String) :
    lineStarts o' source = lineStarts o source := by
  have hpart := partition_tokenize o.language o.indentWidth source
  have htokens := columnless_tokensToLayOut h.language h.addBraces source
  have htexts := ink_lines_tokensToLayOut o o.language o.indentWidth source
  have hspaces : ∀ t ∈ tokensToLayOut o (tokenize o.language o.indentWidth source), t.HasSpace :=
    hasSpace_tokensToLayOut o fun t ht c hc =>
      isSpace_of_isGapChar (hpart.isGapChar_of_mem_space t ht c hc)
  rw [lineStarts, lineStarts]
  refine List.ext_getElem? fun n => ?_
  rw [List.getElem?_mapIdx, List.getElem?_mapIdx]
  have hget := congrArg (·[n]?) htokens
  simp only [List.getElem?_map] at hget
  cases ht : (tokensToLayOut o (tokenize o.language o.indentWidth source))[n]? with
  | none =>
      rw [ht, Option.map_none, Option.map_eq_none_iff] at hget
      rw [hget, Option.map_none, Option.map_none]
  | some t =>
      rw [ht, Option.map_some, Option.map_eq_some_iff] at hget
      obtain ⟨t', ht', htoken⟩ := hget
      rw [ht', Option.map_some, Option.map_some,
        lineStartAt?_eq h htokens htexts hspaces ht htoken]
      obtain ⟨hkind, htext, -⟩ := Token.mk.inj htoken
      rw [hkind, htext]

/-- Padded operators, another pointer and narrower tabs for indentation leave the lines of a
statement and a block as they are. -/
theorem lineStarts_eq_padded :
    let o := { Options.default with style := .allman, breakBlocks := true }
    let o' := { o with
      indentKind := .tab
      indentWidth := 2
      padOper := true
      alignPointer := some .name
      lineEnd := some .windows }
    let source := "int* a=b;\nif (a) \x7b c; \x7d\nd;\n"
    o.SameLines o' ∧ lineStarts o' source = lineStarts o source ∧
      (lineStarts o source).map (·.2.2) =
        [some 0, none, none, none, none, none, some 1, none, none, none, some 0, some 0, none,
          some 0, some 1, none] := by
  intro o o' source
  have h : o.SameLines o' := ⟨rfl, rfl, rfl, rfl, rfl, rfl, rfl, rfl, rfl, rfl⟩
  refine ⟨h, lineStarts_eq h source, ?_⟩
  have htokens : (tokenize .c 4 "int* a=b;\nif (a) \x7b c; \x7d\nd;\n").tokens
      = [⟨.word, "int", 0, "", 0, false⟩, ⟨.punctuation, "*", 0, "", 3, false⟩,
          ⟨.word, "a", 0, " ", 5, false⟩, ⟨.punctuation, "=", 0, "", 6, false⟩,
          ⟨.word, "b", 0, "", 7, false⟩, ⟨.punctuation, ";", 0, "", 8, false⟩,
          ⟨.word, "if", 1, "", 0, false⟩, ⟨.punctuation, "(", 0, " ", 3, false⟩,
          ⟨.word, "a", 0, "", 4, false⟩, ⟨.punctuation, ")", 0, "", 5, false⟩,
          ⟨.punctuation, "\x7b", 0, " ", 7, false⟩, ⟨.word, "c", 0, " ", 9, false⟩,
          ⟨.punctuation, ";", 0, "", 10, false⟩, ⟨.punctuation, "\x7d", 0, " ", 12, false⟩,
          ⟨.word, "d", 1, "", 0, false⟩, ⟨.punctuation, ";", 0, "", 1, false⟩] := by
    decide +kernel
  show (List.mapIdx _ (tokenize .c 4 "int* a=b;\nif (a) \x7b c; \x7d\nd;\n").tokens).map _ = _
  rw [htokens]
  decide +kernel

end Beautifier
