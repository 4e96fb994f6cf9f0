/-
Formatting what is formatted.

The tokens of the output are laid out in lockstep with those of the source:
in front of every token the states are the same, and the pages hold the same
text and look alike (`InStep`).  One more token keeps the two in step if what
the layout decides by white space alone is decided as before (`Settles`), and
so formatting the output again changes nothing (`format_format`).
-/
import Beautifier.Proofs.Layout.Closers
import Beautifier.Proofs.Layout.Fusion
import Beautifier.Proofs.Layout.Replan

namespace Beautifier

/-! ## Matching braces -/

namespace Matching

theorem pairs_map_bare (position : Nat) (opened : List Nat) (ts : List Token) :
    pairs position opened (ts.map Token.bare) = pairs position opened ts := by
  induction ts generalizing position opened with
  | nil => rfl
  | cons t ts ih =>
      rw [List.map_cons, pairs.eq_def, pairs.eq_def position opened (t :: ts)]
      simp only [Token.is_bare, ih]

theorem closers_map_bare (ts : List Token) : closers (ts.map Token.bare) = closers ts := by
  rw [closers, closers, pairs_map_bare, List.length_map]

end Matching

/-! ## The tokens of the output -/

section
variable {language : Language} {o : Options} {e : LineEnd} {tokens : List Token} {n : Nat}
  {t : Token}

theorem getElem?_relaid (o : Options) (e : LineEnd) (tokens : List Token) (n : Nat) :
    (relaid o e tokens)[n]? = tokens[n]?.map (relaidAt o e tokens n) := by
  rw [relaid, List.getElem?_mapIdx]

theorem map_bare_relaid (htokens : Faithful language tokens) :
    (relaid o e tokens).map Token.bare = tokens.map Token.bare := by
  refine List.ext_getElem? fun n => ?_
  rw [List.getElem?_map, List.getElem?_map, getElem?_relaid]
  cases hget : tokens[n]? with
  | none => rfl
  | some t =>
      have hmem := List.mem_of_getElem? hget
      obtain ⟨_, _, _, _, ht⟩ := htokens.isRead t hmem
      exact congrArg some (Page.bare_relaid ht (htokens.notInserted t hmem) _ _)

theorem closers_relaid (htokens : Faithful language tokens) :
    Matching.closers (relaid o e tokens) = Matching.closers tokens := by
  rw [← Matching.closers_map_bare, map_bare_relaid htokens, Matching.closers_map_bare]

/-- The cursor at a token of the output. -/
def relaidCursor (o : Options) (e : LineEnd) (tokens : List Token) (n : Nat) (t : Token) : Cursor :=
  cursorAt (relaid o e tokens) n (relaidAt o e tokens n t)

theorem bare_relaidCursor (htokens : Faithful language tokens) (hget : tokens[n]? = some t) :
    (relaidCursor o e tokens n t).bare = (cursorAt tokens n t).bare := by
  have hmem := List.mem_of_getElem? hget
  obtain ⟨_, _, _, _, ht⟩ := htokens.isRead t hmem
  have hbefore : (((relaid o e tokens).take n).reverse).map Token.bare
      = ((tokens.take n).reverse).map Token.bare := by
    rw [List.map_reverse, List.map_take, map_bare_relaid htokens, List.map_reverse, List.map_take]
  have hafter : ((relaid o e tokens).drop (n + 1)).map Token.bare
      = (tokens.drop (n + 1)).map Token.bare := by
    rw [List.map_drop, map_bare_relaid htokens, List.map_drop]
  have htoken : (relaidAt o e tokens n t).bare = t.bare :=
    Page.bare_relaid ht (htokens.notInserted t hmem) _ _
  simp only [relaidCursor, cursorAt, Cursor.bare, hbefore, hafter, htoken, closers_relaid htokens]

/-- The token of the output is that of the source as the layout has put it there. -/
theorem relays_relaidCursor (htokens : Faithful language tokens) (hget : tokens[n]? = some t) :
    (cursorAt tokens n t).Relays o (stage o tokens n).page (planAt o tokens n t).layout
      (relaidCursor o e tokens n t) :=
  ⟨bare_relaidCursor htokens hget, htokens.notInserted t (List.mem_of_getElem? hget), rfl, rfl,
    rfl⟩

end

/-! ## Empty blocks -/

section
variable {o : Options} {c : Cursor} {s : State} {cs : List Conditional} {page : Page}

theorem Plan.isEmpty_opening (h : c.closer = some (c.position + 1)) (o : Options) (s : State) :
    (opening c o s).isEmpty = (c.after.take 1).all (·.lineBreaks == 0) := by
  simp [opening, onOneLine, h, Cursor.upTo]

theorem Progress.braces_step_openBrace (r : Progress) (h : c.token.is "\x7b" = true) :
    ∃ b outer, (r.step o c).state.braces = b :: outer ∧
      b.isEmpty = (Plan.opening c o r.state).isEmpty := by
  rw [step, Cursor.plan_openBrace h]
  exact ⟨_, _, rfl, rfl⟩

end

section
variable {o : Options} {e : LineEnd} {tokens : List Token} {n : Nat} {t : Token}

theorem take_drop_succ {u : Token} (h : tokens[n + 1]? = some u) :
    (tokens.drop (n + 1)).take 1 = [u] := by
  rw [List.take_one, List.head?_drop, h]
  rfl

/-- A closing brace stands directly behind its opening brace in the output, on the same line, if
and only if it does in the source. -/
theorem lineBreaks_relaidAt_close (hopen : tokens[n]? = some t) (hbrace : t.is "\x7b" = true)
    {u : Token} (hclose : tokens[n + 1]? = some u) (hmatch : u.is "\x7d" = true)
    (hcloser : (cursorAt tokens n t).closer = some (n + 1)) :
    (relaidAt o e tokens (n + 1) u).lineBreaks = 0 ↔ u.lineBreaks = 0 := by
  obtain ⟨b, outer, hbraces, hempty⟩ :=
    (stage o tokens n).braces_step_openBrace (o := o) (c := cursorAt tokens n t) hbrace
  rw [← stage_succ hopen] at hbraces
  have hpage : (stage o tokens (n + 1)).page.isEmpty = false :=
    isEmpty_stage o tokens (List.getElem?_eq_some_iff.mp hopen).1
  have hlayout : (relaidAt o e tokens (n + 1) u).lineBreaks
      = (Plan.closeBrace (cursorAt tokens (n + 1) u) o (stage o tokens (n + 1)).state
          (stage o tokens (n + 1)).conditionals (stage o tokens (n + 1)).page).layout.breaks
        (stage o tokens (n + 1)).page := by
    rw [← Cursor.plan_closeBrace hmatch]
    rfl
  rw [hlayout, Plan.closeBrace, hbraces]
  dsimp only
  rw [Plan.closesLine, hpage, Bool.false_or]
  by_cases hzero : u.lineBreaks = 0
  · have hb : b.isEmpty = true := by
      rw [hempty, Plan.isEmpty_opening hcloser]
      simp [cursorAt, take_drop_succ hclose, hzero]
    simp [hb, cursorAt, hzero, Layout.breaks]
  · have hstarts : ∀ kept : Bool,
        (if kept then decide (0 < (cursorAt tokens (n + 1) u).token.lineBreaks) else true)
          = true := by
      intro kept
      cases kept with
      | true => exact decide_eq_true (Nat.pos_of_ne_zero hzero)
      | false => rfl
    rw [if_pos (hstarts _)]
    simp [Layout.breaks, hpage, hzero]

/-- A block is opened in the output as in the source if it stays on its line there exactly as
here. -/
theorem opening_relaidCursor {language : Language} (htokens : Faithful language tokens)
    (hget : tokens[n]? = some t) (hbrace : t.is "\x7b" = true)
    (hkeep : (Plan.opening (relaidCursor o e tokens n t) o (stage o tokens n).state).keepOneLine
      = (Plan.opening (cursorAt tokens n t) o (stage o tokens n).state).keepOneLine) :
    Plan.opening (relaidCursor o e tokens n t) o (stage o tokens n).state
      = Plan.opening (cursorAt tokens n t) o (stage o tokens n).state := by
  have hbare := bare_relaidCursor (o := o) (e := e) htokens hget
  generalize hs : (stage o tokens n).state = s at hkeep ⊢
  have hcloser : (relaidCursor o e tokens n t).closer = (cursorAt tokens n t).closer :=
    Cursor.eq_of_bare (·.closer) (fun _ => rfl) hbare
  have hposition : (relaidCursor o e tokens n t).position = (cursorAt tokens n t).position := rfl
  have hempty : (Plan.opening (relaidCursor o e tokens n t) o s).isEmpty
      = (Plan.opening (cursorAt tokens n t) o s).isEmpty := by
    by_cases hnext : (cursorAt tokens n t).closer = some (n + 1)
    · obtain ⟨u, hu, hmatch⟩ := Matching.is_of_closers hnext
      have hu' : (relaid o e tokens)[n + 1]? = some (relaidAt o e tokens (n + 1) u) := by
        rw [getElem?_relaid, hu]
        rfl
      have hzero := lineBreaks_relaidAt_close (o := o) (e := e) hget hbrace hu hmatch hnext
      rw [Plan.isEmpty_opening (hcloser.trans hnext), Plan.isEmpty_opening hnext]
      simp only [relaidCursor, cursorAt, take_drop_succ hu, take_drop_succ hu', List.all_cons,
        List.all_nil, Bool.and_true]
      rw [Bool.eq_iff_iff, beq_iff_eq, beq_iff_eq, hzero]
    · have hne : (cursorAt tokens n t).closer ≠ some ((cursorAt tokens n t).position + 1) := hnext
      simp only [Plan.opening, hcloser, hposition, beq_false_of_ne hne, Bool.and_false]
  have hclassify := Cursor.eq_of_bare (·.classify s) (fun c => c.classify_bare s) hbare
  have hindent := Cursor.eq_of_bare (·.statementIndent s) (fun c => c.statementIndent_bare s) hbare
  have hdo := Cursor.eq_of_bare (·.isWordAt s.stmt.start "do")
    (fun c => c.isWordAt_bare s.stmt.start "do") hbare
  calc Plan.opening (relaidCursor o e tokens n t) o s
      = { Plan.opening (cursorAt tokens n t) o s with
          keepOneLine := (Plan.opening (relaidCursor o e tokens n t) o s).keepOneLine
          isEmpty := (Plan.opening (relaidCursor o e tokens n t) o s).isEmpty } := by
        simp only [Plan.opening, hclassify, hindent, hdo]
    _ = Plan.opening (cursorAt tokens n t) o s := by rw [hkeep, hempty]

end

/-! ## One token on two pages -/

namespace Page

variable {o : Options} {e : LineEnd} {p q : Page} {t u : Token}

theorem outline_ready (p : Page) (t : Token) (layout : Layout) :
    (p.ready o t layout).newest.outline = match layout with
      | .newLine indent _ => .empty indent
      | .sameLine _ => p.newest.outline := by
  cases layout with
  | newLine => rfl
  | sameLine spacing =>
      show (p.space _).newest.outline = _
      rw [space, newest, lines_amend]
      rfl

/-- Two pages that hold the same are made ready for a token in the same way. -/
theorem ready_again {layout layout' : Layout} (h : Layout.Again o p q t u layout layout')
    (hpages : p.Alike o q) (hrendered : q.rendered o e = p.rendered o e)
    (hwritten : ∀ spacing, layout = .sameLine spacing → q.written o e = p.written o e) :
    (q.ready o u layout').newest.outline = (p.ready o t layout).newest.outline ∧
      (q.ready o u layout').written o e = (p.ready o t layout).written o e := by
  rw [outline_ready, outline_ready, written_ready, written_ready, piece, piece]
  cases layout with
  | newLine indent blankLines =>
      cases h
      refine ⟨rfl, ?_⟩
      simp only [Layout.breaks, Layout.space, hpages.isEmpty, hrendered]
  | sameLine spacing =>
      obtain ⟨spacing', rfl, hgap⟩ := h
      refine ⟨hpages.outline, ?_⟩
      simp only [Layout.breaks, Layout.space, hgap, hwritten spacing rfl]

section
variable {language : Language} {atLineStart : Bool} {first : Char} {source : List Glyph} {cut : Cut}
  (hwidth : 0 < o.indentWidth) (ht : t.ReadFrom language atLineStart first source cut)
  (hkind : u.kind = t.kind) (hlines : u.lines = p.copied o t)
  (hcolumn : u.column = p.column o.indentWidth)
  (houtline : q.newest.outline = p.newest.outline) (hwritten : q.written o e = p.written o e)
include hwidth hcolumn hwritten

theorem shift_again : q.shift o u = 0 := by
  have hsame : q.column o.indentWidth = p.column o.indentWidth := by
    rw [← column_written (e := e) hwidth q, hwritten, column_written hwidth]
  rw [shift, hcolumn, hsame, Int.sub_self, ite_self]

include ht hkind hlines houtline

theorem rendered_write_again : (q.write o u).rendered o e = (p.write o t).rendered o e := by
  have hshift := shift_again hwidth hcolumn hwritten
  obtain ⟨more, hfirst⟩ := ht.exists_firstLine
  obtain ⟨more', hfirst'⟩ := exists_first_copied (o := o) hfirst ht.not_isBlank p
  rw [← hlines] at hfirst'
  rw [rendered_write hfirst ht.not_isBlank, rendered_write hfirst' ht.not_isBlank,
    copied_again hwidth hkind hlines houtline hshift, hwritten]

theorem written_write_again (hends : t.endsLine = false) :
    (q.write o u).written o e = (p.write o t).written o e := by
  obtain ⟨front, c, hlast, hc⟩ := ht.exists_lastLine hends
  obtain ⟨front', hlast'⟩ := exists_last_copied (o := o) hlast hc p
  rw [← hlines] at hlast'
  have hrendered := rendered_write_again hwidth ht hkind hlines hcolumn houtline hwritten
  rw [written_write_eq hlast hc, written_write_eq (t := u) hlast' hc, hrendered]

theorem alike_write_again (hblanks : o.breakBlocks = true → t.kind = .directive →
    trimRight isBlank t.lastLine = [] → t.lastLine = []) :
    (p.write o t).Alike o (q.write o u) := by
  have hshift := shift_again hwidth hcolumn hwritten
  have houtline' := outline_write_again hwidth hkind hlines houtline hshift ht
  refine ⟨(isEmpty_push ..).trans (isEmpty_push ..).symm, houtline', fun hbreak => ?_⟩
  have htext := text_write_again hkind hlines hshift ht (hblanks hbreak)
  have honly : ∀ p : Page, p.onlyComments
      = (!p.newest.outline.hasCode && !p.newest.text.toList.isEmpty) := by
    intro p
    rw [onlyComments, newest]
    cases p.lines with
    | nil => rfl
    | cons l ls =>
        have hempty : l.text.isEmpty = l.text.toList.isEmpty := by
          rw [Bool.eq_iff_iff, String.isEmpty_iff, List.isEmpty_iff, String.toList_eq_nil_iff]
        exact congrArg (fun b => !l.hasCode && !b) hempty
  have hempty : (q.write o u).newest.text.toList.isEmpty
      = (p.write o t).newest.text.toList.isEmpty := by
    rw [Bool.eq_iff_iff, List.isEmpty_iff, List.isEmpty_iff, htext]
  rw [honly, honly, houtline', hempty]

end

end Page

/-! ## In step -/

namespace State

theorem placed_again {o : Options} {p q : Page} {t u : Token} {layout layout' : Layout}
    (h : Layout.Again o p q t u layout layout') (s : State) {c c' : Cursor}
    (hbare : c'.bare = c.bare) (column : Nat) :
    s.placed c' layout' column = s.placed c layout column := by
  rw [← s.placed_bare c', hbare, s.placed_bare]
  cases layout with
  | newLine =>
      cases h
      rfl
  | sameLine =>
      obtain ⟨spacing', rfl, -⟩ := h
      rfl

theorem settle_again {o : Options} {p q : Page} {t u : Token} {plan plan' : Plan}
    (h : Plan.Again o p q t u plan plan') (s : State) {c c' : Cursor} (hbare : c'.bare = c.bare)
    (lineIndent : Indent) : s.settle c' o plan' lineIndent = s.settle c o plan lineIndent := by
  have hbegin : ∀ s : State, s.beginStatement c plan'.layout lineIndent
      = s.beginStatement c plan.layout lineIndent := by
    intro s
    have hlayout := h.layout
    cases hplan : plan.layout with
    | newLine =>
        rw [hplan] at hlayout
        rw [show plan'.layout = _ from hlayout]
    | sameLine =>
        rw [hplan] at hlayout
        obtain ⟨spacing', hsame, -⟩ := hlayout
        rw [hsame]
        rfl
  rw [← s.settle_bare c', hbare, s.settle_bare, settle, settle, h.action]
  simp only [settleCode, hbegin]

end State

/-- What the layout decides by white space alone it decides for a token of the output as it does in
the source. -/
structure StableAt (o : Options) (e : LineEnd) (tokens : List Token) (n : Nat) (t : Token) :
    Prop where
  /-- A block stays on its line in the output if and only if it does in the source. -/
  block : t.is "\x7b" = true →
    (Plan.opening (relaidCursor o e tokens n t) o (stage o tokens n).state).keepOneLine
      = (Plan.opening (cursorAt tokens n t) o (stage o tokens n).state).keepOneLine
  /-- No brace that goes on with a line in the source is moved below an empty line that is owed. -/
  brace : t.is "\x7b" = true → t.lineBreaks = 0 → 0 < n →
    0 < (relaidAt o e tokens n t).lineBreaks → o.breakBlocks = true →
      (stage o tokens n).state.blankAfterBlock = false
  /-- A `>>` stands apart in the output if and only if it does in the source. -/
  shift : t.is ">>" = true → (relaidAt o e tokens n t).standsApart = t.standsApart
  /-- No directive ends in a line of blanks, which is an empty line in the output. -/
  directive : o.breakBlocks = true → t.kind = .directive → trimRight isBlank t.lastLine = [] →
    t.lastLine = []

instance (o : Options) (e : LineEnd) (tokens : List Token) (n : Nat) (t : Token) :
    Decidable (StableAt o e tokens n t) :=
  decidable_of_iff
    ((t.is "\x7b" = true →
        (Plan.opening (relaidCursor o e tokens n t) o (stage o tokens n).state).keepOneLine
          = (Plan.opening (cursorAt tokens n t) o (stage o tokens n).state).keepOneLine) ∧
      (t.is "\x7b" = true → t.lineBreaks = 0 → 0 < n →
        0 < (relaidAt o e tokens n t).lineBreaks → o.breakBlocks = true →
          (stage o tokens n).state.blankAfterBlock = false) ∧
      (t.is ">>" = true → (relaidAt o e tokens n t).standsApart = t.standsApart) ∧
      (o.breakBlocks = true → t.kind = .directive → trimRight isBlank t.lastLine = [] →
        t.lastLine = []))
    ⟨fun h => ⟨h.1, h.2.1, h.2.2.1, h.2.2.2⟩, fun h => ⟨h.block, h.brace, h.shift, h.directive⟩⟩

/-- In front of the token at a position the output is laid out as the source is. -/
structure InStep (o : Options) (e : LineEnd) (tokens : List Token) (n : Nat) : Prop where
  state : (stage o (relaid o e tokens) n).state = (stage o tokens n).state
  conditionals : (stage o (relaid o e tokens) n).conditionals = (stage o tokens n).conditionals
  pages : (stage o tokens n).page.Alike o (stage o (relaid o e tokens) n).page
  rendered : (stage o (relaid o e tokens) n).page.rendered o e
    = (stage o tokens n).page.rendered o e
  written : (∀ p ∈ (tokens.take n).getLast?, p.endsLine = false) →
    (stage o (relaid o e tokens) n).page.written o e = (stage o tokens n).page.written o e

section
variable {language : Language} {o : Options} {e : LineEnd} {tokens : List Token} {n : Nat}
  {t : Token}

theorem state_stage_succ (hget : tokens[n]? = some t) : (stage o tokens (n + 1)).state
    = ((planAt o tokens n t).state.placed (cursorAt tokens n t) (planAt o tokens n t).layout
        (if (planAt o tokens n t).state.awaitsAlign then
          ((stage o tokens n).page.ready o t (planAt o tokens n t).layout).column o.indentWidth
        else 0)).settle (cursorAt tokens n t) o (planAt o tokens n t)
          (stage o tokens (n + 1)).page.currentIndent := by
  rw [stage_succ hget]
  rfl

theorem conditionals_stage_succ (hget : tokens[n]? = some t) :
    (stage o tokens (n + 1)).conditionals = (planAt o tokens n t).conditionals := by
  rw [stage_succ hget]
  rfl

/-- A token is planned in the output as in the source. -/
theorem InStep.plan_again (htokens : Faithful language tokens) (hwidth : 0 < o.indentWidth)
    (hget : tokens[n]? = some t) (hstable : StableAt o e tokens n t)
    (h : InStep o e tokens n) :
    Plan.Again o (stage o tokens n).page (stage o (relaid o e tokens) n).page t
      (relaidAt o e tokens n t) (planAt o tokens n t)
      ((relaidCursor o e tokens n t).plan o (stage o tokens n).state (stage o tokens n).conditionals
        (stage o (relaid o e tokens) n).page) := by
  have hrelays := relays_relaidCursor (o := o) (e := e) htokens hget
  obtain ⟨_, _, _, _, ht⟩ := htokens.isRead t (List.mem_of_getElem? hget)
  refine Cursor.plan_again hwidth hrelays h.pages ?_ hstable.shift ?_ ?_
  · exact fun hkind => Page.directiveName_relaid ht hkind _ _
  · exact fun hbrace => opening_relaidCursor htokens hget hbrace (hstable.block hbrace)
  · intro hbrace hempty hzero hopens hbreak
    have hpos : 0 < n := by
      rcases Nat.eq_zero_or_pos n with rfl | hpos
      · cases hempty
      · exact hpos
    refine hstable.brace hbrace hzero hpos ?_ hbreak
    show 0 < (planAt o tokens n t).layout.breaks (stage o tokens n).page
    rw [planAt, Cursor.plan_openBrace hbrace, Plan.openBrace]
    dsimp only
    rw [if_pos hopens]
    exact Layout.breaks_newLine_pos hempty _ _

/-- One more token keeps the two in step. -/
theorem InStep.step (htokens : Faithful language tokens) (hwidth : 0 < o.indentWidth)
    (hfuse : ∀ n, ¬FusesAt o tokens n) (hget : tokens[n]? = some t)
    (hstable : StableAt o e tokens n t) (h : InStep o e tokens n) : InStep o e tokens (n + 1) := by
  obtain ⟨_, _, _, _, ht⟩ := htokens.isRead t (List.mem_of_getElem? hget)
  have hbare : (cursorAt (relaid o e tokens) n (relaidAt o e tokens n t)).bare
      = (cursorAt tokens n t).bare := bare_relaidCursor htokens hget
  have hget' : (relaid o e tokens)[n]? = some (relaidAt o e tokens n t) := by
    rw [getElem?_relaid, hget]
    rfl
  have hplan : Plan.Again o (stage o tokens n).page (stage o (relaid o e tokens) n).page t
      (relaidAt o e tokens n t) (planAt o tokens n t)
      (planAt o (relaid o e tokens) n (relaidAt o e tokens n t)) := by
    rw [planAt, planAt, h.state, h.conditionals]
    exact h.plan_again htokens hwidth hget hstable
  obtain ⟨houtline, hwritten⟩ := Page.ready_again hplan.layout h.pages h.rendered
    fun spacing hlayout => h.written (endsLine_of_sameLine htokens hwidth hfuse hget hlayout)
  have hlines := Page.lines_relaid (o := o) (e := e) ht (stage o tokens n).page
    (planAt o tokens n t).layout
  have hpages : (stage o tokens (n + 1)).page.Alike o
      (stage o (relaid o e tokens) (n + 1)).page := by
    rw [page_stage_succ hget, page_stage_succ hget']
    exact Page.alike_write_again hwidth ht rfl hlines rfl houtline hwritten hstable.directive
  refine ⟨?_, ?_, hpages, ?_, ?_⟩
  · have hcolumn : ((stage o (relaid o e tokens) n).page.ready o (relaidAt o e tokens n t)
          (planAt o (relaid o e tokens) n (relaidAt o e tokens n t)).layout).column o.indentWidth
        = ((stage o tokens n).page.ready o t
            (planAt o tokens n t).layout).column o.indentWidth := by
      rw [← Page.column_written (e := e) hwidth, hwritten, Page.column_written hwidth]
    rw [state_stage_succ hget, state_stage_succ hget', hpages.currentIndent, hplan.state, hcolumn,
      State.placed_again hplan.layout _ hbare, State.settle_again hplan _ hbare]
  · rw [conditionals_stage_succ hget, conditionals_stage_succ hget', hplan.conditionals]
  · rw [page_stage_succ hget, page_stage_succ hget']
    exact Page.rendered_write_again hwidth ht rfl hlines rfl houtline hwritten
  · intro hends
    have hlast : t ∈ (tokens.take (n + 1)).getLast? := by
      rw [List.take_add_one, hget, Option.toList_some, List.getLast?_concat]
      rfl
    rw [page_stage_succ hget, page_stage_succ hget']
    exact Page.written_write_again hwidth ht rfl hlines rfl houtline hwritten (hends t hlast)

/-- The output is laid out in step with the source. -/
theorem inStep (htokens : Faithful language tokens) (hwidth : 0 < o.indentWidth)
    (hfuse : ∀ n, ¬FusesAt o tokens n)
    (hstable : ∀ n t, tokens[n]? = some t → StableAt o e tokens n t) (hn : n ≤ tokens.length) :
    InStep o e tokens n := by
  induction n with
  | zero => exact ⟨rfl, rfl, ⟨rfl, rfl, fun _ => rfl⟩, rfl, fun _ => rfl⟩
  | succ n ih =>
      have hget : tokens[n]? = some tokens[n] := List.getElem?_eq_getElem hn
      exact (ih (Nat.le_of_succ_le hn)).step htokens hwidth hfuse hget (hstable n _ hget)

end

/-! ## Formatting twice -/

/-- Formatting what is formatted changes nothing, where the layout decides by the white space of the
output as it does by that of the source.  Strings, characters and block comments have to be closed,
no `#` may stand where it starts no directive, and no `*` or `&` may be moved in front of a token
that goes on with it. -/
theorem format_format {text : String} {o : Options} (ho : parseOptions text = .ok o)
    (hbraces : o.addBraces = false) {source : String} (hreturn : '\r' ∉ source.toList)
    (hclosed : ∀ t ∈ (tokenize o.language o.indentWidth source).tokens,
      t.mayStayOpen = true → t.isClosed o.language = true)
    (hhash : ∀ t ∈ (tokenize o.language o.indentWidth source).tokens, t.is "#" = false)
    (hfuse : ∀ n, ¬FusesAt o (tokenize o.language o.indentWidth source).tokens n)
    (hstable : ∀ n t, (tokenize o.language o.indentWidth source).tokens[n]? = some t →
      StableAt o (lineEndOf o source) (tokenize o.language o.indentWidth source).tokens n t) :
    format o (format o source) = format o source := by
  have hpart := partition_tokenize o.language o.indentWidth source
  have htokens := hpart.faithful (plain_glyphs hreturn) fun t ht => ⟨hclosed t ht, hhash t ht⟩
  have hwidth : 0 < o.indentWidth :=
    Nat.lt_of_lt_of_le (by decide) (indentWidth_parseOptions ho).1
  obtain ⟨hread, htrailing, hend⟩ := tokenize_format ho hbraces hreturn hclosed hhash hfuse
  have hrendered := (inStep htokens hwidth hfuse hstable (Nat.le_refl _)).rendered
  have hlength : (relaid o (lineEndOf o source)
      (tokenize o.language o.indentWidth source).tokens).length
        = (tokenize o.language o.indentWidth source).tokens.length := by
    rw [relaid, List.length_mapIdx]
  rw [← String.toList_inj, format_eq hbraces (format o source), hread, htrailing, hend,
    format_eq hbraces source, Page.toList_render, Page.toList_render, layOut_eq_stage,
    layOut_eq_stage, hlength, hrendered]

/-- A block that stays on its line, with an empty line put behind it. -/
theorem format_format_kept :
    let source := "  if (a) \x7b b >> 2; \x7d\nx;\n"
    let o := (Options.default.turnOn .keepOneLineBlocks).turnOn .breakBlocks
    parseOptions "keep-one-line-blocks break-blocks" = .ok o ∧
      format o (format o source) = format o source := by
  intro source o
  have ho : parseOptions "keep-one-line-blocks break-blocks" = .ok o := by decide +kernel
  have htokens : (tokenize .c 4 source).tokens
      = [⟨.word, "if", 0, "  ", 2, false⟩, ⟨.punctuation, "(", 0, " ", 5, false⟩,
          ⟨.word, "a", 0, "", 6, false⟩, ⟨.punctuation, ")", 0, "", 7, false⟩,
          ⟨.punctuation, "\x7b", 0, " ", 9, false⟩, ⟨.word, "b", 0, " ", 11, false⟩,
          ⟨.punctuation, ">>", 0, " ", 13, false⟩, ⟨.number, "2", 0, " ", 16, false⟩,
          ⟨.punctuation, ";", 0, "", 17, false⟩, ⟨.punctuation, "\x7d", 0, " ", 19, false⟩,
          ⟨.word, "x", 1, "", 0, false⟩, ⟨.punctuation, ";", 0, "", 1, false⟩] := by
    show (tokenize .c 4 "  if (a) \x7b b >> 2; \x7d\nx;\n").tokens = _
    decide +kernel
  have hend : lineEndOf o source = .linux := by
    show (none <|> (tokenize .c 4 "  if (a) \x7b b >> 2; \x7d\nx;\n").lineEnd).getD .linux = _
    decide +kernel
  refine ⟨ho, format_format ho rfl (by decide) ?_ ?_ (not_fusesAt ?_) ?_⟩
  · show ∀ t ∈ (tokenize .c 4 source).tokens, t.mayStayOpen = true → t.isClosed .c = true
    rw [htokens]
    decide +kernel
  · show ∀ t ∈ (tokenize .c 4 source).tokens, t.is "#" = false
    rw [htokens]
    decide +kernel
  · show (tokenize .c 4 source).tokens.IsChain _
    rw [htokens]
    decide +kernel
  · show ∀ n t, (tokenize .c 4 source).tokens[n]? = some t →
      StableAt o _ (tokenize .c 4 source).tokens n t
    rw [htokens, hend]
    intro n t hget
    obtain ⟨hn, rfl⟩ := List.getElem?_eq_some_iff.mp hget
    clear hget
    revert n
    decide +kernel

/-- A block that stays on its line, but for what stands behind a block in it: in the output it is
no longer on one line, and the second time it is broken up. -/
theorem format_format_ne_nested :
    let source := "\x7b \x7b\x7d x; \x7d\n"
    let o := Options.default.turnOn .keepOneLineBlocks
    parseOptions "keep-one-line-blocks" = .ok o ∧
      format o source = "\x7b \x7b\x7d\n    x; \x7d\n" ∧
      format o (format o source) ≠ format o source := by
  intro source o
  have ho : parseOptions "keep-one-line-blocks" = .ok o := by decide +kernel
  have hsource : tokenize .c 4 source
      = ⟨[⟨.punctuation, "\x7b", 0, "", 0, false⟩, ⟨.punctuation, "\x7b", 0, " ", 2, false⟩,
          ⟨.punctuation, "\x7d", 0, "", 3, false⟩, ⟨.word, "x", 0, " ", 5, false⟩,
          ⟨.punctuation, ";", 0, "", 6, false⟩, ⟨.punctuation, "\x7d", 0, " ", 8, false⟩],
        1, some .linux⟩ := by
    show tokenize .c 4 "\x7b \x7b\x7d x; \x7d\n" = _
    decide +kernel
  have houtput : tokenize .c 4 "\x7b \x7b\x7d\n    x; \x7d\n"
      = ⟨[⟨.punctuation, "\x7b", 0, "", 0, false⟩, ⟨.punctuation, "\x7b", 0, " ", 2, false⟩,
          ⟨.punctuation, "\x7d", 0, "", 3, false⟩, ⟨.word, "x", 1, "    ", 4, false⟩,
          ⟨.punctuation, ";", 0, "", 5, false⟩, ⟨.punctuation, "\x7d", 0, " ", 7, false⟩],
        1, some .linux⟩ := by
    decide +kernel
  have hformat : ∀ source stream, tokenize .c 4 source = stream → format o source
      = (layOut o stream.tokens).render .spaces 4 (stream.lineEnd.getD .linux)
        stream.trailingBreaks := by
    rintro source _ rfl
    rfl
  have hfirst : format o source = "\x7b \x7b\x7d\n    x; \x7d\n" := by
    rw [hformat source _ hsource]
    decide +kernel
  refine ⟨ho, hfirst, ?_⟩
  rw [hfirst, hformat _ _ houtput]
  decide +kernel

end Beautifier
