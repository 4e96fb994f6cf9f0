/-
Planning again what was planned.

A token that a plan has put somewhere is planned once more, in the same state
and on a page that looks alike: the line breaks, the white space and the column
in front of it are now those that the first plan gave it (`Relays`).  Whether
the token starts a line, below how many empty lines and behind which white
space is then answered as before, one question after another
(`Cursor.plan_again`).  What may be answered in another way is left as
hypotheses: the role of a `>>`, what is known of a block, and the empty line
above a brace.
-/
import Beautifier.Proofs.Layout.Recopied

namespace Beautifier

/-! ## White space -/

/-- The spacing that a second plan may choose where the first one has put the white space. -/
inductive Spacing.Again : Spacing → Spacing → Prop
  | same (s : Spacing) : Again s s
  | asWritten (s : Spacing) : Again s .asWritten
  | atLeastOne : Again .one .atLeastOne

namespace Page

variable {o : Options} {p q : Page} {t u : Token} {spacing spacing' : Spacing}

theorem sourceGap_of_space_eq (h : u.space = p.gap o t spacing) (q : Page) :
    q.sourceGap o u = u.space := by
  rw [sourceGap]
  split
  · next htabs =>
    rw [Column.expandTabs_of_noTab, String.ofList_toList]
    rw [h]
    exact noTab_gap htabs p t spacing
  · rfl

theorem gap_again (hwidth : 0 < o.indentWidth) (hagain : Spacing.Again spacing spacing')
    (hbreaks : u.lineBreaks = 0) (hspace : u.space = p.gap o t spacing) (q : Page) :
    q.gap o u spacing' = p.gap o t spacing := by
  have hsource := (sourceGap_of_space_eq hspace q).trans hspace
  have hatLeast : p.gap o t spacing ≠ "" → q.gap o u .atLeastOne = p.gap o t spacing := by
    intro hne
    rw [← hspace] at hne
    rw [gap, hbreaks, if_neg (by simpa using hne), hsource]
  cases hagain with
  | same spacing =>
      cases spacing with
      | asWritten => exact hsource
      | none => rfl
      | one => rfl
      | atLeastOne =>
          refine hatLeast fun hempty => ?_
          rcases gap_eq_empty hwidth (String.toList_eq_nil_iff.mpr hempty) with h | ⟨h, -⟩ <;>
            cases h
  | asWritten => exact hsource
  | atLeastOne => exact hatLeast (show " " ≠ "" by decide)

end Page

/-! ## What is asked again -/

/-- Whether a token stands apart from the token before it, on the same line. -/
def Token.standsApart (t : Token) : Bool := !t.space.isEmpty && t.lineBreaks == 0

/-- A page looks like another one to a plan. -/
structure Page.Alike (o : Options) (p q : Page) : Prop where
  isEmpty : q.isEmpty = p.isEmpty
  outline : q.newest.outline = p.newest.outline
  /-- It matters to empty lines alone whether comments stand on a line. -/
  onlyComments : o.breakBlocks = true → q.onlyComments = p.onlyComments

namespace Page.Alike

variable {o : Options} {p q : Page}

theorem canJoin (h : Alike o p q) : q.canJoin = p.canJoin := by
  have hcan : ∀ p : Page, p.canJoin
      = (p.newest.outline.hasCode && !p.newest.outline.lineComment
        && !p.newest.outline.directive) := by
    intro p
    rw [Page.canJoin, newest]
    cases p.lines <;> rfl
  rw [hcan, hcan, h.outline]

theorem currentIndent (h : Alike o p q) : q.currentIndent = p.currentIndent := by
  have hindent : ∀ p : Page, p.currentIndent = p.newest.outline.indent := by
    intro p
    rw [Page.currentIndent, newest]
    cases p.lines <;> rfl
  rw [hindent, hindent, h.outline]

end Page.Alike

/-- The token of the second cursor is that of the first one as a layout has put it on a page, among
tokens that look the same. -/
structure Cursor.Relays (o : Options) (p : Page) (c : Cursor) (layout : Layout) (c' : Cursor) :
    Prop where
  bare : c'.bare = c.bare
  inserted : c.token.inserted = false
  lineBreaks : c'.token.lineBreaks = layout.breaks p
  space : c'.token.space = layout.space o p c.token
  column : c'.token.column = (p.ready o c.token layout).column o.indentWidth

namespace Cursor

variable {o : Options} {p q : Page} {c c' : Cursor} {s : State}

theorem eq_of_bare {α : Type} (f : Cursor → α) (hf : ∀ c, f c.bare = f c)
    (h : c'.bare = c.bare) : f c' = f c := by
  rw [← hf c', h, hf]

theorem token_bare_eq (h : c'.bare = c.bare) : c'.token.bare = c.token.bare :=
  congrArg Cursor.token h

theorem kind_eq (h : c'.bare = c.bare) : c'.token.kind = c.token.kind :=
  eq_of_bare (·.token.kind) (fun _ => rfl) h

theorem is_eq (h : c'.bare = c.bare) (text : String) : c'.token.is text = c.token.is text :=
  eq_of_bare (·.token.is text) (fun c => c.token.is_bare text) h

theorem lineIndent_eq (h : c'.bare = c.bare) (o : Options) (s : State) :
    c'.lineIndent o s = c.lineIndent o s :=
  eq_of_bare (·.lineIndent o s) (fun c => c.lineIndent_bare o s) h

theorem blankLines_again (hbare : c'.bare = c.bare) (hinserted : c.token.inserted = false)
    (hpages : p.Alike o q) {starts afterDo : Bool}
    (hbreaks : c'.token.lineBreaks
      = (if p.isEmpty then 0 else 1) + c.blankLines o s p starts afterDo) :
    c'.blankLines o s q starts afterDo = c.blankLines o s p starts afterDo := by
  have hinserted' : c'.token.inserted = false :=
    (eq_of_bare (·.token.inserted) (fun _ => rfl) hbare).trans hinserted
  have hheader : o.breakBlocks = true →
      c'.setsHeaderApart s q afterDo = c.setsHeaderApart s p afterDo := by
    intro hbreak
    rw [eq_of_bare (·.setsHeaderApart s q afterDo) (fun c => c.setsHeaderApart_bare s q afterDo)
      hbare, setsHeaderApart, setsHeaderApart, hpages.onlyComments hbreak]
  rw [blankLines, hinserted, if_neg Bool.false_ne_true] at hbreaks
  rw [blankLines, blankLines, hinserted, hinserted', hpages.isEmpty, is_eq hbare]
  simp only [Bool.false_eq_true, if_false]
  cases hempty : p.isEmpty with
  | true =>
      rw [hempty] at hbreaks
      simpa using hbreaks
  | false =>
      rw [hempty] at hbreaks
      cases hbreak : o.breakBlocks with
      | false =>
          simp only [hbreak, Bool.false_and, Bool.false_eq_true, if_false] at hbreaks ⊢
          split <;> simp_all
      | true =>
          rw [hheader hbreak]
          simp only [hbreak, Bool.true_and, Bool.false_eq_true, if_false] at hbreaks ⊢
          split_ifs at hbreaks ⊢ <;> omega

end Cursor

theorem decide_eq_of_iff {a b : Prop} [Decidable a] [Decidable b] (h : a ↔ decide b = true) :
    decide a = decide b :=
  decide_eq_decide.mpr (h.trans decide_eq_true_iff)

/-! ## Layouts -/

/-- The second layout writes what the first one has written. -/
def Layout.Again (o : Options) (p q : Page) (t u : Token) : Layout → Layout → Prop
  | .newLine indent blankLines, l => l = .newLine indent blankLines
  | .sameLine spacing, l =>
      ∃ spacing', l = .sameLine spacing' ∧ q.gap o u spacing' = p.gap o t spacing

/-- The second plan does what the first one has done. -/
structure Plan.Again (o : Options) (p q : Page) (t u : Token) (plan plan' : Plan) : Prop where
  action : plan'.action = plan.action
  state : plan'.state = plan.state
  conditionals : plan'.conditionals = plan.conditionals
  layout : Layout.Again o p q t u plan.layout plan'.layout

section
variable {o : Options} {p q : Page} {c c' : Cursor} {s : State} {starts starts' : Bool}
  {indent indent' : Indent} {blankLines blankLines' : Nat} {spacing spacing' : Spacing}

/-- What starts a line starts it again, and what goes on with a line goes on with it, behind the
same white space. -/
theorem Layout.again_ite (hwidth : 0 < o.indentWidth)
    (h : c.Relays o p (if starts then newLine indent blankLines else sameLine spacing) c')
    (hstarts : starts' = starts)
    (hnew : starts = true →
      c'.token.lineBreaks = (if p.isEmpty then 0 else 1) + blankLines →
        indent' = indent ∧ blankLines' = blankLines)
    (hsame : starts = false → c'.token.lineBreaks = 0 → Spacing.Again spacing spacing') :
    Again o p q c.token c'.token
      (if starts then newLine indent blankLines else sameLine spacing)
      (if starts' then newLine indent' blankLines' else sameLine spacing') := by
  have hbreaks := h.lineBreaks
  have hspace := h.space
  subst hstarts
  cases starts' with
  | true =>
      obtain ⟨rfl, rfl⟩ := hnew rfl hbreaks
      rfl
  | false =>
      exact ⟨spacing', rfl, Page.gap_again hwidth (hsame rfl hbreaks) hbreaks hspace q⟩

theorem startsLine_again (hpages : p.Alike o q)
    (h : c.Relays o p (if p.isEmpty || starts then .newLine indent blankLines
      else .sameLine spacing) c')
    (hstarts : (0 < c'.token.lineBreaks ↔ starts = true) → starts' = starts) :
    (q.isEmpty || starts') = (p.isEmpty || starts) := by
  have hbreaks := h.lineBreaks
  rw [hpages.isEmpty]
  cases hempty : p.isEmpty with
  | true => rfl
  | false =>
      rw [hempty] at hbreaks
      rw [Bool.false_or, Bool.false_or]
      refine hstarts ?_
      cases starts with
      | true => simp [hbreaks, Layout.breaks_newLine_pos hempty]
      | false => simp [hbreaks, Layout.breaks]

end

namespace Plan

variable {o : Options} {p q : Page} {c c' : Cursor} {s : State} {cs : List Conditional}

/-! ## Directives and comments -/

theorem directive_again (h : c.Relays o p (directive c o s cs p).layout c') (hpages : p.Alike o q)
    (hname : directiveName c'.token.text = directiveName c.token.text) :
    Plan.Again o p q c.token c'.token (directive c o s cs p) (directive c' o s cs q) := by
  have hbreaks := h.lineBreaks
  simp only [directive] at hbreaks ⊢
  rw [hname]
  refine ⟨rfl, rfl, rfl, ?_⟩
  rw [Cursor.blankLines_again h.bare h.inserted hpages hbreaks]
  rfl

theorem commentIndent_again (hwidth : 0 < o.indentWidth) (hbare : c'.bare = c.bare)
    (hcolumn : c'.token.column = (commentIndent c o s).columns o.indentWidth) :
    commentIndent c' o s = commentIndent c o s := by
  rw [commentIndent] at hcolumn
  rw [commentIndent, commentIndent, Cursor.lineIndent_eq hbare, Cursor.kind_eq hbare]
  generalize (if s.stmt.headerBodyPending then (c.lineIndent o s).deeper 1 else c.lineIndent o s)
    = indent at hcolumn ⊢
  cases hkind : c.token.kind == .lineComment with
  | false => rfl
  | true =>
      simp only [hkind, Bool.true_and] at hcolumn ⊢
      split at hcolumn
      · next hmargin => simp [hmargin, hcolumn, Indent.columns, Indent.zero]
      · next hmargin =>
        rw [if_neg hmargin]
        split
        · next hzero =>
          -- an indentation of no columns is none
          rw [beq_iff_eq, hcolumn, Indent.columns, Nat.add_eq_zero_iff, Nat.mul_eq_zero] at hzero
          have hlevels : indent.levels = 0 := by omega
          cases indent
          simp_all [Indent.zero]
        · rfl

theorem comment_again (hwidth : 0 < o.indentWidth)
    (h : c.Relays o p (comment c o s cs p).layout c') (hpages : p.Alike o q) :
    Plan.Again o p q c.token c'.token (comment c o s cs p) (comment c' o s cs q) := by
  refine ⟨rfl, rfl, rfl, ?_⟩
  refine Layout.again_ite hwidth h (startsLine_again hpages h ?_) ?_ fun _ _ => .same _
  · exact fun hstarts => decide_eq_of_iff hstarts
  · intro hnew hbreaks
    have hcolumn := h.column
    simp only [comment] at hcolumn
    rw [if_pos hnew] at hcolumn
    refine ⟨commentIndent_again hwidth h.bare hcolumn, ?_⟩
    exact Cursor.blankLines_again h.bare h.inserted hpages hbreaks

/-! ## Code -/

theorem isClosingHeader_eq {t u : Token} (h : u.bare = t.bare) (isDo : Bool) :
    isClosingHeader isDo u = isClosingHeader isDo t := by
  rw [← State.isClosingHeader_bare isDo u, h, State.isClosingHeader_bare]

/-- Whether a line starts behind a closing brace is known without the line breaks, or is what they
say. -/
theorem breaksAfterClose_again {t u : Token} (ht : u.bare = t.bare) (hpages : p.Alike o q)
    (closed : ClosedBrace) (hstarts : 0 < u.lineBreaks ↔ breaksAfterClose o p closed t = true) :
    breaksAfterClose o q closed u = breaksAfterClose o p closed t := by
  have htight : u.isOneOf [";", ",", ")", "]"] = t.isOneOf [";", ",", ")", "]"] := by
    rw [← Token.isOneOf_bare u, ht, Token.isOneOf_bare]
  rw [breaksAfterClose] at hstarts
  rw [breaksAfterClose, breaksAfterClose, hpages.canJoin, htight, isClosingHeader_eq ht]
  split_ifs at hstarts ⊢
  · rfl
  · rfl
  · cases hheaders : o.breakClosingHeaders with
    | some b => rfl
    | none =>
        rw [hheaders] at hstarts
        exact decide_eq_of_iff hstarts
  · exact decide_eq_of_iff hstarts
  · generalize (closed.kind == .classBody || closed.kind == .enumeration) = list at hstarts ⊢
    cases list with
    | false => rfl
    | true =>
        have hzero : u.lineBreaks = 0 ↔ t.lineBreaks = 0 := by
          simpa [Nat.pos_iff_ne_zero, not_iff_not] using hstarts
        rw [Bool.true_and, Bool.true_and, beq_eq_decide, beq_eq_decide, decide_eq_decide.mpr hzero]

end Plan

namespace Spacing

variable {o : Options} {s : State} {role : Role} {prev prev' t u : Token}

theorem unforced_of_lineBreaks (h : u.lineBreaks = 0) : unforced u = .asWritten := by
  rw [unforced, if_pos h]

theorem padded_again (t : Token) : Again (unforced t).padded Spacing.atLeastOne := by
  rw [unforced]
  split
  · exact .same _
  · split
    · exact .atLeastOne
    · exact .atLeastOne

theorem behind_again (hprev : prev'.bare = prev.bare) (ht : u.bare = t.bare)
    (hbreaks : u.lineBreaks = 0) : Again (behind o s role prev t) (behind o s role prev' u) := by
  have htrivia : prev'.isTrivia = prev.isTrivia := by
    rw [← Token.isTrivia_bare prev', hprev, Token.isTrivia_bare]
  have haligned : aligned? o s role u = aligned? o s role t := by
    rw [← aligned?_bare o s role u, ht, aligned?_bare]
  have hparen : u.is "(" = t.is "(" := by rw [← Token.is_bare u, ht, Token.is_bare]
  have hunpads : ∀ header, unpads o header prev' u = unpads o header prev t := by
    intro header
    rw [← unpads_bare o header prev' u, hprev, ht, unpads_bare]
  have hpads : ∀ header, pads o s role header prev' u = pads o s role header prev t := by
    intro header
    rw [← pads_bare o s role header prev' u, hprev, ht, pads_bare]
  rw [behind, behind, htrivia, haligned, unforced_of_lineBreaks hbreaks]
  split
  · exact .asWritten _
  · cases aligned? o s role t with
    | some spacing => exact .same _
    | none =>
        rw [Option.getD_none, Option.getD_none, ordinary, ordinary, hparen, hunpads, hpads,
          unforced_of_lineBreaks hbreaks]
        split
        · split
          · exact .same _
          · exact padded_again t
        · split
          · exact .same _
          · exact .asWritten _

end Spacing

theorem Cursor.spacing_again {c c' : Cursor} (hbare : c'.bare = c.bare)
    (hbreaks : c'.token.lineBreaks = 0) (o : Options) (s : State) (role : Role) :
    Spacing.Again (c.spacing o s role) (c'.spacing o s role) := by
  rw [Cursor.spacing, Cursor.spacing]
  cases s.lastOnLine with
  | none => exact .same _
  | some m =>
      have hprev : (c'.tokenAt? m).map Token.bare = (c.tokenAt? m).map Token.bare := by
        rw [← c'.tokenAt?_bare, hbare, c.tokenAt?_bare]
      rw [Option.bind_some, Option.bind_some]
      cases hc : c.tokenAt? m with
      | none =>
          rw [hc, Option.map_none, Option.map_eq_none_iff] at hprev
          rw [hprev]
          exact .same _
      | some prev =>
          rw [hc, Option.map_some, Option.map_eq_some_iff] at hprev
          obtain ⟨prev', hc', hsame⟩ := hprev
          rw [hc']
          exact Spacing.behind_again hsame (token_bare_eq hbare) hbreaks

namespace Plan

variable {o : Options} {p q : Page} {c c' : Cursor} {s : State} {cs : List Conditional}

theorem code_again (hwidth : 0 < o.indentWidth) (h : c.Relays o p (code c o s cs p).layout c')
    (hpages : p.Alike o q)
    (hrole : ∀ s : State, c'.role s o.language.hasPointers = c.role s o.language.hasPointers) :
    Plan.Again o p q c.token c'.token (code c o s cs p) (code c' o s cs q) := by
  have hsemicolon : c'.token.is ";" = c.token.is ";" := Cursor.is_eq h.bare ";"
  have hlayout := h
  simp only [code] at hlayout
  simp only [code, hsemicolon, hrole]
  refine ⟨rfl, rfl, rfl, ?_⟩
  refine Layout.again_ite hwidth hlayout (startsLine_again hpages hlayout ?_) ?_ ?_
  · intro hstarts
    cases hclose : s.afterClose with
    | some closed =>
        rw [hclose] at hstarts
        exact breaksAfterClose_again (Cursor.token_bare_eq h.bare) hpages closed hstarts
    | none =>
        rw [hclose] at hstarts
        cases hforce : s.forceBreak with
        | true => rfl
        | false =>
            rw [hforce, Bool.false_or] at hstarts
            exact decide_eq_of_iff hstarts
  · intro _ hbreaks
    exact ⟨Cursor.lineIndent_eq h.bare _ _,
      Cursor.blankLines_again h.bare h.inserted hpages hbreaks⟩
  · intro _ hbreaks
    exact Cursor.spacing_again h.bare hbreaks _ _ _

/-! ## Braces -/

/-- Whether the placement of an opening brace, or the source where that leaves it open, puts the
brace on a line of its own. -/
def placedAlone (c : Cursor) (s : State) (page : Page) : Placement → Bool
  | .keep => 0 < c.token.lineBreaks
  | .break => true
  | .attach => if ownsBlock s.stmt then !page.canJoin else 0 < c.token.lineBreaks

theorem opensLine_eq (c : Cursor) (s : State) (page : Page) (p : Placement) :
    opensLine c s page p = (page.isEmpty || (s.forceBreak || placedAlone c s page p)) := by
  cases p <;> exact Bool.or_assoc ..

theorem placedAlone_again (hpages : p.Alike o q) {placement : Placement}
    (hstarts : 0 < c'.token.lineBreaks ↔ placedAlone c s p placement = true) :
    placedAlone c' s q placement = placedAlone c s p placement := by
  cases placement with
  | «break» => rfl
  | keep => exact decide_eq_of_iff hstarts
  | attach =>
      rw [placedAlone] at hstarts
      rw [placedAlone, placedAlone, hpages.canJoin]
      split
      · rfl
      · next howns =>
        rw [if_neg howns] at hstarts
        exact decide_eq_of_iff hstarts

theorem openIndent_eq (h : c'.bare = c.bare) (o : Options) (s : State) (b : Opening) :
    openIndent c' o s b = openIndent c o s b := by
  rw [openIndent, openIndent, expressionIndent, expressionIndent, Cursor.lineIndent_eq h]

/-- A brace that a plan has moved to a line of its own is found there, and no empty line is put
above it unless one is owed. -/
theorem blankLines_moved (h : c'.bare = c.bare) (hinserted : c.token.inserted = false)
    (hopen : c.token.is "\x7b" = true) (hempty : q.isEmpty = false)
    (hbreaks : c'.token.lineBreaks = 1)
    (howed : o.breakBlocks = true → s.blankAfterBlock = false) :
    c'.blankLines o s q false false = 0 := by
  have hinserted' : c'.token.inserted = false :=
    (Cursor.eq_of_bare (·.token.inserted) (fun _ => rfl) h).trans hinserted
  have hclose : c'.token.is "\x7d" = false := by
    rw [Cursor.is_eq h]
    simp_all [Token.is]
  rw [Cursor.blankLines, hinserted', hempty, hclose, hbreaks]
  cases hbreak : o.breakBlocks with
  | false => simp
  | true => simp [howed hbreak]

/-- The empty lines above an opening brace: none above one that a plan has moved, else those of the
source. -/
theorem openBlankLines_again (hbare : c'.bare = c.bare) (hinserted : c.token.inserted = false)
    (hopen : c.token.is "\x7b" = true) (hpages : p.Alike o q)
    (hbreaks : c'.token.lineBreaks = (if p.isEmpty then 0 else 1) +
      if c.token.lineBreaks = 0 then 0 else c.blankLines o s p false false)
    (howed : p.isEmpty = false → c.token.lineBreaks = 0 →
      o.breakBlocks = true → s.blankAfterBlock = false) :
    (if c'.token.lineBreaks = 0 then 0 else c'.blankLines o s q false false) =
      if c.token.lineBreaks = 0 then 0 else c.blankLines o s p false false := by
  by_cases hzero : c.token.lineBreaks = 0
  · rw [if_pos hzero] at hbreaks ⊢
    cases hempty : p.isEmpty with
    | true =>
        rw [hempty] at hbreaks
        exact if_pos hbreaks
    | false =>
        rw [hempty] at hbreaks
        have hmoved := blankLines_moved hbare hinserted hopen (hpages.isEmpty.trans hempty) hbreaks
          (howed hempty hzero)
        rw [hmoved, ite_self]
  · rw [if_neg hzero] at hbreaks ⊢
    rw [Cursor.blankLines_again hbare hinserted hpages hbreaks]
    split
    · next hnone => omega
    · rfl

theorem openSpacing_again {placement : Placement} (hbreaks : c'.token.lineBreaks = 0)
    (halone : placedAlone c s p placement = false) :
    Spacing.Again (openSpacing c s placement) (openSpacing c' s placement) := by
  rw [openSpacing, openSpacing, hbreaks]
  cases placement with
  | attach => exact .same _
  | «break» => cases halone
  | keep =>
      have hzero : c.token.lineBreaks = 0 := by simpa [placedAlone] using halone
      rw [hzero]
      exact .same _

theorem openBrace_again (hwidth : 0 < o.indentWidth)
    (h : c.Relays o p (openBrace c o s cs p).layout c') (hpages : p.Alike o q)
    (hopen : c.token.is "\x7b" = true) (hopening : opening c' o s = opening c o s)
    (howed : p.isEmpty = false → c.token.lineBreaks = 0 →
      opensLine c s p (placement o s (opening c o s)) = true →
        o.breakBlocks = true → s.blankAfterBlock = false) :
    Plan.Again o p q c.token c'.token (openBrace c o s cs p) (openBrace c' o s cs q) := by
  have hlayout := h
  simp only [openBrace] at hlayout
  simp only [openBrace, hopening]
  generalize placement o s (opening c o s) = placement at hlayout howed ⊢
  rw [opensLine_eq c] at hlayout howed
  rw [opensLine_eq c, opensLine_eq c']
  refine ⟨rfl, rfl, rfl, ?_⟩
  refine Layout.again_ite hwidth hlayout (startsLine_again hpages hlayout ?_) ?_ ?_
  · intro hstarts
    cases hforce : s.forceBreak with
    | true => rfl
    | false =>
        rw [hforce, Bool.false_or] at hstarts
        rw [Bool.false_or, Bool.false_or]
        exact placedAlone_again hpages hstarts
  · intro hnew hbreaks
    exact ⟨openIndent_eq h.bare o s _, openBlankLines_again h.bare h.inserted hopen hpages hbreaks
      fun hempty hzero => howed hempty hzero hnew⟩
  · intro hsame hbreaks
    have halone := (Bool.or_eq_false_iff.mp (Bool.or_eq_false_iff.mp hsame).2).2
    exact openSpacing_again hbreaks halone

theorem strayBrace_again (hwidth : 0 < o.indentWidth)
    (h : c.Relays o p (strayBrace c o s cs p).layout c') (hpages : p.Alike o q) :
    Plan.Again o p q c.token c'.token (strayBrace c o s cs p) (strayBrace c' o s cs q) := by
  refine ⟨rfl, rfl, rfl, ?_⟩
  refine Layout.again_ite hwidth h (startsLine_again hpages h ?_) ?_ fun _ _ => .same _
  · exact fun hstarts => decide_eq_of_iff hstarts
  · intro _ hbreaks
    exact ⟨rfl, Cursor.blankLines_again h.bare h.inserted hpages hbreaks⟩

theorem closeBrace_again (hwidth : 0 < o.indentWidth)
    (h : c.Relays o p (closeBrace c o s cs p).layout c') (hpages : p.Alike o q) :
    Plan.Again o p q c.token c'.token (closeBrace c o s cs p) (closeBrace c' o s cs q) := by
  rw [closeBrace] at h
  rw [closeBrace, closeBrace]
  cases hbraces : s.braces with
  | nil =>
      rw [hbraces] at h
      exact strayBrace_again hwidth h hpages
  | cons b outer =>
      rw [hbraces] at h
      refine ⟨rfl, rfl, rfl, ?_⟩
      refine Layout.again_ite hwidth h (startsLine_again hpages h ?_) ?_ ?_
      · intro hstarts
        split
        · next hkept =>
          rw [if_pos hkept] at hstarts
          exact decide_eq_of_iff hstarts
        · rfl
      · intro _ hbreaks
        exact ⟨rfl, Cursor.blankLines_again h.bare h.inserted hpages hbreaks⟩
      · intro hsame hbreaks
        have hzero : c.token.lineBreaks = 0 := by
          have hstarts := (Bool.or_eq_false_iff.mp hsame).2
          split at hstarts
          · simpa using hstarts
          · cases hstarts
        rw [hzero, hbreaks]
        exact .same _

end Plan

/-! ## All tokens -/

/-- The role of a `>>` depends on whether it stands apart from the token before it. -/
theorem Cursor.role_shift {c : Cursor} (h : c.token.is ">>" = true) (s : State)
    (hasPointers : Bool) : c.role s hasPointers
      = .binaryIf ((if s.stmt.active then c.prevCode else none).any Role.endsOperand
        && (c.nextCodeIs (·.kind == .number) || c.token.standsApart)) := by
  rw [Token.is, Bool.and_eq_true, beq_iff_eq, beq_iff_eq] at h
  rw [role, h.1, Role.ofPunctuation.eq_def, h.2]
  rfl

theorem Cursor.role_again {c c' : Cursor} (hbare : c'.bare = c.bare)
    (happart : c.token.is ">>" = true → c'.token.standsApart = c.token.standsApart) (s : State)
    (hasPointers : Bool) : c'.role s hasPointers = c.role s hasPointers := by
  cases hshift : c.token.is ">>" with
  | false =>
      rw [← Role.role_bare ((is_eq hbare ">>").trans hshift), hbare, Role.role_bare hshift]
  | true =>
      have hoperand : (if s.stmt.active then c'.prevCode else none).any Role.endsOperand
          = (if s.stmt.active then c.prevCode else none).any Role.endsOperand := by
        refine eq_of_bare (fun c => (if s.stmt.active then c.prevCode else none).any
          Role.endsOperand) (fun c => ?_) hbare
        rw [prevCode_bare]
        cases s.stmt.active with
        | false => rfl
        | true => simp [Option.any_map]
      have hnumber : c'.nextCodeIs (·.kind == .number) = c.nextCodeIs (·.kind == .number) :=
        eq_of_bare (·.nextCodeIs (·.kind == .number)) (fun c => c.nextCodeIs_bare fun _ => rfl)
          hbare
      rw [role_shift ((is_eq hbare ">>").trans hshift), role_shift hshift, hoperand, hnumber,
        happart hshift]

/-- A token that was put somewhere by a plan is put there again. -/
theorem Cursor.plan_again {o : Options} {p q : Page} {c c' : Cursor} {s : State}
    {cs : List Conditional} (hwidth : 0 < o.indentWidth)
    (h : c.Relays o p (c.plan o s cs p).layout c') (hpages : p.Alike o q)
    (hname : c.token.kind = .directive →
      Plan.directiveName c'.token.text = Plan.directiveName c.token.text)
    (happart : c.token.is ">>" = true → c'.token.standsApart = c.token.standsApart)
    (hopening : c.token.is "\x7b" = true → Plan.opening c' o s = Plan.opening c o s)
    (howed : c.token.is "\x7b" = true → p.isEmpty = false → c.token.lineBreaks = 0 →
      Plan.opensLine c s p (Plan.placement o s (Plan.opening c o s)) = true →
        o.breakBlocks = true → s.blankAfterBlock = false) :
    Plan.Again o p q c.token c'.token (c.plan o s cs p) (c'.plan o s cs q) := by
  rw [plan] at h
  rw [plan, plan, kind_eq h.bare, is_eq h.bare, is_eq h.bare]
  split at h
  · next hkind => exact Plan.directive_again h hpages (hname hkind)
  · exact Plan.comment_again hwidth h hpages
  · exact Plan.comment_again hwidth h hpages
  · split at h
    · next hopen =>
      rw [if_pos hopen, if_pos hopen]
      exact Plan.openBrace_again hwidth h hpages hopen (hopening hopen) (howed hopen)
    · next hopen =>
      rw [if_neg hopen, if_neg hopen]
      split at h
      · next hclose =>
        rw [if_pos hclose, if_pos hclose]
        exact Plan.closeBrace_again hwidth h hpages
      · next hclose =>
        rw [if_neg hclose, if_neg hclose]
        exact Plan.code_again hwidth h hpages fun s => role_again h.bare happart s _

end Beautifier
