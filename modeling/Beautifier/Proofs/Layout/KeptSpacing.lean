/-
Spacing that stays as it is in the source.

Without an option that pads, unpads, aligns, moves braces or converts tabs, no
flag that an earlier token could have left asks for white space: nothing is owed
(`padNext_stage`), no declarator is aligned (`pointerAfter_stage`), and no brace
is placed.  So all spacing is unforced (`spacing_of_keepsSpacing`): what the
source has between two tokens of one line stands between them in the output, and
a token joins the line of an earlier one only behind the end of a block
(`sourceGap_kept`).
-/
import Beautifier.Proofs.Token.Cover
import Beautifier.Proofs.Layout.Apart

namespace Beautifier

/-- No option asks for white space of its own between two tokens. -/
structure Options.KeepsSpacing (o : Options) : Prop where
  style : o.style = .unchanged
  attachNamespaces : o.attachNamespaces = false
  attachClasses : o.attachClasses = false
  padOper : o.padOper = false
  padComma : o.padComma = false
  padParenOut : o.padParenOut = false
  padParenIn : o.padParenIn = false
  padHeader : o.padHeader = false
  unpadParen : o.unpadParen = false
  alignPointer : o.alignPointer = none
  convertTabs : o.convertTabs = false
  addBraces : o.addBraces = false

namespace Options.KeepsSpacing

variable {o : Options} {s : State} {c : Cursor} {t : Token} {cs : List Conditional} {page : Page}
  {spacing : Spacing}

theorem placement_eq (ho : o.KeepsSpacing) (s : State) (b : Opening) :
    Plan.placement o s b = .keep := by
  rw [Plan.placement, Options.placement, ho.style, ho.attachNamespaces, ho.attachClasses]
  simp [BraceStyle.breaks?]

theorem behind_eq (ho : o.KeepsSpacing) (hpad : s.padNext = false)
    (hpointer : s.pointerAfter = none) (role : Role) (prev t : Token) :
    Spacing.behind o s role prev t = Spacing.unforced t := by
  have haligned : Spacing.aligned? o s role t = none := by
    simp [Spacing.aligned?, hpointer, ho.alignPointer]
  have hpads : ∀ headerParen, Spacing.pads o s role headerParen prev t = false := by
    simp [Spacing.pads, hpad, ho.padHeader, ho.padParenOut, ho.padParenIn, ho.padOper]
  rw [Spacing.behind, haligned, Option.getD_none, Spacing.ordinary]
  simp [hpads, ho.unpadParen]

theorem spacing_eq (ho : o.KeepsSpacing) (hpad : s.padNext = false)
    (hpointer : s.pointerAfter = none) {prev : Token}
    (hprev : s.lastOnLine.bind c.tokenAt? = some prev)
    (h : (c.plan o s cs page).layout = .sameLine spacing) : spacing = .unforced c.token := by
  have hwritten : c.token.lineBreaks = 0 → Spacing.unforced c.token = .asWritten :=
    fun hzero => if_pos hzero
  by_cases hkind : c.token.kind = .directive
  · rw [Cursor.plan, hkind] at h
    cases h
  rcases c.plan_cases o s cs page hkind with
    ⟨-, hplan⟩ | ⟨-, ⟨-, hplan⟩ | ⟨-, -, hplan⟩ | ⟨-, -, hplan⟩⟩
  · rw [hplan] at h
    obtain ⟨hnew, rfl⟩ := of_ite_eq_sameLine h
    refine (hwritten ?_).symm
    simpa using (Bool.or_eq_false_iff.mp hnew).2
  · rw [hplan] at h
    obtain ⟨hopens, rfl⟩ := of_ite_eq_sameLine h
    rw [ho.placement_eq] at hopens
    have hzero : c.token.lineBreaks = 0 := by simpa using (Bool.or_eq_false_iff.mp hopens).2
    rw [ho.placement_eq, hwritten hzero, Plan.openSpacing, hzero, hpad]
    rfl
  · rw [hplan] at h
    obtain ⟨hzero, rfl⟩ := lineBreaks_of_closeBrace h
    exact (hwritten hzero).symm
  · rw [hplan] at h
    obtain ⟨-, rfl⟩ := of_ite_eq_sameLine h
    rw [Cursor.spacing, hprev]
    refine ho.behind_eq ?_ ?_ _ prev c.token
    · exact hpad
    · exact hpointer

theorem lineBreaks_of_openBrace (ho : o.KeepsSpacing) (hopen : c.token.is "\x7b" = true)
    (h : (c.plan o s cs page).layout = .sameLine spacing) : c.token.lineBreaks = 0 := by
  rw [Cursor.plan_openBrace hopen] at h
  have hopens := (of_ite_eq_sameLine h).1
  rw [ho.placement_eq] at hopens
  simpa using (Bool.or_eq_false_iff.mp hopens).2

end Options.KeepsSpacing

theorem Page.gap_unforced {o : Options} (htabs : o.convertTabs = false) (p : Page) (t : Token) :
    (p.gap o t (.unforced t)).toList = if t.lineBreaks = 0 then t.space.toList
      else if Spacing.isTight t then [] else [' '] := by
  rw [Spacing.unforced]
  split
  · rw [gap, sourceGap, if_neg (by simp [htabs])]
  · split <;> simp [gap]

/-- Without padding options the white space of the source stays.  Where a token goes on with a line
of the output and has no line break in front of it in the source, what stands there in front of it
stands between it and the token before.  Where it has line breaks in front of it, it follows a
closing brace with only comments between, and one space stands there, or nothing if it is `;`, `,`,
`)`, `]`, `.`, `->` or `::`. -/
theorem sourceGap_kept (o : Options) (ho : o.KeepsSpacing) (source : String) :
    let tokens := tokensToLayOut o (tokenize o.language o.indentWidth source)
    ∃ (gaps : List (List Char)) (last : List Char),
      List.Forall₂ Token.Follows tokens gaps ∧ (∀ c ∈ last, isSpace c = true) ∧
      source.toList
        = (List.zipWith (fun gap t => gap ++ t.text.toList) gaps tokens).flatten ++ last ∧
      ∀ n t gap, tokens[n]? = some t → gaps[n]? = some gap → startedLine? o tokens n = none →
        ∃ m, n = m + 1 ∧ (countBreaks gap = 0 → ApartBy o source m gap) ∧
          (0 < countBreaks gap → FollowsBlock tokens n ∧ ApartBy o source m
            (if t.isOneOf [";", ",", ")", "]", ".", "->", "::"] then [] else [' '])) := by
  intro tokens
  have htokens : tokens = (tokenize o.language o.indentWidth source).tokens :=
    if_neg (by simp [ho.addBraces])
  obtain ⟨gaps, last, hgaps, hlast, -, hsource⟩ :=
    (partition_tokenize o.language o.indentWidth source).exists_gaps (canonical_glyphs _)
  rw [chars_glyphs, ← htokens] at hsource
  rw [← htokens] at hgaps
  refine ⟨gaps, last, hgaps, hlast, hsource, fun n t gap hget hgap hstarts => ?_⟩
  obtain ⟨spacing, hlayout⟩ := sameLine_of_startedLine? hget hstarts
  have hn : n < tokens.length := (List.getElem?_eq_some_iff.mp hget).1
  have hfollows : t.Follows gap := by
    obtain ⟨hlt, rfl⟩ := List.getElem?_eq_some_iff.mp hget
    obtain ⟨hlt', rfl⟩ := List.getElem?_eq_some_iff.mp hgap
    exact hgaps.get hlt hlt'
  obtain ⟨m, rfl⟩ : ∃ m, n = m + 1 := by
    refine Nat.exists_eq_succ_of_ne_zero ?_
    rintro rfl
    have hempty : true = false := isEmpty_of_sameLine hlayout
    cases hempty
  have hpad := padNext_stage ho.padOper ho.padComma tokens (Nat.le_of_lt hn)
  have hpointer := pointerAfter_stage o tokens ho.alignPointer (Nat.le_of_lt hn)
  have hprev : (stage o tokens (m + 1)).state.lastOnLine.bind (cursorAt tokens (m + 1) t).tokenAt?
      = some tokens[m] := by
    rw [lastOnLine_stage o tokens (Nat.lt_of_succ_lt hn), Option.bind_some,
      tokenAt?_cursorAt hget (Nat.lt_succ_self m), List.getElem?_eq_getElem]
  have hspacing := ho.spacing_eq hpad hpointer hprev hlayout
  have hapart := apartBy_of_sameLine hget hlayout
  rw [hspacing] at hapart
  rw [show Spacing.unforced (cursorAt tokens (m + 1) t).token = .unforced t from rfl,
    Page.gap_unforced ho.convertTabs] at hapart
  refine ⟨m, rfl, fun hzero => ?_, fun hbreaks => ⟨?_, ?_⟩⟩
  · rw [← hfollows.lineBreaks_eq] at hzero
    rwa [if_pos hzero, hfollows.space_eq hzero] at hapart
  · rw [← hfollows.lineBreaks_eq] at hbreaks
    rcases afterClose_of_lineBreaks hlayout hbreaks with hopen | ⟨hclosed, hcan⟩
    · have hzero : t.lineBreaks = 0 := ho.lineBreaks_of_openBrace hopen hlayout
      omega
    · exact followsBlock_stage o tokens (m + 1) (Nat.le_of_lt hn) hclosed hcan
  · rw [← hfollows.lineBreaks_eq] at hbreaks
    rw [if_neg (Nat.ne_zero_of_lt hbreaks)] at hapart
    exact hapart

/-- The semicolon behind a block is brought up to it, and the blank inside the block stays. -/
theorem sourceGap_kept_block :
    Options.default.KeepsSpacing ∧ ApartBy .default "\x7b \x7d\n;\n" 0 [' '] ∧
      FollowsBlock (tokensToLayOut .default (tokenize .c 4 "\x7b \x7d\n;\n")) 2 ∧
      ApartBy .default "\x7b \x7d\n;\n" 1 [] := by
  have ho : Options.default.KeepsSpacing := by constructor <;> rfl
  have htokens : tokensToLayOut .default (tokenize .c 4 "\x7b \x7d\n;\n")
      = [⟨.punctuation, "\x7b", 0, "", 0, false⟩, ⟨.punctuation, "\x7d", 0, " ", 2, false⟩,
          ⟨.punctuation, ";", 1, "", 0, false⟩] := by
    show (tokenize .c 4 "\x7b \x7d\n;\n").tokens = _
    decide +kernel
  obtain ⟨gaps, last, hgaps, -, -, hkept⟩ := sourceGap_kept .default ho "\x7b \x7d\n;\n"
  rw [show Options.default.language = .c from rfl,
    show Options.default.indentWidth = 4 from rfl, htokens] at hgaps hkept
  rw [htokens]
  cases hgaps with
  | @cons _ gap₀ _ _ _ hgaps => cases hgaps with
    | @cons _ gap₁ _ _ hblank hgaps => cases hgaps with
      | @cons _ gap₂ _ _ hbreak _ =>
          have hgap : gap₁ = [' '] := (hblank.space_eq rfl).symm
          obtain ⟨m, hm, hsame, -⟩ := hkept 1 _ gap₁ rfl rfl (by decide +kernel)
          obtain ⟨m', hm', -, hjoined⟩ := hkept 2 _ gap₂ rfl rfl (by decide +kernel)
          cases hm
          cases hm'
          have hbreaks : countBreaks gap₂ = 1 := hbreak.lineBreaks_eq.symm
          obtain ⟨hblock, happart⟩ := hjoined (by rw [hbreaks]; exact Nat.one_pos)
          refine ⟨ho, ?_, hblock, happart⟩
          have happart := hsame (by rw [hgap]; rfl)
          rwa [hgap] at happart

end Beautifier
