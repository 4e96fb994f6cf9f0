/-
What stands between two tokens of a line.

A token that goes on with a line stands behind the last line of the token before
it, with the white space between them that its plan asks for
(`apartBy_of_sameLine`).  A plan asks for a space because of the token before it
in one way only: by `padNext`, which every step sets anew unless it writes no
code and starts no line (`padNext_step`).  A token is brought up from a later line
of the source only behind a block that has just been closed
(`afterClose_of_lineBreaks`).
-/
import Beautifier.Proofs.Layout.Spots
import Beautifier.Proofs.Layout.KeptBlocks
import Beautifier.Proofs.Safety.Checked

namespace Beautifier

/-! ## In the output -/

/-- In the output the token behind position `n` stands on the line that the token at `n` ends on:
behind the last line of its text, with `gap` between the two.  In front of that is what stands in
front of the token at `n`, or, behind a token of several lines, the blanks that its last line starts
with. -/
def ApartBy (o : Options) (source : String) (n : Nat) (gap : List Char) : Prop :=
  ∃ p s s' front, (tokensToLayOut o (tokenize o.language o.indentWidth source))[n]? = some p ∧
    WrittenAt o source n s ∧ WrittenAt o source (n + 1) s' ∧
    s'.line = s.line + p.lines.2.length ∧
    s'.front o = front ++ p.lastLine.dropWhile isBlank ++ gap ∧
    (if p.lines.2 = [] then front = s.front o else ∀ c ∈ front, isBlank c = true)

namespace Page

variable {o : Options} {t : Token}

theorem front_spot (p : Page) :
    p.spot.front o = p.newest.allChars o.indentKind o.indentWidth := rfl

/-- A further line of a token is blanks and then what the source has there, but for blanks at its
start. -/
theorem exists_allChars_continuation (kind : TokenKind) (indentKind : IndentKind) (width : Nat)
    (shift : Int) (piece : List Char) :
    ∃ front, (Line.continuation kind width shift piece).allChars indentKind width
        = front ++ piece.dropWhile isBlank ∧ ∀ c ∈ front, isBlank c = true := by
  have hsame : ∀ l : Line, l.indent = .zero → l.text = String.ofList piece →
      ∃ front, l.allChars indentKind width = front ++ piece.dropWhile isBlank ∧
        ∀ c ∈ front, isBlank c = true := by
    intro l hindent htext
    refine ⟨piece.takeWhile isBlank, ?_, fun c hc => List.mem_takeWhile_imp hc⟩
    rw [Line.allChars, hindent, htext, Line.chars_zero, List.nil_append, String.toList_ofList,
      List.takeWhile_append_dropWhile]
  cases kind with
  | blockComment =>
      refine ⟨(Line.continuation .blockComment width shift piece).indent.chars indentKind width,
        ?_, isBlank_of_mem_indent⟩
      rw [Line.allChars]
      congr 1
      exact String.toList_ofList
  | _ => exact hsame _ rfl rfl

theorem exists_front_write {c : Char} {more : List Char} (hfirst : t.lines.1 = c :: more)
    (hc : isBlank c = false) (q : Page) :
    ∃ front, (q.write o t).spot.front o = front ++ t.lastLine.dropWhile isBlank ∧
      (if t.lines.2 = [] then front = q.spot.front o else ∀ c ∈ front, isBlank c = true) := by
  have hmark : ∀ l : Line, (l.mark t.kind).allChars o.indentKind o.indentWidth
      = l.allChars o.indentKind o.indentWidth := by
    intro l
    cases t.kind <;> rfl
  have hlast : t.lastLine = t.lines.2.getLast?.getD t.lines.1 := List.getLastD_eq_getLast? ..
  rw [front_spot, newest_write, hmark, hlast]
  cases hothers : t.lines.2.getLast? with
  | none =>
      obtain ⟨htext, hindent⟩ := q.text_newest_begin t
      refine ⟨q.spot.front o, ?_, by rw [if_pos (List.getLast?_eq_none_iff.mp hothers)]⟩
      rw [front_spot, Line.allChars, Line.allChars, htext, hindent, Option.getD_none, hfirst,
        List.dropWhile_cons_of_neg (by simp [hc]), List.append_assoc]
  | some piece =>
      have hne : t.lines.2 ≠ [] := by
        intro hnil
        rw [hnil] at hothers
        cases hothers
      simp only [if_neg hne]
      exact exists_allChars_continuation ..

end Page

theorem isEmpty_of_sameLine {o : Options} {s : State} {cs : List Conditional} {page : Page}
    {c : Cursor} {spacing : Spacing} (h : (c.plan o s cs page).layout = .sameLine spacing) :
    page.isEmpty = false := by
  by_contra hempty
  rw [Bool.not_eq_false] at hempty
  by_cases hkind : c.token.kind = .directive
  · rw [Cursor.plan, hkind] at h
    cases h
  rcases c.plan_cases o s cs page hkind with
    ⟨-, hplan⟩ | ⟨-, ⟨-, hplan⟩ | ⟨-, -, hplan⟩ | ⟨-, -, hplan⟩⟩
  · simp [hplan, Plan.comment, hempty] at h
  · simp [hplan, Plan.openBrace, Plan.opensLine, hempty] at h
  · rw [hplan, Plan.closeBrace] at h
    split at h
    · simp [Plan.strayBrace, hempty] at h
    · simp [Plan.closesLine, hempty] at h
  · simp [hplan, Plan.code, hempty] at h

section
variable {o : Options} {source : String} {n : Nat} {p t : Token} {spacing : Spacing}

/-- A token that goes on with the line stands behind the token before it, with the white space of
its plan between the two. -/
theorem apartBy_of_sameLine :
    let tokens := tokensToLayOut o (tokenize o.language o.indentWidth source)
    tokens[n + 1]? = some t → (planAt o tokens (n + 1) t).layout = .sameLine spacing →
      ApartBy o source n ((stage o tokens (n + 1)).page.gap o t spacing).toList := by
  intro tokens hnext hlayout
  obtain ⟨p, hget⟩ : ∃ p, tokens[n]? = some p :=
    ⟨_, List.getElem?_eq_getElem (Nat.lt_of_succ_lt (List.getElem?_eq_some_iff.mp hnext).1)⟩
  obtain ⟨c, more, hfirst, hink⟩ := Token.StartsInInk.exists_firstLine
    (starts_tokensToLayOut o o.language o.indentWidth source p (List.mem_of_getElem? hget))
  obtain ⟨front, hfront, hbefore⟩ := Page.exists_front_write (o := o) hfirst (isBlank_eq_false hink)
    ((stage o tokens n).page.ready o p (planAt o tokens n p).layout)
  rw [← page_stage_succ hget] at hfront
  refine ⟨p, spotAt o tokens n p, spotAt o tokens (n + 1) t, front, hget,
    writtenAt_spotAt o source hget, writtenAt_spotAt o source hnext, ?_, ?_, hbefore⟩
  · have hbehind := length_stage_succ (o := o) hget
    rw [spotAt_of_sameLine hlayout, Page.spot, hbehind]
    dsimp only
    omega
  · rw [spotAt_of_sameLine hlayout, ← hfront, Spot.front, Spot.front, List.append_assoc]

/-- A token that starts no line is apart from the token before it by white space. -/
theorem exists_apartBy :
    let tokens := tokensToLayOut o (tokenize o.language o.indentWidth source)
    tokens[n + 1]? = some t → startedLine? o tokens (n + 1) = none →
      ∃ spacing, (planAt o tokens (n + 1) t).layout = .sameLine spacing ∧
        ApartBy o source n ((stage o tokens (n + 1)).page.gap o t spacing).toList ∧
        ∀ c ∈ ((stage o tokens (n + 1)).page.gap o t spacing).toList, isSpace c = true := by
  intro tokens hnext hstarts
  obtain ⟨spacing, hlayout⟩ := sameLine_of_startedLine? hnext hstarts
  have hspace := isGapChar_of_mem_tokensToLayOut o o.language o.indentWidth source t
    (List.mem_of_getElem? hnext)
  exact ⟨spacing, hlayout, apartBy_of_sameLine hnext hlayout,
    Page.forall_mem_gap (q := fun c => isSpace c = true) _ o rfl
      (fun c hc => isSpace_of_isGapChar (hspace c hc)) spacing⟩

end

/-! ## What is owed to the next token -/

section
variable {o : Options} {r : Progress} {c : Cursor}

/-- Whether a space is owed behind a token, as its plan leaves it. -/
def Plan.owesPad (o : Options) (owed : Bool) (t : Token) (p : Plan) : Bool :=
  match p.action, p.layout with
  | .code _ role, _ => (role == .binary && o.padOper) || (t.is "," && o.padsCommas)
  | .openBrace _, _ | .closeBrace (some _), _ | _, .newLine _ _ => false
  | _, .sameLine _ => owed

theorem State.padNext_placed (s : State) (c : Cursor) (layout : Layout) (column : Nat) :
    (s.placed c layout column).padNext = match layout with
      | .newLine _ _ => false
      | .sameLine _ => s.padNext := by
  cases layout with
  | newLine => rfl
  | sameLine spacing =>
      unfold placed amendParen
      dsimp only
      repeat' split
      all_goals rfl

theorem State.padNext_settle (s : State) (c : Cursor) (o : Options) (p : Plan)
    (lineIndent : Indent) : (s.settle c o p lineIndent).padNext = match p.action with
      | .code _ role => (role == .binary && o.padOper) || (c.token.is "," && o.padsCommas)
      | .openBrace _ | .closeBrace (some _) => false
      | _ => s.padNext := by
  unfold settle
  split
  · next h => rw [h]
  · next h => rw [h]
  · next h => rw [h]
  · next starts role h =>
    unfold settleCode
    obtain ⟨stmt, forceBreak, heq⟩ :=
      ((if starts then s.beginStatement c p.layout lineIndent else s).owesSpacing c o
        role).afterCode_eq c o lineIndent
    dsimp only
    rw [heq, h]
    rfl
  · next h =>
    rw [h]
    rfl
  · next h =>
    rw [h]
    unfold settleClose finishBlock
    dsimp only
    split <;> rfl

/-- Only a directive, which starts a line, is planned in a state that owes something else. -/
theorem padNext_plan {s : State} {cs : List Conditional} {page : Page} {spacing : Spacing}
    (h : (c.plan o s cs page).layout = .sameLine spacing) :
    (c.plan o s cs page).state.padNext = s.padNext := by
  unfold Cursor.plan at h ⊢
  split at h
  · cases h
  · rfl
  · rfl
  · split
    · rfl
    split
    · unfold Plan.closeBrace
      split <;> rfl
    · rfl

theorem padNext_step (o : Options) (r : Progress) (c : Cursor) : (r.step o c).state.padNext
    = (c.plan o r.state r.conditionals r.page).owesPad o r.state.padNext c.token := by
  rw [Progress.step, State.padNext_settle, State.padNext_placed, Plan.owesPad]
  cases hlayout : (c.plan o r.state r.conditionals r.page).layout with
  | newLine => cases (c.plan o r.state r.conditionals r.page).action with
    | closeBrace closed => cases closed <;> rfl
    | _ => rfl
  | sameLine =>
      rw [padNext_plan hlayout]
      cases (c.plan o r.state r.conditionals r.page).action with
      | closeBrace closed => cases closed <;> rfl
      | _ => rfl

/-- Where neither operators nor commas are padded, no space is owed. -/
theorem padNext_stage (hoper : o.padOper = false) (hcomma : o.padComma = false)
    (tokens : List Token) {n : Nat} (h : n ≤ tokens.length) :
    (stage o tokens n).state.padNext = false := by
  refine stage_induction (P := fun _ r => r.state.padNext = false) rfl ?_ n h
  intro n t r _ hr
  rw [padNext_step, Plan.owesPad, hr]
  split
  · simp [hoper, hcomma, Options.padsCommas]
  all_goals rfl

end

/-! ## Tokens brought up from a later line -/

/-- The last token but for comments in front of a position is a closing brace. -/
def FollowsBlock (tokens : List Token) (n : Nat) : Prop :=
  ∃ k < n, (∃ u, tokens[k]? = some u ∧ u.is "\x7d" = true) ∧
    ∀ j u, k < j → j < n → tokens[j]? = some u → u.kind = .lineComment ∨ u.kind = .blockComment

namespace Page

variable {o : Options} {t : Token} {layout : Layout} {p : Page}

theorem canJoin_newest (p : Page) :
    p.canJoin = (p.newest.hasCode && !p.newest.lineComment && !p.newest.directive) := by
  rw [canJoin, newest]
  cases p.lines <;> rfl

theorem canJoin_begin (p : Page) (t : Token) : (p.begin t).canJoin = p.canJoin := by
  rw [canJoin_newest, canJoin_newest, newest, begin, lines_amend, List.headD_cons]
  dsimp only
  split <;> rfl

theorem canJoin_ready (h : (p.ready o t layout).canJoin = true) : p.canJoin = true := by
  cases layout with
  | newLine indent blankLines => cases h
  | sameLine spacing =>
      rw [canJoin_newest, ready, space, newest, lines_amend, List.headD_cons] at h
      rw [canJoin_newest]
      exact h

theorem canJoin_of_comment (hkind : t.kind = .lineComment ∨ t.kind = .blockComment)
    (h : ((p.ready o t layout).write o t).canJoin = true) : p.canJoin = true := by
  rw [canJoin_newest, newest_write] at h
  rcases hkind with hkind | hkind
  · simp [hkind, Line.mark] at h
  · cases hothers : t.lines.2.getLast? with
    | none =>
        rw [hothers, hkind] at h
        have hready : (p.ready o t layout).canJoin = true := by
          rw [← canJoin_begin _ t, canJoin_newest]
          exact h
        exact canJoin_ready hready
    | some piece =>
        rw [hothers, hkind] at h
        cases h

end Page

section
variable {o : Options} {r : Progress} {c : Cursor}

theorem afterClose_step (hkind : c.token.kind ≠ .directive)
    (h : (r.step o c).state.afterClose ≠ none) :
    c.token.is "\x7d" = true ∨ c.token.isTrivia = true ∧ r.state.afterClose ≠ none := by
  cases htrivia : c.token.isTrivia with
  | true =>
      rw [afterClose_step_comment hkind htrivia] at h
      exact .inr ⟨rfl, h⟩
  | false =>
      cases hclose : c.token.is "\x7d" with
      | true => exact .inl rfl
      | false => exact absurd (afterClose_step_code htrivia hclose) h

/-- A token that is brought up from a later line is an opening brace, or it stands behind a block
where code may follow. -/
theorem afterClose_of_lineBreaks {s : State} {cs : List Conditional} {page : Page}
    {spacing : Spacing} (h : (c.plan o s cs page).layout = .sameLine spacing)
    (hbreaks : 0 < c.token.lineBreaks) :
    c.token.is "\x7b" = true ∨ s.afterClose ≠ none ∧ page.canJoin = true := by
  by_cases hkind : c.token.kind = .directive
  · rw [Cursor.plan, hkind] at h
    cases h
  rcases c.plan_cases o s cs page hkind with
    ⟨-, hplan⟩ | ⟨-, ⟨hopen, -⟩ | ⟨-, -, hplan⟩ | ⟨-, -, hplan⟩⟩
  · rw [hplan] at h
    have hnew := (of_ite_eq_sameLine h).1
    simp [hbreaks] at hnew
  · exact .inl hopen
  · rw [hplan] at h
    have hzero := (lineBreaks_of_closeBrace h).1
    omega
  · refine .inr ?_
    rw [hplan] at h
    have hjoin := (Bool.or_eq_false_iff.mp (of_ite_eq_sameLine h).1).2
    cases hclosed : s.afterClose with
    | none => simp [hclosed, hbreaks] at hjoin
    | some closed =>
        rw [hclosed] at hjoin
        refine ⟨Option.some_ne_none closed, ?_⟩
        rcases joins_of_not_breaksAfterClose hjoin with ⟨hcan, -⟩ | hzero
        · exact hcan
        · omega

end

theorem FollowsBlock.succ {tokens : List Token} {n : Nat} {t : Token} (h : FollowsBlock tokens n)
    (hget : tokens[n]? = some t) (hkind : t.kind = .lineComment ∨ t.kind = .blockComment) :
    FollowsBlock tokens (n + 1) := by
  obtain ⟨k, hk, hclose, hcomments⟩ := h
  refine ⟨k, Nat.lt_succ_of_lt hk, hclose, fun j u hkj hjn hu => ?_⟩
  rcases Nat.eq_or_lt_of_le (Nat.le_of_lt_succ hjn) with rfl | hjn
  · rw [hget] at hu
    cases hu
    exact hkind
  · exact hcomments j u hkj hjn hu

/-- Where a block is remembered and code may follow on the line, the block has just been closed. -/
theorem followsBlock_stage (o : Options) (tokens : List Token) : ∀ n ≤ tokens.length,
    (stage o tokens n).state.afterClose ≠ none → (stage o tokens n).page.canJoin = true →
      FollowsBlock tokens n := by
  intro n
  induction n with
  | zero => exact fun _ h => absurd rfl h
  | succ n ih =>
      intro hn hclosed hcan
      have hget : tokens[n]? = some tokens[n] := List.getElem?_eq_getElem hn
      generalize tokens[n] = t at hget
      by_cases hdirective : t.kind = .directive
      · -- nothing may follow on the line of a directive
        obtain ⟨-, -, -, -, hcannot⟩ := stage_of_endsLine (o := o) hget
          (by simp [Token.endsLine, hdirective])
        rw [hcannot] at hcan
        cases hcan
      rw [stage_succ hget] at hclosed
      rcases afterClose_step (c := cursorAt tokens n t) hdirective hclosed with
        hclose | ⟨htrivia, hclosed⟩
      · exact ⟨n, Nat.lt_succ_self n, ⟨t, hget, hclose⟩,
          fun j u hnj hjn => absurd hjn (Nat.not_lt_of_ge hnj)⟩
      · have hkind : t.kind = .lineComment ∨ t.kind = .blockComment := by
          have htrivia : t.isTrivia = true := htrivia
          rw [Token.isTrivia] at htrivia
          cases hkind : t.kind <;> simp_all
        rw [page_stage_succ hget] at hcan
        have hbefore := ih (Nat.le_of_succ_le hn) hclosed (Page.canJoin_of_comment hkind hcan)
        exact hbefore.succ hget hkind

end Beautifier
