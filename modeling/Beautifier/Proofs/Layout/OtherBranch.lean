/-
Branches that do not know of each other.

A branch of a conditional starts in the state in which the first one did, but
its tokens can still look back over the first branch.  Where the conditional
stands between statements they find there nothing that they ask for: the
statements, brackets and headers that they look back to stand in their own
branch (`State.Rooted`).  So two sources that differ in the first branch alone
are laid out in step along the other one (`Beside`), and its lines are the same
(`linesOver_eq`).  Inside a statement the law fails: the role of an operator
can depend on the other branch (`linesOver_ne_in_statement`).
-/
import Beautifier.Proofs.Layout.Beside
import Beautifier.Proofs.Layout.LastOnLine
import Beautifier.Proofs.Safety.Within

namespace Beautifier

/-- No statement has begun, no bracket is open, and no header waits for its condition. -/
structure State.BetweenStatements (s : State) : Prop where
  active : s.stmt.active = false
  parens : s.stmt.parens = []
  pending : s.stmt.headerParenPending = false

/-- The lines of a formatted source that stand above what its tokens from position `j` on open, and
below what those in front of position `i` have opened. -/
def linesOver (o : Options) (source : String) (i j : Nat) : List (List Char) :=
  let tokens := tokensToLayOut o (tokenize o.language o.indentWidth source)
  let lines := (layOut o tokens).lines.reverse.map (Line.chars o.indentKind o.indentWidth)
  (lines.take (stage o tokens j).page.lines.length).drop (stage o tokens i).page.lines.length

/-! ## A conditional of two branches -/

/-- A list of tokens in which a conditional has a first branch without braces, and a second one up
to a next directive. -/
structure TwoBranches where
  front : List Token
  opens : Token
  first : List Token
  turn : Token
  second : List Token
  ends : Token
  rest : List Token
  opens_if : opens.opensConditional = true
  first_plain : ∀ t ∈ first, t.kind ≠ .directive ∧ t.is "\x7b" = false ∧ t.is "\x7d" = false
  turn_else : turn.startsBranch = true
  second_plain : ∀ t ∈ second, t.kind ≠ .directive
  ends_directive : ends.kind = .directive

namespace TwoBranches

def tokens (b : TwoBranches) : List Token :=
  b.front ++ b.opens :: (b.first ++ b.turn :: (b.second ++ b.ends :: b.rest))

/-- The position of the directive that opens the conditional. -/
def opensAt (b : TwoBranches) : Nat := b.front.length

/-- The position of the directive that starts the second branch. -/
def turnAt (b : TwoBranches) : Nat := b.opensAt + 1 + b.first.length

/-- The position of the first token of the second branch. -/
def secondAt (b : TwoBranches) : Nat := b.turnAt + 1

/-- The position of the directive behind the second branch. -/
def endsAt (b : TwoBranches) : Nat := b.secondAt + b.second.length

/-- The state that is kept for the branches. -/
def kept (b : TwoBranches) (o : Options) : State := (stage o b.tokens b.opensAt).state

/-- The same tokens but for the first branch, and the white space in front of the directive behind
it. -/
structure SameButFirst (b b' : TwoBranches) : Prop where
  front : b'.front = b.front
  opens : b'.opens = b.opens
  turn : b'.turn.text = b.turn.text
  second : b'.second = b.second
  ends : b'.ends = b.ends
  rest : b'.rest = b.rest

section

variable (b : TwoBranches)

theorem tokens_eq : b.tokens = (b.front ++ [b.opens]) ++ (b.first ++ [b.turn])
    ++ (b.second ++ b.ends :: b.rest) := by
  simp only [tokens, List.append_assoc, List.cons_append, List.nil_append]

theorem take_tokens : b.tokens.take (b.opensAt + 1) = b.front ++ [b.opens] := by
  rw [tokens_eq, List.append_assoc]
  exact List.take_left' (by simp [opensAt])

theorem take_secondAt :
    b.tokens.take b.secondAt = (b.front ++ [b.opens]) ++ (b.first ++ [b.turn]) := by
  rw [tokens_eq]
  exact List.take_left' (by simp [secondAt, turnAt, opensAt]; omega)

theorem drop_take_secondAt :
    (b.tokens.take b.secondAt).drop (b.opensAt + 1) = b.first ++ [b.turn] := by
  rw [take_secondAt]
  exact List.drop_left' (by simp [opensAt])

theorem drop_secondAt : b.tokens.drop b.secondAt = b.second ++ b.ends :: b.rest := by
  rw [tokens_eq]
  exact List.drop_left' (by simp [secondAt, turnAt, opensAt]; omega)

theorem tokensBetween_turnAt : tokensBetween b.tokens b.opensAt b.turnAt = b.first := by
  have htake : b.tokens.take b.turnAt = (b.front ++ [b.opens]) ++ b.first := by
    rw [tokens_eq, List.append_assoc, List.append_assoc b.first, ← List.append_assoc _ b.first]
    exact List.take_left' (by simp [turnAt, opensAt]; omega)
  rw [tokensBetween, htake]
  exact List.drop_left' (by simp [opensAt])

theorem getElem?_opensAt : b.tokens[b.opensAt]? = some b.opens := by
  simp [tokens, opensAt]

theorem getElem?_turnAt : b.tokens[b.turnAt]? = some b.turn := by
  have hlength : (b.front ++ b.opens :: b.first).length = b.turnAt := by
    simp [turnAt, opensAt]
    omega
  have htokens : b.tokens = (b.front ++ b.opens :: b.first)
      ++ b.turn :: (b.second ++ b.ends :: b.rest) := by
    simp [tokens]
  rw [htokens, ← hlength]
  simp

theorem getElem?_endsAt : b.tokens[b.endsAt]? = some b.ends := by
  rw [endsAt, ← List.getElem?_drop, drop_secondAt]
  simp

theorem braceless : ∀ t ∈ (b.tokens.take b.secondAt).drop (b.opensAt + 1),
    t.is "\x7b" = false ∧ t.is "\x7d" = false := by
  have hturn : b.turn.isTrivia = true := by
    rw [Token.isTrivia, Token.kind_of_startsBranch b.turn_else]
  rw [drop_take_secondAt]
  intro t ht
  rcases List.mem_append.mp ht with ht | ht
  · exact (b.first_plain t ht).2
  · rw [List.mem_singleton.mp ht]
    exact ⟨Token.is_of_isTrivia hturn _, Token.is_of_isTrivia hturn _⟩

theorem inGroup : InGroup b.tokens b.opensAt b.turnAt := by
  have hplain : ∀ ts : List Token, (∀ t ∈ ts, t.kind ≠ .directive) →
      ts.foldlM nest 0 = some 0 := by
    intro ts
    induction ts with
    | nil => exact fun _ => rfl
    | cons t rest ih =>
        intro hts
        obtain ⟨ht, hrest⟩ := List.forall_mem_cons.mp hts
        have hnest : nest 0 t = some 0 := by
          rw [nest.eq_def, if_neg fun h => ht (Token.kind_of_opens h),
            if_neg fun h => ht (Token.kind_of_ends h)]
        rw [List.foldlM_cons, hnest]
        exact ih hrest
  refine ⟨Nat.lt_of_lt_of_le (Nat.lt_succ_self _) (Nat.le_add_right _ _),
    ⟨b.opens, b.getElem?_opensAt, b.opens_if⟩, ?_⟩
  rw [tokensBetween_turnAt]
  exact hplain b.first fun t ht => (b.first_plain t ht).1

end

theorem rejoins {b b' : TwoBranches} (h : b.SameButFirst b') :
    Rejoins b.opensAt b.secondAt b'.secondAt b.tokens b'.tokens := by
  have hopens : b'.opensAt = b.opensAt := congrArg List.length h.front
  have hlt : ∀ b : TwoBranches, b.opensAt + 1 < b.secondAt := fun b =>
    Nat.lt_succ_of_le (Nat.le_add_right _ _)
  have hturn : ∀ b : TwoBranches,
      ∃ u, b.tokens[b.secondAt - 1]? = some u ∧ u.isTrivia = true := fun b =>
    ⟨b.turn, b.getElem?_turnAt, by rw [Token.isTrivia, Token.kind_of_startsBranch b.turn_else]⟩
  refine ⟨?_, ?_, hlt b, hopens ▸ hlt b', hturn b, hturn b'⟩
  · rw [take_tokens, ← hopens, take_tokens, h.front, h.opens]
  · rw [drop_secondAt, drop_secondAt, h.second, h.ends, h.rest]

end TwoBranches

/-! ## Behind the directive of the second branch -/

section

variable {o : Options} {tokens : List Token} {i j n : Nat} {t : Token}

theorem state_of_branch (hgroup : InGroup tokens i j) (hget : tokens[j]? = some t)
    (hbranch : t.startsBranch = true) :
    (stage o tokens (j + 1)).state = (stage o tokens i).state.behindDirective j := by
  obtain ⟨u, hi, hopens⟩ := hgroup.opens
  obtain ⟨inner, first, hlength, -, hstack⟩ :=
    conditionals_stage (o := o) hi hopens hgroup.lt (Nat.le_of_lt (lt_length hget)) hgroup.level
  obtain rfl := List.length_eq_zero_iff.mp hlength
  rw [(stage_directive hget (Token.kind_of_startsBranch hbranch)).1,
    branch_startsBranch _ _ hbranch, hstack]
  rfl

theorem page_of_directive (hget : tokens[n]? = some t) (hkind : t.kind = .directive) :
    ∃ blankLines, (stage o tokens (n + 1)).page =
      ((stage o tokens n).page.newLine .zero blankLines).push o.indentWidth .directive 0
        t.text := by
  have hplan : ∀ s cs page, (cursorAt tokens n t).plan o s cs page
      = .directive (cursorAt tokens n t) o s cs page := by
    intro s cs page
    have htoken : (cursorAt tokens n t).token = t := rfl
    rw [Cursor.plan, htoken, hkind]
  rw [stage_succ hget, Progress.step, hplan]
  refine ⟨(cursorAt tokens n t).blankLines o (stage o tokens n).state (stage o tokens n).page false
    false, ?_⟩
  show Page.write _ o t = _
  rw [Page.write, Page.shift, hkind]
  rfl

/-- What is written in front of a directive is not written on. -/
theorem suffix_layOut (hget : tokens[n]? = some t) (hkind : t.kind = .directive) :
    (stage o tokens n).page.lines <:+ (layOut o tokens).lines := by
  have hplan : ∃ blankLines, ((cursorAt tokens n t).plan o (stage o tokens n).state
      (stage o tokens n).conditionals (stage o tokens n).page).layout
        = .newLine .zero blankLines := by
    have htoken : (cursorAt tokens n t).token = t := rfl
    rw [Cursor.plan, htoken, hkind]
    exact ⟨_, rfl⟩
  obtain ⟨blankLines, hlayout⟩ := hplan
  obtain ⟨hsuffix, hne⟩ := Page.suffix_tail_step hlayout
  rw [← stage_succ hget] at hsuffix hne
  rw [layOut_eq_stage]
  exact (later_stage o tokens (lt_length hget)).suffix hsuffix hne

theorem State.Within.moved_eq {s : State} (h : s.Within n) {f : Nat → Nat}
    (hf : ∀ p ≤ n, f p = p) : s.moved f = s := by
  have hstmt : ∀ {stmt : Statement}, stmt.Within n → stmt.moved f = stmt := by
    intro stmt hstmt
    have hparens : stmt.parens.map (OpenParen.moved f) = stmt.parens := by
      conv => rhs; rw [← List.map_id stmt.parens]
      refine List.map_congr_left fun p hp => ?_
      rw [OpenParen.moved, hf p.start (Nat.le_of_lt (hstmt.parens p hp))]
      rfl
    rw [Statement.moved, hf stmt.start hstmt.start, hparens]
  have hbraces : s.braces.map (OpenBrace.moved f) = s.braces := by
    conv => rhs; rw [← List.map_id s.braces]
    refine List.map_congr_left fun b hb => ?_
    rw [OpenBrace.moved, hstmt (h.outer b hb)]
    rfl
  have hlast : s.lastOnLine.map f = s.lastOnLine := by
    cases hlastOnLine : s.lastOnLine with
    | none => rfl
    | some p => rw [Option.map_some, hf p (Nat.le_of_lt (h.lastOnLine p hlastOnLine))]
  rw [State.moved, hstmt h.stmt, hbraces, hlast]

theorem State.behindDirective_moved (f : Nat → Nat) (s : State) (position : Nat) :
    (s.behindDirective position).moved f = (s.moved f).behindDirective (f position) := by
  have hamend := s.amendParen_moved (f := f) (g := fun p => { p with awaitsAlign := false })
    fun _ => rfl
  simp only [behindDirective, hamend]
  rfl

end

theorem slice_of_suffix {below top whole : List Line} {p q final : Page} (f : Line → List Char)
    (hp : p.lines = top ++ below) (hq : q.lines = whole ++ below)
    (hsuffix : q.lines <:+ final.lines) :
    ((final.lines.reverse.map f).take q.lines.length).drop p.lines.length
      = (whole.reverse.map f).drop top.length := by
  obtain ⟨above, hfinal⟩ := hsuffix
  have hlength : p.lines.length = (below.reverse.map f).length + top.length := by
    rw [hp]
    simp [Nat.add_comm]
  rw [← hfinal, List.reverse_append, List.map_append, List.take_left' (by simp), hlength, hq,
    List.reverse_append, List.map_append, List.drop_length_add_append]

namespace TwoBranches

variable {b b' : TwoBranches} {o : Options}

theorem state_secondAt (b : TwoBranches) (o : Options) :
    (stage o b.tokens b.secondAt).state = (b.kept o).behindDirective b.turnAt :=
  state_of_branch b.inGroup b.getElem?_turnAt b.turn_else

/-- Behind the directive of the second branch the layouts of both lists stand side by side. -/
theorem beside_secondAt (hsame : b.SameButFirst b') (hkept : b'.kept o = b.kept o)
    (hbetween : (b.kept o).BetweenStatements)
    (hblocks : ∀ brace ∈ (b.kept o).braces.take (closings 0 b.second), brace.expression = false) :
    ∃ below below', Beside b.tokens b.opensAt b.secondAt b'.secondAt below below'
      (b.kept o).inCodeScope b.secondAt (closings 0 b.second) (stage o b.tokens b.secondAt)
      (stage o b'.tokens b'.secondAt) := by
  have hrejoins := rejoins hsame
  have hwithin : (b.kept o).Within b.opensAt :=
    (within_stage o b.tokens b.opensAt (Nat.le_of_lt (lt_length b.getElem?_opensAt))).state
  have hmoved : (b.kept o).moved (shifted b.secondAt b'.secondAt) = b.kept o :=
    hwithin.moved_eq fun p hp =>
      shifted_of_lt (Nat.lt_of_le_of_lt (Nat.succ_le_succ hp) hrejoins.lt)
  have hturn : shifted b.secondAt b'.secondAt b.turnAt = b'.turnAt :=
    shifted_pred (Nat.succ_pos b.turnAt)
  have hamend : (b.kept o).amendParen (fun p => { p with awaitsAlign := false }) = b.kept o := by
    rw [State.amendParen, hbetween.parens]
  obtain ⟨blankLines, hpage⟩ := page_of_directive (o := o) b.getElem?_turnAt
    (Token.kind_of_startsBranch b.turn_else)
  obtain ⟨blankLines', hpage'⟩ := page_of_directive (o := o) b'.getElem?_turnAt
    (Token.kind_of_startsBranch b'.turn_else)
  obtain ⟨below, below', hpages⟩ : ∃ below below', Page.SameAbove below below'
      (stage o b.tokens b.secondAt).page (stage o b'.tokens b'.secondAt).page := by
    rw [secondAt, secondAt, hpage, hpage', hsame.turn]
    exact ⟨_, _, (Page.SameAbove.newLine_start _ _ _ _ _).push _ _ _ _⟩
  refine ⟨below, below', ?_, hpages, ?_, .inr ?_⟩
  · rw [state_secondAt, state_secondAt, State.behindDirective_moved, hmoved, hturn, hkept]
  · rw [state_secondAt, State.behindDirective, hamend]
    refine ⟨.idle (.inl hwithin.stmt.start) hbetween.active hbetween.parens hbetween.pending, ?_,
      fun brace hbrace => .inl (hwithin.outer brace hbrace).start,
      fun brace hbrace hexpression => ?_⟩
    · intro p hp
      cases hp
      exact .inr (Nat.le_refl _)
    · rw [hblocks brace hbrace] at hexpression
      cases hexpression
  · rw [state_secondAt, State.behindDirective, hamend]
    rfl

end TwoBranches

/-- Where a conditional stands between statements, its second branch is laid out without regard to
the first one: two sources that differ in the first branch alone, and that are laid out alike in
front of the conditional, have the same lines over the second branch.  A bracket that starts the
second branch in a block of declarations asks whether the code before it ends in a name; and a block
that the second branch closes must not be part of an expression. -/
theorem linesOver_eq {o : Options} {source source' : String} {b b' : TwoBranches}
    (hsource : tokensToLayOut o (tokenize o.language o.indentWidth source) = b.tokens)
    (hsource' : tokensToLayOut o (tokenize o.language o.indentWidth source') = b'.tokens)
    (hsame : b.SameButFirst b') (hkept : b'.kept o = b.kept o)
    (hbetween : (b.kept o).BetweenStatements)
    (hblocks : ∀ brace ∈ (b.kept o).braces.take (closings 0 b.second), brace.expression = false)
    (hname : (firstCode b.second).any (·.isOneOf ["(", "["]) = true →
      (b.kept o).inCodeScope = true ∨
        endsInName (b'.tokens.take b'.secondAt) = endsInName (b.tokens.take b.secondAt)) :
    linesOver o source' b'.secondAt b'.endsAt = linesOver o source b.secondAt b.endsAt := by
  obtain ⟨below, below', hstart⟩ := TwoBranches.beside_secondAt hsame hkept hbetween hblocks
  have hopens : b'.opensAt = b.opensAt := congrArg List.length hsame.front
  have hend := hstart.stage (TwoBranches.rejoins hsame) b.braceless (hopens ▸ b'.braceless)
    b.drop_secondAt b.second_plain hname b.second.length (Nat.le_refl _)
  obtain ⟨top, -, htop, htop'⟩ := hstart.page
  obtain ⟨whole, -, hwhole, hwhole'⟩ := hend.page
  rw [← hsame.second] at hwhole'
  have hover := slice_of_suffix (Line.chars o.indentKind o.indentWidth) htop hwhole
    (suffix_layOut b.getElem?_endsAt b.ends_directive)
  have hover' := slice_of_suffix (Line.chars o.indentKind o.indentWidth) htop' hwhole'
    (suffix_layOut b'.getElem?_endsAt b'.ends_directive)
  rw [linesOver, linesOver, hsource, hsource']
  exact hover'.trans hover.symm

/-- A conditional in the body of a function; `lineBreaks` stand behind its first branch. -/
def TwoBranches.ofFunction (first : List Token) (lineBreaks : Nat)
    (h : ∀ t ∈ first, t.kind ≠ .directive ∧ t.is "\x7b" = false ∧ t.is "\x7d" = false) :
    TwoBranches where
  front := [⟨.word, "f", 0, "", 0, false⟩, ⟨.punctuation, "(", 0, "", 1, false⟩,
    ⟨.punctuation, ")", 0, "", 2, false⟩, ⟨.punctuation, "\x7b", 0, " ", 4, false⟩]
  opens := ⟨.directive, "#if A", 1, "", 0, false⟩
  first := first
  turn := ⟨.directive, "#else", lineBreaks, "", 0, false⟩
  second := [⟨.word, "if", 1, "", 0, false⟩, ⟨.punctuation, "(", 0, " ", 3, false⟩,
    ⟨.word, "b", 0, "", 4, false⟩, ⟨.punctuation, ")", 0, "", 5, false⟩,
    ⟨.word, "c", 1, "", 0, false⟩, ⟨.punctuation, ";", 0, "", 1, false⟩]
  ends := ⟨.directive, "#endif", 1, "", 0, false⟩
  rest := [⟨.punctuation, "\x7d", 1, "", 0, false⟩]
  opens_if := by decide
  first_plain := h
  turn_else := by
    have hbranch : Token.startsBranch ⟨.directive, "#else", 0, "", 0, false⟩ = true := by decide
    exact hbranch
  second_plain := by decide
  ends_directive := rfl

/-- The header in the second branch is laid out alike behind a short statement and behind a call. -/
theorem linesOver_eq_in_function :
    let source := "f() \x7b\n#if A\na;\n#else\nif (b)\nc;\n#endif\n\x7d\n"
    let source' := "f() \x7b\n#if A\nx(1, y);\n\n#else\nif (b)\nc;\n#endif\n\x7d\n"
    linesOver .default source' 13 19 = linesOver .default source 8 14 ∧
      linesOver .default source 8 14 = ["    if (b)".toList, "        c;".toList] := by
  intro source source'
  let b : TwoBranches := .ofFunction
    [⟨.word, "a", 1, "", 0, false⟩, ⟨.punctuation, ";", 0, "", 1, false⟩] 1 (by decide)
  let b' : TwoBranches := .ofFunction
    [⟨.word, "x", 1, "", 0, false⟩, ⟨.punctuation, "(", 0, "", 1, false⟩,
      ⟨.number, "1", 0, "", 2, false⟩, ⟨.punctuation, ",", 0, "", 3, false⟩,
      ⟨.word, "y", 0, " ", 5, false⟩, ⟨.punctuation, ")", 0, "", 6, false⟩,
      ⟨.punctuation, ";", 0, "", 7, false⟩] 2 (by decide)
  have hsource : tokensToLayOut .default (tokenize Options.default.language
      Options.default.indentWidth source) = b.tokens := by
    show (tokenize .c 4 "f() \x7b\n#if A\na;\n#else\nif (b)\nc;\n#endif\n\x7d\n").tokens = b.tokens
    decide +kernel
  have hsource' : tokensToLayOut .default (tokenize Options.default.language
      Options.default.indentWidth source') = b'.tokens := by
    show (tokenize .c 4 "f() \x7b\n#if A\nx(1, y);\n\n#else\nif (b)\nc;\n#endif\n\x7d\n").tokens
      = b'.tokens
    decide +kernel
  have hbetween : (b.kept .default).BetweenStatements :=
    ⟨by decide +kernel, by decide +kernel, by decide +kernel⟩
  refine ⟨linesOver_eq (b := b) hsource hsource' ⟨rfl, rfl, rfl, rfl, rfl, rfl⟩ (by decide +kernel)
    hbetween (by decide +kernel) (by decide +kernel), ?_⟩
  rw [linesOver, hsource]
  decide +kernel

/-- A conditional in a statement that goes on behind it. -/
def TwoBranches.ofReturn (first : List Token)
    (h : ∀ t ∈ first, t.kind ≠ .directive ∧ t.is "\x7b" = false ∧ t.is "\x7d" = false) :
    TwoBranches where
  front := [⟨.word, "return", 0, "", 0, false⟩]
  opens := ⟨.directive, "#if A", 1, "", 0, false⟩
  first := first
  turn := ⟨.directive, "#else", 1, "", 0, false⟩
  second := [⟨.punctuation, "-", 1, "    ", 4, false⟩, ⟨.word, "b", 0, "", 5, false⟩]
  ends := ⟨.directive, "#endif", 1, "", 0, false⟩
  rest := [⟨.punctuation, ";", 1, "", 0, false⟩]
  opens_if := by decide
  first_plain := h
  turn_else := by decide
  second_plain := by decide
  ends_directive := rfl

/-- A sign behind `return` is taken for an operator where the first branch holds an operand. -/
theorem linesOver_ne_in_statement :
    let o := Options.default.turnOn .padOper
    let source := "return\n#if A\n    a\n#else\n    -b\n#endif\n;\n"
    let source' := "return\n#if A\n#else\n    -b\n#endif\n;\n"
    let b := TwoBranches.ofReturn [⟨.word, "a", 1, "    ", 4, false⟩] (by decide)
    let b' := TwoBranches.ofReturn [] (by decide)
    tokensToLayOut o (tokenize o.language o.indentWidth source) = b.tokens ∧
      tokensToLayOut o (tokenize o.language o.indentWidth source') = b'.tokens ∧
      b.SameButFirst b' ∧ b'.kept o = b.kept o ∧
      linesOver o source b.secondAt b.endsAt = ["    - b".toList] ∧
      linesOver o source' b'.secondAt b'.endsAt = ["    -b".toList] ∧
      linesOver o source' b'.secondAt b'.endsAt ≠ linesOver o source b.secondAt b.endsAt := by
  intro o source source' b b'
  have hsource : tokensToLayOut o (tokenize o.language o.indentWidth source) = b.tokens := by
    show (tokenize .c 4 "return\n#if A\n    a\n#else\n    -b\n#endif\n;\n").tokens = b.tokens
    decide +kernel
  have hsource' : tokensToLayOut o (tokenize o.language o.indentWidth source') = b'.tokens := by
    show (tokenize .c 4 "return\n#if A\n#else\n    -b\n#endif\n;\n").tokens = b'.tokens
    decide +kernel
  have hlines : linesOver o source b.secondAt b.endsAt = ["    - b".toList] := by
    rw [linesOver, hsource]
    decide +kernel
  have hlines' : linesOver o source' b'.secondAt b'.endsAt = ["    -b".toList] := by
    rw [linesOver, hsource']
    decide +kernel
  refine ⟨hsource, hsource', ⟨rfl, rfl, rfl, rfl, rfl, rfl⟩, by decide +kernel, hlines, hlines', ?_⟩
  rw [hlines, hlines']
  decide

end Beautifier
