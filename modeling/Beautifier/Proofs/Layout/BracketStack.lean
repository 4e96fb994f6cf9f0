/-
The open brackets of a layout are those of the tokens.

`openBrackets` says which brackets are open in front of a token, without the
layout: an opening bracket opens one, a closing one closes the innermost, an
opening brace sets the brackets around its block aside, and the closing brace
brings them back and drops what was left open in the block.  A closing bracket
or brace with nothing to close does nothing.  A header behind `else` ends its
statement even in brackets (`Cursor.isHeaderBehindElse`): they are open up to
the code that the next statement or block begins with, but not behind it.

The layout keeps a stack of brackets in the current statement and in each
statement around an open block.  It may hold more than is open, but only where
the statement has ended; what is open stands on top (`State.Follows`).  One
token keeps that (`State.Follows.step`), so it holds in front of every token
(`Unconditional.follows_stage`).
-/
import Mathlib.Data.List.Infix
import Beautifier.Proofs.Layout.BraceStack

namespace Beautifier

/-! ## Brackets that are open over the tokens -/

/-- A header behind `else` that is followed by its body at once. -/
def Cursor.isHeaderBehindElse (c : Cursor) : Bool :=
  c.prevCode.any (·.isWord "else") && c.token.kind == .word
    && Keyword.plainHeaders.contains c.token.text
    && !(c.token.isWord "else" && c.nextCodeIs (·.isWord "if"))

/-- Open brackets by position, the innermost first: those of the innermost block, and of each
block around it from the inside out.  Those of the innermost block may be of a statement that has
ended. -/
structure OpenBrackets where
  inner : List Nat
  outer : List (List Nat)
  ended : Bool
deriving DecidableEq, Repr

/-- The brackets that the next code finds open in its own statement. -/
def OpenBrackets.current (b : OpenBrackets) : List Nat := if b.ended then [] else b.inner

/-- What a token does to the open brackets. -/
def OpenBrackets.step (b : OpenBrackets) (c : Cursor) : OpenBrackets :=
  if c.token.isTrivia then b
  else if c.token.is "\x7b" then ⟨[], b.current :: b.outer, false⟩
  else if c.token.is "\x7d" then
    match b.outer with
    | [] => b
    | inner :: outer => ⟨inner, outer, false⟩
  else if c.token.is ";" then b
  else if c.token.isOneOf ["(", "["] then ⟨c.position :: b.current, b.outer, false⟩
  else if c.token.isOneOf [")", "]"] then ⟨b.current.tail, b.outer, false⟩
  else ⟨b.current, b.outer, c.isHeaderBehindElse⟩

/-- The brackets that are open in front of a position. -/
def openBrackets (tokens : List Token) : Nat → OpenBrackets
  | 0 => ⟨[], [], false⟩
  | n + 1 =>
      match tokens[n]? with
      | some t => (openBrackets tokens n).step (cursorAt tokens n t)
      | none => openBrackets tokens n

/-- The position of the innermost bracket that is open in the current statement in front of a
token. -/
def innermostBracket? (tokens : List Token) (n : Nat) : Option Nat :=
  (openBrackets tokens n).inner.head?

theorem openBrackets_succ {tokens : List Token} {n : Nat} {t : Token} (h : tokens[n]? = some t) :
    openBrackets tokens (n + 1) = (openBrackets tokens n).step (cursorAt tokens n t) := by
  rw [openBrackets, h]

/-- A semicolon is no bracket and no header. -/
theorem Cursor.plain_of_semicolon (c : Cursor) (h : c.token.is ";" = true) :
    c.token.isOneOf ["(", "["] = false ∧ c.token.isOneOf [")", "]"] = false ∧
      c.isHeaderBehindElse = false := by
  simp only [Token.is, Bool.and_eq_true, beq_iff_eq] at h
  simp [Token.isOneOf, isHeaderBehindElse, h.1, h.2]

namespace OpenBrackets

variable {b : OpenBrackets} {c : Cursor}

theorem step_trivia (h : c.token.isTrivia = true) : b.step c = b := if_pos h

theorem step_openBrace (hcode : c.token.isTrivia = false) (h : c.token.is "\x7b" = true) :
    b.step c = ⟨[], b.current :: b.outer, false⟩ := by
  rw [step, hcode, h]
  rfl

theorem step_closeBrace (hcode : c.token.isTrivia = false) (h : c.token.is "\x7d" = true) :
    b.step c = match b.outer with
      | [] => b
      | inner :: outer => ⟨inner, outer, false⟩ := by
  rw [step, hcode, Matching.not_opens_of_closes h, h]
  rfl

section
variable (hcode : c.token.isTrivia = false) (hopen : c.token.is "\x7b" = false)
  (hclose : c.token.is "\x7d" = false)
include hcode hopen hclose

theorem step_code : b.step c =
    if c.token.is ";" then b
    else if c.token.isOneOf ["(", "["] then ⟨c.position :: b.current, b.outer, false⟩
    else if c.token.isOneOf [")", "]"] then ⟨b.current.tail, b.outer, false⟩
    else ⟨b.current, b.outer, c.isHeaderBehindElse⟩ := by
  rw [step, hcode, hopen, hclose]
  rfl

theorem step_semicolon (h : c.token.is ";" = true) : b.step c = b := by
  rw [step_code hcode hopen hclose, h]
  rfl

theorem outer_step : (b.step c).outer = b.outer := by
  rw [step_code hcode hopen hclose]
  split_ifs <;> rfl

theorem current_step : (b.step c).current =
    if c.token.isOneOf ["(", "["] then c.position :: b.current
    else if c.token.isOneOf [")", "]"] then b.current.tail
    else if c.isHeaderBehindElse then [] else b.current := by
  by_cases hsemicolon : c.token.is ";" = true
  · obtain ⟨hopens, hcloses, hheader⟩ := c.plain_of_semicolon hsemicolon
    rw [step_semicolon hcode hopen hclose hsemicolon, hopens, hcloses, hheader]
    rfl
  rw [step_code hcode hopen hclose, if_neg hsemicolon]
  split_ifs with hopens hcloses hheader
  · rfl
  · rfl
  · exact if_pos hheader
  · exact if_neg hheader

/-- What is open behind a token is open in the statement of the next code, unless a header behind
`else` has ended the statement, or there is a semicolon behind such a header. -/
theorem inner_step : (b.step c).inner = (b.step c).current ∨
    (c.token.is ";" = true ∧ (b.step c).inner = b.inner) ∨
      (c.token.kind = .word ∧ (b.step c).inner = b.current) := by
  by_cases hsemicolon : c.token.is ";" = true
  · exact .inr (.inl ⟨hsemicolon, by rw [step_semicolon hcode hopen hclose hsemicolon]⟩)
  rw [step_code hcode hopen hclose, if_neg hsemicolon]
  cases hheader : c.isHeaderBehindElse with
  | true =>
      have hword : c.token.kind = .word := by
        simp only [Cursor.isHeaderBehindElse, Bool.and_eq_true, beq_iff_eq] at hheader
        exact hheader.1.1.2
      exact .inr (.inr ⟨hword, by simp [Token.isOneOf, hword]⟩)
  | false =>
      refine .inl ?_
      split_ifs <;> rfl

end

end OpenBrackets

/-! ## The stack of one statement -/

/-- The brackets that are open in a statement in front of a position stand on top of its stack;
where any is open, the statement has started and not ended. -/
structure Statement.Follows (stmt : Statement) (n : Nat) (opened : List Nat) : Prop where
  brackets : opened <+: stmt.parens.map (·.start)
  active : opened ≠ [] → stmt.active = true
  start : stmt.active = true → stmt.start < n

namespace Statement.Follows

variable {stmt : Statement} {n : Nat} {opened : List Nat}

theorem succ (h : stmt.Follows n opened) : stmt.Follows (n + 1) opened :=
  ⟨h.brackets, h.active, fun hactive => Nat.lt_succ_of_lt (h.start hactive)⟩

theorem eq_nil (h : stmt.Follows n opened) (hactive : stmt.active = false) : opened = [] := by
  by_contra hne
  exact Bool.false_ne_true (hactive.symm.trans (h.active hne))

theorem eq_nil_of_isEmpty (h : stmt.Follows n opened) (hempty : stmt.parens.isEmpty = true) :
    opened = [] := by
  have hprefix := h.brackets
  rw [List.isEmpty_iff.mp hempty] at hprefix
  exact List.prefix_nil.mp hprefix

theorem nil (hstart : stmt.active = true → stmt.start < n) : stmt.Follows n [] :=
  ⟨List.nil_prefix, fun hne => absurd rfl hne, hstart⟩

theorem ended (hactive : stmt.active = false) : stmt.Follows n [] :=
  nil fun h => absurd (hactive.symm.trans h) Bool.false_ne_true

theorem congr {stmt' : Statement} (h : stmt.Follows n opened)
    (hparens : stmt'.parens.map (·.start) = stmt.parens.map (·.start))
    (hactive : stmt'.active = stmt.active) (hstart : stmt'.start = stmt.start) :
    stmt'.Follows n opened :=
  ⟨hparens ▸ h.brackets, hactive ▸ h.active, by rw [hactive, hstart]; exact h.start⟩

end Statement.Follows

namespace State

variable {s : State} {c : Cursor} {o : Options} {n : Nat} {opened : List Nat} {lineIndent : Indent}

/-! ### Placing a token -/

theorem parens_amendParen (s : State) (f : OpenParen → OpenParen) :
    (s.amendParen f).stmt.parens = s.stmt.parens.modifyHead f := by
  rw [amendParen]
  split
  · next hparens => rw [hparens]; rfl
  · next hparens => rw [hparens]; rfl

theorem parens_placed_newLine (s : State) (c : Cursor) (indent : Indent) (blankLines column : Nat) :
    (s.placed c (.newLine indent blankLines) column).stmt.parens
      = s.stmt.parens.modifyHead fun p => { p with awaitsAlign := false } :=
  s.parens_amendParen _

theorem parens_placed_code (hcode : c.token.isTrivia = false) (spacing : Spacing) (column : Nat) :
    (s.placed c (.sameLine spacing) column).stmt.parens = s.stmt.parens.modifyHead fun p =>
      if p.awaitsAlign then { p with awaitsAlign := false, align := some column } else p := by
  simp only [placed, hcode]
  exact s.parens_amendParen _

theorem parens_placed_comment (htrivia : c.token.isTrivia = true) (spacing : Spacing)
    (column : Nat) : (s.placed c (.sameLine spacing) column).stmt.parens = s.stmt.parens := by
  simp only [placed, htrivia]
  rfl

theorem map_start_modifyHead {f : OpenParen → OpenParen} (hf : ∀ p, (f p).start = p.start)
    (parens : List OpenParen) :
    (parens.modifyHead f).map (·.start) = parens.map (·.start) := by
  cases parens with
  | nil => rfl
  | cons p outer => exact congrArg (· :: outer.map (·.start)) (hf p)

theorem map_start_placed (s : State) (c : Cursor) (layout : Layout) (column : Nat) :
    (s.placed c layout column).stmt.parens.map (·.start) = s.stmt.parens.map (·.start) := by
  cases layout with
  | newLine indent blankLines =>
      rw [parens_placed_newLine, map_start_modifyHead]
      exact fun _ => rfl
  | sameLine spacing =>
      cases htrivia : c.token.isTrivia with
      | true => rw [parens_placed_comment htrivia]
      | false =>
          rw [parens_placed_code htrivia, map_start_modifyHead]
          exact fun p => by split <;> rfl

theorem active_placed (s : State) (c : Cursor) (layout : Layout) (column : Nat) :
    (s.placed c layout column).stmt.active = s.stmt.active := by
  obtain ⟨_, -, hstmt⟩ := s.exists_stmt_placed c layout column
  rw [hstmt]

theorem follows_placed (h : s.stmt.Follows n opened) (c : Cursor) (layout : Layout) (column : Nat) :
    (s.placed c layout column).stmt.Follows n opened := by
  obtain ⟨_, -, hstmt⟩ := s.exists_stmt_placed c layout column
  exact h.congr (s.map_start_placed c layout column) (s.active_placed c layout column)
    (by rw [hstmt])

/-! ### What code does to the brackets -/

/-- A closing bracket takes the innermost bracket from the stack, and may end the statement if no
other is left. -/
theorem closeParen_cases (s : State) :
    s.closeParen.stmt.parens = s.stmt.parens.tail ∧
      s.closeParen.stmt.start = s.stmt.start ∧
      (s.closeParen.stmt.active = s.stmt.active ∨
        (s.closeParen.stmt.active = false ∧ s.closeParen.stmt.parens.isEmpty = true)) := by
  rw [closeParen]
  split
  · next hparens => exact ⟨by rw [hparens]; rfl, rfl, .inl rfl⟩
  · next p outer hparens =>
    rw [hparens]
    dsimp only
    split
    · next hheader => exact ⟨rfl, rfl, .inr ⟨rfl, (Bool.and_eq_true_iff.mp hheader).2⟩⟩
    · exact ⟨rfl, rfl, .inl rfl⟩

theorem follows_closeParen (h : s.stmt.Follows n opened) :
    s.closeParen.stmt.Follows n opened.tail := by
  obtain ⟨hparens, hstart, hactive⟩ := s.closeParen_cases
  have hbrackets : opened.tail <+: s.closeParen.stmt.parens.map (·.start) := by
    rw [hparens, List.map_tail, ← List.drop_one, ← List.drop_one]
    exact h.brackets.drop 1
  rcases hactive with hactive | ⟨hactive, hempty⟩
  · refine ⟨hbrackets, fun hne => ?_, by rw [hactive, hstart]; exact h.start⟩
    rw [hactive]
    exact h.active fun hnil => hne (by rw [hnil]; rfl)
  · have hnil : opened.tail = [] := by
      rw [List.isEmpty_iff.mp hempty] at hbrackets
      exact List.prefix_nil.mp hbrackets
    rw [hnil]
    exact .ended hactive

theorem parens_headerKeyword (s : State) (c : Cursor) :
    (s.headerKeyword c).stmt.parens = s.stmt.parens := by
  simp only [headerKeyword]
  split_ifs <;> rfl

/-- A header behind `else` ends its statement; no other word does, unless it is the first one. -/
theorem follows_headerKeyword (h : s.stmt.Follows n opened) (hword : c.token.kind = .word)
    (hfirst : s.stmt.start = c.position → opened = []) :
    (s.headerKeyword c).stmt.Follows n (if c.isHeaderBehindElse then [] else opened) := by
  have hkept : ∀ stmt : Statement, stmt.parens = s.stmt.parens → stmt.active = s.stmt.active →
      stmt.start = s.stmt.start →
        stmt.Follows n (if c.isHeaderBehindElse then [] else opened) := by
    intro stmt hparens hactive hstart
    split
    · exact .nil fun h' => by rw [hstart]; exact h.start (hactive ▸ h')
    · exact h.congr (by rw [hparens]) hactive hstart
  unfold headerKeyword
  dsimp only
  split
  · exact hkept _ rfl rfl rfl
  next hplace =>
  have hcompleted : Keyword.plainHeaders.contains c.token.text = true →
      (c.token.isWord "else" && c.nextCodeIs (·.isWord "if")) = false →
        s.completeHeader.stmt.Follows n (if c.isHeaderBehindElse then [] else opened) := by
    intro hheader hif
    have hnone : (if c.isHeaderBehindElse then [] else opened) = [] := by
      by_cases hstart : s.stmt.start = c.position
      · rw [hfirst hstart, ite_self]
      · have helse : c.prevCode.any (·.isWord "else") = true := by simpa [hstart] using hplace
        rw [Cursor.isHeaderBehindElse, helse, hheader, hif, hword]
        rfl
    rw [hnone]
    exact .ended rfl
  split
  · exact hkept _ rfl rfl rfl
  split
  · exact hkept _ rfl rfl rfl
  split
  · next helse =>
    split
    · exact hkept _ rfl rfl rfl
    · next hif =>
      rw [beq_iff_eq] at helse
      exact hcompleted (by rw [helse]; rfl) (by rw [Bool.eq_false_iff.mpr hif, Bool.and_false])
  split
  · next helse hplain =>
    rw [beq_iff_eq] at helse
    simp only [Bool.or_eq_true, beq_iff_eq] at hplain
    refine hcompleted ?_ ?_
    · rcases hplain with (htext | htext) | htext <;> rw [htext] <;> rfl
    · rw [Token.isWord, beq_eq_false_iff_ne.mpr helse, Bool.and_false, Bool.false_and]
  · exact hkept _ rfl rfl rfl

theorem follows_openParen (h : s.stmt.Follows n opened) (hactive : s.stmt.active = true) :
    (s.openParen c lineIndent).stmt.Follows n (c.position :: opened) :=
  ⟨(List.prefix_cons_inj _).mpr h.brackets, fun _ => hactive, fun _ => h.start hactive⟩

theorem parens_endStatement (s : State) (c : Cursor) (o : Options) :
    (s.endStatement c o).stmt.parens = s.stmt.parens := by
  simp only [endStatement, Statement.endBody]
  split
  · split <;> rfl
  · rfl

theorem parens_afterCode_semicolon (h : c.token.is ";" = true) :
    (s.afterCode c o lineIndent).stmt.parens = s.stmt.parens := by
  simp only [Token.is, Bool.and_eq_true, beq_iff_eq] at h
  rw [afterCode, h.1, h.2]
  show (if _ then s.endStatement c o else s).stmt.parens = _
  split
  · exact s.parens_endStatement c o
  · rfl

theorem follows_endStatement (h : s.stmt.Follows n opened) (hempty : s.stmt.parens.isEmpty = true) :
    (s.endStatement c o).stmt.Follows n opened := by
  rw [h.eq_nil_of_isEmpty hempty]
  refine .ended ?_
  simp only [endStatement, Statement.endBody]
  split
  · split <;> rfl
  · rfl

theorem follows_colon (h : s.stmt.Follows n opened) : (s.colon c).stmt.Follows n opened := by
  rw [colon]
  split
  · exact h.congr rfl rfl rfl
  split
  · next hlabel =>
    rw [h.eq_nil_of_isEmpty (Bool.and_eq_true_iff.mp hlabel).1]
    exact .ended rfl
  · exact h

/-- A code token other than a brace does to the stack what it does to the open brackets. -/
theorem follows_afterCode {b : OpenBrackets} (h : s.stmt.Follows n b.current)
    (hcode : c.token.isTrivia = false) (hopen : c.token.is "\x7b" = false)
    (hclose : c.token.is "\x7d" = false) (hactive : c.token.is ";" = false → s.stmt.active = true)
    (hfirst : s.stmt.start = c.position → b.current = []) :
    (s.afterCode c o lineIndent).stmt.Follows n (b.step c).current := by
  rw [OpenBrackets.current_step hcode hopen hclose, afterCode]
  cases hkind : c.token.kind with
  | word =>
      have hword := follows_headerKeyword h hkind hfirst
      simp only [Token.isOneOf, hkind]
      split at hword <;> rename_i hheader <;> simpa [hheader] using hword
  | punctuation =>
      have hheader : c.isHeaderBehindElse = false := by
        simp [Cursor.isHeaderBehindElse, hkind]
      simp only [Token.isOneOf, hkind, hheader]
      split
      · next htext =>
        rw [htext]
        exact follows_openParen h (hactive (by simp [Token.is, htext]))
      · next htext =>
        rw [htext]
        exact follows_openParen h (hactive (by simp [Token.is, htext]))
      · next htext =>
        rw [htext]
        exact follows_closeParen h
      · next htext =>
        rw [htext]
        exact follows_closeParen h
      · next htext =>
        rw [htext]
        split
        · next hends => exact follows_endStatement h (Bool.and_eq_true_iff.mp hends).1
        · exact h
      · next htext =>
        rw [htext]
        exact h.congr rfl rfl rfl
      · next htext =>
        rw [htext]
        exact follows_colon h
      · next hround hsquare hroundClose hsquareClose _ _ _ =>
        have hopens : ["(", "["].contains c.token.text = false := by simpa using ⟨hround, hsquare⟩
        have hcloses : [")", "]"].contains c.token.text = false := by
          simpa using ⟨hroundClose, hsquareClose⟩
        rw [hopens, hcloses]
        exact h
  | _ => simpa [Token.isOneOf, Cursor.isHeaderBehindElse, hkind] using h

theorem stack_afterCode {b : OpenBrackets} (h : s.stmt.Follows n b.current)
    (hcode : c.token.isTrivia = false) (hopen : c.token.is "\x7b" = false)
    (hclose : c.token.is "\x7d" = false) (hactive : c.token.is ";" = false → s.stmt.active = true)
    (hfirst : s.stmt.start = c.position → b.current = [])
    (hstack : c.token.is ";" = true → b.inner <+: s.stmt.parens.map (·.start)) :
    (b.step c).inner <+: (s.afterCode c o lineIndent).stmt.parens.map (·.start) ∧
      (s.afterCode c o lineIndent).stmt.Follows n (b.step c).current := by
  have hafter : (s.afterCode c o lineIndent).stmt.Follows n (b.step c).current :=
    follows_afterCode h hcode hopen hclose hactive hfirst
  refine ⟨?_, hafter⟩
  rcases b.inner_step hcode hopen hclose with hinner | ⟨hsemicolon, hinner⟩ | ⟨hword, hinner⟩
  · rw [hinner]
    exact hafter.brackets
  · rw [hinner, parens_afterCode_semicolon hsemicolon]
    exact hstack hsemicolon
  · rw [hinner, afterCode, hword]
    dsimp only
    rw [parens_headerKeyword]
    exact h.brackets

end State

/-! ## The stacks of all statements -/

/-- A state follows the open brackets: its statement those of the innermost block, and the statement
around each open block those of the block around that one.  A block that is no part of an expression
stands in no bracket. -/
structure State.Follows (s : State) (n : Nat) (b : OpenBrackets) : Prop where
  brackets : b.inner <+: s.stmt.parens.map (·.start)
  stmt : s.stmt.Follows n b.current
  outer : List.Forall₂ (fun opened block => block.outer.Follows n opened ∧
    (block.expression = false → opened = [])) b.outer s.braces

/-- A block in brackets is part of an expression. -/
theorem Cursor.expression_of_brackets {s : State} (c : Cursor) (hactive : s.stmt.active = true)
    (hparens : s.stmt.parens.isEmpty = false) : (c.classify s).2 = true := by
  rw [classify, hactive, hparens]
  split <;> rfl

namespace State.Follows

variable {s : State} {c : Cursor} {o : Options} {n : Nat} {b : OpenBrackets}

theorem start : State.start.Follows 0 ⟨[], [], false⟩ := ⟨List.nil_prefix, .ended rfl, .nil⟩

theorem outer_succ (h : s.Follows n b) :
    List.Forall₂ (fun opened block => block.outer.Follows (n + 1) opened ∧
      (block.expression = false → opened = [])) b.outer s.braces :=
  h.outer.imp fun _ _ hblock => ⟨hblock.1.succ, hblock.2⟩

theorem placed (h : s.Follows n b) (c : Cursor) (layout : Layout) (column : Nat) :
    (s.placed c layout column).Follows (n + 1) b :=
  ⟨by rw [map_start_placed]; exact h.brackets, follows_placed h.stmt.succ c layout column,
    by rw [braces_placed]; exact h.outer_succ⟩

theorem behindDirective (h : s.Follows n b) (c : Cursor) :
    (s.behindDirective c.position).Follows (n + 1) b :=
  ⟨by exact map_start_placed s c (.newLine .zero 0) 0 ▸ h.brackets,
    follows_placed h.stmt.succ c (.newLine .zero 0) 0,
    by rw [braces_behindDirective]; exact h.outer_succ⟩

theorem of_stmt {inner : List Nat} {outer : List (List Nat)} (hstmt : s.stmt.Follows n inner)
    (houter : List.Forall₂ (fun opened block => block.outer.Follows n opened ∧
      (block.expression = false → opened = [])) outer s.braces) :
    s.Follows n ⟨inner, outer, false⟩ :=
  ⟨hstmt.brackets, hstmt, houter⟩

theorem settleOpen (h : s.Follows (n + 1) b) {opening : Opening}
    (hexpression : opening.expression = false → b.current = []) (lineIndent : Indent) :
    (s.settleOpen o opening lineIndent).Follows (n + 1) ⟨[], b.current :: b.outer, false⟩ :=
  .of_stmt (.ended rfl) (.cons ⟨h.stmt, hexpression⟩ h.outer)

theorem settleClose {block : OpenBrace} {opened : List Nat} {outer : List (List Nat)}
    (hblock : block.outer.Follows n opened ∧ (block.expression = false → opened = []))
    (houter : List.Forall₂ (fun opened block => block.outer.Follows n opened ∧
      (block.expression = false → opened = [])) outer s.braces) :
    (s.settleClose c o block).Follows n ⟨opened, outer, false⟩ := by
  simp only [State.settleClose]
  split
  · exact .of_stmt hblock.1 houter
  · next hexpression =>
    refine .of_stmt ?_ houter
    rw [hblock.2 (Bool.eq_false_iff.mpr hexpression)]
    refine .ended ?_
    simp only [finishBlock, Statement.endBlock]
    split
    · split <;> rfl
    · split <;> rfl

theorem settleCode (h : s.stmt.Follows c.position b.current)
    (hstack : b.inner <+: s.stmt.parens.map (·.start)) (hcode : c.token.isTrivia = false)
    (hopen : c.token.is "\x7b" = false) (hclose : c.token.is "\x7d" = false) {starts : Bool}
    (hstarts : starts = (!s.stmt.active && !c.token.is ";")) {layout : Layout} {lineIndent : Indent}
    {role : Role} :
    (b.step c).inner <+:
        (s.settleCode c o layout lineIndent starts role).stmt.parens.map (·.start) ∧
      (s.settleCode c o layout lineIndent starts role).stmt.Follows (c.position + 1)
        (b.step c).current := by
  have hfirst : s.stmt.start = c.position → b.current = [] := by
    intro hstart
    refine h.eq_nil (Bool.eq_false_iff.mpr fun hactive => ?_)
    exact Nat.lt_irrefl _ (hstart ▸ h.start hactive)
  rw [State.settleCode]
  cases starts with
  | false =>
      refine stack_afterCode h.succ hcode hopen hclose ?_ hfirst fun _ => hstack
      intro hsemicolon
      show s.stmt.active = true
      simpa [hsemicolon] using hstarts
  | true =>
      -- a statement starts only where none has, so no bracket is open in front of the token
      rw [eq_comm, Bool.and_eq_true, Bool.not_eq_true', Bool.not_eq_true'] at hstarts
      obtain ⟨hactive, hsemicolon⟩ := hstarts
      have hnil : b.current = [] := h.eq_nil hactive
      refine stack_afterCode ?_ hcode hopen hclose (fun _ => rfl) (fun _ => hnil) fun hends => ?_
      · rw [hnil]
        exact .nil fun _ => Nat.lt_succ_self _
      · exact absurd (hsemicolon.symm.trans hends) Bool.false_ne_true

theorem step_openBrace {r : Progress} (h : r.state.Follows c.position b)
    (hcode : c.token.isTrivia = false) (hopen : c.token.is "\x7b" = true) :
    (r.step o c).state.Follows (c.position + 1) (b.step c) := by
  have hexpression : (Plan.opening c o r.state).expression = false → b.current = [] := by
    intro hexpression
    by_contra hne
    have hparens : r.state.stmt.parens.isEmpty = false :=
      Bool.eq_false_iff.mpr fun hempty => hne (h.stmt.eq_nil_of_isEmpty hempty)
    have hpart := c.expression_of_brackets (h.stmt.active hne) hparens
    exact Bool.false_ne_true (hexpression.symm.trans hpart)
  have hplan : (Plan.openBrace c o r.state r.conditionals r.page).state.Follows c.position b :=
    ⟨h.brackets, h.stmt, h.outer⟩
  rw [Progress.step, Cursor.plan_openBrace hopen, OpenBrackets.step_openBrace hcode hopen]
  exact settleOpen (hplan.placed c _ _) hexpression _

theorem step_closeBrace {r : Progress} (h : r.state.Follows c.position b)
    (hcode : c.token.isTrivia = false) (hclose : c.token.is "\x7d" = true) :
    (r.step o c).state.Follows (c.position + 1) (b.step c) := by
  rw [Progress.step, Cursor.plan_closeBrace hclose, OpenBrackets.step_closeBrace hcode hclose,
    Plan.closeBrace]
  obtain ⟨inner, outer, ended⟩ := b
  obtain ⟨hbrackets, hstmt, houter⟩ := h
  generalize r.state.braces = braces at houter
  cases houter with
  | nil =>
      have hplan : State.Follows { r.state with afterClose := none, braces := [] } c.position
          ⟨inner, [], ended⟩ := ⟨hbrackets, hstmt, .nil⟩
      exact hplan.placed c _ _
  | @cons opened block outer blocks hblock houter =>
      have hplan : State.Follows { r.state with afterClose := none, braces := blocks } c.position
          ⟨inner, outer, ended⟩ := ⟨hbrackets, hstmt, houter⟩
      exact settleClose ⟨hblock.1.succ, hblock.2⟩ (hplan.placed c _ _).outer

theorem step_code {r : Progress} (h : r.state.Follows c.position b)
    (hcode : c.token.isTrivia = false) (hopen : c.token.is "\x7b" = false)
    (hclose : c.token.is "\x7d" = false) (hkind : c.token.kind ≠ .directive) :
    (r.step o c).state.Follows (c.position + 1) (b.step c) := by
  have hbody : ∀ starts semicolon,
      (Plan.startBody r.state.stmt starts semicolon).Follows c.position b.current ∧
        (Plan.startBody r.state.stmt starts semicolon).parens = r.state.stmt.parens ∧
        (Plan.startBody r.state.stmt starts semicolon).active = r.state.stmt.active := by
    intro starts semicolon
    rw [Plan.startBody]
    split
    · exact ⟨h.stmt.congr rfl rfl rfl, rfl, rfl⟩
    · exact ⟨h.stmt, rfl, rfl⟩
  have houter : List.Forall₂ (fun opened block => block.outer.Follows (c.position + 1) opened ∧
      (block.expression = false → opened = [])) (b.step c).outer (r.step o c).state.braces := by
    rw [OpenBrackets.outer_step hcode hopen hclose, braces_step_other hkind hopen hclose]
    exact h.outer_succ
  suffices hstmt : (b.step c).inner <+: (r.step o c).state.stmt.parens.map (·.start) ∧
      (r.step o c).state.stmt.Follows (c.position + 1) (b.step c).current from
    ⟨hstmt.1, hstmt.2, houter⟩
  rw [Progress.step, Cursor.plan_code hcode hopen hclose]
  refine settleCode (follows_placed (hbody _ _).1 c _ _) ?_ hcode hopen hclose ?_
  · rw [map_start_placed]
    exact (congrArg (List.map (·.start)) (hbody _ _).2.1).symm ▸ h.brackets
  · rw [active_placed]
    exact congrArg (!· && !c.token.is ";") (hbody _ _).2.2.symm

/-- One token changes the state as it changes the open brackets. -/
theorem step {r : Progress} (h : r.state.Follows c.position b) (hkind : c.token.kind ≠ .directive) :
    (r.step o c).state.Follows (c.position + 1) (b.step c) := by
  rcases c.plan_cases o r.state r.conditionals r.page hkind with
    ⟨htrivia, hplan⟩ | ⟨hcode, ⟨hopen, -⟩ | ⟨-, hclose, -⟩ | ⟨hopen, hclose, -⟩⟩
  · rw [Progress.step, hplan, OpenBrackets.step_trivia htrivia]
    exact h.placed c _ _
  · exact h.step_openBrace hcode hopen
  · exact h.step_closeBrace hcode hclose
  · exact h.step_code hcode hopen hclose hkind

end State.Follows

/-! ## All tokens -/

/-- In front of every token the layout follows the brackets that are open. -/
theorem Unconditional.follows_stage {o : Options} {tokens : List Token}
    (h : Unconditional tokens) : ∀ n ≤ tokens.length,
      (stage o tokens n).state.Follows n (openBrackets tokens n) := by
  intro n
  induction n with
  | zero => exact fun _ => .start
  | succ n ih =>
      intro hn
      have hget : tokens[n]? = some tokens[n] := List.getElem?_eq_getElem hn
      have hstate := ih (Nat.le_of_succ_le hn)
      generalize tokens[n] = t at hget
      rw [openBrackets_succ hget]
      by_cases hkind : t.kind = .directive
      · have htrivia : t.isTrivia = true := by rw [Token.isTrivia, hkind]
        rw [h.stage_directive hget hkind,
          OpenBrackets.step_trivia (c := cursorAt tokens n t) htrivia]
        exact hstate.behindDirective (cursorAt tokens n t)
      · rw [stage_succ hget]
        exact State.Follows.step (c := cursorAt tokens n t) hstate hkind

/-- The innermost open bracket stands on top of the stack. -/
theorem Unconditional.head_parens_stage {o : Options} {tokens : List Token} {n m : Nat}
    (h : Unconditional tokens) (hn : n ≤ tokens.length) (hm : innermostBracket? tokens n = some m) :
    (stage o tokens n).state.stmt.parens.head?.map (·.start) = some m := by
  obtain ⟨outer, hopened⟩ := List.head?_eq_some_iff.mp hm
  obtain ⟨hidden, hstack⟩ := (h.follows_stage (o := o) n hn).brackets
  rw [← List.head?_map, ← hstack, hopened]
  rfl

end Beautifier
