/-
States whose positions are moved.

A state keeps positions of tokens, and where they stand does not matter by
itself: once all of them are moved, everything but looking back goes on as
before.  Looking ahead is a matter of the token and of what stands behind it
(`Cursor.ahead`).  What a code token finds by looking back is named here as a
hypothesis of the lemma about it.
-/
import Beautifier.Proofs.Layout.Stage

namespace Beautifier

/-! ## Moving positions -/

section

variable (f : Nat → Nat)

def OpenParen.moved (p : OpenParen) : OpenParen := { p with start := f p.start }

def Statement.moved (stmt : Statement) : Statement :=
  { stmt with start := f stmt.start, parens := stmt.parens.map (OpenParen.moved f) }

def OpenBrace.moved (b : OpenBrace) : OpenBrace := { b with outer := b.outer.moved f }

def State.moved (s : State) : State :=
  { s with
    stmt := s.stmt.moved f
    braces := s.braces.map (OpenBrace.moved f)
    lastOnLine := s.lastOnLine.map f }

def Action.moved : Action → Action
  | .closeBrace closed => .closeBrace (closed.map (OpenBrace.moved f))
  | action => action

end

/-- A cursor that cannot look back. -/
def Cursor.ahead (c : Cursor) : Cursor := { c with before := [], position := 0, closer := none }

def Cursor.behindName (c : Cursor) : Bool :=
  c.prevCode.any fun prev => prev.kind == .word && !Keyword.nonOperands.contains prev.text

variable {f : Nat → Nat} {o : Options} {c c' : Cursor} {p p' : Page}

/-! ## Questions asked of a state -/

namespace State

variable (f) (s : State)

theorem innermostIs_moved {p : OpenBrace → Bool} (hp : ∀ b : OpenBrace, p (b.moved f) = p b) :
    (s.moved f).innermostIs p = s.innermostIs p := by
  rw [innermostIs, innermostIs, moved]
  cases s.braces with
  | nil => rfl
  | cons b outer => exact hp b

@[simp] theorem inFunction_moved : (s.moved f).inFunction = s.inFunction := by
  simp only [inFunction, moved, List.any_map]
  rfl

@[simp] theorem inKeptLine_moved : (s.moved f).inKeptLine = s.inKeptLine := by
  simp only [inKeptLine, moved, List.any_map]
  rfl

@[simp] theorem inCodeScope_moved : (s.moved f).inCodeScope = s.inCodeScope :=
  s.innermostIs_moved f fun _ => rfl

@[simp] theorem isEmpty_parens_moved :
    (s.moved f).stmt.parens.isEmpty = s.stmt.parens.isEmpty := List.isEmpty_map

@[simp] theorem inListBlock_moved : (s.moved f).inListBlock = s.inListBlock := by
  rw [inListBlock, inListBlock, isEmpty_parens_moved, innermostIs_moved]
  exact fun _ => rfl

@[simp] theorem awaitsAlign_moved : (s.moved f).awaitsAlign = s.awaitsAlign := by
  simp only [awaitsAlign, moved, Statement.moved]
  cases s.stmt.parens <;> rfl

end State

/-! ## Looking ahead -/

namespace Cursor

theorem token_eq_of_ahead (hc : c'.ahead = c.ahead) : c'.token = c.token :=
  congrArg (·.token) hc

theorem after_eq_of_ahead (hc : c'.ahead = c.ahead) : c'.after = c.after :=
  congrArg (·.after) hc

theorem nextCode_eq_of_ahead (hc : c'.ahead = c.ahead) : c'.nextCode = c.nextCode :=
  congrArg (·.nextCode) hc

theorem nextCodeIs_eq_of_ahead (hc : c'.ahead = c.ahead) (p : Token → Bool) :
    c'.nextCodeIs p = c.nextCodeIs p :=
  congrArg (·.nextCodeIs p) hc

theorem statementIndent_moved (hc : c'.ahead = c.ahead) (s : State) :
    c'.statementIndent (s.moved f) = c.statementIndent s := by
  have hcursor : c'.statementIndent (s.moved f) = c.statementIndent (s.moved f) :=
    congrArg (·.statementIndent (s.moved f)) hc
  rw [hcursor, statementIndent, statementIndent, State.moved]
  cases s.braces <;> rfl

theorem lineIndent_moved (hc : c'.ahead = c.ahead) (s : State) :
    c'.lineIndent o (s.moved f) = c.lineIndent o s := by
  have hcursor : c'.lineIndent o (s.moved f) = c.lineIndent o (s.moved f) :=
    congrArg (·.lineIndent o (s.moved f)) hc
  have hstatement := c.statementIndent_moved (f := f) rfl s
  rw [hcursor, lineIndent, lineIndent, hstatement]
  simp only [State.moved, Statement.moved]
  cases s.stmt.parens <;> cases s.braces <;> rfl

theorem blankLines_moved (hc : c'.ahead = c.ahead) (hempty : p'.isEmpty = p.isEmpty)
    (hcomments : p'.onlyComments = p.onlyComments) (s : State) (startsStatement afterDo : Bool) :
    c'.blankLines o (s.moved f) p' startsStatement afterDo
      = c.blankLines o s p startsStatement afterDo := by
  have hcursor : c'.blankLines o (s.moved f) p' startsStatement afterDo
      = c.blankLines o (s.moved f) p' startsStatement afterDo :=
    congrArg (·.blankLines o (s.moved f) p' startsStatement afterDo) hc
  rw [hcursor, blankLines, blankLines, setsHeaderApart, setsHeaderApart, hempty, hcomments,
    State.inFunction_moved]
  rfl

end Cursor

/-! ## What a token does to a state -/

namespace State

theorem amendParen_moved {g : OpenParen → OpenParen} (hg : ∀ p, g (p.moved f) = (g p).moved f)
    (s : State) : (s.moved f).amendParen g = (s.amendParen g).moved f := by
  obtain ⟨braces, ⟨active, start, indent, parens, -⟩, -⟩ := s
  cases parens with
  | nil => rfl
  | cons p rest => simp only [amendParen, moved, Statement.moved, List.map_cons, hg]

theorem placed_moved (hc : c'.ahead = c.ahead) (hposition : c'.position = f c.position) (s : State)
    (layout : Layout) (column : Nat) :
    (s.moved f).placed c' layout column = (s.placed c layout column).moved f := by
  have htrivia : c'.token.isTrivia = c.token.isTrivia := by
    rw [Cursor.token_eq_of_ahead hc]
  cases layout with
  | newLine indent blankLines =>
      have hamend := s.amendParen_moved (f := f) (g := fun p => { p with awaitsAlign := false })
        fun _ => rfl
      simp only [placed, hamend, htrivia, hposition]
      rfl
  | sameLine spacing =>
      have hamend := s.amendParen_moved (f := f) (g := fun p =>
        if p.awaitsAlign then { p with awaitsAlign := false, align := some column } else p)
        fun p => by
          rw [apply_ite (OpenParen.moved f)]
          rfl
      simp only [placed, hamend, htrivia, hposition]
      cases c.token.isTrivia <;> rfl

/-! ### Code -/

theorem beginStatement_moved (hc : c'.ahead = c.ahead) (hposition : c'.position = f c.position)
    (s : State) (layout : Layout) (lineIndent : Indent) :
    (s.moved f).beginStatement c' layout lineIndent
      = (s.beginStatement c layout lineIndent).moved f := by
  simp only [beginStatement, Cursor.statementIndent_moved hc, hposition]
  rfl

theorem owesSpacing_moved (hc : c'.ahead = c.ahead) (s : State) (role : Role) :
    (s.moved f).owesSpacing c' o role = (s.owesSpacing c o role).moved f := by
  simp only [owesSpacing, Cursor.token_eq_of_ahead hc]
  rfl

theorem headerKeyword_moved (hc : c'.ahead = c.ahead) (s : State)
    (hlook : ((s.moved f).stmt.start == c'.position || c'.prevCode.any (·.isWord "else"))
      = (s.stmt.start == c.position || c.prevCode.any (·.isWord "else"))) :
    (s.moved f).headerKeyword c' = (s.headerKeyword c).moved f := by
  simp only [headerKeyword, hlook, Cursor.token_eq_of_ahead hc, Cursor.nextCodeIs_eq_of_ahead hc,
    apply_ite (State.moved f)]
  rfl

theorem openParen_moved (hc : c'.ahead = c.ahead) (hposition : c'.position = f c.position)
    (s : State) (hname : s.inCodeScope = true ∨ c'.behindName = c.behindName)
    (lineIndent : Indent) :
    (s.moved f).openParen c' lineIndent = (s.openParen c lineIndent).moved f := by
  have hdeclaration : ∀ header : Bool,
      (!header && !s.inCodeScope && c'.behindName)
        = (!header && !s.inCodeScope && c.behindName) := by
    intro header
    rcases hname with hscope | hname
    · rw [hscope, Bool.not_true, Bool.and_false, Bool.false_and, Bool.false_and]
    · rw [hname]
  have hdeclaration' := hdeclaration (c.token.is "(" && s.stmt.headerParenPending)
  simp only [openParen, inCodeScope_moved, hposition, Cursor.token_eq_of_ahead hc]
  simp only [Cursor.behindName] at hdeclaration'
  simp only [moved, Statement.moved, hdeclaration']
  rfl

theorem closeParen_moved (s : State) : (s.moved f).closeParen = s.closeParen.moved f := by
  obtain ⟨braces, ⟨active, start, indent, parens, -⟩, -⟩ := s
  cases parens with
  | nil => rfl
  | cons p outer =>
      simp only [closeParen, apply_ite (State.moved f)]
      simp only [moved, Statement.moved, List.map_cons, List.isEmpty_map]
      rfl

theorem endBody_moved (stmt : Statement) (beforeElse : Bool) :
    Statement.endBody (stmt.moved f) beforeElse = (Statement.endBody stmt beforeElse).moved f := by
  simp only [Statement.endBody, Beautifier.Statement.moved]
  cases stmt.ifLevels with
  | nil => rfl
  | cons level outer => cases beforeElse <;> rfl

theorem endStatement_moved (hc : c'.ahead = c.ahead) (s : State) :
    (s.moved f).endStatement c' o = (s.endStatement c o).moved f := by
  have hended := endBody_moved (f := f) { s.stmt with
    active := false
    headerParenPending := false
    headerBodyPending := false
    ternary := 0 } (c.nextCodeIs (·.isWord "else"))
  simp only [endStatement, inKeptLine_moved, Cursor.nextCodeIs_eq_of_ahead hc]
  simp only [moved, ← hended]
  rfl

theorem colon_moved (s : State) (hlabel : (s.moved f).endsLabel c' = s.endsLabel c) :
    (s.moved f).colon c' = (s.colon c).moved f := by
  simp only [colon, hlabel, isEmpty_parens_moved, apply_ite (State.moved f)]
  rfl

/-! ### Blocks -/

theorem settleOpen_moved (hf : f 0 = 0) (s : State) (b : Opening) (lineIndent : Indent) :
    (s.moved f).settleOpen o b lineIndent = (s.settleOpen o b lineIndent).moved f := by
  have hfresh : Beautifier.Statement.fresh.moved f = .fresh := by
    simp only [Beautifier.Statement.moved, Beautifier.Statement.fresh, hf, List.map_nil]
  simp only [settleOpen, moved, hfresh]
  rfl

theorem endBlock_moved (stmt : Statement) (beforeElse closingHeader : Bool) :
    Statement.endBlock (stmt.moved f) beforeElse closingHeader
      = (Statement.endBlock stmt beforeElse closingHeader).moved f := by
  simp only [Statement.endBlock, Beautifier.Statement.moved]
  cases beforeElse <;> cases closingHeader <;> cases stmt.ifLevels <;> rfl

theorem finishBlock_moved (hc : c'.ahead = c.ahead) (s : State) (closed : ClosedBrace) :
    (s.moved f).finishBlock c' o closed = (s.finishBlock c o closed).moved f := by
  have hended := endBlock_moved (f := f) s.stmt (c.nextCodeIs (·.isWord "else"))
    (c.nextCodeIs (Plan.isClosingHeader closed.isDo))
  simp only [finishBlock, inKeptLine_moved, Cursor.nextCodeIs_eq_of_ahead hc]
  simp only [moved, ← hended]

theorem settleClose_moved (hc : c'.ahead = c.ahead) (s : State) (b : OpenBrace) :
    (s.moved f).settleClose c' o (b.moved f) = (s.settleClose c o b).moved f := by
  simp only [settleClose, apply_ite (moved f), ← finishBlock_moved hc]
  rfl

end State

end Beautifier
