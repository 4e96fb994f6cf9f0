/-
Positions that are kept.

The layout keeps positions of tokens: where the statement starts, where its
brackets stand, and which token was written last; those of a statement around
a block are put aside until the block is closed, and those of a whole state
when a conditional directive is met.  None of them ever lies beyond the tokens
that have been written (`within_stage`), whatever is restored in whatever
order.
-/
import Beautifier.Proofs.Layout.Conditionals

namespace Beautifier

/-- The positions of a statement in front of the token at `n`: it starts no later, and its
brackets stand before. -/
structure Statement.Within (n : Nat) (stmt : Statement) : Prop where
  start : stmt.start ≤ n
  parens : ∀ p ∈ stmt.parens, p.start < n

structure State.Within (n : Nat) (s : State) : Prop where
  stmt : s.stmt.Within n
  outer : ∀ b ∈ s.braces, b.outer.Within n
  lastOnLine : ∀ k ∈ s.lastOnLine, k < n

/-- The positions that are kept for the branches of a conditional directive. -/
structure Conditional.Within (n : Nat) (c : Conditional) : Prop where
  atIf : c.atIf.Within n
  afterFirst : ∀ s ∈ c.afterFirst, s.Within n

/-- The positions that go on with a plan for the token at `n`. -/
structure Plan.Within (n : Nat) (p : Plan) : Prop where
  state : p.state.Within n
  conditionals : ∀ c ∈ p.conditionals, c.Within n
  closed : ∀ b, p.action = .closeBrace (some b) → b.outer.Within n

/-- All positions that are kept in front of the token at `n`. -/
structure Progress.Within (n : Nat) (r : Progress) : Prop where
  state : r.state.Within n
  conditionals : ∀ c ∈ r.conditionals, c.Within n

variable {o : Options} {m n : Nat}

/-! ## Statements -/

namespace Statement.Within

variable {stmt stmt' : Statement}

theorem fresh (n : Nat) : Statement.fresh.Within n :=
  ⟨Nat.zero_le n, nofun⟩

theorem mono (h : stmt.Within m) (hmn : m ≤ n) : stmt.Within n :=
  ⟨h.start.trans hmn, fun p hp => (h.parens p hp).trans_le hmn⟩

theorem of_start_eq (h : stmt.Within n) (hstart : stmt'.start = stmt.start)
    (hparens : stmt'.parens ⊆ stmt.parens) : stmt'.Within n :=
  ⟨hstart ▸ h.start, fun p hp => h.parens p (hparens hp)⟩

theorem startBody (h : stmt.Within n) (starts semicolon : Bool) :
    (Plan.startBody stmt starts semicolon).Within n := by
  rw [Plan.startBody]
  split
  · exact h.of_start_eq rfl (List.Subset.refl _)
  · exact h

theorem endBody (h : stmt.Within n) (beforeElse : Bool) :
    (State.Statement.endBody stmt beforeElse).Within n := by
  rw [State.Statement.endBody]
  split
  · split <;> exact h.of_start_eq rfl (List.Subset.refl _)
  · exact h.of_start_eq rfl (List.Subset.refl _)

theorem endBlock (h : stmt.Within n) (beforeElse closingHeader : Bool) :
    (State.Statement.endBlock stmt beforeElse closingHeader).Within n := by
  simp only [State.Statement.endBlock]
  split
  · split <;> exact h.of_start_eq rfl (List.nil_subset _)
  · split <;> exact h.of_start_eq rfl (List.nil_subset _)

end Statement.Within

/-! ## States -/

namespace State.Within

variable {s s' : State} {c : Cursor}

theorem start : State.start.Within 0 :=
  ⟨.fresh 0, by simp [State.start], by simp [State.start]⟩

theorem mono (h : s.Within m) (hmn : m ≤ n) : s.Within n :=
  ⟨h.stmt.mono hmn, fun b hb => (h.outer b hb).mono hmn,
    fun k hk => (h.lastOnLine k hk).trans_le hmn⟩

theorem of_stmt (h : s.Within n) (hstmt : s'.stmt.Within n) (hbraces : s'.braces = s.braces)
    (hlast : s'.lastOnLine = s.lastOnLine) : s'.Within n :=
  ⟨hstmt, hbraces ▸ h.outer, hlast ▸ h.lastOnLine⟩

theorem placed (h : s.Within n) (hc : c.position = n) (layout : Layout) (column : Nat) :
    (s.placed c layout column).Within (n + 1) := by
  have hnext := h.mono (Nat.le_succ n)
  obtain ⟨parens, hparens, hstmt⟩ := s.exists_stmt_placed c layout column
  refine ⟨?_, ?_, fun k hk => ?_⟩
  · rw [hstmt]
    refine ⟨hnext.stmt.start, fun q hq => ?_⟩
    obtain ⟨p, hp, hstart, -⟩ := hparens q hq
    exact hstart ▸ hnext.stmt.parens p hp
  · rw [s.braces_placed c layout column]
    exact hnext.outer
  · cases hk
    exact hc ▸ Nat.lt_succ_self n

theorem beginStatement (h : s.Within (n + 1)) (hc : c.position = n) (layout : Layout)
    (lineIndent : Indent) : (s.beginStatement c layout lineIndent).Within (n + 1) :=
  h.of_stmt ⟨hc ▸ Nat.le_succ n, nofun⟩ rfl rfl

theorem completeHeader (h : s.Within n) : s.completeHeader.Within n :=
  h.of_stmt (h.stmt.of_start_eq rfl (List.Subset.refl _)) rfl rfl

theorem headerKeyword (h : s.Within n) : (s.headerKeyword c).Within n := by
  have hstmt : ∀ stmt : Statement, stmt.start = s.stmt.start → stmt.parens = s.stmt.parens →
      { s with stmt := stmt }.Within n := fun stmt hstart hparens =>
    h.of_stmt (h.stmt.of_start_eq hstart (hparens ▸ List.Subset.refl _)) rfl rfl
  simp only [State.headerKeyword]
  split_ifs
  · exact h
  · exact hstmt _ rfl rfl
  · exact hstmt _ rfl rfl
  · exact h
  · exact h.completeHeader
  · exact h.completeHeader
  · exact h

theorem openParen (h : s.Within (n + 1)) (hc : c.position = n) (lineIndent : Indent) :
    (s.openParen c lineIndent).Within (n + 1) := by
  refine h.of_stmt ⟨h.stmt.start, fun p hp => ?_⟩ rfl rfl
  rcases List.mem_cons.mp hp with rfl | hp
  · exact hc ▸ Nat.lt_succ_self n
  · exact h.stmt.parens p hp

theorem closeParen (h : s.Within n) : s.closeParen.Within n := by
  rw [State.closeParen]
  cases hparens : s.stmt.parens with
  | nil => exact h
  | cons p outer =>
      have hpopped : { s with stmt := { s.stmt with parens := outer } }.Within n :=
        h.of_stmt (h.stmt.of_start_eq rfl (hparens ▸ List.subset_cons_self p outer)) rfl rfl
      dsimp only
      split
      · exact hpopped.completeHeader
      · exact hpopped

theorem endStatement (h : s.Within n) : (s.endStatement c o).Within n :=
  let ended : Statement := { s.stmt with
    active := false
    headerParenPending := false
    headerBodyPending := false
    ternary := 0 }
  have hended : ended.Within n := h.stmt.of_start_eq rfl (List.Subset.refl _)
  h.of_stmt (hended.endBody _) rfl rfl

theorem colon (h : s.Within n) : (s.colon c).Within n := by
  rw [State.colon]
  split_ifs
  · exact h.of_stmt (h.stmt.of_start_eq rfl (List.Subset.refl _)) rfl rfl
  · exact h.of_stmt (h.stmt.of_start_eq rfl (List.Subset.refl _)) rfl rfl
  · exact h

theorem afterCode (h : s.Within (n + 1)) (hc : c.position = n) (lineIndent : Indent) :
    (s.afterCode c o lineIndent).Within (n + 1) := by
  rw [State.afterCode]
  cases c.token.kind with
  | word => exact h.headerKeyword
  | punctuation =>
      dsimp only
      split
      · exact h.openParen hc lineIndent
      · exact h.openParen hc lineIndent
      · exact h.closeParen
      · exact h.closeParen
      · split
        · exact h.endStatement
        · exact h
      · exact h.of_stmt (h.stmt.of_start_eq rfl (List.Subset.refl _)) rfl rfl
      · exact h.colon
      · exact h
  | _ => exact h

theorem settleCode (h : s.Within (n + 1)) (hc : c.position = n) (layout : Layout)
    (lineIndent : Indent) (starts : Bool) (role : Role) :
    (s.settleCode c o layout lineIndent starts role).Within (n + 1) := by
  have hbegun : (if starts then s.beginStatement c layout lineIndent else s).Within (n + 1) := by
    split
    · exact h.beginStatement hc layout lineIndent
    · exact h
  have howed : ((if starts then s.beginStatement c layout lineIndent else s).owesSpacing c o
      role).Within (n + 1) := hbegun.of_stmt hbegun.stmt rfl rfl
  exact howed.afterCode hc lineIndent

theorem settleOpen (h : s.Within n) (b : Opening) (lineIndent : Indent) :
    (s.settleOpen o b lineIndent).Within n := by
  refine ⟨.fresh n, fun brace hbrace => ?_, h.lastOnLine⟩
  rcases List.mem_cons.mp hbrace with rfl | hbrace
  · exact h.stmt
  · exact h.outer brace hbrace

theorem settleClose (h : s.Within n) {b : OpenBrace} (hb : b.outer.Within n) :
    (s.settleClose c o b).Within n := by
  simp only [State.settleClose, State.finishBlock]
  split
  · exact h.of_stmt hb rfl rfl
  · exact h.of_stmt (hb.endBlock _ _) rfl rfl

theorem settle (h : s.Within (n + 1)) (hc : c.position = n) {p : Plan}
    (hclosed : ∀ b, p.action = .closeBrace (some b) → b.outer.Within (n + 1))
    (lineIndent : Indent) : (s.settle c o p lineIndent).Within (n + 1) := by
  rw [State.settle]
  cases haction : p.action with
  | directive => exact h
  | comment => exact h
  | code starts role => exact h.settleCode hc p.layout lineIndent starts role
  | openBrace b => exact h.settleOpen b lineIndent
  | closeBrace closed =>
      cases closed with
      | none => exact h
      | some b => exact h.settleClose (hclosed b haction)

end State.Within

/-! ## Conditionals -/

theorem Conditional.Within.mono {c : Conditional} (h : c.Within m) (hmn : m ≤ n) : c.Within n :=
  ⟨h.atIf.mono hmn, fun s hs => (h.afterFirst s hs).mono hmn⟩

/-- Whatever a directive restores was kept before. -/
theorem within_branch (name : String) {s : State} {cs : List Conditional} (hs : s.Within n)
    (hcs : ∀ c ∈ cs, c.Within n) :
    (Plan.branch name s cs).1.Within n ∧ ∀ c ∈ (Plan.branch name s cs).2, c.Within n := by
  simp only [Plan.branch]
  split
  · have hopened : Conditional.Within n ⟨s, none⟩ := ⟨hs, by simp⟩
    exact ⟨hs, List.forall_mem_cons.mpr ⟨hopened, hcs⟩⟩
  · split
    · cases cs with
      | nil => exact ⟨hs, by simp⟩
      | cons c outer =>
          obtain ⟨hc, houter⟩ := List.forall_mem_cons.mp hcs
          have hkept : Conditional.Within n { c with afterFirst := c.afterFirst <|> some s } := by
            refine ⟨hc.atIf, fun s' hs' => ?_⟩
            cases hfirst : c.afterFirst with
            | none =>
                rw [hfirst] at hs'
                cases hs'
                exact hs
            | some behind =>
                rw [hfirst] at hs'
                cases hs'
                exact hc.afterFirst s' hfirst
          exact ⟨hc.atIf, List.forall_mem_cons.mpr ⟨hkept, houter⟩⟩
    · split
      · cases cs with
        | nil => exact ⟨hs, by simp⟩
        | cons c outer =>
            obtain ⟨hc, houter⟩ := List.forall_mem_cons.mp hcs
            have hbehind : (c.afterFirst.getD s).Within n := by
              cases hfirst : c.afterFirst with
              | none => exact hs
              | some behind => exact hc.afterFirst behind hfirst
            exact ⟨hbehind, houter⟩
      · exact ⟨hs, hcs⟩

/-! ## All tokens -/

namespace Progress.Within

variable {r : Progress} {c : Cursor}

theorem start : Progress.start.Within 0 :=
  ⟨State.Within.start, fun _ hc => absurd hc List.not_mem_nil⟩

theorem plan (h : r.Within n) :
    (c.plan o r.state r.conditionals r.page).Within n := by
  have hclose : (Plan.closeBrace c o r.state r.conditionals r.page).Within n := by
    rw [Plan.closeBrace]
    split
    · exact ⟨h.state.of_stmt h.state.stmt rfl rfl, h.conditionals, by simp [Plan.strayBrace]⟩
    · next b outer hbraces =>
        obtain ⟨hb, houter⟩ := List.forall_mem_cons.mp (hbraces ▸ h.state.outer)
        refine ⟨⟨h.state.stmt, houter, h.state.lastOnLine⟩, h.conditionals, fun b' hb' => ?_⟩
        cases hb'
        exact hb
  have hcode : (Plan.code c o r.state r.conditionals r.page).Within n :=
    ⟨h.state.of_stmt (h.state.stmt.startBody _ _) rfl rfl, h.conditionals, by simp [Plan.code]⟩
  have hopen : (Plan.openBrace c o r.state r.conditionals r.page).Within n :=
    ⟨h.state.of_stmt h.state.stmt rfl rfl, h.conditionals, by simp [Plan.openBrace]⟩
  have hcomment : (Plan.comment c o r.state r.conditionals r.page).Within n :=
    ⟨h.state, h.conditionals, by simp [Plan.comment]⟩
  have hdirective : (Plan.directive c o r.state r.conditionals r.page).Within n := by
    have hbranch := within_branch (Plan.directiveName c.token.text) h.state h.conditionals
    rw [Plan.directive]
    generalize Plan.branch (Plan.directiveName c.token.text) r.state r.conditionals = kept
      at hbranch ⊢
    exact ⟨hbranch.1, hbranch.2, by simp⟩
  have hbrace : (if c.token.is "\x7b" then Plan.openBrace c o r.state r.conditionals r.page
      else if c.token.is "\x7d" then Plan.closeBrace c o r.state r.conditionals r.page
      else Plan.code c o r.state r.conditionals r.page).Within n := by
    split
    · exact hopen
    · split
      · exact hclose
      · exact hcode
  rw [Cursor.plan]
  cases c.token.kind with
  | directive => exact hdirective
  | lineComment => exact hcomment
  | blockComment => exact hcomment
  | _ => exact hbrace

/-- One token: all positions that are kept behind it lie before it or are its own. -/
theorem step (h : r.Within n) (hc : c.position = n) : (r.step o c).Within (n + 1) := by
  have hplan := h.plan (o := o) (c := c)
  have hnext : ∀ {stmt : Statement}, stmt.Within n → stmt.Within (n + 1) :=
    fun hstmt => hstmt.mono (Nat.le_succ n)
  refine ⟨?_, fun c' hc' => (hplan.conditionals c' hc').mono (Nat.le_succ n)⟩
  exact (hplan.state.placed hc _ _).settle hc (fun b hb => hnext (hplan.closed b hb)) _

end Progress.Within

/-- In front of every token, all positions that are kept lie before it, or are the start of a
statement at it. -/
theorem within_stage (o : Options) (tokens : List Token) :
    ∀ n ≤ tokens.length, (stage o tokens n).Within n :=
  stage_induction .start fun _ _ _ _ h => h.step rfl

end Beautifier
