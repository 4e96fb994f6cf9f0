/-
Laying out one token of a row.

With the default options a token that starts a row of nested statements goes on
a line of its own, at the level that the innermost block and the headers before
it call for (`step_first`); every other token follows on that line as it is
written (`step_next`).  Between rows little of the state matters; on a row all of
it is known (`onRow`).
-/
import Beautifier.Proofs.Layout.Stage
import Beautifier.Proofs.Text.Lines

namespace Beautifier.Nesting

/-! ## Lines -/

def rowLine (level : Nat) (text : String) : Line :=
  { Line.empty ⟨level, 0⟩ with text, hasCode := true }

structure Simple (t : Token) : Prop where
  kind : t.kind = .word ∨ t.kind = .punctuation
  breakless : '\r' ∉ t.text.toList ∧ '\n' ∉ t.text.toList

variable {t : Token} {p : Page} {above : List Line} {level : Nat} {text gap : String}

theorem Simple.lines (h : Simple t) : linesOf (glyphs t.text.toList) = (t.text.toList, []) := by
  have hchars : Glyph.charsOf (t.text.toList.map .char) = t.text.toList := by
    simp [Glyph.charsOf, List.flatMap_map, Glyph.chars]
  have hplain : Plain .linux (t.text.toList.map .char) := plain_chars.mpr fun c hc =>
    ⟨fun heq => h.breakless.1 (heq ▸ hc), fun heq => h.breakless.2 (heq ▸ hc)⟩
  have hglyphs := glyphs_charsOf hplain
  have hlines := linesOf_chars t.text.toList []
  rw [List.append_nil] at hlines
  rw [hchars] at hglyphs
  rw [hglyphs, hlines]
  simp [linesOf]

theorem Simple.write (h : Simple t) (l : Line) (o : Options) :
    (⟨l :: above⟩ : Page).write o t = ⟨{ l.append t.text with hasCode := true } :: above⟩ := by
  rw [Page.write, Page.push, h.lines]
  rcases h.kind with hkind | hkind <;> rw [hkind] <;>
    simp [Page.amend, Line.mark, Line.keepsBlanks, Line.append]

theorem Simple.write_newLine (h : Simple t) (o : Options) :
    (p.newLine ⟨level, 0⟩ 0).write o t = ⟨rowLine level t.text :: p.lines⟩ := by
  rw [Page.newLine, h.write]
  simp [rowLine, Line.append, Line.empty]

theorem Simple.write_space (h : Simple t) (o : Options) :
    ((⟨rowLine level text :: above⟩ : Page).space gap).write o t
      = ⟨rowLine level (text ++ gap ++ t.text) :: above⟩ := by
  rw [Page.space, Page.amend, h.write]
  rfl

/-! ## States -/

/-- The statement between two rows: none has begun since the token at `start`, with so many levels
owed, the levels kept for `else`, and the body of a header to come or not. -/
def waiting (start : Nat) (indent : Indent) (extra : Nat) (ifs : List Nat) (pending : Bool) :
    Statement :=
  { Statement.fresh with
    start, indent
    headerExtra := extra
    ifLevels := ifs
    headerBodyPending := pending }

def begun (start level extra : Nat) (ifs : List Nat) : Statement :=
  { Statement.fresh with
    active := true
    start
    indent := ⟨level, 0⟩
    headerExtra := extra
    ifLevels := ifs }

/-- A statement that begins with a header whose condition comes next. -/
def inHeader (start level extra : Nat) (ifs : List Nat) : Statement :=
  { begun start level extra ifs with headerParenPending := true }

/-- A statement that begins with a header whose condition is open. -/
def inCondition (start level extra : Nat) (ifs : List Nat) (p : OpenParen) : Statement :=
  { begun start level extra ifs with parens := [p] }

/-- The state on a row behind the token at a position. -/
def onRow (braces : List OpenBrace) (stmt : Statement) (position : Nat) : State :=
  { State.start with braces, stmt, lastOnLine := some position }

/-- The open brace of a block of statements whose braces stand at a level. -/
structure IsBlock (b : OpenBrace) (level : Nat) : Prop where
  kind : b.kind = .control ∨ b.kind = .plain
  expression : b.expression = false
  isDo : b.isDo = false
  keepOneLine : b.keepOneLine = false
  body : b.body = ⟨level + 1, 0⟩
  closeIndent : b.closeIndent = ⟨level, 0⟩

/-- All open braces are those of blocks of statements. -/
def Blocks (braces : List OpenBrace) : Prop := ∀ b ∈ braces, ∃ level, IsBlock b level

/-- The level of the statements in the innermost block. -/
def baseLevel : List OpenBrace → Nat
  | [] => 0
  | b :: _ => b.body.levels

variable {braces : List OpenBrace} {r : Progress} {c : Cursor} {s : State} {stmt : Statement}

theorem Blocks.inKeptLine (h : Blocks s.braces) : s.inKeptLine = false := by
  rw [State.inKeptLine, List.any_eq_false]
  intro b hb
  obtain ⟨level, hblock⟩ := h b hb
  rw [hblock.keepOneLine]
  exact Bool.false_ne_true

theorem Blocks.not_initializer (h : Blocks s.braces) :
    s.innermostIs (·.kind == .initializer) = false := by
  rw [State.innermostIs]
  split
  · rfl
  · next b outer hbraces =>
    obtain ⟨level, hblock⟩ := h b (hbraces ▸ List.mem_cons_self)
    rcases hblock.kind with hkind | hkind <;> rw [hkind] <;> rfl

theorem Blocks.statementIndent (h : Blocks s.braces) :
    c.statementIndent s = ⟨baseLevel s.braces + s.stmt.headerExtra, 0⟩ := by
  rw [Cursor.statementIndent]
  cases hbraces : s.braces with
  | nil => simp [baseLevel, Indent.deeper, Indent.zero]
  | cons b outer =>
      obtain ⟨level, hblock⟩ := h b (hbraces ▸ List.mem_cons_self)
      rcases hblock.kind with hkind | hkind <;>
        simp [hkind, baseLevel, Indent.deeper, hblock.body]

theorem Blocks.lineIndent (h : Blocks s.braces) (hparens : s.stmt.parens = [])
    (hactive : s.stmt.active = false) (o : Options) :
    c.lineIndent o s = ⟨baseLevel s.braces + s.stmt.headerExtra, 0⟩ := by
  rw [← h.statementIndent (c := c), Cursor.lineIndent, hparens]
  cases hbraces : s.braces with
  | nil => simp [hactive]
  | cons b outer =>
      obtain ⟨level, hblock⟩ := h b (hbraces ▸ List.mem_cons_self)
      rcases hblock.kind with hkind | hkind <;> simp [hkind, hactive]

/-! ## The first token of a row -/

/-- A token starts a row: the lines above it are complete, and it stands on a new line of the
source unless it is the very first one. -/
structure StartsRow (c : Cursor) (page : Page) : Prop where
  inserted : c.token.inserted = false
  lineBreaks : c.token.lineBreaks = min c.position 1
  page : page.isEmpty = true ↔ c.position = 0

theorem StartsRow.newLine {page : Page} (h : StartsRow c page) :
    page.isEmpty = true ∨ 0 < c.token.lineBreaks := by
  rw [h.page, h.lineBreaks]
  omega

theorem StartsRow.blankLines {page : Page} (h : StartsRow c page) (starts afterDo : Bool) :
    c.blankLines .default s page starts afterDo = 0 := by
  have hbreaks := h.lineBreaks
  rw [Cursor.blankLines, h.inserted, if_neg Bool.false_ne_true]
  split
  · next hempty =>
    rw [h.page.mp hempty] at hbreaks
    exact hbreaks
  · simp only [Options.default, Bool.false_and, Bool.false_eq_true, if_false]
    omega

/-- A word behind a block starts a line where it does in the source. -/
theorem breaksAfterClose_word (hkind : t.kind = .word) (hbreaks : 0 < t.lineBreaks) (page : Page)
    (closed : ClosedBrace) : Plan.breaksAfterClose .default page closed t = true := by
  have htight : t.isOneOf [";", ",", ")", "]"] = false := by simp [Token.isOneOf, hkind]
  have hzero : (t.lineBreaks == 0) = false := by simp; omega
  rw [Plan.breaksAfterClose, htight, hzero]
  simp [Options.breakClosingHeaders, Options.default, hbreaks]

/-- A word that starts a row is put on a new line at the level that is called for; the body of a
header that waits for it is one level deeper. -/
theorem plan_first {start extra : Nat} {indent : Indent} {ifs : List Nat} {pending : Bool}
    (hstart : StartsRow c r.page) (hkind : c.token.kind = .word)
    (hblocks : Blocks r.state.braces)
    (hstmt : r.state.stmt = waiting start indent extra ifs pending) :
    let deeper := extra + pending.toNat
    c.plan .default r.state r.conditionals r.page
      = ⟨.code true .notOperator,
          { r.state with stmt := waiting start indent deeper ifs false, afterClose := none },
          r.conditionals, .newLine ⟨baseLevel r.state.braces + deeper, 0⟩ 0⟩ := by
  intro deeper
  have his : ∀ mark, c.token.is mark = false := fun mark => by simp [Token.is, hkind]
  let s : State :=
    { r.state with stmt := waiting start indent deeper ifs false, afterClose := none }
  have hbody : Plan.startBody r.state.stmt true false = waiting start indent deeper ifs false := by
    rw [hstmt]
    cases pending <;> rfl
  have hindent : c.lineIndent .default s = ⟨baseLevel r.state.braces + deeper, 0⟩ :=
    Blocks.lineIndent (s := s) hblocks rfl rfl _
  have hrole : c.role s (Options.default.language.hasPointers) = .notOperator := by
    simp [Cursor.role, hkind]
  have hactive : r.state.stmt.active = false := by rw [hstmt]; rfl
  rw [Cursor.plan, hkind]
  dsimp only
  rw [his, his, if_neg Bool.false_ne_true, if_neg Bool.false_ne_true, Plan.code, his, hactive]
  simp only [Bool.not_false, Bool.and_self]
  rw [hbody, hrole]
  refine congrArg (Plan.mk _ _ _) ((if_pos ?_).trans ?_)
  · rcases hstart.newLine with hempty | hbreaks
    · rw [hempty, Bool.true_or]
    · cases r.state.afterClose with
      | none => simp [hbreaks]
      | some closed => simp [breaksAfterClose_word hkind hbreaks]
  · rw [hindent, hstart.blankLines]

theorem step_first {start extra : Nat} {indent : Indent} {ifs : List Nat} {pending : Bool}
    (hstart : StartsRow c r.page) (hkind : c.token.kind = .word) (hsimple : Simple c.token)
    (hblocks : Blocks r.state.braces)
    (hstmt : r.state.stmt = waiting start indent extra ifs pending) :
    let deeper := extra + pending.toNat
    let level := baseLevel r.state.braces + deeper
    (r.step .default c).state = (onRow r.state.braces (begun c.position level deeper ifs)
        c.position).headerKeyword c ∧
      (r.step .default c).page = ⟨rowLine level c.token.text :: r.page.lines⟩ := by
  intro deeper level
  rw [Progress.step, plan_first hstart hkind hblocks hstmt]
  refine ⟨?_, hsimple.write_newLine _⟩
  have his : ∀ mark, c.token.is mark = false := fun mark => by simp [Token.is, hkind]
  have hindent : ((r.page.ready .default c.token (.newLine ⟨level, 0⟩ 0)).write .default
      c.token).currentIndent = ⟨level, 0⟩ := by
    rw [Page.ready, hsimple.write_newLine]
    rfl
  simp only [State.settle, State.settleCode, State.afterCode, hkind, if_true]
  refine congrArg (State.headerKeyword · c) ?_
  rw [hindent]
  simp [State.placed, State.amendParen, State.beginStatement, State.owesSpacing, onRow, begun,
    waiting, Statement.fresh, State.start, his, deeper]

/-! ## The tokens behind it -/

/-- A token that may stand on a row behind others: a word, a parenthesis or a semicolon. -/
def isInner (t : Token) : Bool := t.kind == .word || t.isOneOf ["(", ")", ";"]

theorem role_of_isInner (h : isInner c.token = true) (s : State) (hasPointers : Bool) :
    c.role s hasPointers = .notOperator := by
  rw [Cursor.role]
  simp only [isInner, Token.isOneOf, Bool.or_eq_true, beq_iff_eq, Bool.and_eq_true,
    List.contains_iff_mem, List.mem_cons, List.not_mem_nil, or_false] at h
  rcases h with hkind | ⟨hkind, htext | htext | htext⟩
  · simp [hkind]
  all_goals simp [hkind, htext, Role.ofPunctuation]

theorem not_is_of_isInner (h : isInner t = true) {mark : String}
    (hmark : mark ∉ ["(", ")", ";"]) : t.is mark = false := by
  refine Bool.eq_false_iff.mpr fun his => ?_
  simp only [Token.is, Bool.and_eq_true, beq_iff_eq] at his
  simp only [isInner, Token.isOneOf, his.1, his.2, Bool.or_eq_true, Bool.and_eq_true,
    List.contains_iff_mem] at h
  rcases h with h | h
  · cases h
  · exact hmark h.2

/-- A statement in which the innermost bracket, if it waits for the column of what follows it, has
got that column. -/
def aligned (column : Nat) (stmt : Statement) : Statement :=
  match stmt.parens with
  | [] => stmt
  | p :: rest =>
      { stmt with parens :=
          (if p.awaitsAlign then { p with awaitsAlign := false, align := some column } else p)
            :: rest }

theorem placed_onRow (hinner : isInner c.token = true) (hsimple : Simple c.token) (k column : Nat)
    (spacing : Spacing) :
    ((onRow braces stmt k).placed c (.sameLine spacing) column).owesSpacing c .default .notOperator
      = onRow braces (aligned column stmt) c.position := by
  have hcode : c.token.isTrivia = false := by
    rcases hsimple.kind with hkind | hkind <;> simp [Token.isTrivia, hkind]
  have hcomma : c.token.is "," = false := not_is_of_isInner hinner (by decide)
  obtain ⟨active, start, indent, parens, -⟩ := stmt
  cases parens with
  | nil => simp [State.placed, hcode, State.amendParen, onRow, State.owesSpacing, hcomma,
      aligned, State.start]
  | cons p rest => simp [State.placed, hcode, State.amendParen, onRow, State.owesSpacing, hcomma,
      aligned, State.start]

/-- A further token of a row goes on with the line. -/
theorem plan_next {k : Nat} {prev : Token} {cs : List Conditional} {page : Page}
    (hinner : isInner c.token = true) (hsimple : Simple c.token) (hbreaks : c.token.lineBreaks = 0)
    (hprev : c.tokenAt? k = some prev) (htrivia : prev.isTrivia = false)
    (hactive : stmt.active = true) (hpending : stmt.headerBodyPending = false)
    (hpage : page.isEmpty = false) :
    c.plan .default (onRow braces stmt k) cs page
      = ⟨.code false .notOperator, onRow braces stmt k, cs, .sameLine .asWritten⟩ := by
  have hspacing : c.spacing .default (onRow braces stmt k) .notOperator = .asWritten := by
    simp [Cursor.spacing, onRow, State.start, hprev, Spacing.behind, htrivia, Spacing.aligned?,
      Spacing.ordinary, Spacing.pads, Spacing.unforced, hbreaks, Options.default]
  have hcode : c.token.isTrivia = false := by
    rcases hsimple.kind with hkind | hkind <;> simp [Token.isTrivia, hkind]
  have hbody : Plan.startBody stmt false (c.token.is ";") = stmt := by
    simp [Plan.startBody, hpending]
  have hstarts : (!(onRow braces stmt k).stmt.active && !c.token.is ";") = false := by
    rw [show (onRow braces stmt k).stmt.active = true from hactive]
    rfl
  rw [Cursor.plan_code hcode (not_is_of_isInner hinner (by decide))
      (not_is_of_isInner hinner (by decide)),
    Plan.code, hstarts, show (onRow braces stmt k).stmt = stmt from rfl, hbody,
    role_of_isInner hinner]
  refine congrArg (Plan.mk _ _ _) ((if_neg ?_).trans (congrArg Layout.sameLine hspacing))
  simp [onRow, State.start, hpage, hbreaks]

theorem step_next {k : Nat} {prev : Token} (hinner : isInner c.token = true)
    (hsimple : Simple c.token) (hbreaks : c.token.lineBreaks = 0)
    (hprev : c.tokenAt? k = some prev) (htrivia : prev.isTrivia = false)
    (hactive : stmt.active = true) (hpending : stmt.headerBodyPending = false)
    (hstate : r.state = onRow braces stmt k) (hpage : r.page.lines = rowLine level text :: above) :
    ∃ (column : Nat) (indent : Indent),
      (r.step .default c).state
        = (onRow braces (aligned column stmt) c.position).afterCode c .default indent ∧
      (r.step .default c).page
        = ⟨rowLine level (text ++ c.token.space ++ c.token.text) :: above⟩ := by
  obtain ⟨state, conditionals, page⟩ := r
  obtain rfl : state = onRow braces stmt k := hstate
  obtain rfl : page = ⟨rowLine level text :: above⟩ := congrArg Page.mk hpage
  have hgap : (⟨rowLine level text :: above⟩ : Page).gap .default c.token .asWritten
      = c.token.space := by
    simp [Page.gap, Page.sourceGap, Options.default]
  rw [Progress.step, plan_next hinner hsimple hbreaks hprev htrivia hactive hpending rfl]
  dsimp only [State.settle, State.settleCode]
  refine ⟨_, _, congrArg (State.afterCode · c .default _)
    (placed_onRow hinner hsimple _ _ .asWritten), ?_⟩
  show ((⟨rowLine level text :: above⟩ : Page).space _).write .default c.token = _
  rw [hgap, hsimple.write_space]

/-! ## Braces -/

theorem labelledSwitch?_eq (h : s.stmt.afterLabel = false) (owned : Bool) (kind : BlockKind) :
    Plan.labelledSwitch? s owned kind = none := by
  simp [Plan.labelledSwitch?, h]

/-- What is known of a block that opens between statements: it stands at the level that is called
for, also where it is the body of a header. -/
theorem opening_eq {start extra : Nat} {indent : Indent} {ifs : List Nat} {pending : Bool}
    (hblocks : Blocks s.braces) (hstmt : s.stmt = waiting start indent extra ifs pending)
    (hpending : pending = true → indent = ⟨baseLevel s.braces + extra, 0⟩ ∧
      c.isWordAt start "do" = false ∧ c.isWordAt start "switch" = false)
    (hline : Plan.onOneLine c = false) :
    Plan.opening c .default s =
      { kind := if pending then .control else .plain
        expression := false
        isDo := false
        keepOneLine := false
        isEmpty := false
        inKeptLine := false
        base := ⟨baseLevel s.braces + extra, 0⟩
        body := ⟨baseLevel s.braces + extra + 1, 0⟩ } := by
  have hindent := hblocks.statementIndent (c := c)
  have hclassify : c.classify s = (if pending then .control else .plain, false) := by
    rw [Cursor.classify, hblocks.not_initializer, hstmt]
    cases pending with
    | false => rfl
    | true => simp [waiting, Statement.fresh, (hpending rfl).2.2]
  have hlabel := labelledSwitch?_eq (s := s) (by rw [hstmt]; rfl)
  rw [Plan.opening, hclassify, hline, hblocks.inKeptLine, hindent]
  simp only [hlabel]
  rw [hstmt]
  cases pending with
  | false => simp [waiting, Statement.fresh, Plan.ownsBlock, Plan.bodyIndent, Indent.deeper]
  | true =>
      simp [waiting, Statement.fresh, Plan.ownsBlock, Plan.bodyIndent, Indent.deeper,
        (hpending rfl).1, (hpending rfl).2.1]

/-- An opening brace that starts a row stays on a line of its own, at the level of its block. -/
theorem plan_open {b : Opening} {level : Nat} (hstart : StartsRow c r.page)
    (hopen : c.token.is "\x7b" = true) (hafter : r.state.stmt.afterLabel = false)
    (hb : Plan.opening c .default r.state = b) (hkind : b.kind = .control ∨ b.kind = .plain)
    (hbase : b.base = ⟨level, 0⟩) (hexpression : b.expression = false)
    (hkeep : b.keepOneLine = false) (hinKept : b.inKeptLine = false) :
    c.plan .default r.state r.conditionals r.page
      = ⟨.openBrace b, { r.state with afterClose := none }, r.conditionals,
          .newLine ⟨level, 0⟩ 0⟩ := by
  have hplacement : Plan.placement .default r.state b = .keep := by
    rw [Plan.placement, hkeep, hinKept, hexpression, labelledSwitch?_eq hafter]
    rcases hkind with hkind | hkind <;> rw [hkind] <;> rfl
  rw [Cursor.plan_openBrace hopen, Plan.openBrace, hb, hplacement]
  refine congrArg (Plan.mk _ _ _) ((if_pos ?_).trans ?_)
  · rw [Plan.opensLine]
    rcases hstart.newLine with hempty | hbreaks
    · simp [hempty]
    · simp [hbreaks]
  · rw [Plan.openIndent, hexpression, hstart.blankLines, ite_self, hbase]
    rfl

theorem step_open {start extra : Nat} {indent : Indent} {ifs : List Nat} {pending : Bool}
    (hstart : StartsRow c r.page) (hopen : c.token.is "\x7b" = true) (hsimple : Simple c.token)
    (hblocks : Blocks r.state.braces)
    (hstmt : r.state.stmt = waiting start indent extra ifs pending)
    (hpending : pending = true → indent = ⟨baseLevel r.state.braces + extra, 0⟩ ∧
      c.isWordAt start "do" = false ∧ c.isWordAt start "switch" = false)
    (hline : Plan.onOneLine c = false) :
    let level := baseLevel r.state.braces + extra
    ∃ b, IsBlock b level ∧ b.outer = waiting start indent extra ifs pending ∧
      (r.step .default c).state.braces = b :: r.state.braces ∧
      (r.step .default c).state.stmt = waiting 0 .zero 0 [] false ∧
      (r.step .default c).page = ⟨rowLine level c.token.text :: r.page.lines⟩ := by
  intro level
  obtain ⟨b, hb, hkind, hbase, hbody, hexpression, hisDo, hkeep, hinKept⟩ :
      ∃ b, Plan.opening c .default r.state = b ∧ (b.kind = .control ∨ b.kind = .plain) ∧
        b.base = ⟨level, 0⟩ ∧ b.body = ⟨level + 1, 0⟩ ∧ b.expression = false ∧ b.isDo = false ∧
        b.keepOneLine = false ∧ b.inKeptLine = false := by
    refine ⟨_, opening_eq hblocks hstmt hpending hline, ?_, rfl, rfl, rfl, rfl, rfl, rfl⟩
    cases pending with
    | false => exact .inr rfl
    | true => exact .inl rfl
  have hafter : r.state.stmt.afterLabel = false := by rw [hstmt]; rfl
  rw [Progress.step, plan_open hstart hopen hafter hb hkind hbase hexpression hkeep hinKept]
  refine ⟨_, ?_, ?_, congrArg (_ :: ·) (State.braces_placed ..), rfl, hsimple.write_newLine _⟩
  · refine ⟨hkind, hexpression, hisDo, hkeep, ?_, ?_⟩
    · rw [State.openedBrace, hexpression, hbody]
      rfl
    · rw [State.openedBrace, hexpression, hbase]
      rfl
  · have hparens : r.state.stmt.parens = [] := by rw [hstmt]; rfl
    simpa [State.openedBrace, State.placed, State.amendParen, hparens] using hstmt

theorem step_close {level : Nat} {b : OpenBrace} {outer : List OpenBrace}
    (hstart : StartsRow c r.page) (hclose : c.token.is "\x7d" = true) (hsimple : Simple c.token)
    (hbraces : r.state.braces = b :: outer) (hb : IsBlock b level)
    (hnext : c.nextCodeIs (Plan.isClosingHeader false) = c.nextCodeIs (·.isWord "else")) :
    (r.step .default c).state.braces = outer ∧
      (r.step .default c).state.stmt = State.Statement.endBlock b.outer
        (c.nextCodeIs (·.isWord "else")) (c.nextCodeIs (·.isWord "else")) ∧
      (r.step .default c).page = ⟨rowLine level c.token.text :: r.page.lines⟩ := by
  have hplan : c.plan .default r.state r.conditionals r.page
      = ⟨.closeBrace (some b), { r.state with afterClose := none, braces := outer },
          r.conditionals, .newLine ⟨level, 0⟩ 0⟩ := by
    rw [Cursor.plan_closeBrace hclose, Plan.closeBrace, hbraces]
    refine congrArg (Plan.mk _ _ _) ((if_pos ?_).trans ?_)
    · rw [Plan.closesLine]
      rcases hstart.newLine with hempty | hbreaks
      · simp [hempty]
      · simp [hbreaks]
    · rw [hb.expression, hb.closeIndent, hstart.blankLines]
      rfl
  rw [Progress.step, hplan]
  refine ⟨?_, ?_, hsimple.write_newLine _⟩
  · simp only [State.settle, State.settleClose, hb.expression, Bool.false_eq_true, if_false,
      State.finishBlock]
    exact State.braces_placed ..
  · simp only [State.settle, State.settleClose, hb.expression, Bool.false_eq_true, if_false,
      State.finishBlock, hb.isDo, hnext]

end Beautifier.Nesting
