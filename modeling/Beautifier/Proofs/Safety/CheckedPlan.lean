/-
Plans and states with every access checked.

Of what stands before a token the layout asks by the positions it has kept:
for the start of the statement, for an open bracket, for the token written
last.  A block is looked through up to the brace that closes it.  In front of
the token at `n` all of these are in range where the state lies within `n`
(`Cursor.plan?_eq`, `State.settle?_eq`).
-/
import Beautifier.Proofs.Layout.Closers
import Beautifier.Proofs.Safety.Checked
import Beautifier.Proofs.Safety.Within

namespace Beautifier

variable {o : Options} {tokens : List Token} {n : Nat} {t : Token} {s : State}

namespace Cursor

/-! ## Lines -/

def parenIndent? (c : Cursor) (o : Options) (paren : OpenParen) : Option Indent :=
  match paren.align with
  | some column => paren.lineIndent.alignedTo? o.indentWidth column
  | none =>
      some (if c.token.is ")" || c.token.is "]" then paren.lineIndent
        else paren.lineIndent.deeper 1)

def lineIndent? (c : Cursor) (o : Options) (s : State) : Option Indent :=
  match s.stmt.parens with
  | paren :: _ => c.parenIndent? o paren
  | [] => some (c.lineIndent o s)

theorem lineIndent?_eq (c : Cursor) (o : Options) (s : State) :
    c.lineIndent? o s = some (c.lineIndent o s) := by
  rw [lineIndent?]
  cases hparens : s.stmt.parens with
  | nil => rfl
  | cons paren outer =>
      simp only [lineIndent, hparens, parenIndent?, parenIndent, Indent.alignedTo?_eq]
      cases paren.align <;> rfl

/-- The token written last is looked up by its position. -/
def spacing? (tokens : List Token) (c : Cursor) (o : Options) (s : State) (role : Role) :
    Option Spacing :=
  match s.lastOnLine with
  | none => some .none
  | some last => (tokens[last]?).map fun prev => .behind o s role prev c.token

theorem spacing?_eq (hget : tokens[n]? = some t) (hs : s.Within n) (o : Options) (role : Role) :
    (cursorAt tokens n t).spacing? tokens o s role
      = some ((cursorAt tokens n t).spacing o s role) := by
  rw [spacing?, spacing]
  cases hlast : s.lastOnLine with
  | none => rfl
  | some last =>
      have hlt : last < n := hs.lastOnLine last hlast
      obtain ⟨prev, hprev⟩ := exists_getElem?_of_lt hget hlt
      simp only [Option.bind_some, tokenAt?_cursorAt hget hlt, hprev, Option.map_some]

/-! ## Blocks -/

/-- The tokens of the current statement are cut out of all tokens. -/
def statementCode? (tokens : List Token) (c : Cursor) (s : State) : Option (List Token) :=
  (slice? tokens (min s.stmt.start c.position) c.position).map (·.filter (!·.isTrivia))

/-- Behind the block that a token opens the list of tokens goes on. -/
def endsBehindBlock? (tokens : List Token) (c : Cursor) : Option Bool :=
  match c.closer with
  | none => some false
  | some close =>
      (slice? tokens (close + 1) tokens.length).map fun behind =>
        (firstCode behind).any fun t => t.is ";" || t.is ","

def classifyInStatement? (tokens : List Token) (c : Cursor) (s : State) :
    Option (BlockKind × Bool) := do
  let h := Head.read false 0 .empty (← c.statementCode? tokens s)
  match announced? h with
  | some kind => return (kind, false)
  | none =>
      let ends ← c.endsBehindBlock? tokens
      if h.bracket && (h.assign || h.first == some "return") && c.afterDeclarator then
        return (.plain, true)
      else if c.afterName && ends && (!h.paren || h.assign) then return (.initializer, true)
      else if h.paren && !s.inCodeScope then return (.function, false)
      else return (.plain, false)

/-- The first token of the statement is looked up by its position. -/
def classify? (tokens : List Token) (c : Cursor) (s : State) : Option (BlockKind × Bool) :=
  if s.innermostIs (·.kind == .initializer) then some (.initializer, true)
  else if !(s.stmt.active || s.stmt.headerBodyPending) then some (.plain, false)
  else if !s.stmt.parens.isEmpty then
    some (if c.afterDeclarator then .plain else .initializer, true)
  else if s.stmt.headerBodyPending then
    (tokens[s.stmt.start]?).map fun first =>
      (if first.isWord "switch" then .switch else .control, false)
  else if c.afterValueIntroducer then some (.initializer, true)
  else c.classifyInStatement? tokens s

/-- The tokens of a block are cut out of all tokens. -/
def onOneLine? (tokens : List Token) (c : Cursor) : Option Bool :=
  match c.closer with
  | none => some false
  | some close =>
      (slice? tokens (c.position + 1) (close + 1)).map (·.all (·.lineBreaks == 0))

section

variable (hget : tokens[n]? = some t)
include hget

theorem statementCode?_eq (s : State) :
    (cursorAt tokens n t).statementCode? tokens s
      = some ((cursorAt tokens n t).statementCode s) := by
  have hn : n ≤ tokens.length := Nat.le_of_lt (lt_length hget)
  have hposition : (cursorAt tokens n t).position = n := rfl
  rw [statementCode?, hposition, slice?_eq (Nat.min_le_right _ _) hn, statementCode,
    since_min_cursorAt hget]
  simp

omit hget in
/-- The closing brace of a block lies behind its opening brace and among the tokens. -/
theorem closer_bounds {close : Nat} (h : (cursorAt tokens n t).closer = some close) :
    n < close ∧ close < tokens.length := by
  obtain ⟨u, hu, -⟩ := Matching.is_of_closers h
  exact ⟨Matching.lt_of_closers h, lt_length hu⟩

omit hget in
theorem endsBehindBlock?_eq :
    (cursorAt tokens n t).endsBehindBlock? tokens
      = some (cursorAt tokens n t).endsBehindBlock := by
  rw [endsBehindBlock?, endsBehindBlock]
  cases hcloser : (cursorAt tokens n t).closer with
  | none => rfl
  | some close =>
      obtain ⟨hlt, hlength⟩ := closer_bounds hcloser
      have hafter : (cursorAt tokens n t).afterPosition close
          = (tokens.take tokens.length).drop (close + 1) := by
        simp only [afterPosition, cursorAt, List.drop_drop, List.take_length]
        congr 1
        omega
      dsimp only
      rw [slice?_eq hlength (Nat.le_refl _), hafter, Option.map_some]

theorem classifyInStatement?_eq (s : State) :
    (cursorAt tokens n t).classifyInStatement? tokens s
      = some ((cursorAt tokens n t).classifyInStatement s) := by
  have hhead : Head.read false 0 .empty ((cursorAt tokens n t).statementCode s)
      = (cursorAt tokens n t).head s := rfl
  rw [classifyInStatement?, statementCode?_eq hget, endsBehindBlock?_eq]
  simp only [Option.bind_eq_bind, Option.bind_some, hhead, classifyInStatement]
  cases announced? ((cursorAt tokens n t).head s) with
  | some kind => rfl
  | none => simp only [Option.pure_def, apply_ite some]

theorem isWord_at_start (hbrace : t.is "\x7b" = true) (hs : s.Within n) (text : String) :
    (tokens[s.stmt.start]?).map (·.isWord text)
      = some ((cursorAt tokens n t).isWordAt s.stmt.start text) := by
  rw [isWordAt]
  rcases Nat.eq_or_lt_of_le hs.stmt.start with heq | hlt
  · have hword : t.isWord text = false := by
      rw [Token.is, Bool.and_eq_true, beq_iff_eq] at hbrace
      rw [Token.isWord, hbrace.1]
      rfl
    have hnone : (cursorAt tokens n t).tokenAt? n = none := if_neg (Nat.lt_irrefl n)
    rw [heq, hget, hnone, Option.map_some, hword]
    rfl
  · obtain ⟨first, hfirst⟩ := exists_getElem?_of_lt hget hlt
    rw [tokenAt?_cursorAt hget hlt, hfirst]
    rfl

theorem classify?_eq (hbrace : t.is "\x7b" = true) (hs : s.Within n) :
    (cursorAt tokens n t).classify? tokens s = some ((cursorAt tokens n t).classify s) := by
  have hswitch : (tokens[s.stmt.start]?).map (fun first =>
        ((if first.isWord "switch" then BlockKind.switch else .control), false))
      = some (if (cursorAt tokens n t).isWordAt s.stmt.start "switch" then .switch else .control,
        false) := by
    have hword := isWord_at_start hget hbrace hs "switch"
    obtain ⟨first, hfirst, hisWord⟩ := Option.map_eq_some_iff.mp hword
    rw [hfirst, Option.map_some, hisWord]
  rw [classify?, classify, hswitch, classifyInStatement?_eq hget]
  simp only [apply_ite some]

omit hget in
theorem onOneLine?_eq :
    (cursorAt tokens n t).onOneLine? tokens = some (Plan.onOneLine (cursorAt tokens n t)) := by
  rw [onOneLine?, Plan.onOneLine]
  cases hcloser : (cursorAt tokens n t).closer with
  | none => rfl
  | some close =>
      obtain ⟨hlt, hlength⟩ := closer_bounds hcloser
      have hposition : (cursorAt tokens n t).position = n := rfl
      have hupTo : (cursorAt tokens n t).upTo close = (tokens.take (close + 1)).drop (n + 1) := by
        simp only [upTo, cursorAt, List.drop_take]
        congr 1
        omega
      dsimp only
      rw [hposition, slice?_eq (Nat.succ_le_succ (Nat.le_of_lt hlt)) hlength, hupTo,
        Option.map_some]

end

end Cursor

/-! ## Plans -/

namespace Plan

def commentIndent? (c : Cursor) (o : Options) (s : State) : Option Indent :=
  if c.token.kind == .lineComment && c.token.column == 0 then some .zero
  else if s.stmt.headerBodyPending then (c.lineIndent? o s).map (·.deeper 1)
  else c.lineIndent? o s

def comment? (c : Cursor) (o : Options) (s : State) (cs : List Conditional) (page : Page) :
    Option Plan := do
  let layout ← (
    if page.isEmpty || 0 < c.token.lineBreaks then
      (commentIndent? c o s).map fun indent =>
        .newLine indent (c.blankLines o s page false false)
    else some (.sameLine .asWritten))
  return { action := .comment, state := s, conditionals := cs, layout }

def code? (tokens : List Token) (c : Cursor) (o : Options) (s : State) (cs : List Conditional)
    (page : Page) : Option Plan := do
  let semicolon := c.token.is ";"
  let starts := !s.stmt.active && !semicolon
  let state := { s with stmt := startBody s.stmt starts semicolon, afterClose := none }
  let role ← c.role? tokens state o.language.hasPointers
  let newLine :=
    page.isEmpty || match s.afterClose with
      | some closed => breaksAfterClose o page closed c.token
      | none => s.forceBreak || 0 < c.token.lineBreaks
  let afterDo := s.afterClose.any (·.isDo)
  let layout ← (
    if newLine then
      (c.lineIndent? o state).map fun indent =>
        .newLine indent (c.blankLines o state page starts afterDo)
    else (c.spacing? tokens o state role).map .sameLine)
  return { action := .code starts role, state, conditionals := cs, layout }

def opening? (tokens : List Token) (c : Cursor) (o : Options) (s : State) : Option Opening := do
  let (kind, expression) ← c.classify? tokens s
  let owned := ownsBlock s.stmt
  let isDo ← (if owned then (tokens[s.stmt.start]?).map (·.isWord "do") else some false)
  let oneLine ← c.onOneLine? tokens
  let isEmpty := oneLine && c.closer == some (c.position + 1)
  let base := match labelledSwitch? s owned kind with
    | some switch => switch.caseIndent.deeper o.indentCases.toNat
    | none => if owned then s.stmt.indent else c.statementIndent s
  return {
    kind, expression, isDo, isEmpty, base
    keepOneLine := oneLine && !isEmpty && kind != .initializer
      && (o.keepOneLineBlocks || s.inKeptLine || expression)
    inKeptLine := s.inKeptLine
    body := bodyIndent o kind base }

def openIndent? (c : Cursor) (o : Options) (s : State) (b : Opening) : Option Indent :=
  if b.expression then
    if s.stmt.active && s.stmt.parens.isEmpty && !s.inListBlock then some s.stmt.indent
    else c.lineIndent? o s
  else if o.indentsBraces && Opening.shifted b then some (b.base.deeper 1)
  else some b.base

def openBrace? (tokens : List Token) (c : Cursor) (o : Options) (s : State)
    (cs : List Conditional) (page : Page) : Option Plan := do
  let b ← opening? tokens c o s
  let p := placement o s b
  let layout ← (
    if opensLine c s page p then
      (openIndent? c o s b).map fun indent =>
        .newLine indent (if c.token.lineBreaks = 0 then 0 else c.blankLines o s page false false)
    else some (.sameLine (openSpacing c s p)))
  return {
    action := .openBrace b
    state := { s with afterClose := none }
    conditionals := cs
    layout }

theorem comment?_eq (c : Cursor) (o : Options) (s : State) (cs : List Conditional) (page : Page) :
    comment? c o s cs page = some (comment c o s cs page) := by
  have hindent : commentIndent? c o s = some (commentIndent c o s) := by
    simp only [commentIndent?, commentIndent, Cursor.lineIndent?_eq, Option.map_some,
      apply_ite some]
  simp only [comment?, hindent, Option.map_some, ← apply_ite some, Option.bind_eq_bind,
    Option.bind_some, Option.pure_def]
  rfl

section

variable (hget : tokens[n]? = some t) (hs : s.Within n)
include hget hs

theorem code?_eq (o : Options) (cs : List Conditional) (page : Page) :
    code? tokens (cursorAt tokens n t) o s cs page
      = some (code (cursorAt tokens n t) o s cs page) := by
  have hbody : ∀ starts semicolon, { s with
      stmt := startBody s.stmt starts semicolon, afterClose := none }.Within n :=
    fun starts semicolon => hs.of_stmt (hs.stmt.startBody starts semicolon) rfl rfl
  simp only [code?, Cursor.role?_eq hget (hbody _ _).stmt.parens,
    Cursor.spacing?_eq hget (hbody _ _), Cursor.lineIndent?_eq, Option.map_some,
    ← apply_ite some, Option.bind_eq_bind, Option.bind_some, Option.pure_def]
  rfl

theorem opening?_eq (hbrace : t.is "\x7b" = true) (o : Options) :
    opening? tokens (cursorAt tokens n t) o s = some (opening (cursorAt tokens n t) o s) := by
  have hdo : (if ownsBlock s.stmt then (tokens[s.stmt.start]?).map (·.isWord "do")
        else some false)
      = some (ownsBlock s.stmt && (cursorAt tokens n t).isWordAt s.stmt.start "do") := by
    rw [Cursor.isWord_at_start hget hbrace hs]
    cases ownsBlock s.stmt <;> rfl
  simp only [opening?, Cursor.classify?_eq hget hbrace hs, hdo, Cursor.onOneLine?_eq,
    Option.bind_eq_bind, Option.bind_some, Option.pure_def]
  rfl

theorem openBrace?_eq (hbrace : t.is "\x7b" = true) (o : Options) (cs : List Conditional)
    (page : Page) :
    openBrace? tokens (cursorAt tokens n t) o s cs page
      = some (openBrace (cursorAt tokens n t) o s cs page) := by
  have hindent : ∀ b, openIndent? (cursorAt tokens n t) o s b
      = some (openIndent (cursorAt tokens n t) o s b) := by
    intro b
    simp only [openIndent?, openIndent, expressionIndent, Cursor.lineIndent?_eq, apply_ite some]
  simp only [openBrace?, opening?_eq hget hs hbrace, hindent, Option.map_some, ← apply_ite some,
    Option.bind_eq_bind, Option.bind_some, Option.pure_def]
  rfl

end

end Plan

def Cursor.plan? (tokens : List Token) (c : Cursor) (o : Options) (s : State)
    (cs : List Conditional) (page : Page) : Option Plan :=
  match c.token.kind with
  | .directive => some (.directive c o s cs page)
  | .lineComment | .blockComment => Plan.comment? c o s cs page
  | _ =>
      if c.token.is "\x7b" then Plan.openBrace? tokens c o s cs page
      else if c.token.is "\x7d" then some (.closeBrace c o s cs page)
      else Plan.code? tokens c o s cs page

/-- All that a plan looks up is in range. -/
theorem Cursor.plan?_eq (hget : tokens[n]? = some t) (hs : s.Within n) (o : Options)
    (cs : List Conditional) (page : Page) :
    (cursorAt tokens n t).plan? tokens o s cs page
      = some ((cursorAt tokens n t).plan o s cs page) := by
  have hbrace : (if t.is "\x7b" then Plan.openBrace? tokens (cursorAt tokens n t) o s cs page
        else if t.is "\x7d" then some (.closeBrace (cursorAt tokens n t) o s cs page)
        else Plan.code? tokens (cursorAt tokens n t) o s cs page)
      = some (if t.is "\x7b" then .openBrace (cursorAt tokens n t) o s cs page
        else if t.is "\x7d" then .closeBrace (cursorAt tokens n t) o s cs page
        else .code (cursorAt tokens n t) o s cs page) := by
    rw [Plan.code?_eq hget hs, ← apply_ite some]
    split
    · next h => exact Plan.openBrace?_eq hget hs h o cs page
    · rfl
  have htoken : (cursorAt tokens n t).token = t := rfl
  rw [plan?, plan, htoken]
  cases t.kind with
  | directive => rfl
  | lineComment => exact Plan.comment?_eq _ o s cs page
  | blockComment => exact Plan.comment?_eq _ o s cs page
  | _ => exact hbrace

/-! ## What a token does to the state -/

namespace State

def endsLabel? (tokens : List Token) (s : State) (c : Cursor) : Option Bool :=
  match s.braces with
  | [] => some false
  | brace :: _ => do
      match ← c.statementCode? tokens s with
      | [] => return false
      | first :: others =>
          if brace.kind == .switch && (first.isWord "case" || first.isWord "default") then
            return true
          else if brace.kind == .classBody then
            return Keyword.startsAccess first.text && others.all (Keyword.sections.contains ·.text)
          else if brace.kind == .enumeration || brace.kind == .initializer then return false
          else
            return first.kind == .word && others.isEmpty && !Keyword.nonOperands.contains first.text
              && !Keyword.isHeader first.text

/-- A question mark is taken from those that wait for a colon. -/
def colon? (tokens : List Token) (s : State) (c : Cursor) : Option State :=
  if 0 < s.stmt.ternary then
    (difference? s.stmt.ternary 1).map fun ternary => { s with stmt := { s.stmt with ternary } }
  else if s.stmt.parens.isEmpty then
    (s.endsLabel? tokens c).map fun endsLabel =>
      if endsLabel then { s with stmt := { s.stmt with active := false, afterLabel := true } }
      else s
  else some s

/-- Only a colon counts down or looks back. -/
def afterCode? (tokens : List Token) (s : State) (c : Cursor) (o : Options) (lineIndent : Indent) :
    Option State :=
  if c.token.is ":" then s.colon? tokens c else some (s.afterCode c o lineIndent)

def settleCode? (tokens : List Token) (s : State) (c : Cursor) (o : Options) (layout : Layout)
    (lineIndent : Indent) (starts : Bool) (role : Role) : Option State :=
  let begun := if starts then s.beginStatement c layout lineIndent else s
  (begun.owesSpacing c o role).afterCode? tokens c o lineIndent

def settle? (tokens : List Token) (s : State) (c : Cursor) (o : Options) (p : Plan)
    (lineIndent : Indent) : Option State :=
  match p.action with
  | .code starts role => s.settleCode? tokens c o p.layout lineIndent starts role
  | _ => some (s.settle c o p lineIndent)

section

variable (hget : tokens[n]? = some t)
include hget

theorem endsLabel?_eq (s : State) :
    s.endsLabel? tokens (cursorAt tokens n t) = some (s.endsLabel (cursorAt tokens n t)) := by
  rw [endsLabel?, endsLabel, Cursor.statementCode?_eq hget]
  cases s.braces with
  | nil => rfl
  | cons brace outer =>
      simp only [Option.bind_eq_bind, Option.bind_some]
      cases (cursorAt tokens n t).statementCode s with
      | nil => rfl
      | cons first others => simp only [Option.pure_def, apply_ite some]

theorem colon?_eq (s : State) :
    s.colon? tokens (cursorAt tokens n t) = some (s.colon (cursorAt tokens n t)) := by
  rw [colon?, colon, endsLabel?_eq hget]
  split
  · next h => rw [difference?_eq h, Option.map_some]
  · cases s.stmt.parens.isEmpty <;> rfl

theorem afterCode?_eq (s : State) (o : Options) (lineIndent : Indent) :
    s.afterCode? tokens (cursorAt tokens n t) o lineIndent
      = some (s.afterCode (cursorAt tokens n t) o lineIndent) := by
  rw [afterCode?, colon?_eq hget]
  split
  · next h =>
      rw [Token.is, Bool.and_eq_true, beq_iff_eq, beq_iff_eq] at h
      simp only [afterCode, h.1, h.2]
  · rfl

/-- All that is looked up or counted down behind a token is in range. -/
theorem settle?_eq (s : State) (o : Options) (p : Plan) (lineIndent : Indent) :
    s.settle? tokens (cursorAt tokens n t) o p lineIndent
      = some (s.settle (cursorAt tokens n t) o p lineIndent) := by
  rw [settle?, settle]
  cases p.action with
  | code starts role => exact afterCode?_eq hget _ o lineIndent
  | _ => rfl

end

end State

end Beautifier
