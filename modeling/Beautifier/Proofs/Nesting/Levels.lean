/-
The levels of statements, under all options.

How deep a line stands that starts a statement depends on the innermost block
and on little of the statement before: its shape.  What a token does to the
shape is the same under all options and wherever the token is laid out
(`step_code`, `Reaches.opening`, `Reaches.closing`), and a word that starts both
a statement and a line stands as deep as the shape in front of it says
(`Reaches.stands`).
-/
import Beautifier.Proofs.Layout.BraceStack
import Beautifier.Proofs.Layout.StartedLines
import Beautifier.Proofs.Nesting.Loops

namespace Beautifier.Nesting

/-! ## Shapes -/

/-- What the levels of further lines depend on in a statement. -/
structure Shape where
  active : Bool
  start : Nat
  extra : Nat
  parenPending : Bool
  bodyPending : Bool
  /-- The open brackets, the innermost first: whether each is that of a condition. -/
  conditions : List Bool

def shapeOf (stmt : Statement) : Shape where
  active := stmt.active
  start := stmt.start
  extra := stmt.headerExtra
  parenPending := stmt.headerParenPending
  bodyPending := stmt.headerBodyPending
  conditions := stmt.parens.map (·.header)

namespace Shape

/-- Between statements, the last of which began at `start`; a header waits for its body or not. -/
def idle (start extra : Nat) (pending : Bool) : Shape := ⟨false, start, extra, false, pending, []⟩

/-- In a statement. -/
def begun (start extra : Nat) : Shape := ⟨true, start, extra, false, false, []⟩

/-- In a header whose condition comes next. -/
def inHeader (start extra : Nat) : Shape := ⟨true, start, extra, true, false, []⟩

/-- In the condition of a header. -/
def inCondition (start extra : Nat) : Shape := ⟨true, start, extra, false, false, [true]⟩

/-- Behind a header whose body comes next. -/
def completed (s : Shape) : Shape :=
  { s with active := false, parenPending := false, bodyPending := true }

/-- The shape in which a code token at a position is settled. -/
def entered (s : Shape) (position : Nat) (semicolon : Bool) : Shape :=
  if s.active || semicolon then { s with bodyPending := s.bodyPending && !semicolon }
  else ⟨true, position, s.extra + s.bodyPending.toNat, s.parenPending, false, []⟩

end Shape

/-! ## One token -/

section
variable {o : Options} {c : Cursor} {s : State} {r : Progress} {start extra : Nat} {pending : Bool}

theorem shapeOf_placed (layout : Layout) (column : Nat) :
    shapeOf (s.placed c layout column).stmt = shapeOf s.stmt := by
  have hamend : ∀ f : OpenParen → OpenParen, (∀ p, (f p).header = p.header) →
      shapeOf (s.amendParen f).stmt = shapeOf s.stmt := by
    intro f hf
    rw [State.amendParen]
    split
    · rfl
    · next p others hparens => simp [shapeOf, hparens, hf]
  cases layout with
  | newLine indent blankLines => exact hamend _ fun _ => rfl
  | sameLine spacing =>
      simp only [State.placed]
      split
      · rfl
      · exact hamend _ fun p => by split <;> rfl

/-- The body of a header that waits for it starts with a statement, one level deeper, or is the
empty statement. -/
theorem shapeOf_startBody (stmt : Statement) (starts semicolon : Bool) :
    shapeOf (Plan.startBody stmt starts semicolon) =
      { shapeOf stmt with
        extra := stmt.headerExtra + (starts && stmt.headerBodyPending).toNat
        bodyPending := stmt.headerBodyPending && !(starts || semicolon) } := by
  cases hpending : stmt.headerBodyPending <;> cases starts <;> cases semicolon <;>
    simp [Plan.startBody, shapeOf, hpending]

theorem settled_begun (starts : Bool) (layout : Layout) (indent : Indent) (role : Role) :
    let begun := (if starts then s.beginStatement c layout indent else s).owesSpacing c o role
    begun.braces = s.braces ∧ shapeOf begun.stmt = if starts then
      { shapeOf s.stmt with active := true, start := c.position, conditions := [] }
      else shapeOf s.stmt := by
  cases starts <;> exact ⟨rfl, rfl⟩

theorem step_code (hcode : c.token.isTrivia = false) (hopen : c.token.is "\x7b" = false)
    (hclose : c.token.is "\x7d" = false) :
    ∃ (s : State) (indent : Indent), (r.step o c).state = s.afterCode c o indent ∧
      s.braces = r.state.braces ∧
      shapeOf s.stmt = (shapeOf r.state.stmt).entered c.position (c.token.is ";") := by
  have hplan : c.plan o r.state r.conditionals r.page = .code .. :=
    Cursor.plan_code hcode hopen hclose
  rw [Progress.step, hplan]
  refine ⟨_, _, rfl, (settled_begun ..).1.trans (State.braces_placed ..), ?_⟩
  refine (settled_begun ..).2.trans ?_
  rw [shapeOf_placed]
  simp only [Plan.code, shapeOf_startBody, Shape.entered]
  cases hactive : r.state.stmt.active <;> cases c.token.is ";" <;> simp [shapeOf, hactive]

theorem braces_afterCode (indent : Indent) : (s.afterCode c o indent).braces = s.braces := by
  obtain ⟨stmt, forceBreak, heq⟩ := s.afterCode_eq c o indent
  rw [heq]

end

/-! ## What words and brackets do -/

section
variable {o : Options} {c : Cursor} {s : State} {indent : Indent}

/-- A word may be a header at the start of a statement or behind `else`. -/
def mayBeHeader (c : Cursor) (shape : Shape) : Bool :=
  shape.start == c.position || c.prevCode.any (·.isWord "else")

theorem shapeOf_condition (hplace : mayBeHeader c (shapeOf s.stmt) = true)
    (htext : c.token.text = "if" ∨ c.token.text = "while")
    (hparen : c.nextCodeIs (·.is "(") = true) :
    shapeOf (s.headerKeyword c).stmt = { shapeOf s.stmt with parenPending := true } := by
  have hplace : (s.stmt.start == c.position || c.prevCode.any (·.isWord "else")) = true := hplace
  rw [State.headerKeyword, hplace, hparen]
  rcases htext with htext | htext <;> rw [htext] <;> rfl

theorem shapeOf_else (hplace : mayBeHeader c (shapeOf s.stmt) = true)
    (htext : c.token.text = "else") :
    shapeOf (s.headerKeyword c).stmt =
      if c.nextCodeIs (·.isWord "if") then shapeOf s.stmt else (shapeOf s.stmt).completed := by
  have hplace : (s.stmt.start == c.position || c.prevCode.any (·.isWord "else")) = true := hplace
  rw [State.headerKeyword, hplace, htext]
  cases c.nextCodeIs (·.isWord "if") <;> rfl

theorem shapeOf_do (hplace : mayBeHeader c (shapeOf s.stmt) = true)
    (htext : c.token.text = "do") :
    shapeOf (s.headerKeyword c).stmt = (shapeOf s.stmt).completed := by
  have hplace : (s.stmt.start == c.position || c.prevCode.any (·.isWord "else")) = true := hplace
  rw [State.headerKeyword, hplace, htext]
  rfl

theorem shapeOf_openParen (h : c.token.is "(" = true) :
    shapeOf (s.openParen c indent).stmt =
      { shapeOf s.stmt with
        parenPending := false
        conditions := s.stmt.headerParenPending :: (shapeOf s.stmt).conditions } := by
  cases hpending : s.stmt.headerParenPending <;> simp [State.openParen, shapeOf, h, hpending]

/-- The parenthesis that closes a condition completes the header. -/
theorem shapeOf_closeParen (h : (shapeOf s.stmt).conditions = [true]) :
    shapeOf s.closeParen.stmt = { (shapeOf s.stmt).completed with conditions := [] } := by
  rw [State.closeParen]
  obtain ⟨p, hparens, hp⟩ : ∃ p, s.stmt.parens = [p] ∧ p.header = true :=
    List.map_eq_singleton_iff.mp h
  rw [hparens]
  simp [hp, State.completeHeader, shapeOf, Shape.completed]

/-- Behind a statement nothing is owed unless `else` follows. -/
theorem shapeOf_endStatement (h : (shapeOf s.stmt).conditions = []) :
    ∃ extra, shapeOf (s.endStatement c o).stmt = .idle s.stmt.start extra false ∧
      (c.nextCodeIs (·.isWord "else") = false → extra = 0) := by
  have hparens : s.stmt.parens = [] := List.map_eq_nil_iff.mp h
  cases hifs : s.stmt.ifLevels <;> cases helse : c.nextCodeIs (·.isWord "else") <;>
    simp [State.endStatement, State.Statement.endBody, shapeOf, Shape.idle, hifs, helse, hparens]

/-- Behind a block what was owed in front of it is owed again if a header goes on behind it, and
nothing if none does. -/
theorem shapeOf_endBlock (stmt : Statement) (beforeElse closingHeader : Bool) :
    ∃ extra, shapeOf (State.Statement.endBlock stmt beforeElse closingHeader)
        = .idle stmt.start extra false ∧
      (beforeElse = false → extra = if closingHeader then stmt.headerExtra else 0) := by
  cases hifs : stmt.ifLevels <;> cases beforeElse <;> cases closingHeader <;>
    simp [State.Statement.endBlock, shapeOf, Shape.idle, hifs]

end

/-! ## Where the layout is -/

/-- The layout in front of a position has these blocks open, and its statement this shape. -/
structure Reaches (o : Options) (tokens : List Token) (n : Nat) (braces : List OpenBrace)
    (shape : Shape) : Prop where
  braces : (stage o tokens n).state.braces = braces
  shape : shapeOf (stage o tokens n).state.stmt = shape

def Ordinary (braces : List OpenBrace) : Prop := ∀ b ∈ braces, b.kind = .control ∨ b.kind = .plain

/-- The indentation of the statements in the innermost block. -/
def baseIndent : List OpenBrace → Indent
  | [] => .zero
  | b :: _ => b.body

def startsWord (text : String) (ts : List Token) : Bool := ts.head?.any (·.isWord text)

/-- The statement that waits for its body began with a word that opens no switch, and a `do` or
not. -/
def Owner (tokens : List Token) (n start : Nat) (isDo : Bool) : Prop :=
  start < n ∧ ∃ t, tokens[start]? = some t ∧ t.isWord "do" = isDo ∧ t.isWord "switch" = false

section
variable {o : Options} {tokens rest : List Token} {n start extra : Nat} {pending : Bool} {t : Token}
  {braces : List OpenBrace} {shape : Shape} {text : String}

theorem getElem?_of_drop (h : tokens.drop n = t :: rest) : tokens[n]? = some t := by
  rw [← List.head?_drop, h]
  rfl

theorem drop_succ_of_drop (h : tokens.drop n = t :: rest) : tokens.drop (n + 1) = rest := by
  rw [← List.tail_drop, h]
  rfl

theorem nextCodeIs_of_drop (hcode : ∀ t ∈ tokens, t.isTrivia = false)
    (h : tokens.drop n = t :: rest) (p : Token → Bool) :
    (cursorAt tokens n t).nextCodeIs p = rest.head?.any p := by
  have hrest : ∀ u ∈ rest, u.isTrivia = false := fun u hu =>
    hcode u (List.mem_of_mem_drop (h ▸ List.mem_cons_of_mem t hu))
  rw [Cursor.nextCodeIs, Cursor.nextCode, cursorAt, drop_succ_of_drop h]
  cases rest with
  | nil => rfl
  | cons u rest =>
      rw [firstCode_cons (hrest u List.mem_cons_self)]
      rfl

theorem mayBeHeader_idle :
    mayBeHeader (cursorAt tokens n t) ((Shape.idle start extra pending).entered n false)
      = true := by
  have hplace : (n == n || (cursorAt tokens n t).prevCode.any (·.isWord "else")) = true := by simp
  exact hplace

theorem Ordinary.not_initializer {s : State} (h : Ordinary s.braces) :
    s.innermostIs (·.kind == .initializer) = false := by
  rw [State.innermostIs]
  split
  · rfl
  · next b others hbraces =>
    rcases h b (hbraces ▸ List.mem_cons_self) with hkind | hkind <;> rw [hkind] <;> rfl

theorem nextCodeIs_isClosingHeader (hplain : ∀ t ∈ tokens, Mark.Plain (markOf t))
    (hdrop : tokens.drop n = t :: rest) (isDo : Bool) :
    (cursorAt tokens n t).nextCodeIs (Plan.isClosingHeader isDo)
      = (startsWord "else" rest || (isDo && startsWord "while" rest)) := by
  rw [nextCodeIs_of_drop (not_isTrivia_of_plain hplain) hdrop, startsWord, startsWord]
  cases rest with
  | nil => simp
  | cons u rest =>
      have hmem : u ∈ tokens.drop n := by rw [hdrop]; simp
      have hu := hplain u (List.mem_of_mem_drop hmem)
      have hcatch : (u.text == "catch") = false := beq_eq_false_iff_ne.mpr hu.not_catch
      have hfinally : (u.text == "finally") = false := beq_eq_false_iff_ne.mpr hu.not_finally
      cases hword : (u.kind == .word) <;>
        simp [Plan.isClosingHeader, Token.isWord, hword, hcatch, hfinally]

section
variable {c : Cursor} {s : State} {r : Progress}

theorem step_openBrace (h : c.token.is "\x7b" = true) :
    ∃ indent outer, (r.step o c).state.braces
        = State.openedBrace o (Plan.opening c o r.state) indent outer :: r.state.braces ∧
      shapeOf outer = shapeOf r.state.stmt ∧ (r.step o c).state.stmt = .fresh := by
  rw [Progress.step, Cursor.plan_openBrace h]
  exact ⟨_, _, congrArg (_ :: ·) (State.braces_placed ..), shapeOf_placed .., rfl⟩

/-- What is known of a block that opens between statements. -/
theorem opening_of_idle {isDo : Bool} (hbraces : Ordinary s.braces)
    (hshape : shapeOf s.stmt = .idle start extra pending)
    (hwords : pending = true →
      c.isWordAt start "do" = isDo ∧ c.isWordAt start "switch" = false) :
    let b := Plan.opening c o s
    (b.kind = .control ∨ b.kind = .plain) ∧ b.expression = false ∧
      b.isDo = (pending && isDo) := by
  intro b
  have hactive : s.stmt.active = false := congrArg Shape.active hshape
  have hparens : s.stmt.parens = [] := List.map_eq_nil_iff.mp (congrArg Shape.conditions hshape)
  have hpending : s.stmt.headerBodyPending = pending := congrArg Shape.bodyPending hshape
  have hstart : s.stmt.start = start := congrArg Shape.start hshape
  have hclassify : c.classify s = (if pending then .control else .plain, false) := by
    rw [Cursor.classify, hbraces.not_initializer, hactive, hpending, hparens, hstart]
    cases pending with
    | false => rfl
    | true => simp [(hwords rfl).2]
  have hb : b.kind = (if pending then .control else .plain) ∧ b.expression = false ∧
      b.isDo = ((s.stmt.active || s.stmt.headerBodyPending) && c.isWordAt s.stmt.start "do") := by
    simp only [b, Plan.opening, hclassify, Plan.ownsBlock, and_self]
  obtain ⟨hkind, hexpression, hisDo⟩ := hb
  rw [hactive, hpending, hstart] at hisDo
  cases pending with
  | false => exact ⟨.inr hkind, hexpression, hisDo⟩
  | true => exact ⟨.inl hkind, hexpression, hisDo.trans (by rw [(hwords rfl).1]; rfl)⟩

/-- Between statements a line is as deep as what is owed to the next one. -/
theorem lineIndent_of_idle (hbraces : Ordinary s.braces)
    (hshape : shapeOf s.stmt = .idle start extra pending) :
    c.lineIndent o s = (baseIndent s.braces).deeper extra := by
  have hactive : s.stmt.active = false := congrArg Shape.active hshape
  have hparens : s.stmt.parens = [] := List.map_eq_nil_iff.mp (congrArg Shape.conditions hshape)
  have hextra : s.stmt.headerExtra = extra := congrArg Shape.extra hshape
  rw [Cursor.lineIndent, Cursor.statementIndent, hparens, hactive, hextra]
  cases hopen : s.braces with
  | nil => rfl
  | cons b others =>
      rcases hbraces b (hopen ▸ List.mem_cons_self) with hkind | hkind <;>
        simp [hkind, baseIndent]

end

namespace Reaches

theorem code (h : Reaches o tokens n braces shape) (hdrop : tokens.drop n = t :: rest)
    (hcode : t.isTrivia = false) (hopen : t.is "\x7b" = false) (hclose : t.is "\x7d" = false) :
    ∃ (s : State) (indent : Indent),
      (stage o tokens (n + 1)).state = s.afterCode (cursorAt tokens n t) o indent ∧
      s.braces = braces ∧ shapeOf s.stmt = shape.entered n (t.is ";") := by
  obtain ⟨s, indent, hstate, hbraces, hshape⟩ := step_code (o := o) (r := stage o tokens n)
    (c := cursorAt tokens n t) hcode hopen hclose
  rw [← stage_succ (getElem?_of_drop hdrop)] at hstate
  exact ⟨s, indent, hstate, hbraces.trans h.braces, by rw [hshape, h.shape]; rfl⟩

theorem word (h : Reaches o tokens n braces shape) (hdrop : tokens.drop n = t :: rest)
    (hmark : Marked [(.word, text)] [t]) :
    ∃ s : State, shapeOf s.stmt = shape.entered n false ∧ ∀ shape',
      shapeOf (s.headerKeyword (cursorAt tokens n t)).stmt = shape' →
        Reaches o tokens (n + 1) braces shape' := by
  have his : ∀ mark, t.is mark = false := fun mark => by rw [Token.is, hmark.kind]; rfl
  obtain ⟨s, indent, hstate, hbraces, hshape⟩ :=
    h.code hdrop (by rw [Token.isTrivia, hmark.kind]) (his _) (his _)
  have hword : s.afterCode (cursorAt tokens n t) o indent
      = s.headerKeyword (cursorAt tokens n t) := by
    rw [State.afterCode, show (cursorAt tokens n t).token.kind = .word from hmark.kind]
  rw [his] at hshape
  refine ⟨s, hshape, fun shape' h => ⟨?_, ?_⟩⟩
  · rw [hstate, braces_afterCode, hbraces]
  · rw [hstate, hword, h]

theorem mark (h : Reaches o tokens n braces shape) (hdrop : tokens.drop n = t :: rest)
    (hmark : Marked [(.punctuation, text)] [t]) (htext : text ∈ ["(", ")", ";"]) :
    ∃ (s : State) (indent : Indent), s.braces = braces ∧
      shapeOf s.stmt = shape.entered n (text == ";") ∧ ∀ shape',
      shapeOf (s.afterCode (cursorAt tokens n t) o indent).stmt = shape' →
        Reaches o tokens (n + 1) braces shape' := by
  have his : ∀ mark, t.is mark = (text == mark) := fun mark => by
    rw [Token.is, hmark.kind, hmark.text]
    rfl
  have hbrace : (text == "\x7b") = false ∧ (text == "\x7d") = false := by
    simp only [List.mem_cons, List.not_mem_nil, or_false] at htext
    rcases htext with rfl | rfl | rfl <;> exact ⟨rfl, rfl⟩
  obtain ⟨s, indent, hstate, hbraces, hshape⟩ := h.code hdrop
    (by rw [Token.isTrivia, hmark.kind]) ((his _).trans hbrace.1) ((his _).trans hbrace.2)
  rw [his] at hshape
  refine ⟨s, indent, hbraces, hshape, fun shape' h => ⟨?_, ?_⟩⟩
  · rw [hstate, braces_afterCode, hbraces]
  · rw [hstate, h]

theorem name (h : Reaches o tokens n braces shape) (hdrop : tokens.drop n = t :: rest) {w : Word}
    (hmark : Marked [(.word, w.text)] [t]) :
    Reaches o tokens (n + 1) braces (shape.entered n false) := by
  obtain ⟨s, hshape, hreaches⟩ := h.word hdrop hmark
  refine hreaches _ ?_
  have hname : Keyword.isHeader (cursorAt tokens n t).token.text = false := by
    rw [show (cursorAt tokens n t).token.text = w.text from hmark.text]
    exact w.notHeader
  rw [headerKeyword_of_notHeader hname, hshape]

theorem loop (h : Reaches o tokens n braces (.idle start extra pending))
    (hdrop : tokens.drop n = t :: rest) (hmark : Marked [(.word, "do")] [t]) :
    Reaches o tokens (n + 1) braces (.idle n (extra + pending.toNat) true) := by
  obtain ⟨s, hshape, hreaches⟩ := h.word hdrop hmark
  refine hreaches _ ?_
  have hplace : mayBeHeader (cursorAt tokens n t) (shapeOf s.stmt) = true := by
    rw [hshape]
    exact mayBeHeader_idle
  rw [shapeOf_do hplace hmark.text, hshape]
  rfl

theorem branch (h : Reaches o tokens n braces (.idle start extra pending))
    (hcode : ∀ t ∈ tokens, t.isTrivia = false)
    (hdrop : tokens.drop n = t :: rest) (hmark : Marked [(.word, "else")] [t]) :
    Reaches o tokens (n + 1) braces (if startsWord "if" rest
      then .begun n (extra + pending.toNat) else .idle n (extra + pending.toNat) true) := by
  obtain ⟨s, hshape, hreaches⟩ := h.word hdrop hmark
  refine hreaches _ ?_
  have hplace : mayBeHeader (cursorAt tokens n t) (shapeOf s.stmt) = true := by
    rw [hshape]
    exact mayBeHeader_idle
  rw [shapeOf_else hplace hmark.text, hshape, nextCodeIs_of_drop hcode hdrop]
  rfl

theorem condition (h : Reaches o tokens n braces shape) (hcode : ∀ t ∈ tokens, t.isTrivia = false)
    {keyword : String} (hkeyword : keyword = "if" ∨ keyword = "while") {w : Word}
    {front : List Token} (hdrop : tokens.drop n = front ++ rest)
    (hfront : Marked (conditionMarks keyword w) front)
    (hplace : ∀ t, mayBeHeader (cursorAt tokens n t) (shape.entered n false) = true)
    (hshape : shape.entered n false = .begun start extra) :
    Reaches o tokens (n + 4) braces (.idle start extra true) := by
  obtain ⟨header, _, rfl, hheader, hfront⟩ := hfront.exists_cons
  obtain ⟨opened, _, rfl, hopened, hfront⟩ := hfront.exists_cons
  obtain ⟨inside, _, rfl, hinside, hfront⟩ := hfront.exists_cons
  obtain ⟨closed, rfl, hclosed⟩ := hfront.exists_single
  have hdrop₁ := drop_succ_of_drop hdrop
  have hdrop₂ := drop_succ_of_drop hdrop₁
  have hdrop₃ := drop_succ_of_drop hdrop₂
  have hbehind : Reaches o tokens (n + 1) braces (.inHeader start extra) := by
    obtain ⟨s, hs, hreaches⟩ := h.word hdrop hheader
    have htext : (cursorAt tokens n header).token.text = keyword := hheader.text
    have hparen : (cursorAt tokens n header).nextCodeIs (·.is "(") = true := by
      rw [nextCodeIs_of_drop hcode hdrop]
      exact hopened.is
    refine hreaches _ ?_
    rw [shapeOf_condition (hs.symm ▸ hplace header) (htext.symm ▸ hkeyword) hparen, hs, hshape]
    rfl
  have hopen : Reaches o tokens (n + 2) braces (.inCondition start extra) := by
    obtain ⟨s, indent, -, hs, hreaches⟩ := hbehind.mark hdrop₁ hopened (by simp)
    have his : (cursorAt tokens (n + 1) opened).token.is "(" = true := hopened.is
    have hpending : s.stmt.headerParenPending = true := congrArg Shape.parenPending hs
    refine hreaches _ ?_
    rw [State.afterCode, show (cursorAt tokens (n + 1) opened).token.kind = _ from hopened.kind,
      show (cursorAt tokens (n + 1) opened).token.text = _ from hopened.text]
    exact (shapeOf_openParen his).trans (by rw [hs, hpending]; rfl)
  have hname : Reaches o tokens (n + 3) braces (.inCondition start extra) :=
    hopen.name hdrop₂ hinside
  obtain ⟨s, indent, -, hs, hreaches⟩ := hname.mark hdrop₃ hclosed (by simp)
  refine hreaches _ ?_
  rw [State.afterCode, show (cursorAt tokens (n + 3) closed).token.kind = _ from hclosed.kind,
    show (cursorAt tokens (n + 3) closed).token.text = _ from hclosed.text]
  exact (shapeOf_closeParen (congrArg Shape.conditions hs)).trans (by rw [hs]; rfl)

theorem semicolon (h : Reaches o tokens n braces shape) (hcode : ∀ t ∈ tokens, t.isTrivia = false)
    (hbraces : Ordinary braces) (hdrop : tokens.drop n = t :: rest)
    (hmark : Marked [(.punctuation, ";")] [t]) (hshape : shape.conditions = []) :
    ∃ extra, Reaches o tokens (n + 1) braces (.idle shape.start extra false) ∧
      (startsWord "else" rest = false → extra = 0) := by
  obtain ⟨s, indent, hs, hentered, hreaches⟩ := h.mark hdrop hmark (by simp)
  have hentered : shapeOf s.stmt = shape.entered n true := hentered
  have hconditions : (shapeOf s.stmt).conditions = [] := by
    rw [hentered, Shape.entered, Bool.or_true, if_pos rfl]
    exact hshape
  have hstart : s.stmt.start = shape.start := by
    show (shapeOf s.stmt).start = _
    rw [hentered, Shape.entered, Bool.or_true, if_pos rfl]
  obtain ⟨extra, hended, hextra⟩ :=
    shapeOf_endStatement (o := o) (c := cursorAt tokens n t) hconditions
  rw [hstart] at hended
  rw [nextCodeIs_of_drop hcode hdrop] at hextra
  refine ⟨extra, hreaches _ ?_, hextra⟩
  have hends : (s.stmt.parens.isEmpty && !s.innermostIs (·.kind == .initializer)) = true := by
    rw [Ordinary.not_initializer (hs.symm ▸ hbraces), List.map_eq_nil_iff.mp hconditions]
    rfl
  rw [State.afterCode, show (cursorAt tokens n t).token.kind = _ from hmark.kind,
    show (cursorAt tokens n t).token.text = _ from hmark.text]
  exact (congrArg (fun s : State => shapeOf s.stmt) (if_pos hends)).trans hended

theorem opening {isDo : Bool} (h : Reaches o tokens n braces (.idle start extra pending))
    (hbraces : Ordinary braces) (hdrop : tokens.drop n = t :: rest) (hopen : t.is "\x7b" = true)
    (howner : pending = true → Owner tokens n start isDo) :
    ∃ b, (b.kind = .control ∨ b.kind = .plain) ∧ b.expression = false ∧
      b.isDo = (pending && isDo) ∧ shapeOf b.outer = .idle start extra pending ∧
      Reaches o tokens (n + 1) (b :: braces) (.idle 0 0 false) := by
  have hget := getElem?_of_drop hdrop
  obtain ⟨indent, outer, hopened, houter, hfresh⟩ := step_openBrace (o := o)
    (r := stage o tokens n) (c := cursorAt tokens n t) hopen
  rw [← stage_succ hget] at hopened hfresh
  have hwords : pending = true → (cursorAt tokens n t).isWordAt start "do" = isDo ∧
      (cursorAt tokens n t).isWordAt start "switch" = false := by
    intro hpending
    obtain ⟨hlt, u, hu, hdo, hswitch⟩ := howner hpending
    rw [Cursor.isWordAt, Cursor.isWordAt, tokenAt?_cursorAt hget hlt, hu]
    exact ⟨hdo, hswitch⟩
  obtain ⟨hkind, hexpression, hisDo⟩ :=
    opening_of_idle (o := o) (h.braces.symm ▸ hbraces) h.shape hwords
  refine ⟨State.openedBrace o (Plan.opening (cursorAt tokens n t) o (stage o tokens n).state)
    indent outer, hkind, hexpression, hisDo, houter.trans h.shape, ?_, ?_⟩
  · rw [hopened, h.braces]
  · rw [hfresh]
    rfl

theorem closing {b : OpenBrace} (h : Reaches o tokens n (b :: braces) shape)
    (hplain : ∀ t ∈ tokens, Mark.Plain (markOf t)) (hdrop : tokens.drop n = t :: rest)
    (hclose : t.is "\x7d" = true) (hexpression : b.expression = false)
    (houter : shapeOf b.outer = .idle start extra pending) :
    ∃ extra', Reaches o tokens (n + 1) braces (.idle start extra' false) ∧
      (startsWord "else" rest = false →
        extra' = if b.isDo && startsWord "while" rest then extra else 0) := by
  have hcode := not_isTrivia_of_plain hplain
  have hplan : (cursorAt tokens n t).plan o (stage o tokens n).state
      (stage o tokens n).conditionals (stage o tokens n).page = .closeBrace .. :=
    Cursor.plan_closeBrace hclose
  have hstep := stage_succ (o := o) (getElem?_of_drop hdrop)
  rw [Progress.step, hplan, Plan.closeBrace, h.braces] at hstep
  have hstart : b.outer.start = start := congrArg Shape.start houter
  have hextra : b.outer.headerExtra = extra := congrArg Shape.extra houter
  obtain ⟨extra', hended, hextra'⟩ := shapeOf_endBlock b.outer
    ((cursorAt tokens n t).nextCodeIs (·.isWord "else"))
    ((cursorAt tokens n t).nextCodeIs (Plan.isClosingHeader b.isDo))
  rw [nextCodeIs_of_drop hcode hdrop, nextCodeIs_isClosingHeader hplain hdrop, hextra] at hextra'
  refine ⟨extra', ⟨?_, ?_⟩, fun helse => ?_⟩
  · rw [hstep]
    simp only [State.settle, State.settleClose, hexpression, Bool.false_eq_true, if_false,
      State.finishBlock]
    exact State.braces_placed ..
  · rw [hstep]
    simp only [State.settle, State.settleClose, hexpression, Bool.false_eq_true, if_false,
      State.finishBlock]
    rw [hended, hstart]
  · rw [hextra' helse, helse, Bool.false_or]

/-- A word that starts a statement stands as deep as what is owed to it, if it starts a line. -/
theorem stands (h : Reaches o tokens n braces (.idle start extra pending))
    (hbraces : Ordinary braces) (hkind : t.kind = .word) {indent : Indent} {blankLines : Nat}
    (hlayout : (planAt o tokens n t).layout = .newLine indent blankLines) :
    indent = (baseIndent braces).deeper (extra + pending.toNat) := by
  have his : ∀ mark, t.is mark = false := fun mark => by rw [Token.is, hkind]; rfl
  have hcode : t.isTrivia = false := by rw [Token.isTrivia, hkind]
  have hactive : (stage o tokens n).state.stmt.active = false := congrArg Shape.active h.shape
  have hplan : planAt o tokens n t = .code .. :=
    Cursor.plan_code (c := cursorAt tokens n t) hcode (his _) (his _)
  have hstarts : (!(stage o tokens n).state.stmt.active && !t.is ";") = true := by
    rw [hactive, his]
    rfl
  have hextra : (stage o tokens n).state.stmt.headerExtra = extra := congrArg Shape.extra h.shape
  have hpending : (stage o tokens n).state.stmt.headerBodyPending = pending :=
    congrArg Shape.bodyPending h.shape
  have hbody : shapeOf (Plan.startBody (stage o tokens n).state.stmt true (t.is ";"))
      = .idle start (extra + pending.toNat) false := by
    rw [shapeOf_startBody, h.shape, hextra, hpending, his]
    cases pending <;> rfl
  let s : State := { (stage o tokens n).state with
    stmt := Plan.startBody (stage o tokens n).state.stmt true (t.is ";")
    afterClose := none }
  rw [hplan, Plan.code, show (cursorAt tokens n t).token = t from rfl, hstarts] at hlayout
  have hline := lineIndent_of_idle (o := o) (c := cursorAt tokens n t) (s := s)
    (h.braces.symm ▸ hbraces) hbody
  rw [← (Layout.eq_of_ite_newLine hlayout).1, ← h.braces]
  exact hline

end Reaches

end

end Beautifier.Nesting
