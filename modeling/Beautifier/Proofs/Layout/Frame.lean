/-
What decides about lines.

Much of what the layout remembers is about columns: the indentation of lines,
the columns that brackets align to, the white space that is owed.  The frame
of a state is what is left without it.  Whether a token starts a line, and
below how many empty lines, is decided by frames alone, and what a token does
to the frame depends on nothing else; so do options that are about columns
(`Options.SameLines`) and the columns at which the tokens stand in the source
(`Token.columnless`) make no difference.
-/
import Beautifier.Proofs.Layout.Replan
import Beautifier.Proofs.Token.Columns

namespace Beautifier

/-! ## Frames -/

def OpenParen.frame (p : OpenParen) : OpenParen :=
  { p with lineIndent := .zero, align := none, awaitsAlign := false }

def Statement.frame (stmt : Statement) : Statement :=
  { stmt with indent := .zero, parens := stmt.parens.map OpenParen.frame }

def OpenBrace.frame (b : OpenBrace) : OpenBrace :=
  { b with
    openIndent := .zero
    body := .zero
    closeIndent := .zero
    caseIndent := .zero
    modifierIndent := .zero
    outer := b.outer.frame }

/-- A state without indentation, alignment and the white space that is owed. -/
def State.frame (s : State) : State :=
  { s with
    braces := s.braces.map OpenBrace.frame
    stmt := s.stmt.frame
    padNext := false
    pointerAfter := none }

def Conditional.frame (c : Conditional) : Conditional :=
  ⟨c.atIf.frame, c.afterFirst.map State.frame⟩

def Opening.frame (b : Opening) : Opening := { b with base := .zero, body := .zero }

def Action.frame : Action → Action
  | .openBrace b => .openBrace b.frame
  | .closeBrace closed => .closeBrace (closed.map OpenBrace.frame)
  | action => action

/-- The empty lines above a token that starts a line; none for a token that goes on with one. -/
def Layout.blankLines? : Layout → Option Nat
  | .newLine _ blankLines => some blankLines
  | .sameLine _ => none

/-- Options that may differ in what is about columns and line endings: padding, the alignment of
pointers, tabs, and the kind, the width and the levels of indentation. -/
structure Options.SameLines (o o' : Options) : Prop where
  language : o'.language = o.language
  style : o'.style = o.style
  attachNamespaces : o'.attachNamespaces = o.attachNamespaces
  attachClasses : o'.attachClasses = o.attachClasses
  breakClosingBraces : o'.breakClosingBraces = o.breakClosingBraces
  breakBlocks : o'.breakBlocks = o.breakBlocks
  deleteEmptyLines : o'.deleteEmptyLines = o.deleteEmptyLines
  addBraces : o'.addBraces = o.addBraces
  keepOneLineBlocks : o'.keepOneLineBlocks = o.keepOneLineBlocks
  keepOneLineStatements : o'.keepOneLineStatements = o.keepOneLineStatements

def Cursor.columnless (c : Cursor) : Cursor :=
  { c with
    before := c.before.map Token.columnless
    token := c.token.columnless
    after := c.after.map Token.columnless }

variable {o o' : Options} {c c' : Cursor}

theorem Options.SameLines.refl (o : Options) : o.SameLines o :=
  ⟨rfl, rfl, rfl, rfl, rfl, rfl, rfl, rfl, rfl, rfl⟩

theorem Options.SameLines.placement (h : o.SameLines o') (k : BlockKind) :
    o'.placement k = o.placement k := by
  simp only [Options.placement, h.style, h.attachNamespaces, h.attachClasses]

theorem Options.SameLines.breakClosingHeaders (h : o.SameLines o') :
    o'.breakClosingHeaders = o.breakClosingHeaders := by
  simp only [Options.breakClosingHeaders, h.style, h.breakClosingBraces]

/-! ## Tokens without columns -/

namespace Cursor

theorem bare_columnless (c : Cursor) : c.columnless.bare = c.bare := by
  simp only [bare, columnless, List.map_map]
  rfl

theorem bare_eq (h : c'.columnless = c.columnless) : c'.bare = c.bare := by
  rw [← bare_columnless c', h, bare_columnless]

theorem token_eq (h : c'.columnless = c.columnless) : c'.token.columnless = c.token.columnless :=
  congrArg Cursor.token h

theorem space_eq (h : c'.columnless = c.columnless) : c'.token.space = c.token.space :=
  (Token.mk.inj (token_eq h)).2.2.2.1

theorem lineBreaks_eq (h : c'.columnless = c.columnless) :
    c'.token.lineBreaks = c.token.lineBreaks :=
  (Token.mk.inj (token_eq h)).2.2.1

theorem text_eq (h : c'.columnless = c.columnless) : c'.token.text = c.token.text :=
  (Token.mk.inj (token_eq h)).2.1

theorem inserted_eq (h : c'.columnless = c.columnless) : c'.token.inserted = c.token.inserted :=
  (Token.mk.inj (token_eq h)).2.2.2.2.2

theorem position_eq (h : c'.columnless = c.columnless) : c'.position = c.position :=
  (Cursor.mk.inj h).2.2.2.1

theorem closer_eq (h : c'.columnless = c.columnless) : c'.closer = c.closer :=
  (Cursor.mk.inj h).2.2.2.2

theorem role_eq (h : c'.columnless = c.columnless) (s : State) (hasPointers : Bool) :
    c'.role s hasPointers = c.role s hasPointers := by
  refine role_again (bare_eq h) (fun _ => ?_) s hasPointers
  rw [Token.standsApart, Token.standsApart, space_eq h, lineBreaks_eq h]

theorem onOneLine_columnless (c : Cursor) : Plan.onOneLine c.columnless = Plan.onOneLine c := by
  simp only [Plan.onOneLine, columnless, upTo, ← List.map_take, List.all_map]
  rfl

end Cursor

/-! ## Questions asked of a state -/

namespace State

variable (s : State)

theorem innermostIs_frame {p : OpenBrace → Bool} (hp : ∀ b : OpenBrace, p b.frame = p b) :
    s.frame.innermostIs p = s.innermostIs p := by
  rw [innermostIs, innermostIs, frame]
  cases s.braces with
  | nil => rfl
  | cons b outer => exact hp b

@[simp] theorem inFunction_frame : s.frame.inFunction = s.inFunction := by
  simp only [inFunction, frame, List.any_map]
  rfl

@[simp] theorem inKeptLine_frame : s.frame.inKeptLine = s.inKeptLine := by
  simp only [inKeptLine, frame, List.any_map]
  rfl

@[simp] theorem inCodeScope_frame : s.frame.inCodeScope = s.inCodeScope :=
  s.innermostIs_frame fun _ => rfl

end State

theorem Role.isComparison_frame (c : Cursor) (s : State) :
    isComparison c s.frame = isComparison c s := by
  simp only [isComparison, State.frame, Statement.frame]
  cases s.stmt.parens <;> rfl

theorem Role.pointerContext_frame (c : Cursor) (s : State) :
    pointerContext c s.frame = pointerContext c s := by
  simp only [pointerContext, State.frame, Statement.frame]
  cases s.stmt.parens <;> rfl

theorem Role.ofPointer_frame (c : Cursor) (s : State) (hasPointers : Bool) (prev : Token) :
    ofPointer c s.frame hasPointers prev = ofPointer c s hasPointers prev := by
  rw [ofPointer, ofPointer, pointerContext_frame]
  rfl

namespace Cursor

variable (c : Cursor) (s : State)

theorem role_frame (hasPointers : Bool) : c.role s.frame hasPointers = c.role s hasPointers := by
  simp only [role, Role.ofPunctuation, Role.ofPointer_frame, Role.isComparison_frame]
  rfl

theorem classify_frame : c.classify s.frame = c.classify s := by
  have hinitializer : s.frame.innermostIs (·.kind == .initializer)
      = s.innermostIs (·.kind == .initializer) := s.innermostIs_frame fun _ => rfl
  have hstatement : c.classifyInStatement s.frame = c.classifyInStatement s := by
    rw [classifyInStatement, classifyInStatement, State.inCodeScope_frame]
    rfl
  have hparens : s.frame.stmt.parens.isEmpty = s.stmt.parens.isEmpty := List.isEmpty_map
  rw [classify, classify, hinitializer, hstatement, hparens]
  rfl

end Cursor

/-! ## What is known of a block -/

namespace Plan

variable {s : State}

theorem isSome_labelledSwitch?_frame (s : State) (owned : Bool) (kind : BlockKind) :
    (labelledSwitch? s.frame owned kind).isSome = (labelledSwitch? s owned kind).isSome := by
  rw [labelledSwitch?, labelledSwitch?, State.frame]
  cases s.braces with
  | nil => rfl
  | cons b outer =>
      simp only [Statement.frame, List.map_cons, List.head?_cons, Option.filter_some]
      split
      · cases hkind : b.kind == .switch <;> simp [OpenBrace.frame, hkind]
      · rfl

/-- But for its indentation, what is known of a block is decided by the frame. -/
theorem opening_frame (ho : o.SameLines o') (hc : c'.columnless = c.columnless) (s : State) :
    (opening c' o' s.frame).frame = (opening c o s).frame := by
  have hclassify : c'.classify s.frame = c.classify s := by
    rw [Cursor.eq_of_bare (·.classify s.frame) (fun c => c.classify_bare s.frame)
      (Cursor.bare_eq hc), c.classify_frame]
  have hdo : c'.isWordAt s.frame.stmt.start "do" = c.isWordAt s.stmt.start "do" :=
    Cursor.eq_of_bare (·.isWordAt s.stmt.start "do") (fun c => c.isWordAt_bare _ _)
      (Cursor.bare_eq hc)
  have hline : onOneLine c' = onOneLine c := by
    rw [← Cursor.onOneLine_columnless c', hc, Cursor.onOneLine_columnless]
  simp only [opening, hclassify, hdo, hline, Cursor.closer_eq hc, Cursor.position_eq hc,
    State.inKeptLine_frame, ho.keepOneLineBlocks]
  rfl

theorem placement_frame (ho : o.SameLines o') (s : State) (b : Opening) :
    placement o' s.frame b.frame = placement o s b := by
  have hswitch : (labelledSwitch? s.frame (ownsBlock s.frame.stmt) b.frame.kind).isSome
      = (labelledSwitch? s (ownsBlock s.stmt) b.kind).isSome :=
    isSome_labelledSwitch?_frame s _ _
  rw [placement, placement, hswitch, ho.placement]
  rfl

end Plan

/-! ## What a token does to the frame -/

theorem OpenParen.map_frame_frame (parens : List OpenParen) :
    (parens.map OpenParen.frame).map OpenParen.frame = parens.map OpenParen.frame := by
  rw [List.map_map]
  rfl

@[simp] theorem Statement.frame_frame (stmt : Statement) : stmt.frame.frame = stmt.frame := by
  simp only [Statement.frame, OpenParen.map_frame_frame]

@[simp] theorem OpenBrace.frame_frame (b : OpenBrace) : b.frame.frame = b.frame := by
  simp only [OpenBrace.frame, Statement.frame_frame]

theorem OpenBrace.map_frame_frame (braces : List OpenBrace) :
    (braces.map OpenBrace.frame).map OpenBrace.frame = braces.map OpenBrace.frame := by
  rw [List.map_map]
  exact List.map_congr_left fun b _ => b.frame_frame

namespace State

@[simp] theorem frame_frame (s : State) : s.frame.frame = s.frame := by
  simp only [frame, OpenBrace.map_frame_frame, Statement.frame_frame]

theorem frame_amendParen {f : OpenParen → OpenParen} (hf : ∀ p, (f p).frame = p.frame)
    (s : State) : (s.amendParen f).frame = s.frame := by
  rw [amendParen]
  cases hparens : s.stmt.parens with
  | nil => rfl
  | cons p outer => simp [frame, Statement.frame, hparens, hf]

theorem frame_placed (s : State) (c : Cursor) (layout : Layout) (column : Nat) :
    (s.placed c layout column).frame =
      { s.frame with
        forceBreak := layout.blankLines?.isNone && s.frame.forceBreak && c.token.isTrivia
        blankAfterBlock := layout.blankLines?.isNone && s.frame.blankAfterBlock
        lastOnLine := some c.position } := by
  cases layout with
  | newLine indent blankLines =>
      have hamend := s.frame_amendParen (f := fun p => { p with awaitsAlign := false })
        fun _ => rfl
      simp only [frame, State.mk.injEq] at hamend
      simp [placed, frame, hamend, Layout.blankLines?]
  | sameLine spacing =>
      have hamend := s.frame_amendParen (f := fun p =>
        if p.awaitsAlign then { p with awaitsAlign := false, align := some column } else p)
        fun p => by split <;> rfl
      simp only [frame, State.mk.injEq] at hamend
      cases htrivia : c.token.isTrivia <;>
        simp [placed, frame, htrivia, hamend, Layout.blankLines?]

theorem placed_congr {s s' : State} (hs : s'.frame = s.frame) (hc : c'.columnless = c.columnless)
    {layout layout' : Layout} (hlayout : layout'.blankLines? = layout.blankLines?)
    (column column' : Nat) :
    (s'.placed c' layout' column').frame = (s.placed c layout column).frame := by
  have htrivia : c'.token.isTrivia = c.token.isTrivia := by
    rw [← Token.isTrivia_bare, Cursor.token_bare_eq (Cursor.bare_eq hc), Token.isTrivia_bare]
  rw [frame_placed, frame_placed, hlayout, htrivia, Cursor.position_eq hc, hs]

/-! ### Code -/

theorem beginStatement_frame (hc : c'.columnless = c.columnless) (s : State)
    (layout layout' : Layout) (lineIndent lineIndent' : Indent) :
    (s.frame.beginStatement c' layout' lineIndent').frame
      = (s.beginStatement c layout lineIndent).frame := by
  simp only [beginStatement, frame, Statement.frame, OpenBrace.map_frame_frame,
    Cursor.position_eq hc]

theorem owesSpacing_frame (s : State) (role : Role) :
    (s.frame.owesSpacing c' o' role).frame = (s.owesSpacing c o role).frame := by
  simp only [owesSpacing, frame, OpenBrace.map_frame_frame, Statement.frame_frame]

theorem headerKeyword_frame (s : State) (c : Cursor) :
    s.frame.headerKeyword c = (s.headerKeyword c).frame := by
  simp only [headerKeyword, apply_ite State.frame]
  rfl

theorem openParen_frame (s : State) (c : Cursor) (lineIndent lineIndent' : Indent) :
    (s.frame.openParen c lineIndent').frame = (s.openParen c lineIndent).frame := by
  simp only [openParen, inCodeScope_frame]
  generalize s.inCodeScope = inScope
  simp only [frame, Statement.frame, OpenBrace.map_frame_frame, List.map_cons,
    OpenParen.map_frame_frame]
  rfl

theorem closeParen_frame (s : State) : s.frame.closeParen = s.closeParen.frame := by
  obtain ⟨braces, ⟨active, start, indent, parens, -⟩, -⟩ := s
  cases parens with
  | nil => rfl
  | cons p outer =>
      simp only [closeParen, apply_ite State.frame]
      simp only [frame, Statement.frame, List.map_cons, List.isEmpty_map]
      rfl

theorem endBody_frame (stmt : Statement) (beforeElse : Bool) :
    Statement.endBody stmt.frame beforeElse = (Statement.endBody stmt beforeElse).frame := by
  obtain ⟨active, start, indent, parens, headerExtra, ifLevels, -⟩ := stmt
  cases ifLevels with
  | nil => rfl
  | cons level outer => cases beforeElse <;> rfl

theorem endStatement_frame (ho : o.SameLines o') (s : State) (c : Cursor) :
    s.frame.endStatement c o' = (s.endStatement c o).frame := by
  simp only [endStatement, inKeptLine_frame, ho.keepOneLineStatements]
  simp only [frame, State.mk.injEq, true_and, and_true]
  exact endBody_frame { s.stmt with
    active := false
    headerParenPending := false
    headerBodyPending := false
    ternary := 0 } _

theorem endsLabel_frame (s : State) (c : Cursor) : s.frame.endsLabel c = s.endsLabel c := by
  have hcode : c.statementCode s.frame = c.statementCode s := rfl
  rw [endsLabel, endsLabel, hcode, frame]
  cases s.braces with
  | nil => rfl
  | cons brace outer => cases c.statementCode s <;> rfl

theorem colon_frame (s : State) (c : Cursor) : s.frame.colon c = (s.colon c).frame := by
  have hparens : s.frame.stmt.parens.isEmpty = s.stmt.parens.isEmpty := List.isEmpty_map
  simp only [colon, endsLabel_frame, hparens, apply_ite State.frame]
  rfl

theorem afterCode_frame (ho : o.SameLines o') (hc : c'.columnless = c.columnless) (s : State)
    (lineIndent lineIndent' : Indent) :
    (s.frame.afterCode c' o' lineIndent').frame = (s.afterCode c o lineIndent).frame := by
  have hcursor : s.frame.afterCode c' o' lineIndent' = s.frame.afterCode c o' lineIndent' :=
    Cursor.eq_of_bare (s.frame.afterCode · o' lineIndent')
      (fun c => s.frame.afterCode_bare c o' lineIndent') (Cursor.bare_eq hc)
  have hinitializer : s.frame.innermostIs (·.kind == .initializer)
      = s.innermostIs (·.kind == .initializer) := s.innermostIs_frame fun _ => rfl
  have hparens : s.frame.stmt.parens.isEmpty = s.stmt.parens.isEmpty := List.isEmpty_map
  rw [hcursor, afterCode, afterCode]
  cases c.token.kind with
  | word =>
      dsimp only
      rw [headerKeyword_frame, frame_frame]
  | punctuation =>
      dsimp only
      rw [hinitializer, hparens]
      split
      · exact openParen_frame s c _ _
      · exact openParen_frame s c _ _
      · rw [closeParen_frame, frame_frame]
      · rw [closeParen_frame, frame_frame]
      · split
        · rw [endStatement_frame ho, frame_frame]
        · exact frame_frame s
      · simp only [frame, Statement.frame, OpenBrace.map_frame_frame, OpenParen.map_frame_frame]
      · rw [colon_frame, frame_frame]
      · exact frame_frame s
  | _ => exact frame_frame s

/-- Where the frame of a result depends on the frame alone, states with one frame may stand for
each other. -/
theorem frame_congr {f g : State → State} (hfg : ∀ s : State, (f s.frame).frame = (g s).frame)
    (hf : ∀ s : State, (f s.frame).frame = (f s).frame) {s s' : State} (hs : s'.frame = s.frame) :
    (f s').frame = (g s).frame := by
  rw [← hf, hs, hfg]

theorem settleCode_frame (ho : o.SameLines o') (hc : c'.columnless = c.columnless) (s : State)
    (layout layout' : Layout) (lineIndent lineIndent' : Indent) (starts : Bool) (role : Role) :
    (s.frame.settleCode c' o' layout' lineIndent' starts role).frame
      = (s.settleCode c o layout lineIndent starts role).frame := by
  have hbegun : (if starts then s.frame.beginStatement c' layout' lineIndent' else s.frame).frame
      = (if starts then s.beginStatement c layout lineIndent else s).frame := by
    cases starts with
    | true => exact beginStatement_frame hc s _ _ _ _
    | false => exact frame_frame s
  have howed := frame_congr (f := (·.owesSpacing c' o' role)) (g := (·.owesSpacing c o role))
    (owesSpacing_frame · role) (owesSpacing_frame · role) hbegun
  exact frame_congr (f := (·.afterCode c' o' lineIndent')) (g := (·.afterCode c o lineIndent))
    (afterCode_frame ho hc · _ _) (afterCode_frame (.refl o') rfl · _ _) howed

/-! ### Blocks -/

theorem settleOpen_frame {b b' : Opening} (hb : b'.frame = b.frame) (s : State)
    (lineIndent lineIndent' : Indent) :
    (s.frame.settleOpen o' b' lineIndent').frame = (s.settleOpen o b lineIndent).frame := by
  obtain ⟨hkind, hexpression, hdo, hkeep, hempty, hkept, -⟩ := Opening.mk.inj hb
  simp only [settleOpen, openedBrace, hkind, hexpression, hdo, hkeep, hempty, hkept]
  simp only [frame, List.map_cons, OpenBrace.map_frame_frame, OpenBrace.frame,
    Statement.frame_frame]

theorem endBlock_frame (stmt : Statement) (beforeElse closingHeader : Bool) :
    Statement.endBlock stmt.frame beforeElse closingHeader
      = (Statement.endBlock stmt beforeElse closingHeader).frame := by
  obtain ⟨active, start, indent, parens, headerExtra, ifLevels, -⟩ := stmt
  cases beforeElse <;> cases closingHeader <;> cases ifLevels <;> rfl

theorem finishBlock_frame (ho : o.SameLines o') (s : State) (c : Cursor) (closed : ClosedBrace) :
    s.frame.finishBlock c o' closed = (s.finishBlock c o closed).frame := by
  simp only [finishBlock, inKeptLine_frame, ho.keepOneLineStatements, ho.breakBlocks]
  simp only [frame, endBlock_frame]

theorem settleClose_frame (ho : o.SameLines o') (hc : c'.columnless = c.columnless)
    {b b' : OpenBrace} (hb : b'.frame = b.frame) (s : State) :
    (s.frame.settleClose c' o' b').frame = (s.settleClose c o b).frame := by
  have hcursor : s.frame.settleClose c' o' b' = s.frame.settleClose c o' b' :=
    Cursor.eq_of_bare (s.frame.settleClose · o' b')
      (fun c => s.frame.settleClose_bare c o' b') (Cursor.bare_eq hc)
  obtain ⟨hkind, hexpression, hdo, -, -, -, -, -, -, -, houter⟩ := OpenBrace.mk.inj hb
  rw [hcursor, settleClose, settleClose, hkind, hexpression, hdo]
  have hresumed : ∀ closed : ClosedBrace,
      { s.frame with
        stmt := b'.outer
        afterClose := some closed
        afterOpenBrace := false
        padNext := false
        pointerAfter := none
        pointerRun := false : State }.frame
      = { s with
        stmt := b.outer
        afterClose := some closed
        afterOpenBrace := false
        padNext := false
        pointerAfter := none
        pointerRun := false : State }.frame := by
    intro closed
    simp only [frame, OpenBrace.map_frame_frame, houter]
  cases b.expression with
  | true => exact hresumed _
  | false =>
      simp only [Bool.false_eq_true, if_false]
      rw [← finishBlock_frame (.refl o'), hresumed, finishBlock_frame ho]

/-! ### All tokens -/

theorem settle_frame (ho : o.SameLines o') (hc : c'.columnless = c.columnless) {p p' : Plan}
    (haction : p'.action.frame = p.action.frame) (s : State) (lineIndent lineIndent' : Indent) :
    (s.frame.settle c' o' p' lineIndent').frame = (s.settle c o p lineIndent).frame := by
  obtain ⟨action, _, _, layout⟩ := p
  obtain ⟨action', _, _, layout'⟩ := p'
  cases action with
  | directive => cases action' <;> first | exact frame_frame s | cases haction
  | comment => cases action' <;> first | exact frame_frame s | cases haction
  | code starts role =>
      cases action' <;> cases haction
      exact settleCode_frame ho hc s layout layout' _ _ starts role
  | openBrace b =>
      cases action' with
      | openBrace b' => exact settleOpen_frame (Action.openBrace.inj haction) s _ _
      | _ => cases haction
  | closeBrace closed =>
      cases action' with
      | closeBrace closed' =>
          have hclosed := Action.closeBrace.inj haction
          cases closed with
          | none =>
              cases Option.map_eq_none_iff.mp hclosed
              exact frame_frame s
          | some b =>
              obtain ⟨b', rfl, hb⟩ := Option.map_eq_some_iff.mp hclosed
              exact settleClose_frame ho hc hb s
      | _ => cases haction

theorem settle_congr {s s' : State} (hs : s'.frame = s.frame) (ho : o.SameLines o')
    (hc : c'.columnless = c.columnless) {p p' : Plan} (haction : p'.action.frame = p.action.frame)
    (lineIndent lineIndent' : Indent) :
    (s'.settle c' o' p' lineIndent').frame = (s.settle c o p lineIndent).frame :=
  frame_congr (f := (·.settle c' o' p' lineIndent')) (g := (·.settle c o p lineIndent))
    (settle_frame ho hc haction · _ _) (settle_frame (.refl o') rfl rfl · _ _) hs

end State

end Beautifier
