/-
Formatting with every access checked.

The layout looks up tokens by position, cuts the list of tokens, counts
brackets and question marks down and divides by the width of a level.  In the
definitions of the layout none of this can fail: what lies outside a list is
not there, and differences stop at zero.  Here each function that does such a
thing has a twin that gives none where a position is out of range, a count
would fall below zero or a divisor is zero, and gives what the function gives
where all is well.
-/
import Mathlib.Data.List.Basic
import Beautifier.Proofs.Layout.Stage

namespace Beautifier

/-! ## Counts and positions -/

def difference? (m n : Nat) : Option Nat := if n ≤ m then some (m - n) else none

def quotient? (m n : Nat) : Option (Nat × Nat) := if n = 0 then none else some (m / n, m % n)

/-- The tokens from one position up to another, if both lie in the list and in this order. -/
def slice? (tokens : List Token) (start stop : Nat) : Option (List Token) :=
  if start ≤ stop ∧ stop ≤ tokens.length then some ((tokens.take stop).drop start) else none

variable {m n : Nat} {tokens : List Token} {t : Token}

theorem difference?_eq (h : n ≤ m) : difference? m n = some (m - n) := if_pos h

theorem difference?_one (h : m ≠ 0) : difference? m 1 = some (m - 1) :=
  difference?_eq (Nat.one_le_iff_ne_zero.mpr h)

theorem quotient?_eq (h : 0 < n) : quotient? m n = some (m / n, m % n) :=
  if_neg (Nat.pos_iff_ne_zero.mp h)

theorem slice?_eq {start stop : Nat} (h : start ≤ stop) (hstop : stop ≤ tokens.length) :
    slice? tokens start stop = some ((tokens.take stop).drop start) := if_pos ⟨h, hstop⟩

/-! ## Columns -/

namespace Column

def step? (width column : Nat) (c : Char) : Option Nat :=
  if c = '\t' then (quotient? column width).map fun (quotient, _) => (quotient + 1) * width
  else some (column + 1)

def advance? (width column : Nat) (text : List Char) : Option Nat :=
  text.foldlM (step? width) column

def expandTabs? (width : Nat) : Nat → List Char → Option (List Char)
  | _, [] => some []
  | column, c :: rest => do
      let next ← step? width column c
      let others ← expandTabs? width next rest
      return if c = '\t' then List.replicate (next - column) ' ' ++ others else c :: others

variable {width : Nat} (hwidth : 0 < width)
include hwidth

theorem step?_eq (column : Nat) (c : Char) : step? width column c = some (step width column c) := by
  rw [step?, step, quotient?_eq hwidth]
  split <;> rfl

theorem advance?_eq (column : Nat) (text : List Char) :
    advance? width column text = some (advance width column text) := by
  induction text generalizing column with
  | nil => rfl
  | cons c rest ih =>
      rw [advance?, List.foldlM_cons, step?_eq hwidth]
      exact ih _

theorem expandTabs?_eq (column : Nat) (text : List Char) :
    expandTabs? width column text = some (expandTabs width column text) := by
  induction text generalizing column with
  | nil => rfl
  | cons c rest ih =>
      rw [expandTabs?, expandTabs, step?_eq hwidth]
      simp only [Option.bind_eq_bind, Option.bind_some, ih, Option.pure_def]

end Column

/-! ## Indentation -/

namespace Indent

def alignedTo? (width : Nat) (i : Indent) (column : Nat) : Option Indent :=
  if i.levels * width ≤ column then
    (difference? column (i.levels * width)).map fun spaces => { i with spaces }
  else some (ofSpaces column)

theorem alignedTo?_eq (width : Nat) (i : Indent) (column : Nat) :
    alignedTo? width i column = some (alignedTo width i column) := by
  rw [alignedTo?, alignedTo]
  split
  · next h => rw [difference?_eq h, Option.map_some]
  · rfl

def chars? (kind : IndentKind) (width : Nat) (i : Indent) : Option (List Char) := do
  let (tabs, spaces) ← match kind with
    | .spaces => some (0, i.columns width)
    | .tab => some (i.levels, i.spaces)
    | .forceTab => quotient? (i.columns width) width
  return List.replicate tabs '\t' ++ List.replicate spaces ' '

theorem chars?_eq {width : Nat} (hwidth : 0 < width) (kind : IndentKind) (i : Indent) :
    chars? kind width i = some (chars kind width i) := by
  cases kind with
  | forceTab =>
      rw [chars?, quotient?_eq hwidth]
      rfl
  | _ => rfl

end Indent

/-! ## Lines -/

namespace Line

def column? (width : Nat) (l : Line) : Option Nat :=
  Column.advance? width (l.indent.columns width) l.text.toList

def chars? (kind : IndentKind) (width : Nat) (l : Line) : Option (List Char) :=
  let text := if l.trimmed then trimRight isBlank l.text.toList else l.text.toList
  if text.isEmpty then some [] else (l.indent.chars? kind width).map (· ++ text)

/-- The blanks in front of a further line of a block comment are cut off by counting. -/
def continuation? (kind : TokenKind) (width : Nat) (shift : Int) (piece : List Char) :
    Option Line :=
  match kind with
  | .blockComment => do
      let content := piece.dropWhile isBlank
      let blanks ← difference? piece.length content.length
      let column ← Column.advance? width 0 (piece.take blanks)
      return { empty (.ofSpaces (column + shift).toNat) with text := String.ofList content }
  | _ => some (continuation kind width shift piece)

variable {width : Nat} (hwidth : 0 < width)
include hwidth

theorem column?_eq (l : Line) : l.column? width = some (l.column width) :=
  Column.advance?_eq hwidth _ _

theorem chars?_eq (kind : IndentKind) (l : Line) :
    l.chars? kind width = some (l.chars kind width) := by
  rw [chars?, chars, Indent.chars?_eq hwidth, Option.map_some]
  exact (apply_ite some _ _ _).symm

theorem continuation?_eq (kind : TokenKind) (shift : Int) (piece : List Char) :
    continuation? kind width shift piece = some (continuation kind width shift piece) := by
  cases kind with
  | blockComment =>
      have hlength : (piece.takeWhile isBlank).length + (piece.dropWhile isBlank).length
          = piece.length := by
        rw [← List.length_append, List.takeWhile_append_dropWhile]
      have hblanks : piece.take (piece.length - (piece.dropWhile isBlank).length)
          = piece.takeWhile isBlank := by
        rw [← hlength, Nat.add_sub_cancel]
        exact (List.prefix_iff_eq_take.mp (List.takeWhile_prefix _)).symm
      simp only [continuation?, difference?_eq (hlength ▸ Nat.le_add_left _ _),
        Option.bind_eq_bind, Option.bind_some, hblanks, Column.advance?_eq hwidth]
      rfl
  | _ => rfl

end Line

/-! ## Pages -/

namespace Page

def column? (width : Nat) (p : Page) : Option Nat :=
  match p.lines with
  | [] => some 0
  | l :: _ => l.column? width

/-- The line that is changed is looked up by counting; lines stand in reverse. -/
def amend? (p : Page) (f : Line → Line) : Option Page :=
  let lines := if p.lines.isEmpty then [.empty .zero] else p.lines.reverse
  do
    let last ← difference? lines.length 1
    let l ← lines[last]?
    return ⟨(lines.set last (f l)).reverse⟩

def push? (p : Page) (width : Nat) (kind : TokenKind) (shift : Int) (text : String) :
    Option Page := do
  let (first, others) := linesOf (glyphs text.toList)
  let begun ← p.amend? fun l =>
    let l := l.append (String.ofList first)
    if Line.keepsBlanks kind && !others.isEmpty then { l with trimmed := false } else l
  let below ← others.mapM (Line.continuation? kind width shift)
  Page.amend? ⟨below.reverse ++ begun.lines⟩ (Line.mark kind)

def sourceGap? (p : Page) (o : Options) (t : Token) : Option String :=
  if o.convertTabs then do
    let column ← p.column? o.indentWidth
    return String.ofList (← Column.expandTabs? o.indentWidth column t.space.toList)
  else some t.space

def gap? (p : Page) (o : Options) (t : Token) : Spacing → Option String
  | .none => some ""
  | .one => some " "
  | .asWritten => p.sourceGap? o t
  | .atLeastOne => if t.space.isEmpty || 0 < t.lineBreaks then some " " else p.sourceGap? o t

def ready? (p : Page) (o : Options) (t : Token) : Layout → Option Page
  | .newLine indent blankLines => some (p.newLine indent blankLines)
  | .sameLine spacing => do p.amend? (·.append (← p.gap? o t spacing))

def shift? (p : Page) (o : Options) (t : Token) : Option Int :=
  if t.kind == .blockComment then
    (p.column? o.indentWidth).map fun column => (column : Int) - t.column
  else some 0

def write? (p : Page) (o : Options) (t : Token) : Option Page := do
  p.push? o.indentWidth t.kind (← p.shift? o t) t.text

def render? (p : Page) (kind : IndentKind) (width : Nat) (lineEnd : LineEnd)
    (trailingBreaks : Nat) : Option String := do
  let lines ← p.lines.reverse.mapM (Line.chars? kind width)
  let joined := (lines.intersperse lineEnd.chars).flatten
  return String.ofList (joined ++ (List.replicate trailingBreaks lineEnd.chars).flatten)

theorem amend?_eq (p : Page) (f : Line → Line) : p.amend? f = some (p.amend f) := by
  obtain ⟨lines⟩ := p
  cases lines with
  | nil => rfl
  | cons l rest =>
      simp [amend?, amend, difference?]

theorem mapM_eq_map {α β : Type} {f : α → Option β} {g : α → β} (h : ∀ a, f a = some (g a))
    (as : List α) : as.mapM f = some (as.map g) := by
  rw [funext h]
  exact List.mapM_pure

variable {o : Options} (hwidth : 0 < o.indentWidth)
include hwidth

theorem column?_eq (p : Page) : p.column? o.indentWidth = some (p.column o.indentWidth) := by
  rw [column?, column]
  cases p.lines with
  | nil => rfl
  | cons l rest => exact Line.column?_eq hwidth l

theorem push?_eq (p : Page) (kind : TokenKind) (shift : Int) (text : String) :
    p.push? o.indentWidth kind shift text = some (p.push o.indentWidth kind shift text) := by
  simp only [push?, push, amend?_eq, mapM_eq_map (Line.continuation?_eq hwidth kind shift),
    Option.bind_eq_bind, Option.bind_some]

theorem sourceGap?_eq (p : Page) (t : Token) : p.sourceGap? o t = some (p.sourceGap o t) := by
  rw [sourceGap?, sourceGap]
  split
  · simp only [column?_eq hwidth, Column.expandTabs?_eq hwidth, Option.bind_eq_bind,
      Option.bind_some, Option.pure_def]
  · rfl

theorem gap?_eq (p : Page) (t : Token) (spacing : Spacing) :
    p.gap? o t spacing = some (p.gap o t spacing) := by
  cases spacing with
  | none => rfl
  | one => rfl
  | asWritten => exact sourceGap?_eq hwidth p t
  | atLeastOne =>
      rw [gap?, gap, sourceGap?_eq hwidth]
      exact (apply_ite some _ _ _).symm

theorem ready?_eq (p : Page) (t : Token) (layout : Layout) :
    p.ready? o t layout = some (p.ready o t layout) := by
  cases layout with
  | newLine => rfl
  | sameLine spacing =>
      rw [ready?, gap?_eq hwidth]
      exact p.amend?_eq _

theorem write?_eq (p : Page) (t : Token) : p.write? o t = some (p.write o t) := by
  have hshift : p.shift? o t = some (p.shift o t) := by
    rw [shift?, shift, column?_eq hwidth]
    exact (apply_ite some _ _ _).symm
  rw [write?, hshift]
  exact push?_eq hwidth p _ _ _

theorem render?_eq (p : Page) (kind : IndentKind) (lineEnd : LineEnd) (trailingBreaks : Nat) :
    p.render? kind o.indentWidth lineEnd trailingBreaks
      = some (p.render kind o.indentWidth lineEnd trailingBreaks) := by
  rw [render?, mapM_eq_map (Line.chars?_eq hwidth kind)]
  rfl

end Page

/-! ## Cursors -/

section Cursors

theorem lt_length (hget : tokens[n]? = some t) : n < tokens.length :=
  (List.getElem?_eq_some_iff.mp hget).1

theorem exists_getElem?_of_lt (hget : tokens[n]? = some t) (hm : m < n) :
    ∃ u, tokens[m]? = some u :=
  ⟨_, List.getElem?_eq_getElem (Nat.lt_trans hm (lt_length hget))⟩

theorem since_cursorAt (hget : tokens[n]? = some t) (hm : m ≤ n) :
    (cursorAt tokens n t).since m = ((tokens.take n).drop m).reverse := by
  have hlength : (tokens.take n).length = n :=
    List.length_take_of_le (Nat.le_of_lt (lt_length hget))
  simp only [Cursor.since, cursorAt, List.take_reverse, hlength, Nat.sub_sub_self hm]

theorem since_min_cursorAt (hget : tokens[n]? = some t) (m : Nat) :
    (cursorAt tokens n t).since m = ((tokens.take n).drop (min m n)).reverse := by
  have hposition : (cursorAt tokens n t).position = n := rfl
  rw [← since_cursorAt hget (Nat.min_le_right _ _), Cursor.since, Cursor.since, hposition]
  congr 1
  omega

theorem beforePosition_cursorAt (hget : tokens[n]? = some t) (hm : m ≤ n) :
    (cursorAt tokens n t).beforePosition m = (tokens.take m).reverse := by
  have hlength : (tokens.take n).length = n :=
    List.length_take_of_le (Nat.le_of_lt (lt_length hget))
  simp only [Cursor.beforePosition, cursorAt, List.drop_reverse, hlength, Nat.sub_sub_self hm,
    List.take_take, Nat.min_eq_left hm]

theorem tokenAt?_cursorAt (hget : tokens[n]? = some t) (hm : m < n) :
    (cursorAt tokens n t).tokenAt? m = tokens[m]? := by
  have hlength : (tokens.take n).length = n :=
    List.length_take_of_le (Nat.le_of_lt (lt_length hget))
  have hlt : n - m - 1 < (tokens.take n).length := by omega
  have hback : n - 1 - (n - m - 1) = m := by omega
  simp only [Cursor.tokenAt?, cursorAt, hm, if_true]
  rw [List.getElem?_reverse hlt, hlength, hback, List.getElem?_take_of_lt hm]

end Cursors

/-! ## Roles -/

namespace Role

/-- A bracket that closes is counted only where one is open. -/
def noClosingAngle? : Nat → List Token → Option Bool
  | _, [] => some true
  | depth, t :: rest =>
      if t.kind != .punctuation then noClosingAngle? depth rest
      else match t.text with
        | "(" | "[" => noClosingAngle? (depth + 1) rest
        | ")" | "]" =>
            if depth = 0 then some true else do noClosingAngle? (← difference? depth 1) rest
        | ">" | ">>" => if depth = 0 then some false else noClosingAngle? depth rest
        | ";" | "\x7b" | "\x7d" | "&&" | "||" | "?" => some true
        | _ => noClosingAngle? depth rest

theorem noClosingAngle?_eq (depth : Nat) (ts : List Token) :
    noClosingAngle? depth ts = some (noClosingAngle depth ts) := by
  fun_induction noClosingAngle depth ts <;> simp [noClosingAngle?, difference?_one, *]

/-- The condition is cut out of the tokens between the bracket and the comparison; that of a `for`
starts behind the first semicolon. -/
def comparesInCondition? (tokens : List Token) (c : Cursor) (paren : OpenParen) :
    Option Bool := do
  let start := paren.start + 1
  let front ← slice? tokens 0 paren.start
  let inside ← slice? tokens start c.position
  let condition? :=
    if (firstCode front.reverse).any (·.isWord "for") then
      (inside.findIdx? (·.is ";")).map (start + · + 1)
    else some start
  match condition? with
  | none => return false
  | some condition =>
      let segment := conditionBefore (← slice? tokens condition c.position).reverse
      if c.token.text == ">" then return !segment.any (·.is "<")
      else if (firstCode segment).any isCast then return false
      else noClosingAngle? 0 (← slice? tokens (c.position + 1) tokens.length)

def isComparison? (tokens : List Token) (c : Cursor) (s : State) : Option Bool :=
  match c.nextCode with
  | none => some false
  | some next =>
      if isLiteral next || next.is "-" then some true
      else match s.stmt.parens with
        | [] => some false
        | paren :: _ =>
            if paren.header && next.kind == .word then comparesInCondition? tokens c paren
            else some false

/-- A template bracket that opens is taken from those that are closed behind it. -/
def readDeclarator? (angles : Nat) (d : Declarator) : List Token → Option (Option Declarator)
  | [] => some (some d)
  | t :: rest =>
      match t.kind with
      | .word =>
          if Keyword.nonOperands.contains t.text then some none
          else readDeclarator? angles
            { d with words := d.words + 1, firstWord := some t.text } rest
      | .punctuation =>
          match t.text with
          | "::" | "*" | "&" => readDeclarator? angles d rest
          | ">" => readDeclarator? (angles + 1) d rest
          | ">>" => readDeclarator? (angles + 2) d rest
          | "<" =>
              if 0 < angles then do readDeclarator? (← difference? angles 1) d rest
              else some (some { d with boundary := some "<" })
          | "(" | "," | ";" | "\x7b" | "\x7d" => some (some { d with boundary := some t.text })
          | _ => some none
      | _ => some none

theorem readDeclarator?_eq (angles : Nat) (d : Declarator) (ts : List Token) :
    readDeclarator? angles d ts = some (readDeclarator angles d ts) := by
  fun_induction readDeclarator angles d ts <;>
    simp [-List.contains_eq_mem, readDeclarator?, difference?_one, Nat.pos_iff_ne_zero.mp, *]

/-- The role of a `*` or `&` by what stands before it, once that has been read. -/
def ofDeclarator (s : State) : Option Declarator → Role
  | none => binary
  | some d =>
      let typeWord := d.firstWord.any (Keyword.typeWords.contains ·)
      if d.boundary == some "<" then
        if typeWord || 2 ≤ d.words then pointer else ambiguous
      else match s.stmt.parens with
        | [] => if 0 < d.words then pointer else ambiguous
        | paren :: _ =>
            if paren.declaration || typeWord || 2 ≤ d.words then pointer else ambiguous

def pointerContext? (tokens : List Token) (c : Cursor) (s : State) : Option Role := do
  let segment ← slice? tokens (min s.stmt.start c.position) c.position
  return ofDeclarator s
    (← readDeclarator? 0 ⟨0, none, none⟩ (segment.reverse.filter (!·.isTrivia)))

/-- The role of a `*`, `&` or `&&` behind what may be a type. -/
def inContext? (tokens : List Token) (c : Cursor) (s : State) (hasPointers : Bool) :
    Option Role :=
  if c.nextCodeIs (·.kind == .number) || !hasPointers then some binary
  else do
    match ← pointerContext? tokens c s with
    | ambiguous => return if c.token.text == "&&" then binary else ambiguous
    | role => return role

def ofPointer? (tokens : List Token) (c : Cursor) (s : State) (hasPointers : Bool)
    (prev : Token) : Option Role :=
  if prev.isOneOf ["*", "&", "&&"] then some (if s.pointerRun then pointer else unary)
  else match prev.kind with
    | .number | .string | .character => some binary
    | .punctuation =>
        if prev.text == ")" || prev.text == "]" then some binary
        else if prev.text == ">" then inContext? tokens c s hasPointers
        else some unary
    | .word =>
        if Keyword.nonOperands.contains prev.text then some unary
        else inContext? tokens c s hasPointers
    | _ => inContext? tokens c s hasPointers

/-- Only pointers and comparisons look around further than to the next token. -/
def ofPunctuation? (tokens : List Token) (c : Cursor) (s : State) (hasPointers : Bool)
    (prev : Option Token) : Option Role :=
  match c.token.text with
  | "*" | "&" | "&&" =>
      match prev with
      | none => some unary
      | some prev => ofPointer? tokens c s hasPointers prev
  | "<" | ">" =>
      if prev.any endsOperand then (isComparison? tokens c s).map binaryIf else some notOperator
  | _ => some (ofPunctuation c s hasPointers prev)

section

variable (hget : tokens[n]? = some t)
include hget

omit hget in
/-- What stands before a semicolon is no part of the condition behind it. -/
theorem conditionBefore_drop {inside : List Token} {k : Nat} {u : Token} (hu : inside[k]? = some u)
    (hsemicolon : u.is ";" = true) :
    conditionBefore (inside.drop (k + 1)).reverse = conditionBefore inside.reverse := by
  have hsplit : inside = inside.take k ++ u :: inside.drop (k + 1) := by
    obtain ⟨hk, rfl⟩ := List.getElem?_eq_some_iff.mp hu
    rw [List.getElem_cons_drop, List.take_append_drop]
  have hstop : u.isOneOf ["&&", "||", ",", ";"] = true := by
    rw [Token.is, Bool.and_eq_true, beq_iff_eq, beq_iff_eq] at hsemicolon
    rw [Token.isOneOf, hsemicolon.1, hsemicolon.2]
    rfl
  conv => rhs; rw [hsplit]
  rw [conditionBefore, conditionBefore, List.reverse_append, List.reverse_cons, List.append_assoc,
    List.singleton_append, List.takeWhile_append]
  split
  · next hall =>
      rw [List.takeWhile_cons, hstop, (List.takeWhile_prefix _).eq_of_length hall]
      simp
  · rfl

theorem comparesInCondition?_eq {paren : OpenParen} (hparen : paren.start < n) :
    comparesInCondition? tokens (cursorAt tokens n t) paren
      = some (comparesInCondition (cursorAt tokens n t) paren) := by
  have hn : n ≤ tokens.length := Nat.le_of_lt (lt_length hget)
  have hposition : (cursorAt tokens n t).position = n := rfl
  have hafter : (tokens.take tokens.length).drop (n + 1) = (cursorAt tokens n t).after := by
    rw [List.take_length]
    rfl
  rw [comparesInCondition?, comparesInCondition, since_cursorAt hget hparen,
    beforePosition_cursorAt hget (Nat.le_of_lt hparen), hposition]
  simp only [slice?_eq (Nat.zero_le _) (Nat.le_of_lt (Nat.lt_of_lt_of_le hparen hn)),
    slice?_eq hparen hn, slice?_eq (lt_length hget) (Nat.le_refl _), hafter, List.drop_zero,
    Option.bind_eq_bind, Option.bind_some, noClosingAngle?_eq]
  cases hfor : (firstCode (tokens.take paren.start).reverse).any (·.isWord "for") with
  | false =>
      simp only [Bool.false_eq_true, if_false, slice?_eq hparen hn, Option.bind_some,
        Bool.false_and, Option.pure_def, apply_ite some]
  | true =>
      simp only [if_true, List.any_reverse, Bool.true_and]
      cases hfind : ((tokens.take n).drop (paren.start + 1)).findIdx? (·.is ";") with
      | none =>
          have hnone : ((tokens.take n).drop (paren.start + 1)).any (·.is ";") = false := by
            rw [List.any_eq_false]
            intro u hu
            rw [List.findIdx?_eq_none_iff.mp hfind u hu]
            exact Bool.false_ne_true
          rw [hnone]
          rfl
      | some k =>
          obtain ⟨hk, hsemicolon, -⟩ := List.findIdx?_eq_some_iff_getElem.mp hfind
          have hany : ((tokens.take n).drop (paren.start + 1)).any (·.is ";") = true :=
            List.any_eq_true.mpr ⟨_, List.getElem_mem hk, hsemicolon⟩
          have hbound : paren.start + 1 + k + 1 ≤ n := by
            rw [List.length_drop, List.length_take_of_le hn] at hk
            omega
          have hsegment : conditionBefore ((tokens.take n).drop (paren.start + 1 + k + 1)).reverse
              = conditionBefore ((tokens.take n).drop (paren.start + 1)).reverse := by
            rw [← conditionBefore_drop (List.getElem?_eq_getElem hk) hsemicolon, List.drop_drop]
            rfl
          rw [hany]
          simp only [Option.map_some, slice?_eq hbound hn, Option.bind_some, hsegment,
            Bool.not_true, Bool.false_eq_true, if_false, Option.pure_def, apply_ite some]

theorem isComparison?_eq {s : State} (hs : ∀ p ∈ s.stmt.parens, p.start < n) :
    isComparison? tokens (cursorAt tokens n t) s
      = some (isComparison (cursorAt tokens n t) s) := by
  rw [isComparison?, isComparison]
  cases (cursorAt tokens n t).nextCode with
  | none => rfl
  | some next =>
      dsimp only
      split
      · rfl
      · cases hparens : s.stmt.parens with
        | nil => rfl
        | cons paren outer =>
            have hparen : paren.start < n := hs paren (hparens ▸ List.mem_cons_self)
            dsimp only
            rw [comparesInCondition?_eq hget hparen]
            cases paren.header && next.kind == .word <;> rfl

theorem pointerContext?_eq (s : State) :
    pointerContext? tokens (cursorAt tokens n t) s
      = some (pointerContext (cursorAt tokens n t) s) := by
  have hn : n ≤ tokens.length := Nat.le_of_lt (lt_length hget)
  have hposition : (cursorAt tokens n t).position = n := rfl
  rw [pointerContext?, hposition, slice?_eq (Nat.min_le_right _ _) hn, pointerContext,
    since_min_cursorAt hget]
  simp only [Option.bind_eq_bind, Option.bind_some, readDeclarator?_eq, Option.pure_def]
  rfl

theorem inContext?_eq (s : State) (hasPointers : Bool) :
    inContext? tokens (cursorAt tokens n t) s hasPointers
      = some (if (cursorAt tokens n t).nextCodeIs (·.kind == .number) || !hasPointers then binary
        else match pointerContext (cursorAt tokens n t) s with
          | ambiguous =>
              if (cursorAt tokens n t).token.text == "&&" then binary else ambiguous
          | role => role) := by
  rw [inContext?, pointerContext?_eq hget]
  split
  · rfl
  · cases pointerContext (cursorAt tokens n t) s <;> rfl

theorem ofPointer?_eq (s : State) (hasPointers : Bool) (prev : Token) :
    ofPointer? tokens (cursorAt tokens n t) s hasPointers prev
      = some (ofPointer (cursorAt tokens n t) s hasPointers prev) := by
  simp only [ofPointer?, ofPointer, inContext?_eq hget]
  split
  · rfl
  · cases prev.kind with
    | word => exact (apply_ite some _ _ _).symm
    | punctuation =>
        dsimp only
        split
        · rfl
        · exact (apply_ite some _ _ _).symm
    | _ => rfl

theorem ofPunctuation?_eq {s : State} (hs : ∀ p ∈ s.stmt.parens, p.start < n) (hasPointers : Bool)
    (prev : Option Token) :
    ofPunctuation? tokens (cursorAt tokens n t) s hasPointers prev
      = some (ofPunctuation (cursorAt tokens n t) s hasPointers prev) := by
  have hangle : (if prev.any endsOperand then
        (isComparison? tokens (cursorAt tokens n t) s).map binaryIf else some notOperator)
      = some (binaryIf (prev.any endsOperand && isComparison (cursorAt tokens n t) s)) := by
    rw [isComparison?_eq hget hs]
    cases prev.any endsOperand <;> rfl
  simp only [ofPunctuation?]
  split
  iterate 3
    · next htext =>
        cases prev with
        | none => simp only [ofPunctuation, htext]
        | some prev =>
            simp only [ofPunctuation, htext]
            exact ofPointer?_eq hget s hasPointers prev
  iterate 2
    · next htext => simp only [hangle, ofPunctuation, htext]
  · rfl

end

end Role

def Cursor.role? (tokens : List Token) (c : Cursor) (s : State) (hasPointers : Bool) :
    Option Role :=
  if c.token.kind != .punctuation then some .notOperator
  else Role.ofPunctuation? tokens c s hasPointers (if s.stmt.active then c.prevCode else none)

theorem Cursor.role?_eq (hget : tokens[n]? = some t) {s : State}
    (hs : ∀ p ∈ s.stmt.parens, p.start < n) (hasPointers : Bool) :
    (cursorAt tokens n t).role? tokens s hasPointers
      = some ((cursorAt tokens n t).role s hasPointers) := by
  rw [role?, role, Role.ofPunctuation?_eq hget hs]
  exact (apply_ite some _ _ _).symm

end Beautifier
