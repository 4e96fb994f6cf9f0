/-
What the layout sees of the tokens around a token.

`Token.bare` is a token without its white space and its column; a comment or
directive keeps nothing but its kind, and a literal of several lines, which is
no keyword, nothing but its last line.  All that the layout asks about the tokens around
one is the same for bare tokens: each function that looks at them has its
lemma here.  Two lists of tokens with the same bare tokens are therefore laid
out by the same questions and answers, up to what is asked of the white space
in front of the token that is laid out.
-/
import Beautifier.Proofs.Layout.LastOnLine
import Beautifier.Proofs.Token.Copy

namespace Beautifier

/-! ## Tokens -/

namespace Token

/-- A token without its white space, and without the texts that the layout does not read. -/
def bare (t : Token) : Token where
  kind := t.kind
  text := match t.kind with
    | .lineComment | .blockComment | .directive => ""
    | .string | .character =>
        if t.lines.2.isEmpty then t.text else String.ofList ('\n' :: t.lastLine)
    | _ => t.text
  lineBreaks := 0
  space := ""
  column := 0
  inserted := t.inserted

variable {t : Token}

@[simp] theorem kind_bare (t : Token) : t.bare.kind = t.kind := rfl

@[simp] theorem inserted_bare (t : Token) : t.bare.inserted = t.inserted := rfl

@[simp] theorem isTrivia_bare (t : Token) : t.bare.isTrivia = t.isTrivia := rfl

theorem text_bare_of_punctuation (h : t.kind = .punctuation) : t.bare.text = t.text := by
  rw [bare, h]

theorem text_bare_of_word (h : t.kind = .word) : t.bare.text = t.text := by
  rw [bare, h]

@[simp] theorem is_bare (t : Token) (text : String) : t.bare.is text = t.is text := by
  by_cases h : t.kind = .punctuation
  · rw [is, is, text_bare_of_punctuation h, kind_bare]
  · rw [is, is, kind_bare, beq_false_of_ne h]
    rfl

@[simp] theorem isOneOf_bare (t : Token) (texts : List String) :
    t.bare.isOneOf texts = t.isOneOf texts := by
  by_cases h : t.kind = .punctuation
  · rw [isOneOf, isOneOf, text_bare_of_punctuation h, kind_bare]
  · rw [isOneOf, isOneOf, kind_bare, beq_false_of_ne h]
    rfl

@[simp] theorem isWord_bare (t : Token) (text : String) : t.bare.isWord text = t.isWord text := by
  by_cases h : t.kind = .word
  · rw [isWord, isWord, text_bare_of_word h, kind_bare]
  · rw [isWord, isWord, kind_bare, beq_false_of_ne h]
    rfl

theorem text_bare_of_literal (h : t.kind = .string ∨ t.kind = .character) :
    t.bare.text = t.text ∨
      t.lines.2 ≠ [] ∧ t.bare.text.toList = '\n' :: t.lastLine := by
  have htext : t.bare.text
      = if t.lines.2.isEmpty then t.text else String.ofList ('\n' :: t.lastLine) := by
    rcases h with h | h <;> rw [bare, h]
  rw [htext]
  split
  · exact .inl rfl
  · next hlines => exact .inr ⟨by simpa using hlines, String.toList_ofList ..⟩

theorem kind_cases (h : t.isTrivia = false) :
    t.bare.text = t.text ∨ t.kind = .string ∨ t.kind = .character := by
  cases hkind : t.kind with
  | lineComment => simp [isTrivia, hkind] at h
  | blockComment => simp [isTrivia, hkind] at h
  | directive => simp [isTrivia, hkind] at h
  | string => exact .inr (.inl rfl)
  | character => exact .inr (.inr rfl)
  | _ => exact .inl (by rw [bare, hkind])

/-- A text on one line. -/
def IsLine (text : String) : Bool := (linesOf (glyphs text.toList)).2.isEmpty

/-- A code token is one of some words and signs exactly if its bare token is. -/
theorem contains_text_bare (h : t.isTrivia = false) (texts : List String)
    (htexts : texts.all IsLine = true) : texts.contains t.bare.text = texts.contains t.text := by
  have hnone : ∀ text, IsLine text = false → texts.contains text = false := by
    intro text htext
    rw [← Bool.not_eq_true, List.contains_iff_mem]
    intro hmem
    rw [List.all_eq_true.mp htexts text hmem] at htext
    cases htext
  rcases kind_cases h with hsame | hkind
  · rw [hsame]
  · rcases text_bare_of_literal hkind with hsame | ⟨hlines, htext⟩
    · rw [hsame]
    · rw [hnone t.text (by simpa [IsLine, lines] using hlines), hnone]
      simp [IsLine, htext, glyphs, linesOf]

theorem text_bare_beq (h : t.isTrivia = false) (text : String) (htext : IsLine text = true) :
    (t.bare.text == text) = (t.text == text) := by
  have hcontains := contains_text_bare h [text] (by simpa using htext)
  simpa [List.contains_cons] using hcontains

end Token

@[simp] theorem firstCode_map_bare (ts : List Token) :
    firstCode (ts.map Token.bare) = (firstCode ts).map Token.bare := by
  rw [firstCode, firstCode, List.find?_map]
  rfl

@[simp] theorem afterCode_map_bare (ts : List Token) :
    afterCode (ts.map Token.bare) = (afterCode ts).map Token.bare := by
  induction ts with
  | nil => rfl
  | cons t ts ih =>
      rw [List.map_cons, afterCode, afterCode, Token.isTrivia_bare, ih]
      split <;> rfl

theorem isTrivia_of_firstCode {ts : List Token} {t : Token} (h : firstCode ts = some t) :
    t.isTrivia = false := by
  simpa using List.find?_some h

/-! ## Cursors -/

namespace Cursor

def bare (c : Cursor) : Cursor where
  before := c.before.map Token.bare
  token := c.token.bare
  after := c.after.map Token.bare
  position := c.position
  closer := c.closer

@[simp] theorem token_bare (c : Cursor) : c.bare.token = c.token.bare := rfl

@[simp] theorem position_bare (c : Cursor) : c.bare.position = c.position := rfl

@[simp] theorem closer_bare (c : Cursor) : c.bare.closer = c.closer := rfl

@[simp] theorem before_bare (c : Cursor) : c.bare.before = c.before.map Token.bare := rfl

@[simp] theorem after_bare (c : Cursor) : c.bare.after = c.after.map Token.bare := rfl

@[simp] theorem prevCode_bare (c : Cursor) : c.bare.prevCode = c.prevCode.map Token.bare :=
  firstCode_map_bare _

@[simp] theorem nextCode_bare (c : Cursor) : c.bare.nextCode = c.nextCode.map Token.bare :=
  firstCode_map_bare _

@[simp] theorem since_bare (c : Cursor) (start : Nat) :
    c.bare.since start = (c.since start).map Token.bare := by
  simp [since]

@[simp] theorem beforePosition_bare (c : Cursor) (start : Nat) :
    c.bare.beforePosition start = (c.beforePosition start).map Token.bare := by
  simp [beforePosition]

@[simp] theorem afterPosition_bare (c : Cursor) (position : Nat) :
    c.bare.afterPosition position = (c.afterPosition position).map Token.bare := by
  simp [afterPosition]

@[simp] theorem tokenAt?_bare (c : Cursor) (start : Nat) :
    c.bare.tokenAt? start = (c.tokenAt? start).map Token.bare := by
  rw [tokenAt?, tokenAt?, position_bare, before_bare, List.getElem?_map]
  split <;> rfl

@[simp] theorem isWordAt_bare (c : Cursor) (start : Nat) (text : String) :
    c.bare.isWordAt start text = c.isWordAt start text := by
  simp [isWordAt, Option.any_map]

theorem nextCodeIs_bare (c : Cursor) {p : Token → Bool} (hp : ∀ t : Token, p t.bare = p t) :
    c.bare.nextCodeIs p = c.nextCodeIs p := by
  simp [nextCodeIs, Option.any_map, hp]

end Cursor

/-! ## Roles -/

namespace Role

@[simp] theorem endsOperand_bare (t : Token) : endsOperand t.bare = endsOperand t := by
  cases hkind : t.kind <;> simp [endsOperand, Token.bare, hkind]

@[simp] theorem isLiteral_bare (t : Token) : isLiteral t.bare = isLiteral t := rfl

@[simp] theorem noClosingAngle_bare (depth : Nat) (ts : List Token) :
    noClosingAngle depth (ts.map Token.bare) = noClosingAngle depth ts := by
  induction ts generalizing depth with
  | nil => rfl
  | cons t ts ih =>
      rw [List.map_cons, noClosingAngle, noClosingAngle, Token.kind_bare]
      by_cases h : t.kind = .punctuation
      · rw [Token.text_bare_of_punctuation h]
        simp only [ih]
      · simp [h, ih]

@[simp] theorem conditionBefore_bare (ts : List Token) :
    conditionBefore (ts.map Token.bare) = (conditionBefore ts).map Token.bare := by
  rw [conditionBefore, conditionBefore, List.takeWhile_map]
  simp [Function.comp_def]

theorem readDeclarator_bare (angles : Nat) (d : Declarator) (ts : List Token) :
    readDeclarator angles d (ts.map Token.bare) = readDeclarator angles d ts := by
  induction ts generalizing angles d with
  | nil => rfl
  | cons t ts ih =>
      rw [List.map_cons, readDeclarator, readDeclarator, Token.kind_bare]
      cases hkind : t.kind with
      | word => simp only [Token.text_bare_of_word hkind, ih]
      | punctuation => simp only [Token.text_bare_of_punctuation hkind, ih]
      | _ => rfl

@[simp] theorem pointerContext_bare (c : Cursor) (s : State) :
    pointerContext c.bare s = pointerContext c s := by
  have hcode : ((c.since s.stmt.start).map Token.bare).filter (!·.isTrivia)
      = ((c.since s.stmt.start).filter (!·.isTrivia)).map Token.bare := by
    rw [List.filter_map]
    rfl
  rw [pointerContext, pointerContext, Cursor.since_bare]
  simp only [hcode, readDeclarator_bare]

theorem isCast_bare {t : Token} (h : t.isTrivia = false) : isCast t.bare = isCast t := by
  have hcast : ∀ x, x = '\r' ∨ x = '\n' → x ∉ "_cast".toList := by
    rintro x (rfl | rfl) <;> decide
  have hlast : ∀ {x : Char} {front last : List Char}, x ∉ "_cast".toList →
      ("_cast".toList.isSuffixOf (front ++ x :: last) = "_cast".toList.isSuffixOf last) := by
    intro x front last hx
    rw [Bool.eq_iff_iff, List.isSuffixOf_iff_suffix, List.isSuffixOf_iff_suffix]
    constructor
    · intro hsuffix
      rcases List.suffix_or_suffix_of_suffix hsuffix (List.suffix_append front (x :: last))
        with hlast | hlast
      · rcases List.suffix_cons_iff.mp hlast with heq | hlast
        · exact absurd (heq ▸ List.mem_cons_self) hx
        · exact hlast
      · exact absurd (hlast.subset List.mem_cons_self) hx
    · exact fun hsuffix => (hsuffix.trans (List.suffix_cons x last)).trans
        (List.suffix_append front _)
  rcases Token.kind_cases h with hsame | hkind
  · rw [isCast, isCast, hsame]
  · rcases Token.text_bare_of_literal hkind with hsame | ⟨hlines, htext⟩
    · rw [isCast, isCast, hsame]
    · obtain ⟨front, x, hx, hchars⟩ := exists_charsOf_eq hlines
      rw [chars_glyphs] at hchars
      rw [isCast, isCast, htext, hchars]
      exact (@hlast '\n' [] t.lastLine (hcast '\n' (.inr rfl))).trans (hlast (hcast x hx)).symm

theorem any_isCast_bare (ts : List Token) :
    (firstCode ts).any (fun t => isCast t.bare) = (firstCode ts).any isCast := by
  cases hfirst : firstCode ts with
  | none => rfl
  | some t => exact isCast_bare (isTrivia_of_firstCode hfirst)

theorem comparesInCondition_bare {c : Cursor} (h : c.token.kind = .punctuation)
    (paren : OpenParen) : comparesInCondition c.bare paren = comparesInCondition c paren := by
  simp [comparesInCondition, Token.text_bare_of_punctuation h, Option.any_map, List.any_map,
    Function.comp_def, any_isCast_bare]

theorem isComparison_bare {c : Cursor} (h : c.token.kind = .punctuation) (s : State) :
    isComparison c.bare s = isComparison c s := by
  rw [isComparison, isComparison, Cursor.nextCode_bare]
  cases c.nextCode with
  | none => rfl
  | some next => simp [comparesInCondition_bare h]

theorem ofPointer_bare {c : Cursor} (h : c.token.kind = .punctuation) (s : State)
    (hasPointers : Bool) (prev : Token) :
    ofPointer c.bare s hasPointers prev.bare = ofPointer c s hasPointers prev := by
  have hnumber : c.bare.nextCodeIs (·.kind == .number) = c.nextCodeIs (·.kind == .number) :=
    c.nextCodeIs_bare fun _ => rfl
  simp only [ofPointer, hnumber, pointerContext_bare, Cursor.token_bare,
    Token.text_bare_of_punctuation h, Token.isOneOf_bare, Token.kind_bare]
  cases hkind : prev.kind with
  | word => rw [Token.text_bare_of_word hkind]
  | punctuation => rw [Token.text_bare_of_punctuation hkind]
  | _ => rfl

theorem ofPunctuation_bare {c : Cursor} (h : c.token.kind = .punctuation)
    (htext : c.token.text ≠ ">>") (s : State) (hasPointers : Bool) (prev : Option Token) :
    ofPunctuation c.bare s hasPointers (prev.map Token.bare)
      = ofPunctuation c s hasPointers prev := by
  have hnullable : c.bare.nextCodeIs nullableBefore = c.nextCodeIs nullableBefore :=
    c.nextCodeIs_bare fun t => t.isOneOf_bare _
  have hclosing : c.bare.nextCodeIs (·.isOneOf ["]", ")", ","])
      = c.nextCodeIs (·.isOneOf ["]", ")", ","]) := c.nextCodeIs_bare fun t => t.isOneOf_bare _
  have hoperand : (prev.map Token.bare).any endsOperand = prev.any endsOperand := by
    simp [Option.any_map]
  simp only [ofPunctuation, Cursor.token_bare, Token.text_bare_of_punctuation h,
    isComparison_bare h, hnullable, hclosing, hoperand]
  split
  · cases prev with
    | none => rfl
    | some prev => exact ofPointer_bare h s hasPointers prev
  · cases prev with
    | none => rfl
    | some prev => exact ofPointer_bare h s hasPointers prev
  · cases prev with
    | none => rfl
    | some prev => exact ofPointer_bare h s hasPointers prev
  all_goals first
    | rfl
    | exact absurd ‹c.token.text = ">>"› htext

/-- The role of a token other than `>>` depends on bare tokens alone. -/
theorem role_bare {c : Cursor} (h : c.token.is ">>" = false) (s : State) (hasPointers : Bool) :
    c.bare.role s hasPointers = c.role s hasPointers := by
  have hprev : (if s.stmt.active then c.bare.prevCode else none)
      = (if s.stmt.active then c.prevCode else none).map Token.bare := by
    rw [Cursor.prevCode_bare]
    split <;> rfl
  rw [Cursor.role, Cursor.role, Cursor.token_bare, Token.kind_bare, hprev]
  by_cases hkind : c.token.kind = .punctuation
  · rw [ofPunctuation_bare hkind (by simpa [Token.is, hkind] using h)]
  · simp [hkind]

end Role

/-! ## Line starts -/

namespace Cursor

@[simp] theorem isCaseLabel_bare (c : Cursor) : c.bare.isCaseLabel = c.isCaseLabel := by
  have hcolon : c.bare.nextCodeIs (·.is ":") = c.nextCodeIs (·.is ":") :=
    c.nextCodeIs_bare fun t => t.is_bare _
  simp [isCaseLabel, hcolon]

@[simp] theorem isAccessLabel_bare (c : Cursor) : c.bare.isAccessLabel = c.isAccessLabel := by
  rw [isAccessLabel, isAccessLabel, token_bare, Token.kind_bare, nextCode_bare, after_bare,
    afterCode_map_bare, firstCode_map_bare]
  by_cases hkind : c.token.kind = .word
  · rw [Token.text_bare_of_word hkind]
    cases hnext : c.nextCode with
    | none => rfl
    | some next =>
        have hsections : Keyword.sections.contains next.bare.text
            = Keyword.sections.contains next.text :=
          Token.contains_text_bare (isTrivia_of_firstCode hnext) _ (by decide)
        simp only [Option.map_some, Token.is_bare, hsections, Option.any_map]
  · simp only [beq_false_of_ne hkind, Bool.false_and]

@[simp] theorem statementIndent_bare (c : Cursor) (s : State) :
    c.bare.statementIndent s = c.statementIndent s := by
  simp only [statementIndent, isCaseLabel_bare, isAccessLabel_bare]

@[simp] theorem lineIndent_bare (c : Cursor) (o : Options) (s : State) :
    c.bare.lineIndent o s = c.lineIndent o s := by
  have hparen : c.bare.parenIndent o = c.parenIndent o := by
    funext paren
    simp only [parenIndent, token_bare, Token.is_bare]
  simp only [lineIndent, hparen, statementIndent_bare]

@[simp] theorem setsHeaderApart_bare (c : Cursor) (s : State) (page : Page) (afterDo : Bool) :
    c.bare.setsHeaderApart s page afterDo = c.setsHeaderApart s page afterDo := by
  rw [setsHeaderApart, setsHeaderApart, token_bare, Token.kind_bare]
  by_cases hkind : c.token.kind = .word
  · rw [Token.text_bare_of_word hkind]
  · simp only [beq_false_of_ne hkind, Bool.false_and]

end Cursor

/-! ## Spacing -/

namespace Spacing

@[simp] theorem isTight_bare (t : Token) : isTight t.bare = isTight t := t.isOneOf_bare _

@[simp] theorem closesDeclarator_bare (t : Token) :
    closesDeclarator t.bare = closesDeclarator t := t.isOneOf_bare _

@[simp] theorem unpads_bare (o : Options) (headerParen : Bool) (prev t : Token) :
    unpads o headerParen prev.bare t.bare = unpads o headerParen prev t := by
  simp only [unpads, Token.is_bare, Token.kind_bare]
  cases hkind : prev.kind with
  | word => rw [Token.text_bare_of_word hkind]
  | _ => rfl

@[simp] theorem pads_bare (o : Options) (s : State) (role : Role) (headerParen : Bool)
    (prev t : Token) :
    pads o s role headerParen prev.bare t.bare = pads o s role headerParen prev t := by
  simp only [pads, padsParenOut, padsParenIn, Token.isOneOf_bare, Token.is_bare, isTight_bare]

@[simp] theorem aligned?_bare (o : Options) (s : State) (role : Role) (t : Token) :
    aligned? o s role t.bare = aligned? o s role t := by
  have hbehind : (behindPointer · t.bare) = (behindPointer · t) := by
    funext align
    rw [behindPointer, behindPointer, closesDeclarator_bare]
  rw [aligned?, aligned?, hbehind]

end Spacing

/-! ## Blocks -/

namespace Head

theorem anglesAfter_bare (angles : Nat) {t : Token} (h : t.isTrivia = false) :
    anglesAfter angles t.bare = anglesAfter angles t := by
  have hother : ∀ {u : Token}, ["<", ">", ">>"].contains u.text = false →
      anglesAfter angles u = angles := by
    intro u hu
    unfold anglesAfter
    split <;> simp_all
  have hcontains : ["<", ">", ">>"].contains t.bare.text = ["<", ">", ">>"].contains t.text :=
    Token.contains_text_bare h _ (by decide)
  rcases Token.kind_cases h with hsame | hkind
  · rw [anglesAfter, anglesAfter, hsame]
  · rcases Token.text_bare_of_literal hkind with hsame | ⟨-, htext⟩
    · rw [anglesAfter, anglesAfter, hsame]
    · have hbare : ["<", ">", ">>"].contains t.bare.text = false := by
        rw [← Bool.not_eq_true, List.contains_iff_mem]
        intro hmem
        have hline : ∀ text ∈ ["<", ">", ">>"], text.toList.head? ≠ some '\n' := by decide
        exact hline _ hmem (by rw [htext, List.head?_cons])
      rw [hother hbare, hother (hcontains ▸ hbare)]

/-- A head without the text of its first token. -/
def anonymous (h : Head) : Head := { h with first := none }

theorem anonymous_addWord {h h' : Head} (hh : h'.anonymous = h.anonymous) (word : String) :
    (h'.addWord word).anonymous = (h.addWord word).anonymous := by
  have hword : ∀ h : Head, (h.addWord word).anonymous = h.anonymous.addWord word := by
    intro h
    simp only [addWord]
    split_ifs <;> rfl
  rw [hword, hword, hh]

theorem anonymous_read_bare {ts : List Token} (hts : ∀ t ∈ ts, t.isTrivia = false)
    (template : Bool) (angles : Nat) {h h' : Head} (hh : h'.anonymous = h.anonymous) :
    (read template angles h' (ts.map Token.bare)).anonymous
      = (read template angles h ts).anonymous := by
  induction ts generalizing template angles h h' with
  | nil => exact hh
  | cons t ts ih =>
      have hrest := fun u hu => hts u (List.mem_cons_of_mem _ hu)
      have ht := hts t List.mem_cons_self
      rw [List.map_cons, read, read]
      have hfirst : ∀ (h : Head) (text : String),
          (if h.first.isNone then { h with first := some text } else h).anonymous
            = h.anonymous := by
        intro h text
        split <;> rfl
      have hnext := ((hfirst h' t.bare.text).trans hh).trans (hfirst h t.text).symm
      revert hnext
      generalize (if h.first.isNone then { h with first := some t.text } else h) = g
      generalize (if h'.first.isNone then { h' with first := some t.bare.text } else h') = g'
      intro hnext
      dsimp only
      cases template with
      | true =>
          simp only [if_true, anglesAfter_bare _ ht, Token.isWord_bare]
          exact ih hrest _ _ hnext
      | false =>
          simp only [Bool.false_eq_true, if_false, Token.kind_bare]
          cases hkind : t.kind with
          | word =>
              rw [Token.text_bare_of_word hkind]
              exact ih hrest _ _ (anonymous_addWord hnext _)
          | punctuation =>
              rw [Token.text_bare_of_punctuation hkind]
              dsimp only
              split
              · simp_all [anonymous]
              · exact ih hrest _ _ (by simp_all [anonymous])
              · exact ih hrest _ _ (by simp_all [anonymous])
              · exact ih hrest _ _ hnext
          | _ => exact ih hrest _ _ hnext

theorem first_addWord (h : Head) (word : String) : (h.addWord word).first = h.first := by
  simp only [addWord]
  split_ifs <;> rfl

theorem first_read_of_some {template : Bool} {angles : Nat} {h : Head} {text : String}
    (hh : h.first = some text) (ts : List Token) :
    (read template angles h ts).first = some text := by
  induction ts generalizing template angles h with
  | nil => exact hh
  | cons t ts ih =>
      rw [read, hh, Option.isNone_some, if_neg Bool.false_ne_true]
      cases template with
      | true => exact ih hh
      | false =>
          simp only [Bool.false_eq_true, if_false]
          cases t.kind with
          | word => exact ih ((first_addWord h _).trans hh)
          | punctuation =>
              dsimp only
              split
              · exact hh
              · exact ih hh
              · exact ih hh
              · exact ih hh
          | _ => exact ih hh

theorem first_read (ts : List Token) :
    (read false 0 .empty ts).first = ts.head?.map (·.text) := by
  cases ts with
  | nil => rfl
  | cons t ts =>
      have hfirst : read false 0 .empty (t :: ts)
          = read false 0 { Head.empty with first := some t.text } (t :: ts) := by
        rw [read, read]
        rfl
      rw [hfirst, first_read_of_some rfl]
      rfl

end Head

namespace Cursor

@[simp] theorem statementCode_bare (c : Cursor) (s : State) :
    c.bare.statementCode s = (c.statementCode s).map Token.bare := by
  rw [statementCode, statementCode, since_bare, List.filter_map, List.map_reverse]
  rfl

theorem isTrivia_of_mem_statementCode {c : Cursor} {s : State} :
    ∀ t ∈ c.statementCode s, t.isTrivia = false := by
  intro t ht
  rw [statementCode, List.mem_reverse, List.mem_filter] at ht
  simpa using ht.2

theorem anonymous_head_bare (c : Cursor) (s : State) :
    (c.bare.head s).anonymous = (c.head s).anonymous := by
  rw [head, head, statementCode_bare]
  exact Head.anonymous_read_bare isTrivia_of_mem_statementCode _ _ rfl

theorem first_head_bare (c : Cursor) (s : State) :
    (c.bare.head s).first = none ∧ (c.head s).first = none ∨
      ∃ t : Token, t.isTrivia = false ∧ (c.bare.head s).first = some t.bare.text ∧
        (c.head s).first = some t.text := by
  rw [head, head, statementCode_bare, Head.first_read, Head.first_read]
  cases hcode : c.statementCode s with
  | nil => exact .inl ⟨rfl, rfl⟩
  | cons t ts =>
      exact .inr ⟨t, isTrivia_of_mem_statementCode t (hcode ▸ List.mem_cons_self), rfl, rfl⟩

theorem announced?_head_bare (c : Cursor) (s : State) :
    announced? (c.bare.head s) = announced? (c.head s) := by
  have hhead := c.anonymous_head_bare s
  simp only [Head.anonymous, Head.mk.injEq, true_and] at hhead
  obtain ⟨hnameSpace, hclass, henum, hlinkage, hparen, -, -⟩ := hhead
  simp only [announced?, hnameSpace, hclass, henum, hlinkage, hparen]
  rcases c.first_head_bare s with ⟨hbare, hfirst⟩ | ⟨t, ht, hbare, hfirst⟩
  · rw [hbare, hfirst]
  · have hheader : Keyword.isHeader t.bare.text = Keyword.isHeader t.text := by
      rw [Keyword.isHeader, Keyword.isHeader, Token.contains_text_bare ht _ (by decide),
        Token.contains_text_bare ht _ (by decide)]
    rw [hbare, hfirst]
    simp only [hheader, Token.text_bare_beq ht "switch" rfl]

@[simp] theorem afterTrailingReturn_bare (c : Cursor) :
    c.bare.afterTrailingReturn = c.afterTrailingReturn := by
  simp [afterTrailingReturn, Option.any_map]

@[simp] theorem afterDeclarator_bare (c : Cursor) : c.bare.afterDeclarator = c.afterDeclarator := by
  rw [afterDeclarator, afterDeclarator, afterTrailingReturn_bare, prevCode_bare]
  cases hprev : c.prevCode with
  | none => rfl
  | some prev =>
      simp only [Option.map_some, Option.any_some, Token.is_bare,
        Token.contains_text_bare (isTrivia_of_firstCode hprev) Keyword.declaratorSuffixes
          (by decide)]

@[simp] theorem afterValueIntroducer_bare (c : Cursor) :
    c.bare.afterValueIntroducer = c.afterValueIntroducer := by
  simp [afterValueIntroducer, Option.any_map]

@[simp] theorem afterName_bare (c : Cursor) : c.bare.afterName = c.afterName := by
  rw [afterName, afterName, prevCode_bare]
  cases c.prevCode with
  | none => rfl
  | some prev =>
      simp only [Option.map_some, Option.any_some, Token.is_bare, Token.kind_bare]
      by_cases hkind : prev.kind = .word
      · rw [Token.text_bare_of_word hkind]
      · simp only [beq_false_of_ne hkind, Bool.false_and]

@[simp] theorem endsBehindBlock_bare (c : Cursor) :
    c.bare.endsBehindBlock = c.endsBehindBlock := by
  rw [endsBehindBlock, endsBehindBlock, closer_bare]
  cases c.closer with
  | none => rfl
  | some close => simp [Option.any_map]

@[simp] theorem classify_bare (c : Cursor) (s : State) : c.bare.classify s = c.classify s := by
  have hreturn :
      ((c.bare.head s).first == some "return") = ((c.head s).first == some "return") := by
    rcases c.first_head_bare s with ⟨hbare, hfirst⟩ | ⟨t, ht, hbare, hfirst⟩
    · rw [hbare, hfirst]
    · rw [hbare, hfirst]
      exact Token.text_bare_beq ht _ rfl
  have hhead := c.anonymous_head_bare s
  simp only [Head.anonymous, Head.mk.injEq, true_and] at hhead
  obtain ⟨-, -, -, -, hparen, hassign, hbracket⟩ := hhead
  have hstatement : c.bare.classifyInStatement s = c.classifyInStatement s := by
    simp only [classifyInStatement, announced?_head_bare, hreturn, hparen, hassign, hbracket,
      afterDeclarator_bare, afterName_bare, endsBehindBlock_bare]
  simp only [classify, afterDeclarator_bare, isWordAt_bare, afterValueIntroducer_bare, hstatement]

end Cursor

/-! ## Settling -/

namespace State

variable (s : State) (c : Cursor)

theorem beginStatement_bare (layout : Layout) (lineIndent : Indent) :
    s.beginStatement c.bare layout lineIndent = s.beginStatement c layout lineIndent := by
  simp only [beginStatement, Cursor.statementIndent_bare, Cursor.position_bare]

theorem headerKeyword_bare (h : c.token.kind = .word) :
    s.headerKeyword c.bare = s.headerKeyword c := by
  have hparen : c.bare.nextCodeIs (·.is "(") = c.nextCodeIs (·.is "(") :=
    c.nextCodeIs_bare fun t => t.is_bare _
  have hif : c.bare.nextCodeIs (·.isWord "if") = c.nextCodeIs (·.isWord "if") :=
    c.nextCodeIs_bare fun t => t.isWord_bare _
  simp only [headerKeyword, Cursor.token_bare, Token.text_bare_of_word h, hparen, hif,
    Cursor.position_bare, Cursor.prevCode_bare, Option.any_map, Token.isWord_bare]

theorem openParen_bare (lineIndent : Indent) :
    s.openParen c.bare lineIndent = s.openParen c lineIndent := by
  have hprev : (c.bare.prevCode.any fun prev =>
      prev.kind == .word && !Keyword.nonOperands.contains prev.text)
        = c.prevCode.any fun prev =>
          prev.kind == .word && !Keyword.nonOperands.contains prev.text := by
    rw [Cursor.prevCode_bare]
    cases c.prevCode with
    | none => rfl
    | some prev =>
        simp only [Option.map_some, Option.any_some, Token.kind_bare]
        by_cases hkind : prev.kind = .word
        · rw [Token.text_bare_of_word hkind]
        · simp only [beq_false_of_ne hkind, Bool.false_and]
  simp only [openParen, hprev, Cursor.token_bare, Token.is_bare, Cursor.position_bare]

theorem endsLabel_bare : s.endsLabel c.bare = s.endsLabel c := by
  have hcode := @Cursor.isTrivia_of_mem_statementCode c s
  rw [endsLabel, endsLabel, Cursor.statementCode_bare]
  cases s.braces with
  | nil => rfl
  | cons brace outer =>
      generalize c.statementCode s = code at hcode
      cases code with
      | nil => rfl
      | cons first others =>
          have hcontains : ∀ texts : List String, texts.all Token.IsLine = true →
              texts.contains first.bare.text = texts.contains first.text :=
            Token.contains_text_bare (hcode first List.mem_cons_self)
          have hothers : (others.map Token.bare).all (Keyword.sections.contains ·.text)
              = others.all (Keyword.sections.contains ·.text) := by
            rw [List.all_map, Bool.eq_iff_iff, List.all_eq_true, List.all_eq_true]
            refine forall₂_congr fun t ht => ?_
            rw [Function.comp_apply, Token.contains_text_bare
              (hcode t (List.mem_cons_of_mem _ ht)) _ (by decide)]
          have hmodifiers := hcontains Keyword.accessModifiers (by decide)
          have hsections := hcontains Keyword.sections (by decide)
          have hoperands := hcontains Keyword.nonOperands (by decide)
          have hcondition := hcontains Keyword.conditionHeaders (by decide)
          have hplain := hcontains Keyword.plainHeaders (by decide)
          simp only [List.map_cons, Token.isWord_bare, Token.kind_bare, Keyword.startsAccess,
            Keyword.isHeader, hothers, hmodifiers, hsections, hoperands, hcondition, hplain,
            List.isEmpty_map]

theorem nextCodeIs_isWord_bare (text : String) :
    c.bare.nextCodeIs (·.isWord text) = c.nextCodeIs (·.isWord text) :=
  c.nextCodeIs_bare fun t => t.isWord_bare _

/-- What a code token does to the statement depends on bare tokens alone. -/
theorem afterCode_bare (o : Options) (lineIndent : Indent) :
    s.afterCode c.bare o lineIndent = s.afterCode c o lineIndent := by
  rw [afterCode, afterCode, Cursor.token_bare, Token.kind_bare]
  cases hkind : c.token.kind with
  | word => exact s.headerKeyword_bare c hkind
  | punctuation =>
      rw [Token.text_bare_of_punctuation hkind]
      simp only [openParen_bare, endStatement, nextCodeIs_isWord_bare, colon, endsLabel_bare]
  | _ => rfl

theorem owesSpacing_bare (o : Options) (role : Role) :
    s.owesSpacing c.bare o role = s.owesSpacing c o role := by
  simp only [owesSpacing, Cursor.token_bare, Token.is_bare]

theorem isClosingHeader_bare (isDo : Bool) (t : Token) :
    Plan.isClosingHeader isDo t.bare = Plan.isClosingHeader isDo t := by
  rw [Plan.isClosingHeader, Plan.isClosingHeader, Token.kind_bare]
  by_cases hkind : t.kind = .word
  · rw [Token.text_bare_of_word hkind]
  · simp only [beq_false_of_ne hkind, Bool.false_and]

theorem settleClose_bare (o : Options) (b : OpenBrace) :
    s.settleClose c.bare o b = s.settleClose c o b := by
  have hheader : ∀ isDo, c.bare.nextCodeIs (Plan.isClosingHeader isDo)
      = c.nextCodeIs (Plan.isClosingHeader isDo) := fun isDo =>
    c.nextCodeIs_bare (isClosingHeader_bare isDo)
  have hclose : c.bare.nextCodeIs (·.is "\x7d") = c.nextCodeIs (·.is "\x7d") :=
    c.nextCodeIs_bare fun t => t.is_bare _
  simp only [settleClose, finishBlock, nextCodeIs_isWord_bare, hheader, hclose]

/-- What a written token does to the state depends on bare tokens alone. -/
theorem settle_bare (o : Options) (p : Plan) (lineIndent : Indent) :
    s.settle c.bare o p lineIndent = s.settle c o p lineIndent := by
  simp only [settle, settleCode, beginStatement_bare, owesSpacing_bare, afterCode_bare,
    settleClose_bare]

theorem placed_bare (layout : Layout) (column : Nat) :
    s.placed c.bare layout column = s.placed c layout column := rfl

end State

end Beautifier
