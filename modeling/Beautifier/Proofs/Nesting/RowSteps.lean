/-
Laying out rows.

Between two rows the layout is known by the open blocks, the levels owed to
headers whose bodies are single statements, the levels kept at each `if` that
may still meet its `else`, and whether a header waits for its body (`Between`).
Each kind of row changes these in its own way and is laid out on one line, at
the level they call for.
-/
import Beautifier.Proofs.Layout.Closers
import Beautifier.Proofs.Safety.Checked
import Beautifier.Proofs.Nesting.Signs
import Beautifier.Proofs.Nesting.Steps

namespace Beautifier.Nesting

/-! ## Sources of rows -/

/-- What holds of the signs of all rows: no comment or directive, no line break in a token, and of
the headers that go on behind a block only `else`. -/
structure Sign.Ordinary (x : Sign) : Prop where
  kind : x.kind = .word ∨ x.kind = .punctuation
  breakless : '\r' ∉ x.text.toList ∧ '\n' ∉ x.text.toList
  text : x.text ≠ "catch" ∧ x.text ≠ "finally"

theorem Word.text_ne (w : Word) {header : String} (h : Keyword.isHeader header = true) :
    w.text ≠ header := by
  rintro rfl
  exact Bool.false_ne_true (w.notHeader.symm.trans h)

theorem Word.ordinary (w : Word) (gap : Option String) : Sign.Ordinary ⟨gap, .word, w.text⟩ where
  kind := .inl rfl
  breakless := by
    rw [show w.text.toList = w.chars from String.toList_ofList]
    exact w.breakless
  text := ⟨w.text_ne (by decide), w.text_ne (by decide)⟩

/-- What stands in rows beside words. -/
def fixedSigns : List (TokenKind × String) :=
  [(.word, "if"), (.word, "else"), (.word, "while"), (.punctuation, "("), (.punctuation, ")"),
   (.punctuation, ";"), (.punctuation, "\x7b"), (.punctuation, "\x7d")]

theorem ordinary_fixed {gap : Option String} {kind : TokenKind} {text : String}
    (h : (kind, text) ∈ fixedSigns) : Sign.Ordinary ⟨gap, kind, text⟩ := by
  have hall : ∀ p ∈ fixedSigns, (p.1 = .word ∨ p.1 = .punctuation) ∧
      ('\r' ∉ p.2.toList ∧ '\n' ∉ p.2.toList) ∧ p.2 ≠ "catch" ∧ p.2 ≠ "finally" := by decide
  obtain ⟨hkind, hbreakless, htext⟩ := hall _ h
  exact ⟨hkind, hbreakless, htext⟩

theorem Row.ordinary (row : Row) : ∀ x ∈ row.signs, x.Ordinary := by
  have hfixed := @ordinary_fixed
  simp only [fixedSigns] at hfixed
  have hcondition : ∀ w, ∀ x ∈ conditionSigns w, x.Ordinary := fun w => by
    simp [conditionSigns, hfixed, w.ordinary]
  cases row with
  | simple w => simp [signs, hfixed, w.ordinary]
  | ifHeader behindElse w =>
      refine List.forall_mem_append.mpr ⟨?_, hcondition w⟩
      cases behindElse <;> simp [hfixed]
  | loopHeader w => exact List.forall_mem_cons.mpr ⟨hfixed (by simp), hcondition w⟩
  | _ => simp [signs, hfixed]

/-- The tokens of a source that is written in rows. -/
structure Source (signs : List Sign) (tokens : List Token) : Prop where
  tells : Tells 0 signs tokens
  ordinary : ∀ x ∈ signs, x.Ordinary

def wordAt (signs : List Sign) (n : Nat) (text : String) : Bool :=
  signs[n]?.any fun x => x.kind == .word && x.text == text

variable {signs : List Sign} {tokens : List Token} {n : Nat} {t : Token} {x : Sign}

theorem firstCode_cons {rest : List Token} (h : t.isTrivia = false) :
    firstCode (t :: rest) = some t := by
  rw [firstCode, List.find?_cons_of_pos (by rw [h]; rfl)]

theorem prevCode_succ_of_code {u : Token} (hget : tokens[n]? = some u)
    (hcode : u.isTrivia = false) : (cursorAt tokens (n + 1) t).prevCode = some u := by
  rw [Cursor.prevCode, cursorAt, List.take_add_one, hget, Option.toList_some, List.reverse_append,
    List.reverse_singleton, List.singleton_append, firstCode_cons hcode]

namespace Source

theorem exists_token (h : Source signs tokens) (hget : signs[n]? = some x) :
    ∃ t, tokens[n]? = some t ∧ x.Is n t ∧ Simple t := by
  obtain ⟨t, ht, his⟩ := h.tells.exists_getElem? hget
  rw [Nat.zero_add] at his
  have hx := h.ordinary x (List.mem_of_getElem? hget)
  exact ⟨t, ht, his, by rw [his.kind]; exact hx.kind, by rw [his.text]; exact hx.breakless⟩

theorem exists_sign (h : Source signs tokens) (hget : tokens[n]? = some t) :
    ∃ x, signs[n]? = some x ∧ x.Is n t := by
  have hlt : n < signs.length := h.tells.length_eq ▸ (List.getElem?_eq_some_iff.mp hget).1
  obtain ⟨u, hu, his, -⟩ := h.exists_token (List.getElem?_eq_getElem hlt)
  rw [hget] at hu
  cases hu
  exact ⟨_, List.getElem?_eq_getElem hlt, his⟩

theorem not_isTrivia (h : Source signs tokens) (hget : tokens[n]? = some t) :
    t.isTrivia = false := by
  obtain ⟨x, hx, his⟩ := h.exists_sign hget
  rw [Token.isTrivia, his.kind]
  rcases (h.ordinary x (List.mem_of_getElem? hx)).kind with hkind | hkind <;> rw [hkind]

theorem firstCode_drop (h : Source signs tokens) (n : Nat) :
    firstCode (tokens.drop n) = tokens[n]? := by
  rw [← List.head?_drop]
  cases hdrop : tokens.drop n with
  | nil => rfl
  | cons t rest =>
      have hget : tokens[n]? = some t := by rw [← List.head?_drop, hdrop]; rfl
      rw [firstCode_cons (h.not_isTrivia hget)]
      rfl

theorem prevCode_succ (h : Source signs tokens) {u : Token} (hget : tokens[n]? = some u) :
    (cursorAt tokens (n + 1) t).prevCode = some u :=
  prevCode_succ_of_code hget (h.not_isTrivia hget)

theorem nextCodeIs_isWord (h : Source signs tokens) (text : String) :
    (cursorAt tokens n t).nextCodeIs (·.isWord text) = wordAt signs (n + 1) text := by
  rw [Cursor.nextCodeIs, Cursor.nextCode, cursorAt, h.firstCode_drop, wordAt]
  cases hget : tokens[n + 1]? with
  | none =>
      rw [List.getElem?_eq_none_iff, h.tells.length_eq, ← List.getElem?_eq_none_iff] at hget
      rw [hget]
      rfl
  | some u =>
      obtain ⟨x, hx, his⟩ := h.exists_sign hget
      rw [hx, Option.any_some, Option.any_some, Token.isWord, his.kind, his.text]

theorem nextCodeIs_is (h : Source signs tokens) {gap : Option String} {mark : String}
    (hget : signs[n + 1]? = some ⟨gap, .punctuation, mark⟩) :
    (cursorAt tokens n t).nextCodeIs (·.is mark) = true := by
  obtain ⟨u, hu, his, -⟩ := h.exists_token hget
  rw [Cursor.nextCodeIs, Cursor.nextCode, cursorAt, h.firstCode_drop, hu, Option.any_some, Token.is,
    his.kind, his.text]
  simp

/-- Behind a block of statements no header goes on but `else`. -/
theorem nextCodeIs_isClosingHeader (h : Source signs tokens) :
    (cursorAt tokens n t).nextCodeIs (Plan.isClosingHeader false)
      = (cursorAt tokens n t).nextCodeIs (·.isWord "else") := by
  rw [Cursor.nextCodeIs, Cursor.nextCodeIs, Cursor.nextCode, cursorAt, h.firstCode_drop]
  cases hget : tokens[n + 1]? with
  | none => rfl
  | some u =>
      obtain ⟨x, hx, his⟩ := h.exists_sign hget
      obtain ⟨hcatch, hfinally⟩ := (h.ordinary x (List.mem_of_getElem? hx)).text
      rw [← his.text] at hcatch hfinally
      simp [Plan.isClosingHeader, Token.isWord, beq_eq_false_iff_ne.mpr hcatch,
        beq_eq_false_iff_ne.mpr hfinally]

end Source

def At (signs : List Sign) (n : Nat) (xs : List Sign) : Prop := xs <+: signs.drop n

namespace At

variable {xs ys : List Sign}

theorem head (h : At signs n (x :: xs)) : signs[n]? = some x := by
  obtain ⟨rest, hrest⟩ := h
  rw [← List.head?_drop, ← hrest]
  rfl

theorem tail (h : At signs n (x :: xs)) : At signs (n + 1) xs := by
  obtain ⟨rest, hrest⟩ := h
  exact ⟨rest, by rw [← List.tail_drop, ← hrest]; rfl⟩

theorem left (h : At signs n (xs ++ ys)) : At signs n xs := (List.prefix_append xs ys).trans h

theorem right (h : At signs n (xs ++ ys)) : At signs (n + xs.length) ys := by
  induction xs generalizing n with
  | nil => exact h
  | cons x xs ih =>
      have htail := ih (tail h)
      rwa [Nat.add_assoc, Nat.add_comm 1] at htail

end At

/-! ## Between two rows -/

/-- What the level of the next row depends on. -/
structure Nest where
  /-- The open blocks, the innermost first. -/
  braces : List OpenBrace
  /-- The levels owed to headers. -/
  extra : Nat
  /-- The levels owed at each `if` that may still meet its `else`, the innermost first. -/
  ifs : List Nat
  /-- A header waits for its body. -/
  pending : Bool

namespace Nest

/-- The levels owed to the next statement: the body of a header is one level deeper. -/
def deeper (s : Nest) : Nat := s.extra + s.pending.toNat

/-- The level of the next row that is no brace. -/
def level (s : Nest) : Nat := baseLevel s.braces + s.deeper

/-- Behind the header of an `if`. -/
def behindIf (s : Nest) : Nest :=
  { s with extra := s.deeper, ifs := s.deeper :: s.ifs, pending := true }

/-- Behind the header of a loop or an `else`. -/
def behindHeader (s : Nest) : Nest := { s with extra := s.deeper, pending := true }

/-- Behind a whole statement: before `else` the levels owed at its `if` are owed again. -/
def ended (s : Nest) (beforeElse : Bool) : Nest :=
  { s with
    extra := if beforeElse then s.ifs.headD 0 else 0
    ifs := if beforeElse then s.ifs.tail else []
    pending := false }

/-- The start of a block. -/
def inside (s : Nest) (b : OpenBrace) : Nest := ⟨b :: s.braces, 0, [], false⟩

end Nest

/-- The layout behind `n` tokens is between two rows.  The statement that owns the body to come
has begun with a word that opens neither a `do` loop nor a switch. -/
structure Between (tokens : List Token) (n : Nat) (s : Nest) (lines : List Line) : Prop where
  blocks : Blocks s.braces
  braces : (stage .default tokens n).state.braces = s.braces
  stmt : ∃ start indent,
    (stage .default tokens n).state.stmt = waiting start indent s.extra s.ifs s.pending ∧
      (s.pending = true → indent = ⟨baseLevel s.braces + s.extra, 0⟩ ∧
        ∃ t, tokens[start]? = some t ∧ start < n ∧ t.isWord "do" = false ∧
          t.isWord "switch" = false)
  page : (stage .default tokens n).page.lines = lines
  empty : lines = [] ↔ n = 0

/-- The layout behind the token at position `k` is on a row. -/
structure Along (tokens : List Token) (k : Nat) (braces : List OpenBrace) (stmt : Statement)
    (line : Line) (above : List Line) : Prop where
  token : ∃ t, tokens[k]? = some t
  state : (stage .default tokens (k + 1)).state = onRow braces stmt k
  page : (stage .default tokens (k + 1)).page.lines = line :: above

variable {s : Nest} {lines above : List Line} {text : String} {kind : TokenKind}
  {braces : List OpenBrace} {stmt : Statement} {k level : Nat}

theorem Source.startsRow (hsource : Source signs tokens) (h : Between tokens n s lines)
    (hget : signs[n]? = some ⟨none, kind, text⟩) :
    ∃ t, tokens[n]? = some t ∧ Sign.Is ⟨none, kind, text⟩ n t ∧ Simple t ∧
      StartsRow (cursorAt tokens n t) (stage .default tokens n).page := by
  obtain ⟨t, ht, his, hsimple⟩ := hsource.exists_token hget
  refine ⟨t, ht, his, hsimple, his.inserted, his.leads, ?_⟩
  rw [Page.isEmpty, h.page, List.isEmpty_iff]
  exact h.empty

theorem Source.first_word (hsource : Source signs tokens) (h : Between tokens n s lines)
    (hget : signs[n]? = some ⟨none, .word, text⟩) :
    ∃ t, tokens[n]? = some t ∧ Sign.Is ⟨none, .word, text⟩ n t ∧
      (stage .default tokens (n + 1)).state
        = (onRow s.braces (begun n s.level s.deeper s.ifs) n).headerKeyword (cursorAt tokens n t) ∧
      (stage .default tokens (n + 1)).page.lines = rowLine s.level text :: lines := by
  obtain ⟨t, ht, his, hsimple, hstart⟩ := hsource.startsRow h hget
  obtain ⟨start, indent, hstmt, -⟩ := h.stmt
  have hblocks : Blocks (stage .default tokens n).state.braces := h.braces.symm ▸ h.blocks
  obtain ⟨hstate, hpage⟩ := step_first hstart his.kind hsimple hblocks hstmt
  rw [stage_succ ht, hstate, hpage, h.braces, h.page]
  refine ⟨t, ht, his, rfl, ?_⟩
  rw [show (cursorAt tokens n t).token.text = text from his.text]
  rfl

theorem Sign.Is.is {gap : Option String} {mark : String}
    (h : Sign.Is ⟨gap, .punctuation, mark⟩ n t) : t.is mark = true := by
  rw [Token.is, h.kind, h.text]
  simp

theorem Source.next (hsource : Source signs tokens) {gap : String}
    (h : Along tokens k braces stmt (rowLine level text) above) {mark : String}
    (hget : signs[k + 1]? = some ⟨some gap, kind, mark⟩)
    (hinner : kind = .word ∨ kind = .punctuation ∧ mark ∈ ["(", ")", ";"])
    (hactive : stmt.active = true) (hpending : stmt.headerBodyPending = false) :
    ∃ (column : Nat) (indent : Indent) (t : Token), tokens[k + 1]? = some t ∧
      Sign.Is ⟨some gap, kind, mark⟩ (k + 1) t ∧
      (stage .default tokens (k + 2)).state
        = (onRow braces (aligned column stmt) (k + 1)).afterCode (cursorAt tokens (k + 1) t)
            .default indent ∧
      (stage .default tokens (k + 2)).page.lines
        = rowLine level (text ++ gap ++ mark) :: above := by
  obtain ⟨t, ht, his, hsimple⟩ := hsource.exists_token hget
  obtain ⟨u, hu⟩ := h.token
  obtain ⟨hbreaks, hspace⟩ := his.leads
  have hinner : isInner t = true := by
    rw [isInner, Token.isOneOf, his.kind, his.text]
    rcases hinner with rfl | ⟨rfl, hmark⟩
    · rfl
    · simpa using hmark
  have hprev : (cursorAt tokens (k + 1) t).tokenAt? k = some u := by
    rw [tokenAt?_cursorAt ht (Nat.lt_succ_self k), hu]
  obtain ⟨column, indent, hstate, hpage⟩ := step_next (c := cursorAt tokens (k + 1) t) hinner
    hsimple hbreaks hprev (hsource.not_isTrivia hu) hactive hpending h.state h.page
  refine ⟨column, indent, t, ht, his, ?_, ?_⟩
  · rw [stage_succ ht, hstate]
    rfl
  · rw [stage_succ ht, hpage, show (cursorAt tokens (k + 1) t).token.space = gap from hspace,
      show (cursorAt tokens (k + 1) t).token.text = mark from his.text]

/-! ## What words and brackets do to the statement -/

section
variable {c : Cursor} {state : State}

theorem headerKeyword_of_notHeader (h : Keyword.isHeader c.token.text = false) :
    state.headerKeyword c = state := by
  have hne : ∀ {header : String}, Keyword.isHeader header = true →
      (c.token.text == header) = false := by
    intro header hheader
    rw [beq_eq_false_iff_ne]
    rintro rfl
    exact Bool.false_ne_true (h.symm.trans hheader)
  have hcondition : Keyword.conditionHeaders.contains c.token.text = false :=
    (Bool.or_eq_false_iff.mp h).1
  simp only [State.headerKeyword, hcondition, @hne "if" rfl, @hne "else" rfl, @hne "do" rfl,
    @hne "try" rfl, @hne "finally" rfl, Bool.false_and, Bool.or_self, Bool.false_eq_true, if_false,
    ite_self]

/-- An `if` keeps the levels owed to it for its `else`. -/
theorem headerKeyword_if {start level extra : Nat} {ifs : List Nat} {k : Nat}
    (hplace : start = c.position ∨ c.prevCode.any (·.isWord "else") = true)
    (htext : c.token.text = "if") (hparen : c.nextCodeIs (·.is "(") = true) :
    (onRow braces (begun start level extra ifs) k).headerKeyword c
      = onRow braces (inHeader start level extra (extra :: ifs)) k := by
  have hplace : (start == c.position || c.prevCode.any (·.isWord "else")) = true := by
    simpa using hplace
  rw [State.headerKeyword, htext, hparen,
    show (onRow braces (begun start level extra ifs) k).stmt.start = start from rfl, hplace]
  rfl

theorem headerKeyword_while {start level extra : Nat} {ifs : List Nat} {k : Nat}
    (hplace : start = c.position) (htext : c.token.text = "while")
    (hparen : c.nextCodeIs (·.is "(") = true) :
    (onRow braces (begun start level extra ifs) k).headerKeyword c
      = onRow braces (inHeader start level extra ifs) k := by
  rw [State.headerKeyword, htext, hparen,
    show (onRow braces (begun start level extra ifs) k).stmt.start = start from rfl, hplace,
    beq_self_eq_true]
  rfl

/-- An `else` waits for its body, unless an `if` goes on with its row. -/
theorem headerKeyword_else {start level extra : Nat} {ifs : List Nat} {k : Nat}
    (hplace : start = c.position) (htext : c.token.text = "else") :
    (onRow braces (begun start level extra ifs) k).headerKeyword c
      = onRow braces (if c.nextCodeIs (·.isWord "if") then begun start level extra ifs
          else waiting start ⟨level, 0⟩ extra ifs true) k := by
  rw [State.headerKeyword, htext,
    show (onRow braces (begun start level extra ifs) k).stmt.start = start from rfl, hplace,
    beq_self_eq_true]
  cases c.nextCodeIs (·.isWord "if") <;> rfl

/-- A word inside a statement is no header, unless it stands behind `else`. -/
theorem headerKeyword_inside (hstart : state.stmt.start ≠ c.position)
    (hprev : c.prevCode.any (·.isWord "else") = false) : state.headerKeyword c = state := by
  rw [State.headerKeyword, beq_eq_false_iff_ne.mpr hstart, hprev]
  rfl

theorem afterCode_word (h : c.token.kind = .word) (indent : Indent) :
    state.afterCode c .default indent = state.headerKeyword c := by
  rw [State.afterCode, h]

theorem afterCode_open {position start level extra : Nat} {ifs : List Nat} {indent : Indent}
    (h : c.token.is "(" = true) :
    ∃ p : OpenParen, p.header = true ∧
      (onRow braces (inHeader start level extra ifs) position).afterCode c .default indent
        = onRow braces (inCondition start level extra ifs p) position := by
  obtain ⟨hkind, htext⟩ : c.token.kind = .punctuation ∧ c.token.text = "(" := by
    simpa [Token.is] using h
  rw [State.afterCode, hkind, htext]
  simp only [State.openParen, h]
  exact ⟨_, rfl, rfl⟩

theorem afterCode_close {position start level extra : Nat} {ifs : List Nat} {indent : Indent}
    {p : OpenParen} (hp : p.header = true) (h : c.token.is ")" = true) :
    (onRow braces (inCondition start level extra ifs p) position).afterCode c .default indent
      = onRow braces (waiting start ⟨level, 0⟩ extra ifs true) position := by
  obtain ⟨hkind, htext⟩ : c.token.kind = .punctuation ∧ c.token.text = ")" := by
    simpa [Token.is] using h
  rw [State.afterCode, hkind, htext]
  simp only [State.closeParen, onRow, inCondition, hp]
  rfl

theorem endBody_waiting (start extra : Nat) (indent : Indent) (ifs : List Nat)
    (beforeElse : Bool) :
    State.Statement.endBody (waiting start indent extra ifs false) beforeElse
      = waiting start indent (if beforeElse then ifs.headD 0 else 0)
          (if beforeElse then ifs.tail else []) false := by
  cases ifs <;> cases beforeElse <;> rfl

/-- A block in front of `else` is the body of an `if`. -/
theorem endBlock_waiting {beforeElse : Bool} {ifs : List Nat} (h : beforeElse = true → ifs ≠ [])
    (start extra : Nat) (indent : Indent) (pending : Bool) :
    State.Statement.endBlock (waiting start indent extra ifs pending) beforeElse beforeElse
      = waiting start indent (if beforeElse then ifs.headD 0 else 0)
          (if beforeElse then ifs.tail else []) false := by
  cases beforeElse with
  | false => rfl
  | true =>
      cases ifs with
      | nil => exact absurd rfl (h rfl)
      | cons => rfl

end

/-! ## One lemma for each row -/

theorem Source.simple (hsource : Source signs tokens) (h : Between tokens n s lines) {w : Word}
    (hat : At signs n (Row.simple w).signs) :
    Between tokens (n + 2) (s.ended (wordAt signs (n + 2) "else"))
      (rowLine s.level (Row.simple w).text :: lines) := by
  obtain ⟨t, ht, his, hstate, hlines⟩ := hsource.first_word h hat.head
  have hplain : Keyword.isHeader (cursorAt tokens n t).token.text = false := by
    rw [show (cursorAt tokens n t).token.text = w.text from his.text]
    exact w.notHeader
  rw [headerKeyword_of_notHeader hplain] at hstate
  obtain ⟨column, indent, u, hu, hisu, hstate', hlines'⟩ :=
    hsource.next ⟨⟨t, ht⟩, hstate, hlines⟩ hat.tail.head (.inr ⟨rfl, by decide⟩) rfl rfl
  have hlist : (onRow s.braces (begun n s.level s.deeper s.ifs) (n + 1)).innermostIs
      (·.kind == .initializer) = false := Blocks.not_initializer h.blocks
  have hsemicolon : (stage .default tokens (n + 2)).state
      = (onRow s.braces (begun n s.level s.deeper s.ifs) (n + 1)).endStatement
          (cursorAt tokens (n + 1) u) .default := by
    rw [hstate', State.afterCode, show (cursorAt tokens (n + 1) u).token.kind = .punctuation
      from hisu.kind, show (cursorAt tokens (n + 1) u).token.text = ";" from hisu.text]
    exact if_pos (congrArg (fun list => true && !list) hlist)
  refine ⟨h.blocks, ?_, ⟨n, ⟨s.level, 0⟩, ?_, (absurd · Bool.false_ne_true)⟩, ?_,
    iff_of_false (List.cons_ne_nil _ _) (Nat.succ_ne_zero _)⟩
  · rw [hsemicolon]
    rfl
  · rw [hsemicolon, State.endStatement, hsource.nextCodeIs_isWord]
    exact endBody_waiting n s.deeper ⟨s.level, 0⟩ s.ifs _
  · rw [hlines', Row.text, Row.chars, String.ofList_append, String.append_empty]
    rfl

theorem aligned_begun (column start level extra : Nat) (ifs : List Nat) :
    aligned column (begun start level extra ifs) = begun start level extra ifs := rfl

theorem aligned_inCondition (column start level extra : Nat) (ifs : List Nat) {p : OpenParen}
    (h : p.header = true) :
    ∃ q : OpenParen, q.header = true ∧ aligned column (inCondition start level extra ifs p)
      = inCondition start level extra ifs q := by
  refine ⟨_, ?_, rfl⟩
  split
  · exact h
  · exact h

theorem Source.condition (hsource : Source signs tokens) {w : Word} {start extra : Nat}
    {ifs : List Nat}
    (h : Along tokens k braces (inHeader start level extra ifs) (rowLine level text) above)
    (hstart : start ≤ k) (hat : At signs (k + 1) (conditionSigns w)) :
    (stage .default tokens (k + 4)).state
        = onRow braces (waiting start ⟨level, 0⟩ extra ifs true) (k + 3) ∧
      (stage .default tokens (k + 4)).page.lines
        = rowLine level (text ++ " " ++ String.ofList (Row.condition w)) :: above := by
  obtain ⟨column₁, indent₁, t₁, ht₁, his₁, hstate₁, hlines₁⟩ :=
    hsource.next h hat.head (.inr ⟨rfl, by decide⟩) rfl rfl
  have hopen : (cursorAt tokens (k + 1) t₁).token.is "(" = true := his₁.is
  obtain ⟨p, hp, heq₁⟩ := afterCode_open hopen
  rw [show aligned column₁ (inHeader start level extra ifs) = inHeader start level extra ifs
    from rfl, heq₁] at hstate₁
  obtain ⟨column₂, indent₂, t₂, ht₂, his₂, hstate₂, hlines₂⟩ :=
    hsource.next ⟨⟨t₁, ht₁⟩, hstate₁, hlines₁⟩ hat.tail.head (.inl rfl) rfl rfl
  obtain ⟨q, hq, halign₂⟩ := aligned_inCondition column₂ start level extra ifs hp
  have hinside : (onRow braces (inCondition start level extra ifs q) (k + 2)).headerKeyword
      (cursorAt tokens (k + 2) t₂)
      = onRow braces (inCondition start level extra ifs q) (k + 2) := by
    refine headerKeyword_inside (show start ≠ k + 2 by omega) ?_
    rw [hsource.prevCode_succ ht₁, Option.any_some, Token.isWord, his₁.kind]
    rfl
  rw [halign₂, afterCode_word his₂.kind, hinside] at hstate₂
  obtain ⟨column₃, indent₃, t₃, ht₃, his₃, hstate₃, hlines₃⟩ :=
    hsource.next ⟨⟨t₂, ht₂⟩, hstate₂, hlines₂⟩ hat.tail.tail.head (.inr ⟨rfl, by decide⟩) rfl rfl
  obtain ⟨r, hr, halign₃⟩ := aligned_inCondition column₃ start level extra ifs hq
  have hclose : (cursorAt tokens (k + 3) t₃).token.is ")" = true := his₃.is
  rw [halign₃, afterCode_close hr hclose] at hstate₃
  refine ⟨hstate₃, hlines₃.trans (congrArg (rowLine level · :: above) ?_)⟩
  exact String.toList_inj.mp (by simp [Row.condition, Word.text])

/-- A header with a condition, whose keyword ends at position `k` in a statement that began at
`n`. -/
theorem Source.header (hsource : Source signs tokens) (h : Between tokens n s lines) {w : Word}
    {ifs : List Nat} (hk : n ≤ k) (ht : tokens[n]? = some t)
    (hword : t.isWord "do" = false ∧ t.isWord "switch" = false)
    (halong : Along tokens k s.braces (inHeader n s.level s.deeper ifs) (rowLine s.level text)
      lines)
    (hat : At signs (k + 1) (conditionSigns w)) :
    Between tokens (k + 4) ⟨s.braces, s.deeper, ifs, true⟩
      (rowLine s.level (text ++ " " ++ String.ofList (Row.condition w)) :: lines) := by
  obtain ⟨hstate, hlines⟩ := hsource.condition halong hk hat
  refine ⟨h.blocks, ?_, ⟨n, ⟨s.level, 0⟩, ?_, fun _ => ⟨rfl, t, ht, by omega, hword⟩⟩, hlines,
    iff_of_false nofun nofun⟩
  · rw [hstate]
    rfl
  · rw [hstate]
    rfl

theorem Source.loopHeader (hsource : Source signs tokens) (h : Between tokens n s lines)
    {w : Word} (hat : At signs n (Row.loopHeader w).signs) :
    Between tokens (n + 4) s.behindHeader (rowLine s.level (Row.loopHeader w).text :: lines) := by
  obtain ⟨t, ht, his, hstate, hlines⟩ := hsource.first_word h hat.head
  have hparen : (cursorAt tokens n t).nextCodeIs (·.is "(") = true :=
    hsource.nextCodeIs_is hat.tail.head
  have hheader : (onRow s.braces (begun n s.level s.deeper s.ifs) n).headerKeyword
      (cursorAt tokens n t) = onRow s.braces (inHeader n s.level s.deeper s.ifs) n :=
    headerKeyword_while rfl his.text hparen
  rw [hheader] at hstate
  have hword : t.isWord "do" = false ∧ t.isWord "switch" = false := by
    simp [Token.isWord, his.text]
  have htext : (Row.loopHeader w).text = "while" ++ " " ++ String.ofList (Row.condition w) := by
    rw [Row.text, Row.chars, String.ofList_append]
    rfl
  rw [htext]
  exact hsource.header h (Nat.le_refl n) ht hword ⟨⟨t, ht⟩, hstate, hlines⟩ hat.tail

theorem Source.headerKeyword_else (hsource : Source signs tokens)
    (his : Sign.Is ⟨none, .word, "else"⟩ n t) {extra : Nat} {ifs : List Nat} :
    (onRow braces (begun n level extra ifs) n).headerKeyword (cursorAt tokens n t)
      = onRow braces (if wordAt signs (n + 1) "if" then begun n level extra ifs
          else waiting n ⟨level, 0⟩ extra ifs true) n := by
  rw [← hsource.nextCodeIs_isWord (t := t)]
  exact Nesting.headerKeyword_else rfl his.text

theorem Source.ifHeader_first (hsource : Source signs tokens) (h : Between tokens n s lines)
    {w : Word} (hat : At signs n (Row.ifHeader false w).signs) :
    Between tokens (n + (Row.ifHeader false w).signs.length) s.behindIf
      (rowLine s.level (Row.ifHeader false w).text :: lines) := by
  obtain ⟨t, ht, his, hstate, hlines⟩ := hsource.first_word h hat.head
  have hparen : (cursorAt tokens n t).nextCodeIs (·.is "(") = true :=
    hsource.nextCodeIs_is hat.tail.head
  have hheader : (onRow s.braces (begun n s.level s.deeper s.ifs) n).headerKeyword
      (cursorAt tokens n t)
      = onRow s.braces (inHeader n s.level s.deeper (s.deeper :: s.ifs)) n :=
    headerKeyword_if (.inl rfl) his.text hparen
  rw [hheader] at hstate
  have hword : t.isWord "do" = false ∧ t.isWord "switch" = false := by
    simp [Token.isWord, his.text]
  have htext : (Row.ifHeader false w).text = "if" ++ " " ++ String.ofList (Row.condition w) := by
    rw [Row.text, Row.chars, String.ofList_append]
    rfl
  rw [htext]
  exact hsource.header h (Nat.le_refl n) ht hword ⟨⟨t, ht⟩, hstate, hlines⟩ hat.tail

theorem Source.ifHeader_behindElse (hsource : Source signs tokens) (h : Between tokens n s lines)
    {w : Word} (hat : At signs n (Row.ifHeader true w).signs) :
    Between tokens (n + (Row.ifHeader true w).signs.length) s.behindIf
      (rowLine s.level (Row.ifHeader true w).text :: lines) := by
  obtain ⟨t, ht, his, hstate, hlines⟩ := hsource.first_word h hat.head
  have hif : wordAt signs (n + 1) "if" = true := by
    rw [wordAt, hat.tail.head]
    rfl
  rw [hsource.headerKeyword_else his, hif, if_pos rfl] at hstate
  obtain ⟨column, indent, u, hu, hisu, hstate', hlines'⟩ :=
    hsource.next ⟨⟨t, ht⟩, hstate, hlines⟩ hat.tail.head (.inl rfl) rfl rfl
  have hparen : (cursorAt tokens (n + 1) u).nextCodeIs (·.is "(") = true :=
    hsource.nextCodeIs_is hat.tail.tail.head
  have hprev : (cursorAt tokens (n + 1) u).prevCode.any (·.isWord "else") = true := by
    rw [hsource.prevCode_succ ht, Option.any_some, Token.isWord, his.kind, his.text]
    rfl
  have hheader : (onRow s.braces (begun n s.level s.deeper s.ifs) (n + 1)).headerKeyword
      (cursorAt tokens (n + 1) u)
      = onRow s.braces (inHeader n s.level s.deeper (s.deeper :: s.ifs)) (n + 1) :=
    headerKeyword_if (.inr hprev) hisu.text hparen
  rw [aligned_begun, afterCode_word hisu.kind, hheader] at hstate'
  have hword : t.isWord "do" = false ∧ t.isWord "switch" = false := by
    simp [Token.isWord, his.text]
  have htext : (Row.ifHeader true w).text
      = "else" ++ " " ++ "if" ++ " " ++ String.ofList (Row.condition w) := by
    rw [Row.text, Row.chars, String.ofList_append]
    rfl
  rw [htext]
  exact hsource.header h (Nat.le_succ n) ht hword ⟨⟨u, hu⟩, hstate', hlines'⟩ hat.tail.tail

theorem Source.ifHeader (hsource : Source signs tokens) (h : Between tokens n s lines)
    {w : Word} {behindElse : Bool} (hat : At signs n (Row.ifHeader behindElse w).signs) :
    Between tokens (n + (Row.ifHeader behindElse w).signs.length) s.behindIf
      (rowLine s.level (Row.ifHeader behindElse w).text :: lines) := by
  cases behindElse with
  | false => exact hsource.ifHeader_first h hat
  | true => exact hsource.ifHeader_behindElse h hat

theorem Source.elseHeader (hsource : Source signs tokens) (h : Between tokens n s lines)
    (hat : At signs n Row.elseHeader.signs) (hif : wordAt signs (n + 1) "if" = false) :
    Between tokens (n + 1) s.behindHeader (rowLine s.level Row.elseHeader.text :: lines) := by
  obtain ⟨t, ht, his, hstate, hlines⟩ := hsource.first_word h hat.head
  have hword : t.isWord "do" = false ∧ t.isWord "switch" = false := by
    simp [Token.isWord, his.text]
  rw [hsource.headerKeyword_else his, hif, if_neg Bool.false_ne_true] at hstate
  refine ⟨h.blocks, ?_, ⟨n, ⟨s.level, 0⟩, ?_, fun _ => ⟨rfl, t, ht, by omega, hword⟩⟩, hlines,
    iff_of_false nofun nofun⟩
  · rw [hstate]
    rfl
  · rw [hstate]
    rfl

/-- A block with rows inside does not stand on one line. -/
theorem onOneLine_of_row (hsource : Source signs tokens) {mark : String}
    (hnext : signs[n + 1]? = some ⟨none, kind, mark⟩) :
    Plan.onOneLine (cursorAt tokens n t) = false := by
  obtain ⟨u, hu, his, -⟩ := hsource.exists_token hnext
  rw [Plan.onOneLine]
  cases hcloser : (cursorAt tokens n t).closer with
  | none => rfl
  | some close =>
      have hlt : n < close := Matching.lt_of_closers hcloser
      obtain ⟨distance, hdistance⟩ : ∃ distance, close - n = distance + 1 :=
        ⟨close - n - 1, by omega⟩
      have hafter : tokens.drop (n + 1) = u :: tokens.drop (n + 2) := by
        obtain ⟨hlength, hget⟩ := List.getElem?_eq_some_iff.mp hu
        rw [List.drop_eq_getElem_cons hlength, hget]
      have hbreaks : u.lineBreaks = min (n + 1) 1 := his.leads
      rw [Nat.min_eq_right (Nat.le_add_left 1 n)] at hbreaks
      have hupTo : (cursorAt tokens n t).upTo close
          = u :: (tokens.drop (n + 2)).take distance := by
        rw [Cursor.upTo, cursorAt, hdistance, hafter, List.take_succ_cons]
      dsimp only
      rw [hupTo, List.all_cons, hbreaks]
      rfl

theorem Source.opening (hsource : Source signs tokens) (h : Between tokens n s lines)
    (hat : At signs n Row.opening.signs) {mark : String}
    (hnext : signs[n + 1]? = some ⟨none, kind, mark⟩) :
    ∃ b, IsBlock b (baseLevel s.braces + s.extra) ∧
      (∃ start indent, b.outer = waiting start indent s.extra s.ifs s.pending) ∧
      Between tokens (n + 1) (s.inside b)
        (rowLine (baseLevel s.braces + s.extra) Row.opening.text :: lines) := by
  obtain ⟨t, ht, his, hsimple, hstart⟩ := hsource.startsRow h hat.head
  obtain ⟨start, indent, hstmt, howner⟩ := h.stmt
  have hblocks : Blocks (stage .default tokens n).state.braces := h.braces.symm ▸ h.blocks
  have hpending : s.pending = true →
      indent = ⟨baseLevel (stage .default tokens n).state.braces + s.extra, 0⟩ ∧
        (cursorAt tokens n t).isWordAt start "do" = false ∧
        (cursorAt tokens n t).isWordAt start "switch" = false := by
    intro hpending
    obtain ⟨hindent, u, hu, hlt, hdo, hswitch⟩ := howner hpending
    rw [h.braces, Cursor.isWordAt, Cursor.isWordAt, tokenAt?_cursorAt ht hlt, hu]
    exact ⟨hindent, hdo, hswitch⟩
  obtain ⟨b, hb, houter, hbraces, hfresh, hpage⟩ := step_open hstart his.is hsimple hblocks hstmt
    hpending (onOneLine_of_row hsource hnext)
  rw [← stage_succ ht] at hbraces hfresh hpage
  rw [h.braces] at hb hbraces hpage
  refine ⟨b, hb, ⟨start, indent, houter⟩, ?_, hbraces, ⟨0, .zero, hfresh, nofun⟩, ?_,
    iff_of_false nofun nofun⟩
  · exact List.forall_mem_cons.mpr ⟨⟨_, hb⟩, h.blocks⟩
  · rw [hpage, h.page, show (cursorAt tokens n t).token.text = "\x7b" from his.text]
    rfl

/-- The closing brace of a block, which ends the statement that the block is part of. -/
theorem Source.closing (hsource : Source signs tokens) {b : OpenBrace} (hblocks : Blocks s.braces)
    (hb : IsBlock b level)
    (houter : ∃ start indent, b.outer = waiting start indent s.extra s.ifs s.pending)
    (h : Between tokens n (s.inside b) lines) (hat : At signs n Row.closing.signs)
    (hif : wordAt signs (n + 1) "else" = true → s.ifs ≠ []) :
    Between tokens (n + 1) (s.ended (wordAt signs (n + 1) "else"))
      (rowLine level Row.closing.text :: lines) := by
  obtain ⟨t, ht, his, hsimple, hstart⟩ := hsource.startsRow h hat.head
  obtain ⟨start, indent, houter⟩ := houter
  obtain ⟨hbraces, hstmt, hpage⟩ := step_close hstart his.is hsimple h.braces hb
    hsource.nextCodeIs_isClosingHeader
  rw [← stage_succ ht] at hbraces hstmt hpage
  rw [houter, hsource.nextCodeIs_isWord, endBlock_waiting hif] at hstmt
  refine ⟨hblocks, hbraces, ⟨start, indent, hstmt, nofun⟩, ?_, iff_of_false nofun nofun⟩
  rw [hpage, h.page, show (cursorAt tokens n t).token.text = "\x7d" from his.text]
  rfl

end Beautifier.Nesting
