/-
Statements that look back over a common stretch of tokens.

A statement is rooted where everything that the layout looks back to for it
lies behind the stretch in which two lists of tokens differ: its start, its
brackets, and the header of a condition.  Then a token has the same role in
both lists, and an opening brace opens the same (`Cursor.role_moved`,
`Cursor.classify_moved`).
-/
import Beautifier.Proofs.Layout.LookBack

namespace Beautifier

/-- A statement in front of the token at `n` that looks back at most to the position `k`. -/
structure Statement.Rooted (tokens : List Token) (i k n : Nat) (stmt : Statement) : Prop where
  kept : Kept i k stmt.start
  start : stmt.active = true → CodeAt tokens k n stmt.start
  paren : ∀ p ∈ stmt.parens, CodeAt tokens k n p.start
  bracket : ∀ p ∈ stmt.parens, ∃ u, tokens[p.start]? = some u ∧ u.kind = .punctuation
  header : ∀ p ∈ stmt.parens, p.header = true → CodeBetween tokens k p.start
  pending : stmt.headerParenPending = true → CodeBetween tokens k n

variable {tokens tokens' : List Token} {i k k' n : Nat} {t : Token} {s : State}

theorem Statement.Rooted.startBody {stmt : Statement} (h : stmt.Rooted tokens i k n)
    (starts semicolon : Bool) : (Plan.startBody stmt starts semicolon).Rooted tokens i k n := by
  rw [Plan.startBody]
  split
  · exact ⟨h.kept, h.start, h.paren, h.bracket, h.header, h.pending⟩
  · exact h

/-! ## Operators -/

namespace Role

section

variable (h : Rejoins i k k' tokens tokens') (hget : tokens[n]? = some t) (hn : k ≤ n)
include h hget hn

theorem comparesInCondition_moved {paren : OpenParen} (hparen : CodeAt tokens k n paren.start)
    (hheader : CodeBetween tokens k paren.start) :
    comparesInCondition (cursorAt tokens' (shifted k k' n) t) (paren.moved (shifted k k'))
      = comparesInCondition (cursorAt tokens n t) paren := by
  have hinside := h.since_shifted hget hn (Nat.le_succ_of_le hparen.le)
  rw [shifted_succ hparen.le] at hinside
  have hbefore := h.firstCode_beforePosition hget hn hparen.le hparen.lt hheader
  have hafter := Cursor.after_eq_of_ahead (h.ahead_cursorAt hn t)
  simp only [comparesInCondition, OpenParen.moved, hinside, hbefore, hafter]
  rfl

theorem isComparison_moved (hs : s.stmt.Rooted tokens i k n) :
    isComparison (cursorAt tokens' (shifted k k' n) t) (s.moved (shifted k k'))
      = isComparison (cursorAt tokens n t) s := by
  have hnext := Cursor.nextCode_eq_of_ahead (h.ahead_cursorAt hn t)
  rw [isComparison, isComparison, hnext]
  cases (cursorAt tokens n t).nextCode with
  | none => rfl
  | some next =>
      simp only [State.moved, Statement.moved]
      cases hparens : s.stmt.parens with
      | nil => rfl
      | cons paren outer =>
          have hmem : paren ∈ s.stmt.parens := hparens ▸ List.mem_cons_self
          cases hheader : paren.header with
          | false => simp only [List.map_cons, OpenParen.moved, hheader, Bool.false_and]
          | true =>
              have hcompares := comparesInCondition_moved h hget hn (hs.paren paren hmem)
                (hs.header paren hmem hheader)
              have hheader' : (paren.moved (shifted k k')).header = true := hheader
              simp only [List.map_cons, hcompares, hheader, hheader']

theorem pointerContext_moved (hs : s.stmt.Rooted tokens i k n) (hactive : s.stmt.active = true) :
    pointerContext (cursorAt tokens' (shifted k k' n) t) (s.moved (shifted k k'))
      = pointerContext (cursorAt tokens n t) s := by
  have hsince := h.since_shifted hget hn (hs.start hactive).le
  simp only [pointerContext, State.moved, Statement.moved, hsince]
  cases s.stmt.parens <;> rfl

theorem ofPointer_moved (hs : s.stmt.Rooted tokens i k n) (hactive : s.stmt.active = true)
    (hasPointers : Bool) (prev : Token) :
    ofPointer (cursorAt tokens' (shifted k k' n) t) (s.moved (shifted k k')) hasPointers prev
      = ofPointer (cursorAt tokens n t) s hasPointers prev := by
  have hcontext := pointerContext_moved h hget hn hs hactive
  have hnext := Cursor.nextCodeIs_eq_of_ahead (h.ahead_cursorAt hn t)
  simp only [ofPointer, hcontext, hnext]
  rfl

theorem ofPunctuation_moved (hs : s.stmt.Rooted tokens i k n) (hasPointers : Bool)
    {prev : Option Token} (hprev : prev.isSome = true → s.stmt.active = true) :
    ofPunctuation (cursorAt tokens' (shifted k k' n) t) (s.moved (shifted k k')) hasPointers prev
      = ofPunctuation (cursorAt tokens n t) s hasPointers prev := by
  have hcomparison := isComparison_moved h hget hn hs
  have hnext := Cursor.nextCodeIs_eq_of_ahead (h.ahead_cursorAt hn t)
  cases prev with
  | none =>
      simp only [ofPunctuation, hcomparison, hnext]
      rfl
  | some prev =>
      have hpointer := ofPointer_moved h hget hn hs (hprev rfl) hasPointers prev
      simp only [ofPunctuation, hcomparison, hnext, hpointer]
      rfl

end

end Role

namespace Cursor

section

variable (h : Rejoins i k k' tokens tokens') (hget : tokens[n]? = some t) (hn : k ≤ n)
include h hget hn

/-- A token has the same role in both lists. -/
theorem role_moved (hs : s.stmt.Rooted tokens i k n) (hasPointers : Bool) :
    (cursorAt tokens' (shifted k k' n) t).role (s.moved (shifted k k')) hasPointers
      = (cursorAt tokens n t).role s hasPointers := by
  have hprev : (if s.stmt.active then (cursorAt tokens' (shifted k k' n) t).prevCode else none)
      = if s.stmt.active then (cursorAt tokens n t).prevCode else none := by
    split
    · next hactive => exact h.prevCode_cursorAt hn ⟨_, hs.start hactive⟩
    · rfl
  have hactive : (if s.stmt.active then (cursorAt tokens n t).prevCode else none).isSome = true →
      s.stmt.active = true := by
    intro hsome
    split at hsome
    · assumption
    · cases hsome
  have hpunctuation := Role.ofPunctuation_moved h hget hn hs hasPointers hactive
  rw [role, role, ← hpunctuation, ← hprev]
  rfl

/-! ## Looking back from other tokens -/

/-- The spacing behind the token written last: behind a comment or a directive it does not matter
which. -/
theorem spacing_moved (hlast : ∀ p ∈ s.lastOnLine, p ≤ i ∨ k ≤ p + 1) (o : Options) (role : Role) :
    (cursorAt tokens' (shifted k k' n) t).spacing o (s.moved (shifted k k')) role
      = (cursorAt tokens n t).spacing o s role := by
  have hmoved : (s.moved (shifted k k')).lastOnLine = s.lastOnLine.map (shifted k k') := rfl
  rw [spacing, spacing, hmoved]
  cases hlastOnLine : s.lastOnLine with
  | none => rfl
  | some p =>
      rw [Option.map_some, Option.bind_some, Option.bind_some]
      by_cases hturn : p + 1 = k
      · have hp : p = k - 1 := by omega
        obtain ⟨u, hu, htrivia⟩ := h.turn
        obtain ⟨u', hu', htrivia'⟩ := h.turn'
        have hlt' : k' - 1 < shifted k k' n :=
          Nat.lt_of_lt_of_le (Nat.sub_lt (Nat.zero_lt_of_lt h.lt') Nat.one_pos) (le_shifted hn)
        rw [hp, shifted_pred (hturn ▸ Nat.succ_pos p), tokenAt?_cursorAt hget (by omega),
          tokenAt?_cursorAt (h.getElem?_shifted_eq hget hn) hlt', hu, hu']
        simp only [Spacing.behind, htrivia, htrivia']
        rfl
      · have hkept : Kept i k p := (hlast p hlastOnLine).imp_right fun hle => by omega
        rw [h.tokenAt?_shifted hget hn hkept]
        rfl

theorem isWordAt_moved (hs : Kept i k s.stmt.start) (text : String) :
    (cursorAt tokens' (shifted k k' n) t).isWordAt (s.moved (shifted k k')).stmt.start text
      = (cursorAt tokens n t).isWordAt s.stmt.start text := by
  have htoken := h.tokenAt?_shifted hget hn hs
  rw [isWordAt, isWordAt, ← htoken]
  rfl

theorem statementCode_moved (hs : k ≤ s.stmt.start) :
    (cursorAt tokens' (shifted k k' n) t).statementCode (s.moved (shifted k k'))
      = (cursorAt tokens n t).statementCode s := by
  have hsince := h.since_shifted hget hn hs
  rw [statementCode, statementCode, ← hsince]
  rfl

omit hget in
theorem behindName_moved (hcode : CodeBetween tokens k n) :
    (cursorAt tokens' (shifted k k' n) t).behindName = (cursorAt tokens n t).behindName := by
  rw [behindName, behindName, h.prevCode_cursorAt hn hcode]

omit hget in
theorem afterDeclarator_moved {p : Nat} (hcode : CodeAt tokens k n p)
    (hpunct : ∃ u, tokens[p]? = some u ∧ u.kind = .punctuation) :
    (cursorAt tokens' (shifted k k' n) t).afterDeclarator
      = (cursorAt tokens n t).afterDeclarator := by
  rw [afterDeclarator, afterDeclarator, h.prevCode_cursorAt hn ⟨p, hcode⟩,
    h.afterTrailingReturn_cursorAt hn hcode hpunct]

end

end Cursor

theorem Head.exists_bracket {template : Bool} {angles : Nat} {head : Head} {ts : List Token}
    (h : (Head.read template angles head ts).bracket = true) :
    head.bracket = true ∨ ∃ u ∈ ts, u.kind = .punctuation := by
  induction ts generalizing template angles head with
  | nil => exact .inl h
  | cons u rest ih =>
      have hnext : ∀ {template : Bool} {angles : Nat} {next : Head}, next.bracket = head.bracket →
          (Head.read template angles next rest).bracket = true →
          head.bracket = true ∨ ∃ u' ∈ u :: rest, u'.kind = .punctuation := by
        intro template angles next hbracket hread
        rcases ih hread with hhead | ⟨u', hu', hkind⟩
        · exact .inl (hbracket ▸ hhead)
        · exact .inr ⟨u', List.mem_cons_of_mem _ hu', hkind⟩
      have hfirst : (if head.first.isNone then { head with first := some u.text } else head).bracket
          = head.bracket := by
        split <;> rfl
      have hword : ∀ word, ((if head.first.isNone then { head with first := some u.text }
          else head).addWord word).bracket = head.bracket := by
        intro word
        rw [← hfirst, Head.addWord]
        split_ifs <;> rfl
      rw [Head.read] at h
      dsimp only at h
      split at h
      · exact hnext hfirst h
      · split at h
        · exact hnext (hword _) h
        · next hkind => exact .inr ⟨u, List.mem_cons_self, hkind⟩
        · exact hnext hfirst h

namespace Cursor

/-- Where the current statement holds a bracket, it stands in front of the token. -/
theorem exists_of_mem_statementCode (hget : tokens[n]? = some t) (hstart : k ≤ s.stmt.start)
    {u : Token} (hu : u ∈ (cursorAt tokens n t).statementCode s) :
    ∃ p, CodeAt tokens k n p ∧ tokens[p]? = some u := by
  rw [statementCode, since_min_cursorAt hget, List.mem_reverse, List.mem_filter, List.mem_reverse,
    List.mem_iff_getElem?] at hu
  obtain ⟨⟨p, hp⟩, hcode⟩ := hu
  rw [List.getElem?_drop] at hp
  have hlt : min s.stmt.start n + p < n := by
    have hlength := lt_length hp
    rw [List.length_take] at hlength
    exact Nat.lt_of_lt_of_le hlength (Nat.min_le_left _ _)
  rw [List.getElem?_take_of_lt hlt] at hp
  have hmin : min s.stmt.start n = s.stmt.start := by omega
  refine ⟨min s.stmt.start n + p, ⟨?_, hlt, u, hp, by simpa using hcode⟩, hp⟩
  rw [hmin]
  exact Nat.le_trans hstart (Nat.le_add_right _ _)

section

variable (h : Rejoins i k k' tokens tokens') (hget : tokens[n]? = some t) (hn : k ≤ n)
include h hget hn

theorem classifyInStatement_moved (hs : s.stmt.Rooted tokens i k n) (hactive : s.stmt.active = true)
    (hends : (cursorAt tokens' (shifted k k' n) t).endsBehindBlock
      = (cursorAt tokens n t).endsBehindBlock) :
    (cursorAt tokens' (shifted k k' n) t).classifyInStatement (s.moved (shifted k k'))
      = (cursorAt tokens n t).classifyInStatement s := by
  have hstart := hs.start hactive
  have hhead : (cursorAt tokens' (shifted k k' n) t).head (s.moved (shifted k k'))
      = (cursorAt tokens n t).head s := by
    rw [head, head, statementCode_moved h hget hn hstart.le]
  have hname :
      (cursorAt tokens' (shifted k k' n) t).afterName = (cursorAt tokens n t).afterName := by
    rw [afterName, afterName, h.prevCode_cursorAt hn ⟨_, hstart⟩]
  have hdeclarator : ((cursorAt tokens n t).head s).bracket = true →
      (cursorAt tokens' (shifted k k' n) t).afterDeclarator
        = (cursorAt tokens n t).afterDeclarator := by
    intro hbracket
    rcases Head.exists_bracket hbracket with hempty | ⟨u, hu, hkind⟩
    · cases hempty
    · obtain ⟨p, hp, hget'⟩ := exists_of_mem_statementCode hget hstart.le hu
      exact afterDeclarator_moved h hn hp ⟨u, hget', hkind⟩
  rw [classifyInStatement, classifyInStatement, hhead, hname, hends, State.inCodeScope_moved]
  cases hbracket : ((cursorAt tokens n t).head s).bracket with
  | false => simp only [Bool.false_and]
  | true => rw [hdeclarator hbracket]

/-- An opening brace opens the same in both lists. -/
theorem classify_moved (hs : s.stmt.Rooted tokens i k n)
    (hends : (cursorAt tokens' (shifted k k' n) t).endsBehindBlock
      = (cursorAt tokens n t).endsBehindBlock) :
    (cursorAt tokens' (shifted k k' n) t).classify (s.moved (shifted k k'))
      = (cursorAt tokens n t).classify s := by
  have hinitializer : (s.moved (shifted k k')).innermostIs (·.kind == .initializer)
      = s.innermostIs (·.kind == .initializer) := s.innermostIs_moved _ fun _ => rfl
  have hswitch := isWordAt_moved h hget hn hs.kept "switch"
  have hdeclarator : s.stmt.parens.isEmpty = false →
      (cursorAt tokens' (shifted k k' n) t).afterDeclarator
        = (cursorAt tokens n t).afterDeclarator := by
    intro hparens
    obtain ⟨paren, hparen⟩ := List.isEmpty_eq_false_iff_exists_mem.mp hparens
    exact afterDeclarator_moved h hn (hs.paren paren hparen) (hs.bracket paren hparen)
  rw [classify, classify, hinitializer, hswitch, State.isEmpty_parens_moved]
  have hactive : (s.moved (shifted k k')).stmt.active = s.stmt.active := rfl
  have hpending : (s.moved (shifted k k')).stmt.headerBodyPending = s.stmt.headerBodyPending := rfl
  rw [hactive, hpending]
  cases hempty : s.stmt.parens.isEmpty with
  | false => rw [hdeclarator hempty]; rfl
  | true =>
      cases hbody : s.stmt.headerBodyPending with
      | true => rfl
      | false =>
          cases hbegun : s.stmt.active with
          | false => rfl
          | true =>
              have hvalue : (cursorAt tokens' (shifted k k' n) t).afterValueIntroducer
                  = (cursorAt tokens n t).afterValueIntroducer := by
                rw [afterValueIntroducer, afterValueIntroducer,
                  h.prevCode_cursorAt hn ⟨_, hs.start hbegun⟩]
              rw [classifyInStatement_moved h hget hn hs hbegun hends, hvalue]
              rfl

end

end Cursor

end Beautifier
