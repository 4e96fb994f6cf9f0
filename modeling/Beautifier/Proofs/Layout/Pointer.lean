/-
Aligned `*` and `&`.

The alignment of a declarator leaves out white space that stands in the source,
before a `*` or `&` or behind a run of them.  Before them stands a word, a `>` or
another `*` or `&` (`of_role_pointer`), and the state remembers an alignment
only behind them (`pointerAfter_step`), so what is written directly behind the
token before is read apart from it, or the two are read as `*=`, `&=` or `&&`
(`stopsBefore_or_fuses`).
-/
import Beautifier.Proofs.Token.Spelling
import Beautifier.Proofs.Layout.Stage
import Beautifier.Proofs.Layout.Joining

namespace Beautifier

/-! ## What the state remembers for the next token -/

namespace State

variable {o : Options} {s : State} {c : Cursor}

theorem afterCode_eq (s : State) (c : Cursor) (o : Options) (lineIndent : Indent) :
    ∃ stmt forceBreak, s.afterCode c o lineIndent = { s with stmt, forceBreak } := by
  unfold afterCode
  split
  · unfold headerKeyword completeHeader
    dsimp only
    repeat' split
    all_goals exact ⟨_, _, rfl⟩
  · split
    · exact ⟨_, _, rfl⟩
    · exact ⟨_, _, rfl⟩
    · unfold closeParen completeHeader
      repeat' split
      all_goals exact ⟨_, _, rfl⟩
    · unfold closeParen completeHeader
      repeat' split
      all_goals exact ⟨_, _, rfl⟩
    · unfold endStatement
      split <;> exact ⟨_, _, rfl⟩
    · exact ⟨_, _, rfl⟩
    · unfold colon
      repeat' split
      all_goals exact ⟨_, _, rfl⟩
    · exact ⟨_, _, rfl⟩
  · exact ⟨_, _, rfl⟩

theorem lastOnLine_settle (s : State) (c : Cursor) (o : Options) (p : Plan)
    (lineIndent : Indent) : (s.settle c o p lineIndent).lastOnLine = s.lastOnLine := by
  unfold settle
  split
  · rfl
  · rfl
  · rfl
  · next starts role _ =>
    unfold settleCode
    obtain ⟨stmt, forceBreak, heq⟩ :=
      ((if starts then s.beginStatement c p.layout lineIndent else s).owesSpacing c o
        role).afterCode_eq c o lineIndent
    dsimp only
    rw [heq]
    cases starts <;> rfl
  · rfl
  · unfold settleClose finishBlock
    dsimp only
    split <;> rfl

theorem pointerAfter_settle (halign : o.alignPointer = none) (hs : s.pointerAfter = none)
    (p : Plan) (lineIndent : Indent) : (s.settle c o p lineIndent).pointerAfter = none := by
  unfold settle
  split
  · exact hs
  · exact hs
  · exact hs
  · next starts role _ =>
    unfold settleCode
    obtain ⟨stmt, forceBreak, heq⟩ :=
      ((if starts then s.beginStatement c p.layout lineIndent else s).owesSpacing c o
        role).afterCode_eq c o lineIndent
    dsimp only
    rw [heq]
    simp [owesSpacing, halign]
  · rfl
  · unfold settleClose finishBlock
    dsimp only
    split <;> rfl

theorem pointerAfter_placed (s : State) (c : Cursor) (layout : Layout) (column : Nat) :
    (s.placed c layout column).pointerAfter = none ∨
      ∃ spacing, layout = .sameLine spacing ∧
        (s.placed c layout column).pointerAfter = s.pointerAfter := by
  cases layout with
  | newLine => exact .inl rfl
  | sameLine spacing =>
      refine .inr ⟨spacing, rfl, ?_⟩
      unfold placed amendParen
      dsimp only
      repeat' split
      all_goals rfl

end State

theorem pointerAfter_plan {o : Options} {s : State} {cs : List Conditional} {page : Page}
    {c : Cursor} {spacing : Spacing} (h : (c.plan o s cs page).layout = .sameLine spacing) :
    (c.plan o s cs page).state.pointerAfter = s.pointerAfter := by
  unfold Cursor.plan at h ⊢
  split at h
  · cases h
  · rfl
  · rfl
  · split
    · rfl
    split
    · unfold Plan.closeBrace
      split <;> rfl
    · rfl

section
variable (o : Options) (tokens : List Token)

theorem lastOnLine_stage {n : Nat} (h : n < tokens.length) :
    (stage o tokens (n + 1)).state.lastOnLine = some n := by
  rw [stage_succ (List.getElem?_eq_getElem h)]
  simp only [Progress.step, State.lastOnLine_settle]
  rfl

theorem tokenAt?_lastOnLine {n : Nat} {p : Token} (hget : tokens[n]? = some p) (t : Token) :
    (stage o tokens (n + 1)).state.lastOnLine.bind (cursorAt tokens (n + 1) t).tokenAt?
      = some p := by
  have hn : n < tokens.length := (List.getElem?_eq_some_iff.mp hget).1
  rw [lastOnLine_stage o tokens hn, Option.bind_some, Cursor.tokenAt?, cursorAt,
    if_pos (Nat.lt_succ_self n), Nat.add_sub_cancel_left, ← List.head?_eq_getElem?,
    List.head?_reverse, List.take_add_one, hget, Option.toList_some, List.getLast?_concat]

theorem pointerAfter_stage (halign : o.alignPointer = none) {n : Nat} (h : n ≤ tokens.length) :
    (stage o tokens n).state.pointerAfter = none := by
  refine stage_induction (P := fun _ r => r.state.pointerAfter = none) rfl ?_ n h
  intro n t r _ hr
  simp only [Progress.step]
  refine State.pointerAfter_settle halign ?_ _ _
  generalize hlayout : ((cursorAt tokens n t).plan o r.state r.conditionals r.page).layout = layout
  rcases State.pointerAfter_placed _ _ layout _ with hnone | ⟨spacing, rfl, hsame⟩
  · exact hnone
  · rw [hsame, pointerAfter_plan hlayout, hr]

end

/-! ## Where a declarator is aligned -/

namespace Role

variable {c : Cursor} {s : State} {hasPointers : Bool}

theorem of_ofPointer {prev : Token} (hprev : prev.isTrivia = false)
    (h : ofPointer c s hasPointers prev = .pointer) :
    prev.kind = .word ∨ prev.isOneOf [">", "*", "&", "&&"] = true := by
  unfold ofPointer at h
  extract_lets inContext at h
  clear_value inContext
  split at h
  · next hpointer =>
    refine .inr ?_
    simp only [Token.isOneOf, Bool.and_eq_true, List.contains_iff_mem] at hpointer ⊢
    exact ⟨hpointer.1, List.mem_cons_of_mem _ hpointer.2⟩
  split at h
  · cases h
  · cases h
  · cases h
  · next hkind =>
    split at h
    · cases h
    split at h
    · next hangle =>
      refine .inr ?_
      simp [Token.isOneOf, hkind, eq_of_beq hangle]
    · cases h
  · next hkind => exact .inl hkind
  · -- no other token is code
    exfalso
    cases hkind : prev.kind <;> simp_all [Token.isTrivia]

theorem of_ofPunctuation {prev : Option Token}
    (h : ofPunctuation c s hasPointers prev = .pointer) :
    (c.token.text = "*" ∨ c.token.text = "&" ∨ c.token.text = "&&") ∧
      ∃ p, prev = some p ∧ ofPointer c s hasPointers p = .pointer := by
  have hbinaryIf : ∀ b, binaryIf b ≠ .pointer := by
    intro b
    cases b <;> nofun
  have hchoice : ∀ b : Bool, (if b then binary else unary) ≠ .pointer := by
    intro b
    cases b <;> nofun
  unfold ofPunctuation at h
  dsimp only at h
  split at h
  case h_1 htext =>
    split at h
    · cases h
    · next p => exact ⟨.inl htext, p, rfl, h⟩
  case h_2 htext =>
    split at h
    · cases h
    · next p => exact ⟨.inr (.inl htext), p, rfl, h⟩
  case h_3 htext =>
    split at h
    · cases h
    · next p => exact ⟨.inr (.inr htext), p, rfl, h⟩
  all_goals first
    | exact absurd h (hbinaryIf _)
    | exact absurd h (hchoice _)
    | cases h

end Role

/-- A token of a declarator is a `*`, `&` or `&&`, and what stands before it ends a type or is one
of them too. -/
theorem Cursor.of_role_pointer {c : Cursor} {s : State} {hasPointers : Bool}
    (h : c.role s hasPointers = .pointer) :
    c.token.isOneOf ["*", "&", "&&"] = true ∧
      ∃ p, c.prevCode = some p ∧ (p.kind = .word ∨ p.isOneOf [">", "*", "&", "&&"] = true) := by
  unfold role at h
  split at h
  · cases h
  next hkind =>
  obtain ⟨htext, p, hprev, hpointer⟩ := Role.of_ofPunctuation h
  have hprev : c.prevCode = some p := by
    split at hprev
    · exact hprev
    · cases hprev
  have htrivia : p.isTrivia = false := by simpa using List.find?_some hprev
  refine ⟨?_, p, hprev, Role.of_ofPointer htrivia hpointer⟩
  simp only [bne_iff_ne, ne_eq, not_not] at hkind
  rcases htext with htext | htext | htext <;> simp [Token.isOneOf, hkind, htext]

theorem Cursor.plan_action (c : Cursor) (o : Options) (s : State) (cs : List Conditional)
    (page : Page) :
    (((c.plan o s cs page).action = .directive ∨ (c.plan o s cs page).action = .comment) ∧
        c.token.isTrivia = true) ∨
      (∃ starts state, (c.plan o s cs page).action
        = .code starts (c.role state o.language.hasPointers)) ∨
      (∃ b, (c.plan o s cs page).action = .openBrace b) ∨
      ∃ closed, (c.plan o s cs page).action = .closeBrace closed ∧ c.token.is "\x7d" = true := by
  unfold plan
  split
  · next hkind => exact .inl ⟨.inl rfl, by simp [Token.isTrivia, hkind]⟩
  · next hkind => exact .inl ⟨.inr rfl, by simp [Token.isTrivia, hkind]⟩
  · next hkind => exact .inl ⟨.inr rfl, by simp [Token.isTrivia, hkind]⟩
  split
  · exact .inr (.inr (.inl ⟨_, rfl⟩))
  split
  · next hclose =>
    refine .inr (.inr (.inr ?_))
    unfold Plan.closeBrace
    split
    · exact ⟨none, rfl, hclose⟩
    · exact ⟨some _, rfl, hclose⟩
  · exact .inr (.inl ⟨_, _, rfl⟩)

/-- An alignment is remembered behind a `*` or `&`, and then only past comments and braces that
close nothing. -/
theorem pointerAfter_step {o : Options} {r : Progress} {c : Cursor}
    (h : (r.step o c).state.pointerAfter ≠ none) :
    c.token.isTrivia = true ∨ c.token.isOneOf ["*", "&", "&&", "\x7d"] = true := by
  simp only [Progress.step, State.settle] at h
  rcases c.plan_action o r.state r.conditionals r.page with
    ⟨-, htrivia⟩ | ⟨starts, state, haction⟩ | ⟨b, haction⟩ | ⟨closed, -, hclose⟩
  · exact .inl htrivia
  · simp only [haction, State.settleCode] at h
    obtain ⟨stmt, forceBreak, heq⟩ := State.afterCode_eq (State.owesSpacing _ c o _) c o _
    rw [heq] at h
    have hrole : c.role state o.language.hasPointers = .pointer := by
      by_contra hrole
      simp [State.owesSpacing, hrole] at h
    have hpointer := (Cursor.of_role_pointer hrole).1
    simp only [Token.isOneOf, Bool.and_eq_true, List.contains_iff_mem] at hpointer ⊢
    exact .inr ⟨hpointer.1, List.mem_append_left ["\x7d"] hpointer.2⟩
  · simp only [haction] at h
    exact absurd rfl h
  · refine .inr ?_
    rw [Token.is, Bool.and_eq_true, beq_iff_eq, beq_iff_eq] at hclose
    simp [Token.isOneOf, hclose]

/-! ## What an alignment leaves out -/

theorem of_aligned {o : Options} {s : State} {role : Role} {t : Token}
    (h : Spacing.aligned? o s role t ≠ none) : o.alignPointer ≠ none ∨ s.pointerAfter ≠ none := by
  by_contra hnone
  rw [not_or, not_not, not_not] at hnone
  exact h (by simp [Spacing.aligned?, hnone])

/-- Whether a `*` or `&` goes on with the first character of the token behind it. -/
def Token.fuses (p t : Token) : Bool :=
  t.text.toList.head?.any fun c => (p.is "*" && c == '=') || (p.is "&" && (c == '=' || c == '&'))

theorem stopsAt_star (c : Char) : Scanner.stopsAt .punctuation ['*'] c = (c != '=') := by
  simp [Scanner.stopsAt, Scanner.longPunctuation, bne, List.isPrefixOf_cons_cons]

theorem stopsAt_and (c : Char) :
    Scanner.stopsAt .punctuation ['&'] c = (c != '=' && c != '&') := by
  simp [Scanner.stopsAt, Scanner.longPunctuation, bne, List.isPrefixOf_cons_cons, Bool.and_comm]

/-- A `*`, `&` or `&&` is read alone in front of a token, or it goes on with it. -/
theorem stopsBefore_or_fuses {p t : Token} (hp : p.isOneOf ["*", "&", "&&", "\x7d"] = true)
    {c : Char} (ht : t.text.toList.head? = some c) :
    p.stopsBefore t = true ∨ p.fuses t = true := by
  simp only [Token.isOneOf, Bool.and_eq_true, beq_iff_eq, List.contains_iff_mem, List.mem_cons,
    List.not_mem_nil, or_false] at hp
  obtain ⟨hkind, htext⟩ := hp
  simp only [Token.stopsBefore, Token.fuses, ht, Option.any_some, Token.is, hkind, Token.stopsAt]
  rcases htext with htext | htext | htext | htext
  · rw [htext, show "*".toList = ['*'] from rfl, stopsAt_star]
    by_cases hc : c = '=' <;> simp [hc]
  · rw [htext, show "&".toList = ['&'] from rfl, stopsAt_and]
    by_cases hc : c = '=' <;> by_cases hc' : c = '&' <;> simp [hc, hc']
  · rw [htext]
    exact .inl rfl
  · rw [htext]
    exact .inl rfl

/-- Where an alignment decides on the spacing, the token before is read alone or goes on with the
token. -/
theorem stopsBefore_or_fuses_of_aligned {o : Options} {s : State} {c : Cursor} {p : Token}
    (haligned : Spacing.aligned? o s (c.role s o.language.hasPointers) c.token ≠ none)
    (hbefore : c.before.head? = some p) (hp : p.isTrivia = false)
    (hpointer : s.pointerAfter ≠ none →
      p.isTrivia = true ∨ p.isOneOf ["*", "&", "&&", "\x7d"] = true)
    {first : Char} (hfirst : c.token.text.toList.head? = some first) :
    p.stopsBefore c.token = true ∨ p.fuses c.token = true := by
  rw [Spacing.aligned?] at haligned
  split at haligned
  · next hrole =>
    rw [Bool.and_eq_true, beq_iff_eq] at hrole
    obtain ⟨htoken, q, hq, hends⟩ := Cursor.of_role_pointer hrole.1
    have hsame : q = p := by
      obtain ⟨rest, hrest⟩ := List.head?_eq_some_iff.mp hbefore
      rw [Cursor.prevCode, firstCode, hrest, List.find?_cons_of_pos (by simp [hp])] at hq
      exact (Option.some.inj hq).symm
    subst hsame
    have hsign : first = '*' ∨ first = '&' := by
      simp only [Token.isOneOf, Bool.and_eq_true, List.contains_iff_mem, List.mem_cons,
        List.not_mem_nil, or_false] at htoken
      rcases htoken.2 with htext | htext | htext <;> rw [htext] at hfirst
      · exact .inl (Option.some.inj hfirst).symm
      · exact .inr (Option.some.inj hfirst).symm
      · exact .inr (Option.some.inj hfirst).symm
    rcases hends with hword | hsigns
    · refine .inl ?_
      simp only [Token.stopsBefore, hfirst, Option.any_some, Token.stopsAt, hword]
      rcases hsign with rfl | rfl <;> rfl
    · simp only [Token.isOneOf, Bool.and_eq_true, List.contains_iff_mem, List.mem_cons] at hsigns
      obtain ⟨hkind, htext | htext⟩ := hsigns
      · refine .inl ?_
        simp only [Token.stopsBefore, hfirst, Option.any_some, Token.stopsAt, eq_of_beq hkind,
          htext]
        rcases hsign with rfl | rfl <;> rfl
      · refine stopsBefore_or_fuses ?_ hfirst
        simp only [Token.isOneOf, Bool.and_eq_true, List.contains_iff_mem, List.mem_cons]
        exact ⟨hkind, htext.imp_right fun h => h.imp_right fun h => h.imp_right .inr⟩
  · have hsome : s.pointerAfter ≠ none := by
      rintro hnone
      simp [hnone] at haligned
    rcases hpointer hsome with htrivia | hsigns
    · rw [hp] at htrivia
      cases htrivia
    · exact stopsBefore_or_fuses hsigns hfirst

end Beautifier
