/-
Tokens that go on with the line.

Each kind of token is planned by a function of its own, and each function
decides on its own whether the token starts a line.  `JoinsLine` collects what
they have in common: a token goes on with the newest line only in one of the
ways listed there (`joinsLine_of_sameLine`), so that a property of the output
is shown once for each way and not for each plan.
-/
import Beautifier.Layout.Plan

namespace Beautifier

/-- The ways in which a token goes on with the newest line of a page, with the spacing before
it. -/
inductive JoinsLine (o : Options) (s : State) (page : Page) (c : Cursor) : Spacing → Prop
  /-- A comment that stands behind another token in the source. -/
  | comment : c.token.kind = .lineComment ∨ c.token.kind = .blockComment →
      c.token.lineBreaks = 0 → JoinsLine o s page c .asWritten
  | openBrace : c.token.is "\x7b" = true →
      Plan.opensLine c s page (Plan.placement o s (Plan.opening c o s)) = false →
      JoinsLine o s page c (Plan.openSpacing c s (Plan.placement o s (Plan.opening c o s)))
  /-- A closing brace that stands behind another token in the source. -/
  | closeBrace : c.token.is "\x7d" = true → c.token.lineBreaks = 0 →
      JoinsLine o s page c .asWritten
  /-- Other code, from a later line of the source only where code may follow, and then only a
  word or what closes an expression. -/
  | code {state : State} : c.token.isTrivia = false → c.token.is "\x7b" = false →
      page.canJoin = true ∧
          (c.token.kind = .word ∨ c.token.isOneOf [";", ",", ")", "]"] = true) ∨
        c.token.lineBreaks = 0 →
      state.lastOnLine = s.lastOnLine → state.pointerAfter = s.pointerAfter →
      JoinsLine o s page c (c.spacing o state (c.role state o.language.hasPointers))

variable {o : Options} {s : State} {cs : List Conditional} {page : Page} {c : Cursor}
  {spacing : Spacing}

theorem of_ite_eq_sameLine {b : Bool} {indent : Indent} {blankLines : Nat} {joined : Spacing}
    (h : (if b then Layout.newLine indent blankLines else .sameLine joined) = .sameLine spacing) :
    b = false ∧ joined = spacing := by
  cases b with
  | true => cases h
  | false =>
      cases h
      exact ⟨rfl, rfl⟩

theorem joinsLine_of_comment
    (hkind : c.token.kind = .lineComment ∨ c.token.kind = .blockComment)
    (h : (Plan.comment c o s cs page).layout = .sameLine spacing) :
    JoinsLine o s page c spacing := by
  obtain ⟨hnew, rfl⟩ := of_ite_eq_sameLine h
  refine .comment hkind ?_
  simp only [Bool.or_eq_false_iff, decide_eq_false_iff_not] at hnew
  omega

theorem joinsLine_of_openBrace (hopen : c.token.is "\x7b" = true)
    (h : (Plan.openBrace c o s cs page).layout = .sameLine spacing) :
    JoinsLine o s page c spacing := by
  obtain ⟨hnew, rfl⟩ := of_ite_eq_sameLine h
  exact .openBrace hopen hnew

theorem lineBreaks_of_closeBrace (h : (Plan.closeBrace c o s cs page).layout = .sameLine spacing) :
    c.token.lineBreaks = 0 ∧ spacing = .asWritten := by
  unfold Plan.closeBrace at h
  split at h
  · obtain ⟨hnew, rfl⟩ := of_ite_eq_sameLine h
    refine ⟨?_, rfl⟩
    simp only [Bool.or_eq_false_iff, decide_eq_false_iff_not] at hnew
    omega
  · obtain ⟨hnew, rfl⟩ := of_ite_eq_sameLine h
    have hzero : c.token.lineBreaks = 0 := by
      have hkept := (Bool.or_eq_false_iff.mp hnew).2
      split at hkept
      · simp only [decide_eq_false_iff_not] at hkept
        omega
      · cases hkept
    exact ⟨hzero, if_pos hzero⟩

theorem joinsLine_of_closeBrace (hclose : c.token.is "\x7d" = true)
    (h : (Plan.closeBrace c o s cs page).layout = .sameLine spacing) :
    JoinsLine o s page c spacing := by
  obtain ⟨hzero, rfl⟩ := lineBreaks_of_closeBrace h
  exact .closeBrace hclose hzero

theorem joins_of_not_breaksAfterClose {closed : ClosedBrace} {t : Token}
    (h : Plan.breaksAfterClose o page closed t = false) :
    page.canJoin = true ∧ (t.kind = .word ∨ t.isOneOf [";", ",", ")", "]"] = true) ∨
      t.lineBreaks = 0 := by
  unfold Plan.breaksAfterClose at h
  split at h
  · cases h
  next hjoin =>
  have hjoin : page.canJoin = true := by simpa using hjoin
  split at h
  · next hclosing => exact .inl ⟨hjoin, .inr hclosing⟩
  split at h
  · next hheader =>
    rw [Plan.isClosingHeader, Bool.and_eq_true] at hheader
    exact .inl ⟨hjoin, .inl (eq_of_beq hheader.1)⟩
  split at h
  · simp only [decide_eq_false_iff_not] at h
    exact .inr (by omega)
  · simp only [Bool.not_eq_false', Bool.and_eq_true, beq_iff_eq] at h
    exact .inr h.2

theorem joinsLine_of_code (hcode : c.token.isTrivia = false) (hopen : c.token.is "\x7b" = false)
    (h : (Plan.code c o s cs page).layout = .sameLine spacing) :
    JoinsLine o s page c spacing := by
  obtain ⟨hnew, rfl⟩ := of_ite_eq_sameLine h
  refine .code hcode hopen ?_ rfl rfl
  have hjoin := (Bool.or_eq_false_iff.mp hnew).2
  cases hclosed : s.afterClose with
  | none =>
      simp only [hclosed, Bool.or_eq_false_iff, decide_eq_false_iff_not] at hjoin
      exact .inr (by omega)
  | some closed =>
      rw [hclosed] at hjoin
      exact joins_of_not_breaksAfterClose hjoin

/-- A token that is planned to go on with the line does so in one of the ways. -/
theorem joinsLine_of_sameLine (h : (c.plan o s cs page).layout = .sameLine spacing) :
    JoinsLine o s page c spacing := by
  unfold Cursor.plan at h
  split at h
  · cases h
  · next hkind => exact joinsLine_of_comment (.inl hkind) h
  · next hkind => exact joinsLine_of_comment (.inr hkind) h
  · next hdirective hline hblock =>
    have hcode : c.token.isTrivia = false := by
      rw [Token.isTrivia]
      split <;> simp_all
    split at h
    · next hopen => exact joinsLine_of_openBrace hopen h
    split at h
    · next hclose => exact joinsLine_of_closeBrace hclose h
    · next hopen hclose => exact joinsLine_of_code hcode (Bool.eq_false_iff.mpr hopen) h

end Beautifier
