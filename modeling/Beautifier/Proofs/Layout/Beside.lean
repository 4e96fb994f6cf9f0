/-
Two lists of tokens laid out side by side.

Where two lists go on alike, each token does the same in both as long as the
state is rooted behind the stretch in which they differ: the state is the same
but for the positions, and the pages have the same newest lines (`Beside`).
One thing more is looked back to: a bracket in a block of declarations asks
whether it stands behind a name.  Without code in between, that is the last
code token of the stretch in which the lists differ.
-/
import Beautifier.Proofs.Layout.MovedPlan
import Beautifier.Proofs.Layout.RootedState

namespace Beautifier

/-- Whether the last code token of a list is a name. -/
def endsInName (ts : List Token) : Bool :=
  (firstCode ts.reverse).any fun t => t.kind == .word && !Keyword.nonOperands.contains t.text

/-- The layouts of two lists in front of one token that both have behind the stretch in which they
differ: the states are the same but for the positions, and the pages are the same above what was
written in front of `k`.  As long as no code has followed there the block is the one that was open,
one of statements if `scope`. -/
structure Beside (tokens : List Token) (i k k' : Nat) (below below' : List Line) (scope : Bool)
    (n count : Nat) (r r' : Progress) : Prop where
  state : r'.state = r.state.moved (shifted k k')
  page : r.page.SameAbove below below' r'.page
  rooted : r.state.Rooted tokens i k n count
  scope : CodeBetween tokens k n ∨ r.state.inCodeScope = scope

variable {tokens tokens' : List Token} {i k k' n count : Nat} {t : Token} {o : Options}
  {below below' : List Line} {scope : Bool} {r r' : Progress} {rest : List Token}

/-! ## One token -/

theorem endsInName_append {X Y : List Token} (h : ∀ u ∈ Y, u.isTrivia = true) :
    endsInName (X ++ Y) = endsInName X := by
  have hnone : firstCode Y.reverse = none :=
    List.find?_eq_none.mpr fun u hu => by simp [h u (List.mem_reverse.mp hu)]
  rw [firstCode] at hnone
  rw [endsInName, endsInName, List.reverse_append, firstCode, List.find?_append, hnone,
    Option.none_or, firstCode]

theorem isTrivia_of_not_codeBetween (h : ¬CodeBetween tokens k n) :
    ∀ u ∈ (tokens.drop k).take (n - k), u.isTrivia = true := by
  intro u hu
  obtain ⟨j, hj⟩ := List.mem_iff_getElem?.mp hu
  have hlt : j < n - k := by
    have hlength := lt_length hj
    rw [List.length_take] at hlength
    omega
  rw [List.getElem?_take_of_lt hlt, List.getElem?_drop] at hj
  by_contra hcode
  exact h ⟨k + j, Nat.le_add_right k j, by omega, u, hj, by simpa using hcode⟩

theorem firstCode_of_trivia {X Y : List Token} (h : ∀ u ∈ X, u.isTrivia = true)
    (ht : t.isTrivia = false) : firstCode (X ++ t :: Y) = some t := by
  have hnone : X.find? (!·.isTrivia) = none :=
    List.find?_eq_none.mpr fun u hu => by simp [h u hu]
  rw [firstCode, List.find?_append, hnone, Option.none_or, List.find?_cons, ht]
  rfl

theorem Token.not_isTrivia_of_isOneOf {texts : List String} (h : t.isOneOf texts = true) :
    t.isTrivia = false := by
  have hkind : t.kind = .punctuation := eq_of_beq (Bool.and_eq_true_iff.mp h).1
  rw [isTrivia, hkind]

theorem Token.is_of_isOneOf {texts : List String} {text : String} (h : t.isOneOf texts = true)
    (htext : text ∉ texts) : t.is text = false := by
  simp only [isOneOf, Bool.and_eq_true, List.contains_iff_mem] at h
  rw [is, Bool.and_eq_false_iff]
  right
  rw [beq_eq_false_iff_ne]
  rintro rfl
  exact htext h.2

theorem active_startBody (stmt : Statement) (starts semicolon : Bool) :
    (Plan.startBody stmt starts semicolon).active = stmt.active := by
  rw [Plan.startBody]
  split <;> rfl

theorem State.inCodeScope_congr {s s' : State} (h : s'.braces = s.braces) :
    s'.inCodeScope = s.inCodeScope := by
  rw [inCodeScope, inCodeScope, innermostIs, innermostIs, h]

section

variable {c : Cursor} {s : State} (cs : List Conditional) (page : Page)
  (hkind : c.token.kind ≠ .directive)
include hkind

theorem rooted_plan (h : s.stmt.Rooted tokens i k n) :
    (c.plan o s cs page).state.stmt.Rooted tokens i k n := by
  rcases c.plan_cases o s cs page hkind with
    ⟨-, hplan⟩ | ⟨-, ⟨-, hplan⟩ | ⟨-, -, hplan⟩ | ⟨-, -, hplan⟩⟩
  · rw [hplan]
    exact h
  · rw [hplan]
    exact h
  · rw [hplan, Plan.closeBrace]
    split <;> exact h
  · rw [hplan]
    exact h.startBody _ _

theorem starts_of_plan (layout : Layout) (column : Nat) : ∀ starts role,
    (c.plan o s cs page).action = .code starts role →
      starts = (!((c.plan o s cs page).state.placed c layout column).stmt.active
        && !c.token.is ";") := by
  intro starts role haction
  obtain ⟨_, -, hstmt⟩ := (c.plan o s cs page).state.exists_stmt_placed c layout column
  rw [hstmt]
  rcases c.plan_cases o s cs page hkind with
    ⟨-, hplan⟩ | ⟨-, ⟨-, hplan⟩ | ⟨-, -, hplan⟩ | ⟨-, -, hplan⟩⟩
  · rw [hplan] at haction
    cases haction
  · rw [hplan] at haction
    cases haction
  · rw [hplan, Plan.closeBrace] at haction
    split at haction <;> cases haction
  · rw [hplan] at haction ⊢
    cases haction
    exact congrArg (!· && _) (active_startBody ..).symm

theorem braces_plan (hclose : c.token.is "\x7d" = false) :
    (c.plan o s cs page).state.braces = s.braces := by
  rcases c.plan_cases o s cs page hkind with
    ⟨-, hplan⟩ | ⟨-, ⟨-, hplan⟩ | ⟨-, hclose', -⟩ | ⟨-, -, hplan⟩⟩
  · rw [hplan]
    rfl
  · rw [hplan]
    rfl
  · rw [hclose] at hclose'
    cases hclose'
  · rw [hplan]
    rfl

end

theorem braces_step_comment {c : Cursor} (hkind : c.token.kind ≠ .directive)
    (htrivia : c.token.isTrivia = true) : (r.step o c).state.braces = r.state.braces := by
  rcases c.plan_cases o r.state r.conditionals r.page hkind with ⟨-, hplan⟩ | ⟨hcode, -⟩
  · rw [Progress.step, hplan]
    exact State.braces_placed ..
  · rw [htrivia] at hcode
    cases hcode

section

variable (h : Rejoins i k k' tokens tokens')
  (hfree : ∀ t ∈ (tokens.take k).drop (i + 1), t.is "\x7b" = false ∧ t.is "\x7d" = false)
  (hfree' : ∀ t ∈ (tokens'.take k').drop (i + 1), t.is "\x7b" = false ∧ t.is "\x7d" = false)
include h

/-- What a bracket asks of the token before it: in a block of declarations whether it is a name. -/
theorem Beside.name (hn : k ≤ n)
    (hname : ¬CodeBetween tokens k n →
      scope = true ∨ endsInName (tokens'.take k') = endsInName (tokens.take k))
    (hb : Beside tokens i k k' below below' scope n count r r') :
    r.state.inCodeScope = true ∨
      (cursorAt tokens' (shifted k k' n) t).behindName = (cursorAt tokens n t).behindName := by
  by_cases hcode : CodeBetween tokens k n
  · exact .inr (Cursor.behindName_moved h hn hcode)
  have htrivia := isTrivia_of_not_codeBetween hcode
  rcases hname hcode with hscope | hsame
  · exact .inl ((hb.scope.resolve_left hcode).trans hscope)
  · have hends : ∀ {ts m}, (cursorAt ts m t).behindName = endsInName (ts.take m) := rfl
    right
    rw [hends, hends, h.take_shifted hn, Rejoins.take_of_le hn, endsInName_append htrivia,
      endsInName_append htrivia, hsame]

/-- What a token does once it is planned alike. -/
theorem Beside.step_of_plan (hget : tokens[n]? = some t) (hn : k ≤ n) (hkind : t.kind ≠ .directive)
    (hb : Beside tokens i k k' below below' scope n count r r')
    (hname : t.isOneOf ["(", "["] = true → r.state.inCodeScope = true ∨
      (cursorAt tokens' (shifted k k' n) t).behindName = (cursorAt tokens n t).behindName)
    (hplan : Plan.Moved (shifted k k') ((cursorAt tokens n t).plan o r.state r.conditionals r.page)
      ((cursorAt tokens' (shifted k k' n) t).plan o r'.state r'.conditionals r'.page)) :
    (r'.step o (cursorAt tokens' (shifted k k' n) t)).state
        = (r.step o (cursorAt tokens n t)).state.moved (shifted k k') ∧
      (r.step o (cursorAt tokens n t)).page.SameAbove below below'
        (r'.step o (cursorAt tokens' (shifted k k' n) t)).page := by
  have hahead := h.ahead_cursorAt hn t
  have hstarts := starts_of_plan (o := o) (s := r.state) r.conditionals r.page
    (c := cursorAt tokens n t) hkind
  have hrooted := rooted_plan (o := o) r.conditionals r.page (c := cursorAt tokens n t) hkind
    hb.rooted.stmt
  have hbraces := braces_plan (o := o) (s := r.state) r.conditionals r.page
    (c := cursorAt tokens n t) hkind
  rw [Progress.step, Progress.step]
  generalize (cursorAt tokens n t).plan o r.state r.conditionals r.page = p at *
  generalize (cursorAt tokens' (shifted k k' n) t).plan o r'.state r'.conditionals r'.page = p' at *
  have hready :
      (r.page.ready o t p.layout).SameAbove below below' (r'.page.ready o t p'.layout) := by
    rw [hplan.layout]
    exact hb.page.ready t p.layout
  have hcolumn : (if p'.state.awaitsAlign then (r'.page.ready o t p'.layout).column o.indentWidth
        else 0)
      = if p.state.awaitsAlign then (r.page.ready o t p.layout).column o.indentWidth else 0 := by
    rw [hplan.state, State.awaitsAlign_moved, hready.column]
  refine ⟨?_, hready.write t⟩
  show (p'.state.placed _ p'.layout (if p'.state.awaitsAlign then
          (r'.page.ready o t p'.layout).column o.indentWidth else 0)).settle _ o p'
        ((r'.page.ready o t p'.layout).write o t).currentIndent
    = ((p.state.placed _ p.layout (if p.state.awaitsAlign then
          (r.page.ready o t p.layout).column o.indentWidth else 0)).settle _ o p
        ((r.page.ready o t p.layout).write o t).currentIndent).moved (shifted k k')
  rw [hcolumn, (hready.write t).currentIndent]
  generalize (if p.state.awaitsAlign then
    (r.page.ready o t p.layout).column o.indentWidth else 0) = column
  have hplaced : p'.state.placed (cursorAt tokens' (shifted k k' n) t) p'.layout column
      = (p.state.placed (cursorAt tokens n t) p.layout column).moved (shifted k k') := by
    rw [hplan.state, hplan.layout]
    exact p.state.placed_moved hahead rfl p.layout column
  have hscope : t.isOneOf ["(", "["] = true →
      (p.state.placed (cursorAt tokens n t) p.layout column).inCodeScope = true ∨
        (cursorAt tokens' (shifted k k' n) t).behindName = (cursorAt tokens n t).behindName := by
    intro hparen
    rw [State.inCodeScope_congr
      ((State.braces_placed ..).trans (hbraces (Token.is_of_isOneOf hparen (by decide))))]
    exact hname hparen
  rw [hplaced]
  exact State.settle_moved h hget hn (State.rooted_placed hrooted p.layout column) hplan
    (hstarts p.layout column) hscope _

include hfree hfree'

/-- A token that is no directive does the same in both layouts. -/
theorem Beside.step (hget : tokens[n]? = some t) (hkind : t.kind ≠ .directive) (hn : k ≤ n)
    (hname : t.isOneOf ["(", "["] = true → ¬CodeBetween tokens k n →
      scope = true ∨ endsInName (tokens'.take k') = endsInName (tokens.take k))
    (hb : Beside tokens i k k' below below' scope n (closings 0 (t :: rest)) r r') :
    Beside tokens i k k' below below' scope (n + 1) (closings 0 rest)
      (r.step o (cursorAt tokens n t)) (r'.step o (cursorAt tokens' (shifted k k' n) t)) := by
  have hplan := Cursor.plan_moved (o := o) h hget hn hkind hb.rooted.stmt hb.rooted.lastOnLine
    (Matching.closers_shifted h hfree hfree' hn hget) hb.page r.conditionals r'.conditionals
  rw [← hb.state] at hplan
  obtain ⟨hstate, hpage⟩ := hb.step_of_plan h hget hn hkind
    (fun hparen => hb.name h hn (hname hparen)) hplan
  refine ⟨hstate, hpage, hb.rooted.step hget hkind hn, ?_⟩
  cases htrivia : t.isTrivia with
  | true =>
      have hbraces := braces_step_comment (o := o) (r := r) (c := cursorAt tokens n t) hkind htrivia
      exact hb.scope.imp (·.mono (Nat.le_succ n)) (State.inCodeScope_congr hbraces).trans
  | false => exact .inl ⟨n, State.codeAt_self hget htrivia hn⟩

/-! ## A whole branch -/

/-- Tokens that hold no directive are laid out alike, one after another. -/
theorem Beside.stage {second : List Token} (hdrop : tokens.drop k = second ++ rest)
    (hsecond : ∀ t ∈ second, t.kind ≠ .directive)
    (hname : (firstCode second).any (·.isOneOf ["(", "["]) = true →
      scope = true ∨ endsInName (tokens'.take k') = endsInName (tokens.take k))
    (hstart : Beside tokens i k k' below below' scope k (closings 0 second) (stage o tokens k)
      (stage o tokens' k')) :
    ∀ m ≤ second.length, Beside tokens i k k' below below' scope (k + m)
      (closings 0 (second.drop m)) (stage o tokens (k + m)) (stage o tokens' (k' + m)) := by
  intro m
  induction m with
  | zero => exact fun _ => hstart
  | succ m ih =>
      intro hm
      have hb := ih (Nat.le_of_succ_le hm)
      have hsplit : second.drop m = second[m] :: second.drop (m + 1) := List.drop_eq_getElem_cons hm
      have hmem : second[m] ∈ second := List.getElem_mem hm
      have hget : tokens[k + m]? = some second[m] := by
        rw [← List.getElem?_drop, hdrop, List.getElem?_append_left hm, List.getElem?_eq_getElem]
      rw [hsplit] at hb
      generalize second[m] = t at hsplit hmem hget hb
      have hshift : shifted k k' (k + m) = k' + m := by
        rw [shifted_of_le (Nat.le_add_right k m)]
        omega
      have hget' := h.getElem?_shifted_eq hget (Nat.le_add_right k m)
      rw [hshift] at hget'
      have hfirst : t.isOneOf ["(", "["] = true → ¬CodeBetween tokens k (k + m) →
          scope = true ∨ endsInName (tokens'.take k') = endsInName (tokens.take k) := by
        intro hparen hcode
        have htrivia := isTrivia_of_not_codeBetween hcode
        rw [Nat.add_sub_cancel_left, hdrop, List.take_append_of_le_length (Nat.le_of_succ_le hm)]
          at htrivia
        refine hname ?_
        have hcodeless : t.isTrivia = false := Token.not_isTrivia_of_isOneOf hparen
        rw [← List.take_append_drop m second, hsplit, firstCode_of_trivia htrivia hcodeless]
        exact hparen
      have hstep :=
        hb.step h hfree hfree' hget (hsecond t hmem) (Nat.le_add_right k m) hfirst (o := o)
      rw [hshift, ← stage_succ hget, ← stage_succ hget'] at hstep
      exact hstep

end

end Beautifier
