/-
Branches of conditional directives.

Only directives change the open conditionals, and a directive of a group is
met with the conditional of its group on top: the tokens between the two have
opened as many conditionals as they have closed (`conditionals_stage`).  So a
branch starts in the state in which the first one did, and behind the group
goes on what was left behind its first branch (`conditional_states`).
-/
import Mathlib.Tactic.FinCases
import Beautifier.Proofs.Layout.Stage

namespace Beautifier

namespace Token

def isDirective (t : Token) (names : List String) : Bool :=
  t.kind == .directive && names.contains (Plan.directiveName t.text)

/-- The start of a group of branches. -/
def opensConditional (t : Token) : Bool := t.isDirective ["if", "ifdef", "ifndef"]

/-- The start of a further branch. -/
def startsBranch (t : Token) : Bool := t.isDirective ["elif", "else"]

/-- The end of a group of branches. -/
def endsConditional (t : Token) : Bool := t.isDirective ["endif"]

end Token

/-! ## Groups -/

/-- The number of groups open behind a token where `depth` are open in front of it; none if it
ends a group that is not among them. -/
def nest (depth : Nat) (t : Token) : Option Nat :=
  if t.opensConditional then some (depth + 1)
  else if t.endsConditional then
    match depth with
    | 0 => none
    | depth + 1 => some depth
  else some depth

/-- The tokens between two positions. -/
def tokensBetween (tokens : List Token) (i j : Nat) : List Token := (tokens.take j).drop (i + 1)

/-- The directive at `i` opens a group, and `j` lies in this group and in no group inside it. -/
structure InGroup (tokens : List Token) (i j : Nat) : Prop where
  lt : i < j
  opens : ∃ t, tokens[i]? = some t ∧ t.opensConditional = true
  level : (tokensBetween tokens i j).foldlM nest 0 = some 0

/-- The token at `j` starts a further branch of the group that is opened at `i`. -/
def BranchAt (tokens : List Token) (i j : Nat) : Prop :=
  InGroup tokens i j ∧ ∃ t, tokens[j]? = some t ∧ t.startsBranch = true

/-- The first branch of the group that is opened at `i` ends at `j`, where another one starts or
the group ends. -/
structure EndsFirstBranch (tokens : List Token) (i j : Nat) : Prop where
  group : InGroup tokens i j
  ends : ∃ t, tokens[j]? = some t ∧ (t.startsBranch = true ∨ t.endsConditional = true)
  first : ∀ k < j, ¬BranchAt tokens i k

/-- A state once a directive is written at a position: nothing is owed to the line before. -/
def State.behindDirective (s : State) (position : Nat) : State :=
  { s.amendParen fun p => { p with awaitsAlign := false } with
    forceBreak := false
    blankAfterBlock := false
    padNext := false
    pointerAfter := none
    lastOnLine := some position }

variable {o : Options} {tokens : List Token} {t : Token} {i j n d : Nat}

theorem tokensBetween_succ (hij : i < j) (h : tokens[j]? = some t) :
    tokensBetween tokens i (j + 1) = tokensBetween tokens i j ++ [t] := by
  have hlength : i + 1 ≤ (tokens.take j).length := by
    have hj : j < tokens.length := (List.getElem?_eq_some_iff.mp h).1
    rw [List.length_take]
    omega
  rw [tokensBetween, List.take_add_one, h, List.drop_append_of_le_length hlength]
  rfl

theorem tokensBetween_next (tokens : List Token) (i : Nat) :
    tokensBetween tokens i (i + 1) = [] := by
  rw [tokensBetween, List.drop_eq_nil_iff, List.length_take]
  exact Nat.min_le_left _ _

theorem foldlM_nest_succ (hij : i < j) (h : tokens[j]? = some t) :
    (tokensBetween tokens i (j + 1)).foldlM nest 0 =
      ((tokensBetween tokens i j).foldlM nest 0).bind (nest · t) := by
  rw [tokensBetween_succ hij h, List.foldlM_append]
  simp

theorem nest_cases {d' : Nat} (h : nest d t = some d') :
    t.opensConditional = true ∧ d' = d + 1 ∨ t.endsConditional = true ∧ d = d' + 1 ∨
      t.opensConditional = false ∧ t.endsConditional = false ∧ d' = d := by
  unfold nest at h
  split at h
  · exact .inl ⟨‹_›, (Option.some_inj.mp h).symm⟩
  · split at h
    · cases d with
      | zero => cases h
      | succ d => exact .inr (.inl ⟨‹_›, congrArg (· + 1) (Option.some_inj.mp h)⟩)
    · exact .inr (.inr ⟨Bool.eq_false_iff.mpr ‹_›, Bool.eq_false_iff.mpr ‹_›,
        (Option.some_inj.mp h).symm⟩)

/-! ## One step -/

theorem placed_newLine (s : State) (c : Cursor) (indent : Indent) (blankLines column : Nat) :
    s.placed c (.newLine indent blankLines) column = s.behindDirective c.position := rfl

theorem conditionals_plan {c : Cursor} (h : c.token.kind ≠ .directive) (s : State)
    (cs : List Conditional) (page : Page) : (c.plan o s cs page).conditionals = cs := by
  unfold Cursor.plan
  split
  · exact absurd ‹_› h
  · rfl
  · rfl
  · split
    · rfl
    · split
      · rw [Plan.closeBrace]
        split <;> rfl
      · rfl

theorem step_directive (r : Progress) {c : Cursor} (h : c.token.kind = .directive) :
    (r.step o c).state = (Plan.branch (Plan.directiveName c.token.text) r.state
        r.conditionals).1.behindDirective c.position ∧
      (r.step o c).conditionals = (Plan.branch (Plan.directiveName c.token.text) r.state
        r.conditionals).2 := by
  have hplan : c.plan o r.state r.conditionals r.page =
      Plan.directive c o r.state r.conditionals r.page := by
    rw [Cursor.plan, h]
  rw [Progress.step, hplan]
  simp only [Plan.directive, State.settle, placed_newLine, and_self]

theorem conditionals_step (r : Progress) {c : Cursor} (h : c.token.kind ≠ .directive) :
    (r.step o c).conditionals = r.conditionals :=
  conditionals_plan h _ _ _

/-! ## One directive -/

theorem Token.isDirective_iff {names : List String} : t.isDirective names = true ↔
    t.kind = .directive ∧ Plan.directiveName t.text ∈ names := by
  simp [isDirective]

section Branch

variable (s : State) (cs : List Conditional)

theorem branch_opens (h : t.opensConditional = true) :
    Plan.branch (Plan.directiveName t.text) s cs = (s, ⟨s, none⟩ :: cs) := by
  obtain ⟨-, hname⟩ := Token.isDirective_iff.mp h
  generalize Plan.directiveName t.text = name at hname
  fin_cases hname <;> rfl

theorem branch_startsBranch (h : t.startsBranch = true) :
    Plan.branch (Plan.directiveName t.text) s cs = match cs with
      | [] => (s, [])
      | c :: outer => (c.atIf, { c with afterFirst := c.afterFirst <|> some s } :: outer) := by
  obtain ⟨-, hname⟩ := Token.isDirective_iff.mp h
  generalize Plan.directiveName t.text = name at hname
  fin_cases hname <;> rfl

theorem branch_ends (h : t.endsConditional = true) :
    Plan.branch (Plan.directiveName t.text) s cs = match cs with
      | [] => (s, [])
      | c :: outer => (c.afterFirst.getD s, outer) := by
  obtain ⟨-, hname⟩ := Token.isDirective_iff.mp h
  generalize Plan.directiveName t.text = name at hname
  fin_cases hname
  rfl

theorem branch_other (hkind : t.kind = .directive) (hopens : t.opensConditional = false)
    (hbranch : t.startsBranch = false) (hends : t.endsConditional = false) :
    Plan.branch (Plan.directiveName t.text) s cs = (s, cs) := by
  simp only [Token.opensConditional, Token.startsBranch, Token.endsConditional,
    ← Bool.not_eq_true, Token.isDirective_iff, hkind, true_and, List.mem_cons, List.not_mem_nil,
    or_false, not_or] at hopens hbranch hends
  simp [Plan.branch, hopens, hbranch, hends]

end Branch

theorem Token.kind_of_opens (h : t.opensConditional = true) : t.kind = .directive :=
  (isDirective_iff.mp h).1

theorem Token.kind_of_startsBranch (h : t.startsBranch = true) : t.kind = .directive :=
  (isDirective_iff.mp h).1

theorem Token.kind_of_ends (h : t.endsConditional = true) : t.kind = .directive :=
  (isDirective_iff.mp h).1

theorem Token.not_of_startsBranch (h : t.startsBranch = true) :
    t.opensConditional = false ∧ t.endsConditional = false := by
  obtain ⟨-, hname⟩ := isDirective_iff.mp h
  rw [opensConditional, endsConditional, isDirective, isDirective]
  generalize Plan.directiveName t.text = name at hname
  fin_cases hname <;> simp

theorem Token.not_startsBranch (h : t.opensConditional = true ∨ t.endsConditional = true) :
    t.startsBranch = false := by
  rw [← Bool.not_eq_true]
  intro hbranch
  obtain ⟨hopens, hends⟩ := not_of_startsBranch hbranch
  rcases h with h | h
  · exact absurd h (by rw [hopens]; nofun)
  · exact absurd h (by rw [hends]; nofun)

theorem stage_directive (h : tokens[n]? = some t) (hkind : t.kind = .directive) :
    (stage o tokens (n + 1)).state = (Plan.branch (Plan.directiveName t.text)
        (stage o tokens n).state (stage o tokens n).conditionals).1.behindDirective n ∧
      (stage o tokens (n + 1)).conditionals = (Plan.branch (Plan.directiveName t.text)
        (stage o tokens n).state (stage o tokens n).conditionals).2 := by
  rw [stage_succ h]
  exact step_directive _ hkind

theorem conditionals_opens (h : tokens[n]? = some t) (hopens : t.opensConditional = true) :
    (stage o tokens (n + 1)).conditionals =
      ⟨(stage o tokens n).state, none⟩ :: (stage o tokens n).conditionals := by
  rw [(stage_directive h (Token.kind_of_opens hopens)).2, branch_opens _ _ hopens]

theorem conditionals_startsBranch (h : tokens[n]? = some t) (hbranch : t.startsBranch = true) :
    (stage o tokens (n + 1)).conditionals = match (stage o tokens n).conditionals with
      | [] => []
      | c :: outer =>
        { c with afterFirst := c.afterFirst <|> some (stage o tokens n).state } :: outer := by
  rw [(stage_directive h (Token.kind_of_startsBranch hbranch)).2, branch_startsBranch _ _ hbranch]
  cases (stage o tokens n).conditionals <;> rfl

theorem conditionals_ends (h : tokens[n]? = some t) (hends : t.endsConditional = true) :
    (stage o tokens (n + 1)).conditionals = (stage o tokens n).conditionals.tail := by
  rw [(stage_directive h (Token.kind_of_ends hends)).2, branch_ends _ _ hends]
  cases (stage o tokens n).conditionals <;> rfl

theorem conditionals_other (h : tokens[n]? = some t) (hopens : t.opensConditional = false)
    (hbranch : t.startsBranch = false) (hends : t.endsConditional = false) :
    (stage o tokens (n + 1)).conditionals = (stage o tokens n).conditionals := by
  by_cases hkind : t.kind = .directive
  · rw [(stage_directive h hkind).2, branch_other _ _ hkind hopens hbranch hends]
  · rw [stage_succ h]
    exact conditionals_step _ hkind

/-! ## A group -/

/-- What is kept of a group of which the tokens up to a position have been written: nothing while
its first branch goes on, then the state behind that. -/
inductive KeptFirst (o : Options) (tokens : List Token) (i j : Nat) : Option State → Prop
  | going (h : ∀ k < j, ¬BranchAt tokens i k) : KeptFirst o tokens i j none
  | ended {k : Nat} (hk : k < j) (h : BranchAt tokens i k)
      (hfirst : ∀ m < k, ¬BranchAt tokens i m) :
      KeptFirst o tokens i j (some (stage o tokens k).state)

theorem KeptFirst.succ {first : Option State} (h : KeptFirst o tokens i j first)
    (hj : ¬BranchAt tokens i j) : KeptFirst o tokens i (j + 1) first := by
  cases h with
  | going h =>
      refine .going fun k hk => ?_
      rcases Nat.lt_succ_iff_lt_or_eq.mp hk with hlt | rfl
      · exact h k hlt
      · exact hj
  | ended hk h hfirst => exact .ended (Nat.lt_succ_of_lt hk) h hfirst

theorem KeptFirst.succ_of_branch {first : Option State} (h : KeptFirst o tokens i j first)
    (hj : BranchAt tokens i j) :
    KeptFirst o tokens i (j + 1) (first <|> some (stage o tokens j).state) := by
  cases h with
  | going h => exact .ended (Nat.lt_succ_self j) hj h
  | ended hk h hfirst => exact .ended (Nat.lt_succ_of_lt hk) h hfirst

theorem not_branchAt (h : tokens[j]? = some t) (hbranch : t.startsBranch = false) :
    ¬BranchAt tokens i j := by
  rintro ⟨-, u, hu, hstarts⟩
  cases h.symm.trans hu
  exact absurd hstarts (by rw [hbranch]; nofun)

/-- The conditional of the group that is opened at `i` stands below `d` others, and above those that
were open in front of the group, once the tokens up to `j` have been written. -/
def StandsBelow (o : Options) (tokens : List Token) (i j d : Nat) : Prop :=
  ∃ inner first, inner.length = d ∧ KeptFirst o tokens i j first ∧
    (stage o tokens j).conditionals =
      inner ++ ⟨(stage o tokens i).state, first⟩ :: (stage o tokens i).conditionals

namespace StandsBelow

theorem start (hi : tokens[i]? = some t) (hopens : t.opensConditional = true) :
    StandsBelow o tokens i (i + 1) 0 := by
  refine ⟨[], none, rfl, .going fun k hk h => ?_, conditionals_opens hi hopens⟩
  exact absurd h.1.lt (by omega)

theorem opens (h : StandsBelow o tokens i j d) (hj : tokens[j]? = some t)
    (hopens : t.opensConditional = true) : StandsBelow o tokens i (j + 1) (d + 1) := by
  obtain ⟨inner, first, hlength, hkept, hstack⟩ := h
  refine ⟨⟨(stage o tokens j).state, none⟩ :: inner, first, by simp [hlength],
    hkept.succ (not_branchAt hj (Token.not_startsBranch (.inl hopens))), ?_⟩
  rw [conditionals_opens hj hopens, hstack]
  rfl

theorem ends (h : StandsBelow o tokens i j (d + 1)) (hj : tokens[j]? = some t)
    (hends : t.endsConditional = true) : StandsBelow o tokens i (j + 1) d := by
  obtain ⟨inner, first, hlength, hkept, hstack⟩ := h
  obtain ⟨c, inner, rfl⟩ := List.exists_cons_of_length_eq_add_one hlength
  refine ⟨inner, first, Nat.succ_inj.mp hlength,
    hkept.succ (not_branchAt hj (Token.not_startsBranch (.inr hends))), ?_⟩
  rw [conditionals_ends hj hends, hstack]
  rfl

theorem startsBranch (h : StandsBelow o tokens i j d) (hj : tokens[j]? = some t)
    (hbranch : t.startsBranch = true) (hlevel : BranchAt tokens i j ↔ d = 0) :
    StandsBelow o tokens i (j + 1) d := by
  obtain ⟨inner, first, hlength, hkept, hstack⟩ := h
  have hconditionals := conditionals_startsBranch (o := o) hj hbranch
  rw [hstack] at hconditionals
  cases inner with
  | nil => exact ⟨[], _, hlength, hkept.succ_of_branch (hlevel.mpr hlength.symm), hconditionals⟩
  | cons c inner =>
      refine ⟨{ c with afterFirst := c.afterFirst <|> some (stage o tokens j).state } :: inner,
        first, hlength, hkept.succ fun hbranch => ?_, hconditionals⟩
      rw [hlevel.mp hbranch] at hlength
      cases hlength

theorem other (h : StandsBelow o tokens i j d) (hj : tokens[j]? = some t)
    (hopens : t.opensConditional = false) (hbranch : t.startsBranch = false)
    (hends : t.endsConditional = false) : StandsBelow o tokens i (j + 1) d := by
  obtain ⟨inner, first, hlength, hkept, hstack⟩ := h
  exact ⟨inner, first, hlength, hkept.succ (not_branchAt hj hbranch),
    (conditionals_other hj hopens hbranch hends).trans hstack⟩

end StandsBelow

/-- Behind tokens that open `d` more groups than they end, the conditional of a group stands below
`d` others. -/
theorem conditionals_stage (hi : tokens[i]? = some t) (hopens : t.opensConditional = true)
    (hij : i < j) (hj : j ≤ tokens.length)
    (hlevel : (tokensBetween tokens i j).foldlM nest 0 = some d) : StandsBelow o tokens i j d := by
  induction j, hij using Nat.le_induction generalizing d with
  | base =>
      rw [tokensBetween_next] at hlevel
      cases hlevel
      exact .start hi hopens
  | succ j hij ih =>
      have hget : tokens[j]? = some tokens[j] := List.getElem?_eq_getElem hj
      generalize tokens[j] = u at hget
      rw [foldlM_nest_succ hij hget] at hlevel
      obtain ⟨d', hbefore, hnest⟩ := Option.bind_eq_some_iff.mp hlevel
      have hbelow := ih (Nat.le_of_succ_le hj) hbefore
      rcases nest_cases hnest with ⟨huopens, rfl⟩ | ⟨huends, rfl⟩ | ⟨huopens, huends, rfl⟩
      · exact hbelow.opens hget huopens
      · exact hbelow.ends hget huends
      cases hubranch : u.startsBranch with
      | true =>
          refine hbelow.startsBranch hget hubranch ⟨fun h => ?_, ?_⟩
          · exact Option.some_inj.mp (hbefore.symm.trans h.1.level)
          · rintro rfl
            exact ⟨⟨hij, ⟨t, hi, hopens⟩, hbefore⟩, u, hget, hubranch⟩
      | false => exact hbelow.other hget huopens hubranch huends

/-- A group is opened in front of a position, and up to there `d` more that are not ended. -/
def OpenedBelow (tokens : List Token) (n d : Nat) : Prop :=
  ∃ i < n, (∃ t, tokens[i]? = some t ∧ t.opensConditional = true) ∧
    (tokensBetween tokens i n).foldlM nest 0 = some d

theorem OpenedBelow.start (hget : tokens[n]? = some t) (hopens : t.opensConditional = true) :
    OpenedBelow tokens (n + 1) 0 := by
  refine ⟨n, Nat.lt_succ_self n, ⟨t, hget, hopens⟩, ?_⟩
  rw [tokensBetween_next]
  rfl

theorem OpenedBelow.succ {d' : Nat} (h : OpenedBelow tokens n d) (hget : tokens[n]? = some t)
    (hnest : nest d t = some d') : OpenedBelow tokens (n + 1) d' := by
  obtain ⟨i, hi, hopens, hlevel⟩ := h
  refine ⟨i, Nat.lt_succ_of_lt hi, hopens, ?_⟩
  rw [foldlM_nest_succ hi hget, hlevel]
  exact hnest

theorem length_conditionals_other (hget : tokens[n]? = some t) (hopens : t.opensConditional = false)
    (hends : t.endsConditional = false) :
    (stage o tokens (n + 1)).conditionals.length = (stage o tokens n).conditionals.length := by
  cases hbranch : t.startsBranch with
  | true =>
      rw [conditionals_startsBranch hget hbranch]
      cases (stage o tokens n).conditionals <;> rfl
  | false => rw [conditionals_other hget hopens hbranch hends]

/-- Every open conditional belongs to a group, one outside the other. -/
theorem exists_opens (n : Nat) (hn : n ≤ tokens.length) :
    ∀ d < (stage o tokens n).conditionals.length, OpenedBelow tokens n d := by
  induction n with
  | zero => exact fun d hd => absurd hd (Nat.not_lt_zero d)
  | succ n ih =>
      have ih := ih (Nat.le_of_succ_le hn)
      have hget : tokens[n]? = some tokens[n] := List.getElem?_eq_getElem hn
      generalize tokens[n] = t at hget
      intro d hd
      cases hopens : t.opensConditional with
      | true =>
          rw [conditionals_opens hget hopens] at hd
          cases d with
          | zero => exact .start hget hopens
          | succ d =>
              exact (ih d (Nat.lt_of_succ_lt_succ hd)).succ hget
                (by rw [nest.eq_def, if_pos hopens])
      | false =>
          have hnot : ¬t.opensConditional = true := by simp [hopens]
          cases hends : t.endsConditional with
          | true =>
              rw [conditionals_ends hget hends, List.length_tail] at hd
              refine (ih (d + 1) (by omega)).succ hget ?_
              rw [nest.eq_def, if_neg hnot, if_pos hends]
          | false =>
              rw [length_conditionals_other hget hopens hends] at hd
              refine (ih d hd).succ hget ?_
              rw [nest.eq_def, if_neg hnot, if_neg (by simp [hends])]

theorem conditionals_eq_nil (h : ∀ i, ¬InGroup tokens i n) (hn : n ≤ tokens.length) :
    (stage o tokens n).conditionals = [] := by
  by_contra hne
  obtain ⟨i, hi, hopens, hlevel⟩ :=
    exists_opens (o := o) n hn 0 (List.length_pos_iff.mpr hne)
  exact h i ⟨hi, hopens, hlevel⟩

/-! ## Branches -/

theorem State.behindDirective_congr (s : State) (m n : Nat) :
    s.behindDirective n = { s.behindDirective m with lastOnLine := some n } := rfl

/-- The branches of a group of conditional directives, at any depth.  Behind the directive of a
further branch the state is what it was behind the directive that opens the group; behind the end
of the group it is what was left of the first branch, and the open conditionals are those in front
of the group.  A directive of a further branch or of an end that belongs to no group does no more
than the line of any other directive does. -/
theorem conditional_states (o : Options) (tokens : List Token) :
    (∀ i j t, InGroup tokens i j → tokens[j]? = some t → t.startsBranch = true →
      (stage o tokens (j + 1)).state =
        { (stage o tokens (i + 1)).state with lastOnLine := some j }) ∧
    (∀ i j t, InGroup tokens i j → tokens[j]? = some t → t.endsConditional = true →
      (stage o tokens (j + 1)).conditionals = (stage o tokens i).conditionals ∧
        ∃ k ≤ j, EndsFirstBranch tokens i k ∧
          (stage o tokens (j + 1)).state = (stage o tokens k).state.behindDirective j) ∧
    (∀ j t, tokens[j]? = some t → t.startsBranch = true ∨ t.endsConditional = true →
      (∀ i, ¬InGroup tokens i j) →
        (stage o tokens (j + 1)).conditionals = (stage o tokens j).conditionals ∧
          (stage o tokens (j + 1)).state = (stage o tokens j).state.behindDirective j) ∧
    ∀ j t, tokens[j]? = some t → t.kind = .directive → t.startsBranch = false →
      t.endsConditional = false →
        (stage o tokens (j + 1)).state = (stage o tokens j).state.behindDirective j := by
  have hle : ∀ {j t}, tokens[j]? = some t → j ≤ tokens.length := fun h =>
    Nat.le_of_lt (List.getElem?_eq_some_iff.mp h).1
  refine ⟨?_, ?_, ?_, ?_⟩
  · intro i j t hgroup hj hbranch
    obtain ⟨u, hi, hopens⟩ := hgroup.opens
    obtain ⟨inner, first, hlength, -, hstack⟩ :=
      conditionals_stage (o := o) hi hopens hgroup.lt (hle hj) hgroup.level
    obtain rfl := List.length_eq_zero_iff.mp hlength
    rw [(stage_directive hj (Token.kind_of_startsBranch hbranch)).1,
      branch_startsBranch _ _ hbranch, hstack,
      (stage_directive hi (Token.kind_of_opens hopens)).1, branch_opens _ _ hopens]
    exact State.behindDirective_congr _ i j
  · intro i j t hgroup hj hends
    obtain ⟨u, hi, hopens⟩ := hgroup.opens
    obtain ⟨inner, first, hlength, hkept, hstack⟩ :=
      conditionals_stage (o := o) hi hopens hgroup.lt (hle hj) hgroup.level
    obtain rfl := List.length_eq_zero_iff.mp hlength
    obtain ⟨hstate, hconditionals⟩ := stage_directive (o := o) hj (Token.kind_of_ends hends)
    rw [branch_ends _ _ hends, hstack] at hstate hconditionals
    refine ⟨hconditionals, ?_⟩
    cases hkept with
    | going hnone => exact ⟨j, Nat.le_refl j, ⟨hgroup, ⟨t, hj, .inr hends⟩, hnone⟩, hstate⟩
    | @ended k hk hbranch hfirst =>
        obtain ⟨hgroup', v, hv, hvbranch⟩ := hbranch
        exact ⟨k, Nat.le_of_lt hk, ⟨hgroup', ⟨v, hv, .inl hvbranch⟩, hfirst⟩, hstate⟩
  · intro j t hj hdirective hnone
    have hnil := conditionals_eq_nil (o := o) hnone (hle hj)
    rcases hdirective with hbranch | hends
    · obtain ⟨hstate, hconditionals⟩ :=
        stage_directive (o := o) hj (Token.kind_of_startsBranch hbranch)
      rw [branch_startsBranch _ _ hbranch, hnil] at hstate hconditionals
      exact ⟨hconditionals.trans hnil.symm, hstate⟩
    · obtain ⟨hstate, hconditionals⟩ := stage_directive (o := o) hj (Token.kind_of_ends hends)
      rw [branch_ends _ _ hends, hnil] at hstate hconditionals
      exact ⟨hconditionals.trans hnil.symm, hstate⟩
  · intro j t hj hkind hbranch hends
    rw [(stage_directive hj hkind).1]
    by_cases hopens : t.opensConditional = true
    · rw [branch_opens _ _ hopens]
    · rw [branch_other _ _ hkind (Bool.eq_false_iff.mpr hopens) hbranch hends]

/-- A branch that opens a brace, behind a directive without a group. -/
theorem conditional_states_unmatched :
    let tokens := [(TokenKind.directive, "#else"), (.directive, "#if A"), (.punctuation, "\x7b"),
      (.directive, "#else"), (.directive, "#endif")].map fun (kind, text) =>
        (⟨kind, text, 1, "", 0, false⟩ : Token)
    (stage .default tokens 1).state = State.start.behindDirective 0 ∧
      (stage .default tokens 2).state = (stage .default tokens 1).state.behindDirective 1 ∧
      (stage .default tokens 3).state.braces ≠ (stage .default tokens 2).state.braces ∧
      (stage .default tokens 4).state =
        { (stage .default tokens 2).state with lastOnLine := some 3 } ∧
      (stage .default tokens 5).conditionals = (stage .default tokens 1).conditionals ∧
        (stage .default tokens 5).state = (stage .default tokens 3).state.behindDirective 4 := by
  intro tokens
  obtain ⟨hbranch, hend, hunmatched, hother⟩ := conditional_states .default tokens
  have hgroup : ∀ j, 1 < j → j < 5 → InGroup tokens 1 j := by
    intro j hlt hle
    refine ⟨hlt, ⟨_, rfl, by decide⟩, ?_⟩
    obtain rfl | rfl | rfl : j = 2 ∨ j = 3 ∨ j = 4 := by omega
    all_goals decide
  obtain ⟨hconditionals, k, hk, ⟨hfirst, ⟨t, ht, hends⟩, hnone⟩, hstate⟩ :=
    hend 1 4 _ (hgroup 4 (by decide) (by decide)) rfl (by decide)
  refine ⟨?_, ?_, by decide, ?_, hconditionals, ?_⟩
  · exact (hunmatched 0 _ rfl (.inl (by decide)) fun i h => absurd h.lt (Nat.not_lt_zero i)).2
  · exact hother 1 _ rfl rfl (by decide) (by decide)
  · exact hbranch 1 3 _ (hgroup 3 (by decide) (by decide)) rfl (by decide)
  · -- The first branch ends at the second of the directives `#else`.
    have hlt := hfirst.lt
    obtain rfl | rfl | rfl : k = 2 ∨ k = 3 ∨ k = 4 := by omega
    · cases ht
      exact absurd hends (by decide)
    · exact hstate
    · exact absurd ⟨hgroup 3 (by decide) (by decide), _, rfl, by decide⟩ (hnone 3 (by decide))

end Beautifier
