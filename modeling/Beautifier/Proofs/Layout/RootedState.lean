/-
States that look back over a common stretch of tokens.

A state is rooted where its statement is, and the statements around those
blocks that the coming tokens close, as far as they go on behind them.  Every
token but a directive keeps it so (`State.Rooted.step`): a statement starts
at a token behind the stretch in which two lists differ, and so do the
brackets in it.
-/
import Mathlib.Tactic.SplitIfs
import Beautifier.Proofs.Layout.Pointer
import Beautifier.Proofs.Layout.Rooted

namespace Beautifier

/-- The number of blocks that a list of tokens closes and has not opened; `opened` counts the
blocks it has opened before. -/
def closings (opened : Nat) : List Token → Nat
  | [] => 0
  | t :: rest =>
      if t.is "\x7b" then closings (opened + 1) rest
      else if t.is "\x7d" then
        match opened with
        | 0 => closings 0 rest + 1
        | opened + 1 => closings opened rest
      else closings opened rest

/-- A state in front of the token at `n` that looks back at most to the position `k`, as do the
statements around the innermost `count` blocks if they go on behind them. -/
structure State.Rooted (tokens : List Token) (i k n count : Nat) (s : State) : Prop where
  stmt : s.stmt.Rooted tokens i k n
  lastOnLine : ∀ p ∈ s.lastOnLine, p ≤ i ∨ k ≤ p + 1
  kept : ∀ b ∈ s.braces, Kept i k b.outer.start
  outer : ∀ b ∈ s.braces.take count, b.expression = true → b.outer.Rooted tokens i k n

variable {tokens tokens' : List Token} {i k k' m n count : Nat} {t : Token} {s : State}
  {o : Options} {c : Cursor}

theorem closings_le (opened : Nat) (ts : List Token) :
    closings opened ts ≤ closings (opened + 1) ts + 1 := by
  induction ts generalizing opened with
  | nil => exact Nat.zero_le _
  | cons t rest ih =>
      rw [closings.eq_def, closings.eq_def (opened + 1) (t :: rest)]
      dsimp only
      split
      · exact ih (opened + 1)
      · split
        · cases opened with
          | zero => exact Nat.le_refl _
          | succ opened => exact ih opened
        · exact ih opened

theorem closings_of_plain {rest : List Token} (hopen : t.is "\x7b" = false)
    (hclose : t.is "\x7d" = false) : closings 0 (t :: rest) = closings 0 rest := by
  rw [closings, if_neg (Bool.eq_false_iff.mp hopen), if_neg (Bool.eq_false_iff.mp hclose)]

theorem Token.is_of_isTrivia (h : t.isTrivia = true) (text : String) : t.is text = false := by
  rw [isTrivia] at h
  rw [is]
  split at h
  · next hkind => rw [hkind]; rfl
  · next hkind => rw [hkind]; rfl
  · next hkind => rw [hkind]; rfl
  · cases h

/-! ## Statements -/

namespace Statement.Rooted

variable {stmt stmt' : Statement}

theorem mono (h : stmt.Rooted tokens i k m) (hmn : m ≤ n) : stmt.Rooted tokens i k n :=
  ⟨h.kept, fun hactive => (h.start hactive).mono hmn, fun p hp => (h.paren p hp).mono hmn,
    h.bracket, h.header, fun hpending => (h.pending hpending).mono hmn⟩

/-- Without a begun statement, an open bracket or a waiting header nothing is looked for. -/
theorem idle (hkept : Kept i k stmt.start) (hactive : stmt.active = false)
    (hparens : stmt.parens = []) (hpending : stmt.headerParenPending = false) :
    stmt.Rooted tokens i k n := by
  have hnone : ∀ p, p ∉ stmt.parens := by
    intro p hp
    rw [hparens] at hp
    cases hp
  refine ⟨hkept, fun h => ?_, fun p hp => absurd hp (hnone p), fun p hp => absurd hp (hnone p),
    fun p hp => absurd hp (hnone p), fun h => ?_⟩
  · rw [hactive] at h
    cases h
  · rw [hpending] at h
    cases h

theorem of_start_eq (h : stmt.Rooted tokens i k n) (hstart : stmt'.start = stmt.start)
    (hactive : stmt'.active = true → stmt.active = true) (hparens : stmt'.parens ⊆ stmt.parens)
    (hpending : stmt'.headerParenPending = true →
      stmt.headerParenPending = true ∨ CodeBetween tokens k n) : stmt'.Rooted tokens i k n := by
  refine ⟨hstart ▸ h.kept, fun h' => hstart ▸ h.start (hactive h'),
    fun p hp => h.paren p (hparens hp), fun p hp => h.bracket p (hparens hp),
    fun p hp => h.header p (hparens hp), fun h' => ?_⟩
  rcases hpending h' with hwaits | hcode
  · exact h.pending hwaits
  · exact hcode

end Statement.Rooted

/-! ## What a token does to a rooted state -/

namespace State

section

variable (hget : tokens[n]? = some t) (hcode : t.isTrivia = false) (hn : k ≤ n)
include hget hcode hn

theorem codeAt_self : CodeAt tokens k (n + 1) n := ⟨hn, Nat.lt_succ_self n, t, hget, hcode⟩

theorem rooted_headerKeyword (h : s.stmt.Rooted tokens i k (n + 1)) (c : Cursor) :
    (s.headerKeyword c).stmt.Rooted tokens i k (n + 1) := by
  have hself : CodeBetween tokens k (n + 1) := ⟨n, codeAt_self hget hcode hn⟩
  have hcomplete : s.completeHeader.stmt.Rooted tokens i k (n + 1) :=
    h.of_start_eq rfl nofun (List.Subset.refl _) nofun
  have hpending : ∀ ifLevels, { s.stmt with ifLevels, headerParenPending := true }.Rooted tokens i k
      (n + 1) := fun _ => h.of_start_eq rfl id (List.Subset.refl _) fun _ => .inr hself
  simp only [headerKeyword]
  split_ifs
  · exact h
  · exact hpending _
  · exact hpending _
  · exact h
  · exact hcomplete
  · exact hcomplete
  · exact h

theorem rooted_openParen (hkind : t.kind = .punctuation) (h : s.stmt.Rooted tokens i k (n + 1))
    (hpending : s.stmt.headerParenPending = true → CodeBetween tokens k n) (hc : c.position = n)
    (lineIndent : Indent) : (s.openParen c lineIndent).stmt.Rooted tokens i k (n + 1) := by
  have hself := codeAt_self hget hcode hn
  refine ⟨h.kept, h.start, fun p hp => ?_, fun p hp => ?_, fun p hp => ?_, fun hwaits => ?_⟩
  · rcases List.mem_cons.mp hp with rfl | hp
    · exact hc.symm ▸ hself
    · exact h.paren p hp
  · rcases List.mem_cons.mp hp with rfl | hp
    · exact ⟨t, hc.symm ▸ hget, hkind⟩
    · exact h.bracket p hp
  · rcases List.mem_cons.mp hp with rfl | hp
    · intro hheader
      exact hc.symm ▸ hpending (Bool.and_eq_true_iff.mp hheader).2
    · exact h.header p hp
  · exact h.pending (Bool.and_eq_true_iff.mp hwaits).1

omit hget hcode hn in
theorem rooted_closeParen (h : s.stmt.Rooted tokens i k n) :
    s.closeParen.stmt.Rooted tokens i k n := by
  rw [closeParen]
  cases hparens : s.stmt.parens with
  | nil => exact h
  | cons p outer =>
      have hpopped : { s.stmt with parens := outer }.Rooted tokens i k n :=
        h.of_start_eq rfl id (hparens ▸ List.subset_cons_self p outer) .inl
      dsimp only
      split
      · exact hpopped.of_start_eq rfl (absurd · Bool.false_ne_true) (List.Subset.refl _)
          (absurd · Bool.false_ne_true)
      · exact hpopped

omit hget hcode hn in
theorem rooted_endStatement (h : s.stmt.Rooted tokens i k n) :
    (s.endStatement c o).stmt.Rooted tokens i k n := by
  simp only [endStatement, Statement.endBody]
  have hended : ∀ {stmt : Statement}, stmt.start = s.stmt.start → stmt.active = false →
      stmt.parens = s.stmt.parens → stmt.headerParenPending = false →
      stmt.Rooted tokens i k n := fun hstart hactive hparens hpending =>
    h.of_start_eq hstart (hactive ▸ (absurd · Bool.false_ne_true)) (hparens ▸ List.Subset.refl _)
      (hpending ▸ (absurd · Bool.false_ne_true))
  split
  · split <;> exact hended rfl rfl rfl rfl
  · exact hended rfl rfl rfl rfl

theorem rooted_afterCode (hc : c = cursorAt tokens n t) (h : s.stmt.Rooted tokens i k (n + 1))
    (hpending : s.stmt.headerParenPending = true → CodeBetween tokens k n) (lineIndent : Indent) :
    (s.afterCode c o lineIndent).stmt.Rooted tokens i k (n + 1) := by
  have htoken : c.token = t := by rw [hc]; rfl
  have hposition : c.position = n := by rw [hc]; rfl
  rw [afterCode, htoken]
  cases hkind : t.kind with
  | word => exact rooted_headerKeyword hget hcode hn h c
  | punctuation =>
      dsimp only
      split
      · exact rooted_openParen hget hcode hn hkind h hpending hposition lineIndent
      · exact rooted_openParen hget hcode hn hkind h hpending hposition lineIndent
      · exact rooted_closeParen h
      · exact rooted_closeParen h
      · split
        · exact rooted_endStatement h
        · exact h
      · exact h.of_start_eq rfl id (List.Subset.refl _) .inl
      · rw [colon]
        split_ifs
        · exact h.of_start_eq rfl id (List.Subset.refl _) .inl
        · exact h.of_start_eq rfl (absurd · Bool.false_ne_true) (List.Subset.refl _) .inl
        · exact h
      · exact h
  | _ => exact h

theorem rooted_settleCode (h : s.Rooted tokens i k (n + 1) count)
    (hpending : s.stmt.headerParenPending = true → CodeBetween tokens k n) (layout : Layout)
    (lineIndent : Indent) (starts : Bool) (role : Role) :
    (s.settleCode (cursorAt tokens n t) o layout lineIndent starts role).Rooted tokens i k (n + 1)
      count := by
  have hself := codeAt_self hget hcode hn
  have hbegun : (if starts then s.beginStatement (cursorAt tokens n t) layout lineIndent
      else s).stmt.Rooted tokens i k (n + 1) := by
    split
    · refine ⟨.inr hn, fun _ => hself, ?_, ?_, ?_, h.stmt.pending⟩
      · exact fun p hp => absurd hp List.not_mem_nil
      · exact fun p hp => absurd hp List.not_mem_nil
      · exact fun p hp => absurd hp List.not_mem_nil
    · exact h.stmt
  have hwaits : (if starts then s.beginStatement (cursorAt tokens n t) layout lineIndent
      else s).stmt.headerParenPending = s.stmt.headerParenPending := by
    split <;> rfl
  have hbraces : (if starts then s.beginStatement (cursorAt tokens n t) layout lineIndent
      else s).braces = s.braces := by
    split <;> rfl
  have hlast : (if starts then s.beginStatement (cursorAt tokens n t) layout lineIndent
      else s).lastOnLine = s.lastOnLine := by
    split <;> rfl
  rw [settleCode]
  generalize (if starts then s.beginStatement (cursorAt tokens n t) layout lineIndent
    else s) = begun at *
  have hstmt := rooted_afterCode (o := o) (s := begun.owesSpacing (cursorAt tokens n t) o role) hget
    hcode hn rfl hbegun (fun hp => hpending (hwaits ▸ hp)) lineIndent
  obtain ⟨stmt, forceBreak, heq⟩ :=
    (begun.owesSpacing (cursorAt tokens n t) o role).afterCode_eq (cursorAt tokens n t) o lineIndent
  rw [heq] at hstmt ⊢
  refine ⟨hstmt, ?_, ?_, ?_⟩
  · exact hlast ▸ h.lastOnLine
  · exact hbraces ▸ h.kept
  · exact hbraces ▸ h.outer

end

/-! ### Placing a token -/

theorem rooted_placed (h : s.stmt.Rooted tokens i k n) (layout : Layout) (column : Nat) :
    (s.placed c layout column).stmt.Rooted tokens i k n := by
  obtain ⟨parens, hparens, hstmt⟩ := s.exists_stmt_placed c layout column
  rw [hstmt]
  refine ⟨h.kept, h.start, fun q hq => ?_, fun q hq => ?_, fun q hq hheader => ?_, h.pending⟩
  · obtain ⟨p, hp, hstart, -⟩ := hparens q hq
    exact hstart ▸ h.paren p hp
  · obtain ⟨p, hp, hstart, -⟩ := hparens q hq
    exact hstart ▸ h.bracket p hp
  · obtain ⟨p, hp, hstart, hsame⟩ := hparens q hq
    exact hstart ▸ h.header p hp (hsame ▸ hheader)

namespace Rooted

theorem mono (h : s.Rooted tokens i k m count) (hmn : m ≤ n) : s.Rooted tokens i k n count :=
  ⟨h.stmt.mono hmn, h.lastOnLine, h.kept,
    fun b hb hexpression => (h.outer b hb hexpression).mono hmn⟩

theorem placed (h : s.Rooted tokens i k n count) (hn : k ≤ n) (hc : c.position = n)
    (layout : Layout) (column : Nat) :
    (s.placed c layout column).Rooted tokens i k (n + 1) count := by
  have hnext := h.mono (Nat.le_succ n)
  have hbraces := s.braces_placed c layout column
  refine ⟨rooted_placed hnext.stmt layout column, fun p hp => ?_, ?_, ?_⟩
  · cases hp
    exact .inr (hc ▸ Nat.le_succ_of_le hn)
  · rw [hbraces]
    exact hnext.kept
  · rw [hbraces]
    exact hnext.outer

theorem settleOpen {count' : Nat} (h : s.Rooted tokens i k n count) (hcount : count' ≤ count + 1)
    (b : Opening) (lineIndent : Indent) :
    (s.settleOpen o b lineIndent).Rooted tokens i k n count' := by
  refine ⟨.idle (.inl (Nat.zero_le i)) rfl rfl rfl, h.lastOnLine,
    List.forall_mem_cons.mpr ⟨h.stmt.kept, h.kept⟩, fun b' hb' hexpression => ?_⟩
  have hmem : b' ∈ (openedBrace o b lineIndent s.stmt :: s.braces).take (count + 1) :=
    (List.take_subset_take_left _ hcount) hb'
  rcases List.mem_cons.mp hmem with rfl | hmem
  · exact h.stmt
  · exact h.outer b' hmem hexpression

theorem settleClose (h : s.Rooted tokens i k n count) {b : OpenBrace}
    (hkept : Kept i k b.outer.start)
    (houter : b.expression = true → b.outer.Rooted tokens i k n) :
    (s.settleClose c o b).Rooted tokens i k n count := by
  simp only [State.settleClose, finishBlock]
  split
  · next hexpression => exact ⟨houter hexpression, h.lastOnLine, h.kept, h.outer⟩
  · refine ⟨?_, h.lastOnLine, h.kept, h.outer⟩
    simp only [Statement.endBlock]
    split
    · split <;> exact .idle hkept rfl rfl rfl
    · split <;> exact .idle hkept rfl rfl rfl

theorem fewer {count' : Nat} (h : s.Rooted tokens i k n count) (hcount : count' ≤ count) :
    s.Rooted tokens i k n count' :=
  ⟨h.stmt, h.lastOnLine, h.kept, fun b hb => h.outer b (List.take_subset_take_left _ hcount hb)⟩

theorem congr {s' : State} (h : s.Rooted tokens i k n count) (hstmt : s'.stmt.Rooted tokens i k n)
    (hbraces : s'.braces = s.braces) (hlast : s'.lastOnLine = s.lastOnLine) :
    s'.Rooted tokens i k n count :=
  ⟨hstmt, hlast ▸ h.lastOnLine, hbraces ▸ h.kept, hbraces ▸ h.outer⟩

end Rooted

/-! ## All tokens -/

section

variable {rest : List Token} {cs : List Conditional} {page : Page} {column : Nat}
  {lineIndent : Indent}

theorem rooted_code (hget : tokens[n]? = some t) (hcode : t.isTrivia = false) (hn : k ≤ n)
    (h : s.Rooted tokens i k n count) :
    let p := Plan.code (cursorAt tokens n t) o s cs page
    ((p.state.placed (cursorAt tokens n t) p.layout column).settle (cursorAt tokens n t) o p
      lineIndent).Rooted tokens i k (n + 1) count := by
  intro p
  have hbody : p.state.stmt.Rooted tokens i k n := h.stmt.startBody _ _
  have hplan : p.state.Rooted tokens i k n count := h.congr hbody rfl rfl
  refine rooted_settleCode hget hcode hn (hplan.placed hn rfl p.layout column) (fun hpending => ?_)
    p.layout lineIndent _ _
  obtain ⟨_, -, hstmt⟩ := p.state.exists_stmt_placed (cursorAt tokens n t) p.layout column
  rw [hstmt] at hpending
  exact hbody.pending hpending

theorem rooted_openBrace (hn : k ≤ n) (hopen : t.is "\x7b" = true)
    (h : s.Rooted tokens i k n (closings 0 (t :: rest))) :
    let p := Plan.openBrace (cursorAt tokens n t) o s cs page
    ((p.state.placed (cursorAt tokens n t) p.layout column).settle (cursorAt tokens n t) o p
      lineIndent).Rooted tokens i k (n + 1) (closings 0 rest) := by
  intro p
  have hplan : p.state.Rooted tokens i k n (closings 1 rest) := by
    rw [closings, if_pos hopen] at h
    exact h.congr h.stmt rfl rfl
  exact (hplan.placed hn rfl p.layout column).settleOpen (closings_le 0 rest) _ lineIndent

theorem rooted_closeBrace (hn : k ≤ n) (hopen : t.is "\x7b" = false) (hclose : t.is "\x7d" = true)
    (h : s.Rooted tokens i k n (closings 0 (t :: rest))) :
    let p := Plan.closeBrace (cursorAt tokens n t) o s cs page
    ((p.state.placed (cursorAt tokens n t) p.layout column).settle (cursorAt tokens n t) o p
      lineIndent).Rooted tokens i k (n + 1) (closings 0 rest) := by
  intro p
  have hcount : closings 0 (t :: rest) = closings 0 rest + 1 := by
    rw [closings.eq_def]
    simp only [hopen, hclose, Bool.false_eq_true, if_false, if_true]
  rw [hcount] at h
  cases hbraces : s.braces with
  | nil =>
      have hp : p
          = Plan.strayBrace (cursorAt tokens n t) o { s with afterClose := none } cs page := by
        show Plan.closeBrace _ _ _ _ _ = _
        rw [Plan.closeBrace, hbraces]
      have hplan : { s with afterClose := none : State }.Rooted tokens i k n (closings 0 rest) :=
        (h.fewer (Nat.le_succ _)).congr h.stmt rfl rfl
      rw [hp]
      exact hplan.placed hn rfl _ column
  | cons b outer =>
      have hb : b ∈ s.braces := hbraces ▸ List.mem_cons_self
      have hplan : { s with afterClose := none, braces := outer : State }.Rooted tokens i k n
          (closings 0 rest) := by
        refine ⟨h.stmt, h.lastOnLine, fun b' hb' => h.kept b' ?_, fun b' hb' => h.outer b' ?_⟩
        · exact hbraces ▸ List.mem_cons_of_mem b hb'
        · rw [hbraces]
          exact List.mem_cons_of_mem b hb'
      have houter : b.expression = true → b.outer.Rooted tokens i k (n + 1) := by
        intro hexpression
        refine (h.outer b ?_ hexpression).mono (Nat.le_succ n)
        rw [hbraces]
        exact List.mem_cons_self
      have hstate : p.state = { s with afterClose := none, braces := outer : State } := by
        show (Plan.closeBrace _ _ _ _ _).state = _
        rw [Plan.closeBrace, hbraces]
      have haction : p.action = .closeBrace (some b) := by
        show (Plan.closeBrace _ _ _ _ _).action = _
        rw [Plan.closeBrace, hbraces]
      rw [settle, haction, hstate]
      exact (hplan.placed hn rfl p.layout column).settleClose (h.kept b hb) houter

/-- A token that is no directive leaves a rooted state rooted. -/
theorem Rooted.step {r : Progress} (hget : tokens[n]? = some t) (hkind : t.kind ≠ .directive)
    (hn : k ≤ n) (h : r.state.Rooted tokens i k n (closings 0 (t :: rest))) :
    (r.step o (cursorAt tokens n t)).state.Rooted tokens i k (n + 1) (closings 0 rest) := by
  have hplain : t.is "\x7b" = false → t.is "\x7d" = false →
      r.state.Rooted tokens i k n (closings 0 rest) := by
    intro hopen hclose
    rwa [closings_of_plain hopen hclose] at h
  rw [Progress.step]
  dsimp only
  generalize (Page.write _ _ _).currentIndent = lineIndent
  generalize (if State.awaitsAlign _ = true then _ else _) = column
  rcases (cursorAt tokens n t).plan_cases o r.state r.conditionals r.page hkind with
    ⟨htrivia, hplan⟩ | ⟨hcode, hcases⟩
  · rw [hplan]
    exact (hplain (Token.is_of_isTrivia htrivia _) (Token.is_of_isTrivia htrivia _)).placed hn rfl _
      column
  · rcases hcases with ⟨hopen, hplan⟩ | ⟨hopen, hclose, hplan⟩ | ⟨hopen, hclose, hplan⟩
    · rw [hplan]
      exact rooted_openBrace hn hopen h
    · rw [hplan]
      exact rooted_closeBrace hn hopen hclose h
    · rw [hplan]
      exact rooted_code hget hcode hn (hplain hopen hclose)

end

end State

end Beautifier
