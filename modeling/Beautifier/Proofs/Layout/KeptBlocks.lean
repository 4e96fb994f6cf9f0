/-
Blocks that are kept on one line.

Where one-line blocks are kept, a block without line breaks in the source is
laid out without them, but for one kind of place.  Its opening brace records
that it is kept (`blockAt?_of_oneLine`), and the ends of statements and the
braces inside ask for that (`keepsLine_inside`), so none of them leaves a line
break behind (`forceBreak_inside`).  A code token behind the closing brace of
a nested block does not ask: it starts a line if its block and the page say so
(`startedLine?_inside_iff`).
-/
import Beautifier.Proofs.Insertion.Bodies
import Beautifier.Proofs.Layout.BraceStack
import Beautifier.Proofs.Layout.StartedLines

namespace Beautifier

/-! ## Directives start lines -/

theorem Scanner.Reads.atLineStart_of_directive {language : Language} {atLineStart : Bool}
    {first : Char} {source : List Glyph} {kind : TokenKind} {cut : Cut}
    (h : Reads language atLineStart first source kind cut) (hkind : kind = .directive) :
    atLineStart = true := by
  cases h with
  | directive hstart _ => exact hstart
  | _ => cases hkind

theorem gapBreaks_pos_of_advance {width : Nat} {p : Position} {gap : List Glyph}
    (hp : p.atLineStart = false) (h : (p.advance width gap).atLineStart = true) :
    0 < gapBreaks gap := by
  induction gap generalizing p with
  | nil =>
      rw [show p.advance width [] = p from rfl, hp] at h
      cases h
  | cons g gap ih =>
      cases g with
      | lineBreak e => exact Nat.succ_pos _
      | char c => exact ih (p := p.step width (.char c)) hp h

/-- Behind another token, a directive starts a line. -/
theorem lineBreaks_directive_readTokens (language : Language) (width : Nat) (p : Position)
    (source : List Glyph) (hp : p.atLineStart = false) :
    ∀ t ∈ (readTokens language width p source).tokens, t.kind = .directive → 0 < t.lineBreaks := by
  fun_induction readTokens language width p source with
  | case1 => exact fun t ht => absurd ht List.not_mem_nil
  | case2 p source gap start first rest hsplit scanned taken token behind others ih =>
      refine List.forall_mem_cons.mpr ⟨fun hkind => ?_, ih rfl⟩
      have hreads := Scanner.reads_scan language start.atLineStart first rest
      exact gapBreaks_pos_of_advance hp (hreads.atLineStart_of_directive hkind)

theorem lineBreaks_directive_tokenize {language : Language} {width n : Nat} {source : String}
    {t : Token} (hget : (tokenize language width source).tokens[n + 1]? = some t)
    (hkind : t.kind = .directive) : 0 < t.lineBreaks := by
  rw [tokenize, readTokens] at hget
  split at hget
  · cases hget
  · exact lineBreaks_directive_readTokens _ _ _ _ rfl t (List.mem_of_getElem? hget) hkind

/-! ## What a block records -/

/-- What is left to say of a block once it is closed. -/
def OpenBrace.closed (b : OpenBrace) : ClosedBrace := ⟨b.kind, b.isDo, b.expression⟩

/-- No token behind the opening brace at `i` up to the closing brace at `j` that matches it starts
a line of the source. -/
structure OneLine (tokens : List Token) (i j : Nat) : Prop where
  closers : (Matching.closers tokens)[i]?.join = some j
  lineBreaks : ∀ n t, i < n → n ≤ j → tokens[n]? = some t → t.lineBreaks = 0

section
variable {o : Options} {tokens : List Token} {n i j : Nat} {t : Token}

theorem blockAt?_eq (hget : tokens[i]? = some t) (hopen : t.is "\x7b" = true) :
    ∃ indent outer, blockAt? o tokens i = some (State.openedBrace o
      (Plan.opening (cursorAt tokens i t) o (stage o tokens i).state) indent outer) := by
  obtain ⟨outer, hbraces⟩ := braces_step_openBrace (o := o) (r := stage o tokens i)
    (c := cursorAt tokens i t) hopen
  rw [← stage_succ hget] at hbraces
  exact ⟨_, outer, by rw [blockAt?, hbraces, List.head?_cons]⟩

theorem expression_of_initializer (c : Cursor) (s : State) :
    (c.classify s).1 = .initializer → (c.classify s).2 = true := by
  have hannounced : ∀ head, Cursor.announced? head ≠ some .initializer := by
    intro head
    rw [Cursor.announced?]
    repeat' split
    all_goals nofun
  have hstatement : (c.classifyInStatement s).1 = .initializer →
      (c.classifyInStatement s).2 = true := by
    rw [Cursor.classifyInStatement]
    split
    · next kind hkind =>
      rintro rfl
      exact absurd hkind (hannounced _)
    · repeat' split
      all_goals simp
  rw [Cursor.classify]
  repeat' split
  all_goals first
    | exact hstatement
    | simp

/-- A one-line block is recorded as kept, as an initializer or as empty. -/
theorem OneLine.exists_blockAt? (h : OneLine tokens i j) (hkeep : o.keepOneLineBlocks = true) :
    ∃ b, blockAt? o tokens i = some b ∧
      (b.keepOneLine = true ∨ b.kind = .initializer ∨ b.isEmpty = true ∧ j = i + 1) := by
  obtain ⟨t, hget, hopen⟩ := Matching.is_of_mem_openAt
    (List.mem_of_head? (Matching.head_openAt_of_closers h.closers))
  obtain ⟨indent, outer, hblock⟩ := blockAt?_eq (o := o) hget hopen
  refine ⟨_, hblock, ?_⟩
  have hcloser : (cursorAt tokens i t).closer = some j := h.closers
  have honeLine : Plan.onOneLine (cursorAt tokens i t) = true := by
    rw [Plan.onOneLine, hcloser]
    refine List.all_eq_true.mpr fun u hu => ?_
    obtain ⟨k, hk, rfl⟩ := List.mem_iff_getElem.mp hu
    have hlength : k < j - i := by
      rw [Cursor.upTo, List.length_take] at hk
      exact Nat.lt_of_lt_of_le hk (Nat.min_le_left _ _)
    have hu : tokens[i + 1 + k]? = some ((cursorAt tokens i t).upTo j)[k] := by
      rw [← List.getElem?_drop, ← List.getElem?_eq_getElem hk, Cursor.upTo]
      exact (List.getElem?_take_of_lt hlength).symm
    rw [h.lineBreaks (i + 1 + k) _ (by omega) (by omega) hu]
    rfl
  generalize (stage o tokens i).state = s
  by_cases hkind : ((cursorAt tokens i t).classify s).1 = .initializer
  · exact .inr (.inl hkind)
  by_cases hj : j = i + 1
  · refine .inr (.inr ⟨?_, hj⟩)
    simp only [State.openedBrace, Plan.opening, honeLine, hcloser, hj]
    simp [cursorAt]
  · refine .inl ?_
    have hposition : (cursorAt tokens i t).position = i := rfl
    simp only [State.openedBrace, Plan.opening, honeLine, hcloser, hkeep, hposition]
    simp [hkind, hj]

/-! ## Inside a kept block -/

/-- The block that is opened at `i` is recorded as kept, or is an initializer. -/
def KeptAt (o : Options) (tokens : List Token) (i : Nat) : Prop :=
  ∃ b, blockAt? o tokens i = some b ∧ (b.keepOneLine = true ∨ b.kind = .initializer)

/-- No line break is put in front of braces or behind statements here. -/
def State.keepsLine (s : State) : Bool := s.inKeptLine || s.innermostIs (·.kind == .initializer)

theorem State.innermostIs_of_head {s : State} {b : OpenBrace} (h : s.braces.head? = some b)
    (p : OpenBrace → Bool) : s.innermostIs p = p b := by
  obtain ⟨outer, houter⟩ := List.head?_eq_some_iff.mp h
  rw [innermostIs, houter]

/-- All blocks inside an initializer are classified as such. -/
theorem Unconditional.initializer_inside (h : Unconditional tokens)
    (hclosers : (Matching.closers tokens)[i]?.join = some j) {b : OpenBrace}
    (hb : blockAt? o tokens i = some b) (hkind : b.kind = .initializer) :
    ∀ p, i ≤ p → p < j → (∃ t, tokens[p]? = some t ∧ t.is "\x7b" = true) →
      ∃ b', blockAt? o tokens p = some b' ∧ b'.kind = .initializer := by
  intro p
  induction p using Nat.strongRecOn with
  | ind p ih =>
      rintro hip hpj ⟨t, hget, hopen⟩
      rcases Nat.eq_or_lt_of_le hip with rfl | hip
      · exact ⟨b, hb, hkind⟩
      -- the innermost block around the brace is one of those before
      have hp : p ≤ tokens.length := Nat.le_of_lt (List.getElem?_eq_some_iff.mp hget).1
      obtain ⟨k, outer, hk, hik, hkp⟩ := Matching.exists_innermost
        (Matching.mem_openAt_of_closers hclosers hip (Nat.le_of_lt hpj))
      obtain ⟨b', hb', hkind'⟩ := ih k hkp hik (Nat.lt_trans hkp hpj)
        (Matching.is_of_mem_openAt (n := p) (hk ▸ List.mem_cons_self))
      have hhead := (h.head_braces_of_openAt (o := o) hp hk).1.trans hb'
      have hinitializer : (stage o tokens p).state.innermostIs (·.kind == .initializer) = true := by
        rw [State.innermostIs_of_head hhead, hkind']
        rfl
      obtain ⟨indent, outer', hblock⟩ := blockAt?_eq (o := o) hget hopen
      refine ⟨_, hblock, ?_⟩
      show ((cursorAt tokens p t).classify (stage o tokens p).state).1 = _
      rw [Cursor.classify, if_pos hinitializer]

/-- Everywhere inside a kept block lines are kept. -/
theorem Unconditional.keepsLine_inside (h : Unconditional tokens)
    (hclosers : (Matching.closers tokens)[i]?.join = some j) (hkept : KeptAt o tokens i)
    (hin : i < n) (hnj : n ≤ j) : (stage o tokens n).state.keepsLine = true := by
  obtain ⟨u, hu, -⟩ := Matching.is_of_closers hclosers
  have hn : n ≤ tokens.length :=
    Nat.le_trans hnj (Nat.le_of_lt (List.getElem?_eq_some_iff.mp hu).1)
  have hopen := Matching.mem_openAt_of_closers hclosers hin hnj
  obtain ⟨b, hb, hkeep | hkind⟩ := hkept
  · have hmem := h.mem_braces_stage hn hopen hb
    rw [State.keepsLine, State.inKeptLine, List.any_eq_true.mpr ⟨b, hmem, hkeep⟩]
    rfl
  · obtain ⟨k, outer, hk, hik, hkn⟩ := Matching.exists_innermost hopen
    obtain ⟨b', hb', hkind'⟩ := h.initializer_inside hclosers hb hkind k hik
      (Nat.lt_of_lt_of_le hkn hnj) (Matching.is_of_mem_openAt (n := n) (hk ▸ List.mem_cons_self))
    have hhead := (h.head_braces_of_openAt (o := o) hn hk).1.trans hb'
    rw [State.keepsLine, State.innermostIs_of_head hhead, hkind']
    simp

/-- A block that closes inside a kept one is part of an expression, or the blocks around it are
kept. -/
theorem Unconditional.closed_inside (h : Unconditional tokens)
    (hclosers : (Matching.closers tokens)[i]?.join = some j) (hkept : KeptAt o tokens i)
    (hin : i < n) (hnj : n < j) (hget : tokens[n]? = some t) (hclose : t.is "\x7d" = true) :
    ∃ b outer, (stage o tokens n).state.braces = b :: outer ∧
      (b.expression = true ∨ outer.any (·.keepOneLine) = true) := by
  have hn : n < tokens.length := (List.getElem?_eq_some_iff.mp hget).1
  obtain ⟨k, outer', hk, hik, hkn⟩ := Matching.exists_innermost
    (Matching.mem_openAt_of_closers hclosers hin (Nat.le_of_lt hnj))
  obtain ⟨hhead, hsome⟩ := h.head_braces_of_openAt (o := o) (Nat.le_of_lt hn) hk
  obtain ⟨b, hb⟩ := Option.isSome_iff_exists.mp hsome
  obtain ⟨outer, houter⟩ := List.head?_eq_some_iff.mp (hhead.trans hb)
  refine ⟨b, outer, houter, ?_⟩
  obtain ⟨b', hb', hkeep | hkind⟩ := hkept
  · have hbehind := braces_step_closeBrace (o := o) (r := stage o tokens n)
      (c := cursorAt tokens n t) hclose
    rw [← stage_succ hget, houter, List.tail_cons] at hbehind
    have hmem := h.mem_braces_stage hn
      (Matching.mem_openAt_of_closers hclosers (Nat.lt_succ_of_lt hin) hnj) hb'
    rw [hbehind] at hmem
    exact .inr (List.any_eq_true.mpr ⟨b', hmem, hkeep⟩)
  · have hopen := Matching.is_of_mem_openAt (n := n) (hk ▸ List.mem_cons_self)
    obtain ⟨b'', hb'', hkind'⟩ := h.initializer_inside hclosers hb' hkind k hik
      (Nat.lt_trans hkn hnj) hopen
    obtain ⟨u, hu, hopen⟩ := hopen
    obtain ⟨indent, outer'', hblock⟩ := blockAt?_eq (o := o) hu hopen
    rw [hb] at hb'' hblock
    cases hb''
    cases hblock
    exact .inl (expression_of_initializer _ _ hkind')

end

/-! ## No line breaks are owed -/

section
variable {o : Options} {s : State} {c : Cursor}

theorem State.forceBreak_placed (h : s.forceBreak = false) (c : Cursor) (layout : Layout)
    (column : Nat) : (s.placed c layout column).forceBreak = false := by
  have hamend : ∀ f, (s.amendParen f).forceBreak = false := by
    intro f
    rw [amendParen]
    split <;> exact h
  cases layout with
  | newLine => rfl
  | sameLine =>
      simp only [placed]
      split
      · rw [h, Bool.false_and]
      · rw [hamend, Bool.false_and]

theorem State.forceBreak_afterCode (s : State) (c : Cursor) (o : Options) (lineIndent : Indent) :
    (s.afterCode c o lineIndent).forceBreak = s.forceBreak ∨
      s.innermostIs (·.kind == .initializer) = false ∧
        (s.afterCode c o lineIndent).forceBreak
          = (s.forceBreak || !(o.keepOneLineStatements || s.inKeptLine)) := by
  unfold afterCode
  split
  · unfold headerKeyword completeHeader
    dsimp only
    repeat' split
    all_goals exact .inl rfl
  · split
    · exact .inl rfl
    · exact .inl rfl
    · unfold closeParen completeHeader
      repeat' split
      all_goals exact .inl rfl
    · unfold closeParen completeHeader
      repeat' split
      all_goals exact .inl rfl
    · split
      · next hends => exact .inr ⟨by simpa using (Bool.and_eq_true_iff.mp hends).2, rfl⟩
      · exact .inl rfl
    · exact .inl rfl
    · unfold colon
      repeat' split
      all_goals exact .inl rfl
    · exact .inl rfl
  · exact .inl rfl

theorem State.forceBreak_settleCode (h : s.forceBreak = false) (hkeeps : s.keepsLine = true)
    (layout : Layout) (lineIndent : Indent) (starts : Bool) (role : Role) :
    (s.settleCode c o layout lineIndent starts role).forceBreak = false := by
  have hafter : ∀ s : State, s.forceBreak = false → s.keepsLine = true →
      (s.afterCode c o lineIndent).forceBreak = false := by
    intro s h hkeeps
    rcases s.forceBreak_afterCode c o lineIndent with hsame | ⟨hinitializer, hends⟩
    · exact hsame.trans h
    · rw [keepsLine, hinitializer, Bool.or_false] at hkeeps
      rw [hends, h, hkeeps, Bool.or_true]
      rfl
  rw [settleCode]
  cases starts with
  | false => exact hafter _ h hkeeps
  | true => exact hafter _ h hkeeps

theorem State.forceBreak_settleClose {b : OpenBrace} (h : s.forceBreak = false)
    (hkept : b.expression = true ∨ s.braces.any (·.keepOneLine) = true) :
    (s.settleClose c o b).forceBreak = false := by
  rw [settleClose]
  split
  · exact h
  · next hexpression =>
    have hbraces := hkept.resolve_left hexpression
    rw [finishBlock, inKeptLine, hbraces]
    rfl

/-- Where lines are kept, a block is opened on the line, or as an initializer. -/
theorem Plan.opening_of_keepsLine (hkeeps : s.keepsLine = true) (c : Cursor) (o : Options) :
    (opening c o s).inKeptLine = true ∨
      (opening c o s).kind = .initializer ∧ (opening c o s).expression = true := by
  rw [State.keepsLine, Bool.or_eq_true] at hkeeps
  refine hkeeps.imp id fun hinitializer => ?_
  have hclassify : c.classify s = (.initializer, true) := by
    rw [Cursor.classify, if_pos hinitializer]
  exact ⟨congrArg Prod.fst hclassify, congrArg Prod.snd hclassify⟩

theorem State.keepsLine_congr {s s' : State} (h : s'.braces = s.braces) :
    s'.keepsLine = s.keepsLine := by
  rw [keepsLine, keepsLine, inKeptLine, inKeptLine, innermostIs, innermostIs, h]

end

section
variable {o : Options} {r : Progress} {c : Cursor}

theorem forceBreak_step_openBrace (h : c.token.is "\x7b" = true) :
    let b := Plan.opening c o r.state
    (r.step o c).state.forceBreak
      = !(b.keepOneLine || b.inKeptLine || b.isEmpty || b.kind == .initializer) := by
  rw [Progress.step, Cursor.plan_openBrace h]
  rfl

theorem state_step_closeBrace (h : c.token.is "\x7d" = true) {b : OpenBrace}
    {outer : List OpenBrace} (hbraces : r.state.braces = b :: outer) :
    ∃ (s : State) (layout : Layout) (column : Nat), s.braces = outer ∧
      s.forceBreak = r.state.forceBreak ∧
      (r.step o c).state = (s.placed c layout column).settleClose c o b := by
  rw [Progress.step, Cursor.plan_closeBrace h, Plan.closeBrace, hbraces]
  exact ⟨{ r.state with afterClose := none, braces := outer }, _, _, rfl, rfl, rfl⟩

theorem state_step_code
    (h : c.plan o r.state r.conditionals r.page = .code c o r.state r.conditionals r.page) :
    ∃ (s : State) (layout : Layout) (column : Nat) (lineIndent : Indent) (starts : Bool)
      (role : Role), s.braces = r.state.braces ∧ s.forceBreak = r.state.forceBreak ∧
      s.afterClose = none ∧ (r.step o c).state
        = (s.placed c layout column).settleCode c o layout lineIndent starts role := by
  rw [Progress.step, h]
  exact ⟨{ r.state with
    stmt := Plan.startBody r.state.stmt (!r.state.stmt.active && !c.token.is ";") (c.token.is ";")
    afterClose := none }, _, _, _, _, _, rfl, rfl, rfl, rfl⟩

/-- Where lines are kept, a token that is no directive leaves no line break behind. -/
theorem forceBreak_step (hkind : c.token.kind ≠ .directive) (hforce : r.state.forceBreak = false)
    (hkeeps : r.state.keepsLine = true)
    (hclosed : c.token.is "\x7d" = true → ∃ b outer, r.state.braces = b :: outer ∧
      (b.expression = true ∨ outer.any (·.keepOneLine) = true)) :
    (r.step o c).state.forceBreak = false := by
  rcases c.plan_cases o r.state r.conditionals r.page hkind with
    ⟨-, hplan⟩ | ⟨-, ⟨hopen, -⟩ | ⟨-, hclose, hplan⟩ | ⟨-, -, hplan⟩⟩
  · rw [Progress.step, hplan]
    exact State.forceBreak_placed hforce ..
  · rw [forceBreak_step_openBrace hopen]
    rcases Plan.opening_of_keepsLine hkeeps c o with hkept | ⟨hinitializer, -⟩
    · simp [hkept]
    · simp [hinitializer]
  · obtain ⟨b, outer, hbraces, hcase⟩ := hclosed hclose
    obtain ⟨s, layout, column, houter, hsame, hstep⟩ :=
      state_step_closeBrace (o := o) hclose hbraces
    rw [hstep]
    refine State.forceBreak_settleClose (State.forceBreak_placed (hsame.trans hforce) ..) ?_
    rw [State.braces_placed, houter]
    exact hcase
  · obtain ⟨s, layout, column, lineIndent, starts, role, hbraces, hsame, -, hstep⟩ :=
      state_step_code hplan
    rw [hstep]
    refine State.forceBreak_settleCode (State.forceBreak_placed (hsame.trans hforce) ..) ?_ ..
    rw [State.keepsLine_congr ((State.braces_placed ..).trans hbraces)]
    exact hkeeps

end

section
variable {o : Options} {tokens : List Token} {n i j : Nat} {t : Token}

/-- A directive that is not the first token starts a line. -/
def DirectivesStartLines (tokens : List Token) : Prop :=
  ∀ n t, tokens[n + 1]? = some t → t.kind = .directive → 0 < t.lineBreaks

theorem OneLine.kind_ne_directive (h : OneLine tokens i j) (hlines : DirectivesStartLines tokens)
    (hin : i < n) (hnj : n ≤ j) (hget : tokens[n]? = some t) : t.kind ≠ .directive := by
  intro hkind
  obtain ⟨m, rfl⟩ := Nat.exists_eq_succ_of_ne_zero (Nat.ne_zero_of_lt hin)
  have hpos := hlines m t hget hkind
  rw [h.lineBreaks _ t hin hnj hget] at hpos
  cases hpos

/-- Inside a kept block no line break is owed. -/
theorem OneLine.forceBreak_inside (h : OneLine tokens i j) (hfree : Unconditional tokens)
    (hlines : DirectivesStartLines tokens) (hkept : KeptAt o tokens i) :
    ∀ n, i < n → n ≤ j → (stage o tokens n).state.forceBreak = false := by
  intro n hin
  obtain ⟨t, hget, hopen⟩ := Matching.is_of_mem_openAt
    (List.mem_of_head? (Matching.head_openAt_of_closers h.closers))
  induction hin with
  | refl =>
      intro _
      obtain ⟨indent, outer, hblock⟩ := blockAt?_eq (o := o) hget hopen
      obtain ⟨b, hb, hcase⟩ := hkept
      rw [hblock] at hb
      cases hb
      rw [stage_succ hget, forceBreak_step_openBrace (c := cursorAt tokens i t) hopen]
      rcases hcase with hkeep | hkind
      · rw [show (Plan.opening _ _ _).keepOneLine = true from hkeep]
        rfl
      · rw [show (Plan.opening _ _ _).kind = .initializer from hkind]
        simp
  | @step n hin ih =>
      intro hnj
      obtain ⟨u, hu, -⟩ := Matching.is_of_closers h.closers
      have hn : n < tokens.length := Nat.lt_trans hnj (List.getElem?_eq_some_iff.mp hu).1
      have hget' := List.getElem?_eq_getElem hn
      generalize tokens[n] = v at hget'
      rw [stage_succ hget']
      exact forceBreak_step (c := cursorAt tokens n v)
        (h.kind_ne_directive hlines hin (Nat.le_of_lt hnj) hget') (ih (Nat.le_of_lt hnj))
        (hfree.keepsLine_inside h.closers hkept hin (Nat.le_of_lt hnj))
        (hfree.closed_inside h.closers hkept hin hnj hget')

/-! ## Behind a closing brace -/

/-- The last code token in front of `n` is the closing brace at `m`, which matches the opening brace
at `p`. -/
structure Behind (tokens : List Token) (p m n : Nat) : Prop where
  closers : (Matching.closers tokens)[p]?.join = some m
  lt : m < n
  trivia : ∀ k u, m < k → k < n → tokens[k]? = some u → u.isTrivia = true

theorem behind_succ_of_trivia {p m : Nat} (hget : tokens[n]? = some t) (ht : t.isTrivia = true) :
    Behind tokens p m (n + 1) ↔ Behind tokens p m n := by
  constructor
  · intro h
    have hne : m ≠ n := by
      rintro rfl
      obtain ⟨u, hu, hclose⟩ := Matching.is_of_closers h.closers
      rw [hget] at hu
      cases hu
      rw [BraceInsertion.not_isTrivia_of_is hclose] at ht
      cases ht
    exact ⟨h.closers, Nat.lt_of_le_of_ne (Nat.le_of_lt_succ h.lt) hne,
      fun k u hmk hkn => h.trivia k u hmk (Nat.lt_succ_of_lt hkn)⟩
  · intro h
    refine ⟨h.closers, Nat.lt_succ_of_lt h.lt, fun k u hmk hkn hu => ?_⟩
    rcases Nat.eq_or_lt_of_le (Nat.le_of_lt_succ hkn) with rfl | hkn
    · rw [hget] at hu
      cases hu
      exact ht
    · exact h.trivia k u hmk hkn hu

theorem behind_succ_of_code {p m : Nat} (hget : tokens[n]? = some t) (ht : t.isTrivia = false) :
    Behind tokens p m (n + 1) ↔ (Matching.closers tokens)[p]?.join = some n ∧ m = n := by
  constructor
  · intro h
    obtain rfl : m = n := by
      by_contra hne
      have hmn : m < n := Nat.lt_of_le_of_ne (Nat.le_of_lt_succ h.lt) hne
      have htrivia := h.trivia n t hmn (Nat.lt_succ_self n) hget
      rw [ht] at htrivia
      cases htrivia
    exact ⟨h.closers, rfl⟩
  · rintro ⟨hclosers, rfl⟩
    exact ⟨hclosers, Nat.lt_succ_self m, fun k u hmk hkm => absurd hkm (by omega)⟩

theorem State.afterClose_placed (s : State) (c : Cursor) (layout : Layout) (column : Nat) :
    (s.placed c layout column).afterClose = s.afterClose := by
  have hamend : ∀ f, (s.amendParen f).afterClose = s.afterClose := by
    intro f
    rw [amendParen]
    split <;> rfl
  cases layout with
  | newLine => exact hamend _
  | sameLine =>
      simp only [placed]
      split
      · rfl
      · exact hamend _

theorem State.afterClose_settleClose (s : State) (c : Cursor) (o : Options) (b : OpenBrace) :
    (s.settleClose c o b).afterClose = some b.closed := by
  rw [settleClose]
  split <;> rfl

section
variable {r : Progress} {c : Cursor}

theorem afterClose_step_comment (hkind : c.token.kind ≠ .directive)
    (htrivia : c.token.isTrivia = true) :
    (r.step o c).state.afterClose = r.state.afterClose := by
  have hplan : c.plan o r.state r.conditionals r.page
      = .comment c o r.state r.conditionals r.page := by
    simpa [htrivia] using c.plan_cases o r.state r.conditionals r.page hkind
  rw [Progress.step, hplan]
  exact State.afterClose_placed ..

theorem afterClose_step_of_plan_code
    (hplan : c.plan o r.state r.conditionals r.page = .code c o r.state r.conditionals r.page) :
    (r.step o c).state.afterClose = none := by
  obtain ⟨s, layout, column, lineIndent, starts, role, -, -, hnone, hstep⟩ := state_step_code hplan
  rw [hstep, (State.settleCode_keeps ..).2, State.afterClose_placed, hnone]

theorem afterClose_step_code (hcode : c.token.isTrivia = false)
    (hclose : c.token.is "\x7d" = false) : (r.step o c).state.afterClose = none := by
  cases hopen : c.token.is "\x7b" with
  | true =>
      rw [Progress.step, Cursor.plan_openBrace hopen]
      exact State.afterClose_placed ..
  | false => exact afterClose_step_of_plan_code (Cursor.plan_code hcode hopen hclose)

theorem afterClose_step_closeBrace (hclose : c.token.is "\x7d" = true) :
    (r.step o c).state.afterClose = r.state.braces.head?.map OpenBrace.closed := by
  cases hbraces : r.state.braces with
  | nil =>
      rw [Progress.step, Cursor.plan_closeBrace hclose, Plan.closeBrace, hbraces]
      exact State.afterClose_placed ..
  | cons b outer =>
      obtain ⟨s, layout, column, -, -, hstep⟩ := state_step_closeBrace (o := o) hclose hbraces
      rw [hstep, State.afterClose_settleClose]
      rfl

end

theorem Unconditional.afterClose_stage_trivia (h : Unconditional tokens)
    (hget : tokens[n]? = some t) (ht : t.isTrivia = true) :
    (stage o tokens (n + 1)).state.afterClose = (stage o tokens n).state.afterClose := by
  by_cases hkind : t.kind = .directive
  · rw [h.stage_directive hget hkind, State.behindDirective, State.amendParen]
    split <;> rfl
  · rw [stage_succ hget]
    exact afterClose_step_comment (c := cursorAt tokens n t) hkind ht

/-- The innermost open block is that of the brace that a closing brace matches. -/
theorem Unconditional.head_braces_iff (h : Unconditional tokens) (hget : tokens[n]? = some t)
    (hclose : t.is "\x7d" = true) {b : OpenBrace} :
    (stage o tokens n).state.braces.head? = some b ↔
      ∃ p, (Matching.closers tokens)[p]?.join = some n ∧ blockAt? o tokens p = some b := by
  constructor
  · intro hb
    have hn : n ≤ tokens.length := Nat.le_of_lt (List.getElem?_eq_some_iff.mp hget).1
    have hopened := congrArg List.head? (h.braces_stage (o := o) n hn)
    rw [List.head?_map, hb, List.head?_map] at hopened
    obtain ⟨p, hp, hblock⟩ := Option.map_eq_some_iff.mp hopened.symm
    exact ⟨p, Matching.closers_of_head_openAt hget hclose hp, hblock⟩
  · rintro ⟨p, hclosers, hblock⟩
    exact (h.head_braces_stage hclosers).1.trans hblock

/-- The layout remembers the block whose closing brace was the last code token. -/
theorem Unconditional.afterClose_stage (h : Unconditional tokens) (closed : ClosedBrace) :
    ∀ n ≤ tokens.length, (stage o tokens n).state.afterClose = some closed ↔
      ∃ p m b, Behind tokens p m n ∧ blockAt? o tokens p = some b ∧ b.closed = closed := by
  intro n
  induction n with
  | zero =>
      intro _
      refine iff_of_false nofun ?_
      rintro ⟨p, m, b, hbehind, -, -⟩
      exact absurd hbehind.lt (Nat.not_lt_zero m)
  | succ n ih =>
      intro hn
      have hget : tokens[n]? = some tokens[n] := List.getElem?_eq_getElem hn
      generalize tokens[n] = t at hget
      cases htrivia : t.isTrivia with
      | true =>
          rw [h.afterClose_stage_trivia hget htrivia, ih (Nat.le_of_succ_le hn)]
          simp only [behind_succ_of_trivia hget htrivia]
      | false =>
          simp only [behind_succ_of_code hget htrivia]
          rw [stage_succ hget]
          cases hclose : t.is "\x7d" with
          | true =>
              rw [afterClose_step_closeBrace (c := cursorAt tokens n t) hclose,
                Option.map_eq_some_iff]
              constructor
              · rintro ⟨b, hb, hclosed⟩
                obtain ⟨p, hclosers, hblock⟩ := (h.head_braces_iff hget hclose).mp hb
                exact ⟨p, n, b, ⟨hclosers, rfl⟩, hblock, hclosed⟩
              · rintro ⟨p, m, b, ⟨hclosers, rfl⟩, hblock, hclosed⟩
                exact ⟨b, (h.head_braces_iff hget hclose).mpr ⟨p, hclosers, hblock⟩, hclosed⟩
          | false =>
              rw [afterClose_step_code (c := cursorAt tokens n t) htrivia hclose]
              refine iff_of_false nofun ?_
              rintro ⟨p, m, b, ⟨hclosers, rfl⟩, -, -⟩
              obtain ⟨u, hu, hclose'⟩ := Matching.is_of_closers hclosers
              rw [hget] at hu
              cases hu
              exact Bool.false_ne_true (hclose.symm.trans hclose')

end

/-! ## Where lines start -/

section
variable {o : Options} {s : State} {c : Cursor} {cs : List Conditional} {page : Page}

theorem Layout.newLine_ite (starts : Bool) (indent : Indent) (blankLines : Nat)
    (spacing : Spacing) :
    (∃ indent' blankLines', (if starts then newLine indent blankLines else sameLine spacing)
      = newLine indent' blankLines') ↔ starts = true := by
  cases starts with
  | true => exact iff_of_true ⟨indent, blankLines, rfl⟩ rfl
  | false => exact iff_of_false nofun nofun

/-- Where lines are kept, an opening brace starts no line that it does not start in the source. -/
theorem Plan.openBrace_stays (hforce : s.forceBreak = false) (hkeeps : s.keepsLine = true)
    (hpage : page.isEmpty = false) (hzero : c.token.lineBreaks = 0) :
    ¬∃ indent blankLines, (openBrace c o s cs page).layout = .newLine indent blankLines := by
  have hplacement : placement o s (opening c o s) = .keep := by
    rw [placement]
    rcases opening_of_keepsLine hkeeps c o with hkept | ⟨-, hexpression⟩
    · simp [hkept]
    · simp [hexpression]
  rw [openBrace]
  simp only [Layout.newLine_ite]
  simp [opensLine, hplacement, hpage, hforce, hzero]

theorem Plan.closeBrace_stays
    (hkeeps : s.keepsLine = true ∨ ∃ b, s.braces.head? = some b ∧ b.isEmpty = true)
    (hpage : page.isEmpty = false) (hzero : c.token.lineBreaks = 0) :
    ¬∃ indent blankLines, (closeBrace c o s cs page).layout = .newLine indent blankLines := by
  rw [closeBrace]
  cases hbraces : s.braces with
  | nil =>
      simp only [strayBrace, Layout.newLine_ite]
      simp [hpage, hzero]
  | cons b outer =>
      have hcase : (b.keepOneLine || b.isEmpty || outer.any (·.keepOneLine)
          || b.kind == .initializer) = true := by
        rcases hkeeps with hkeeps | ⟨b', hb', hempty⟩
        · rw [State.keepsLine, State.inKeptLine, State.innermostIs, hbraces,
            List.any_cons] at hkeeps
          revert hkeeps
          dsimp only
          cases b.keepOneLine <;> cases b.isEmpty <;> simp
        · rw [hbraces] at hb'
          cases hb'
          simp [hempty]
      simp only [Layout.newLine_ite, closesLine, State.inKeptLine, hcase]
      simp [hpage, hzero]

theorem Plan.comment_stays (hpage : page.isEmpty = false) (hzero : c.token.lineBreaks = 0) :
    ¬∃ indent blankLines, (comment c o s cs page).layout = .newLine indent blankLines := by
  simp only [comment, Layout.newLine_ite]
  simp [hpage, hzero]

theorem Plan.code_newLine_iff (hforce : s.forceBreak = false) (hpage : page.isEmpty = false)
    (hzero : c.token.lineBreaks = 0) :
    (∃ indent blankLines, (code c o s cs page).layout = .newLine indent blankLines) ↔
      ∃ closed, s.afterClose = some closed ∧ breaksAfterClose o page closed c.token = true := by
  simp only [code, Layout.newLine_ite, hpage, Bool.false_or]
  cases s.afterClose with
  | none => simp [hforce, hzero]
  | some closed => simp

end

/-! ## Kept blocks -/

/-- The token at a position is code other than a brace and stands behind the closing brace of a
block that lies inside the one that is opened at `i`, and such a token starts a line there. -/
def BreaksBehindNested (o : Options) (tokens : List Token) (i n : Nat) : Prop :=
  ∃ t p m b, tokens[n]? = some t ∧ t.isTrivia = false ∧ t.is "\x7b" = false ∧ t.is "\x7d" = false ∧
    i < p ∧ Behind tokens p m n ∧ blockAt? o tokens p = some b ∧
    Plan.breaksAfterClose o (stage o tokens n).page b.closed t = true

section
variable {o : Options} {tokens : List Token} {n i j : Nat} {t : Token}

/-- A closing brace that is the last code token inside a block closes another block inside it. -/
theorem OneLine.lt_of_behind (h : OneLine tokens i j) (hin : i < n) (hnj : n ≤ j) {p m : Nat}
    (hbehind : Behind tokens p m n) : i < p := by
  obtain ⟨t, hget, hopen⟩ := Matching.is_of_mem_openAt
    (List.mem_of_head? (Matching.head_openAt_of_closers h.closers))
  have him : i < m := by
    rcases Nat.lt_trichotomy i m with him | rfl | hmi
    · exact him
    · obtain ⟨u, hu, hclose⟩ := Matching.is_of_closers hbehind.closers
      rw [hget] at hu
      cases hu
      simp_all [Token.is]
    · have htrivia := hbehind.trivia i t hmi hin hget
      rw [BraceInsertion.not_isTrivia_of_is hopen] at htrivia
      cases htrivia
  have hmj : m < j := Nat.lt_of_lt_of_le hbehind.lt hnj
  obtain ⟨k, outer, hk, hik, -⟩ := Matching.exists_innermost
    (Matching.mem_openAt_of_closers h.closers him (Nat.le_of_lt hmj))
  have hhead := Matching.head_openAt_of_closers hbehind.closers
  rw [hk] at hhead
  cases hhead
  apply Nat.lt_of_le_of_ne hik
  rintro rfl
  have hsame := h.closers
  rw [hbehind.closers] at hsame
  cases hsame
  exact absurd hmj (Nat.lt_irrefl _)

theorem BreaksBehindNested.code (h : BreaksBehindNested o tokens i n)
    (hget : tokens[n]? = some t) :
    t.isTrivia = false ∧ t.is "\x7b" = false ∧ t.is "\x7d" = false := by
  obtain ⟨t', p, m, b, hget', hcode, hopen, hclose, -⟩ := h
  rw [hget] at hget'
  cases hget'
  exact ⟨hcode, hopen, hclose⟩

/-- Behind a code token other than a brace, the block that is remembered lies inside. -/
theorem OneLine.breaksBehindNested_iff (h : OneLine tokens i j) (hfree : Unconditional tokens)
    (hin : i < n) (hnj : n ≤ j) (hget : tokens[n]? = some t) (hcode : t.isTrivia = false)
    (hopen : t.is "\x7b" = false) (hclose : t.is "\x7d" = false) :
    BreaksBehindNested o tokens i n ↔ ∃ closed, (stage o tokens n).state.afterClose = some closed ∧
      Plan.breaksAfterClose o (stage o tokens n).page closed t = true := by
  have hn : n ≤ tokens.length := Nat.le_of_lt (List.getElem?_eq_some_iff.mp hget).1
  constructor
  · rintro ⟨t', p, m, b, hget', -, -, -, -, hbehind, hblock, hbreaks⟩
    rw [hget] at hget'
    cases hget'
    exact ⟨b.closed, (hfree.afterClose_stage _ n hn).mpr ⟨p, m, b, hbehind, hblock, rfl⟩, hbreaks⟩
  · rintro ⟨closed, hclosed, hbreaks⟩
    obtain ⟨p, m, b, hbehind, hblock, rfl⟩ := (hfree.afterClose_stage closed n hn).mp hclosed
    exact ⟨t, p, m, b, hget, hcode, hopen, hclose, h.lt_of_behind hin hnj hbehind, hbehind, hblock,
      hbreaks⟩

/-- Inside a block that is kept no comment and no brace starts a line, and code does so only behind
a nested block. -/
theorem OneLine.newLine_iff_of_keptAt (h : OneLine tokens i j) (hfree : Unconditional tokens)
    (hlines : DirectivesStartLines tokens) (hkept : KeptAt o tokens i) (hin : i < n) (hnj : n ≤ j)
    (hget : tokens[n]? = some t) (hpage : (stage o tokens n).page.isEmpty = false) :
    (∃ indent blankLines, (planAt o tokens n t).layout = .newLine indent blankLines) ↔
      BreaksBehindNested o tokens i n := by
  have hzero : (cursorAt tokens n t).token.lineBreaks = 0 := h.lineBreaks n t hin hnj hget
  have hforce := h.forceBreak_inside hfree hlines hkept n hin hnj
  have hkeeps := hfree.keepsLine_inside h.closers hkept hin hnj
  rw [planAt]
  rcases (cursorAt tokens n t).plan_cases o (stage o tokens n).state
    (stage o tokens n).conditionals (stage o tokens n).page
    (h.kind_ne_directive hlines hin hnj hget) with
    ⟨htrivia, hplan⟩ | ⟨hcode, ⟨hopen, hplan⟩ | ⟨-, hclose, hplan⟩ | ⟨hopen, hclose, hplan⟩⟩
  · rw [hplan]
    refine iff_of_false (Plan.comment_stays hpage hzero) fun hbreaks => ?_
    exact Bool.false_ne_true ((hbreaks.code hget).1.symm.trans htrivia)
  · rw [hplan]
    refine iff_of_false (Plan.openBrace_stays hforce hkeeps hpage hzero) fun hbreaks => ?_
    exact Bool.false_ne_true ((hbreaks.code hget).2.1.symm.trans hopen)
  · rw [hplan]
    refine iff_of_false (Plan.closeBrace_stays (.inl hkeeps) hpage hzero) fun hbreaks => ?_
    exact Bool.false_ne_true ((hbreaks.code hget).2.2.symm.trans hclose)
  · rw [hplan, Plan.code_newLine_iff hforce hpage hzero,
      h.breaksBehindNested_iff hfree hin hnj hget hcode hopen hclose]
    rfl

/-- The closing brace of an empty block stays behind the opening one. -/
theorem OneLine.stays_of_isEmpty (h : OneLine tokens i (i + 1)) (hfree : Unconditional tokens)
    {b : OpenBrace} (hb : blockAt? o tokens i = some b) (hempty : b.isEmpty = true)
    (hget : tokens[i + 1]? = some t) (hclose : t.is "\x7d" = true)
    (hpage : (stage o tokens (i + 1)).page.isEmpty = false) :
    ¬∃ indent blankLines, (planAt o tokens (i + 1) t).layout = .newLine indent blankLines := by
  have hzero : (cursorAt tokens (i + 1) t).token.lineBreaks = 0 :=
    h.lineBreaks (i + 1) t (Nat.lt_succ_self i) (Nat.le_refl _) hget
  have hhead := (hfree.head_braces_stage (o := o) h.closers).1.trans hb
  rw [planAt, Cursor.plan_closeBrace (c := cursorAt tokens (i + 1) t) hclose]
  exact Plan.closeBrace_stays (.inr ⟨b, hhead, hempty⟩) hpage hzero

/-- Inside a block on one line a token starts a line exactly if it breaks behind a nested block. -/
theorem OneLine.startedLine?_iff (h : OneLine tokens i j) (hfree : Unconditional tokens)
    (hlines : DirectivesStartLines tokens) (hkeep : o.keepOneLineBlocks = true)
    (hin : i < n) (hnj : n ≤ j) :
    (startedLine? o tokens n).isSome = true ↔ BreaksBehindNested o tokens i n := by
  obtain ⟨u, hu, hmatch⟩ := Matching.is_of_closers h.closers
  have hn : n < tokens.length := Nat.lt_of_le_of_lt hnj (List.getElem?_eq_some_iff.mp hu).1
  have hget : tokens[n]? = some tokens[n] := List.getElem?_eq_getElem hn
  generalize tokens[n] = t at hget
  have hpage : (stage o tokens n).page.isEmpty = false := by
    obtain ⟨m, rfl⟩ := Nat.exists_eq_succ_of_ne_zero (Nat.ne_zero_of_lt hin)
    exact isEmpty_stage o tokens (Nat.lt_of_succ_lt hn)
  obtain ⟨b, hb, hcase⟩ := h.exists_blockAt? hkeep
  have hkept : KeptAt o tokens i ∨ b.isEmpty = true ∧ j = i + 1 := by
    rcases hcase with hkeep | hinitializer | hempty
    · exact .inl ⟨b, hb, .inl hkeep⟩
    · exact .inl ⟨b, hb, .inr hinitializer⟩
    · exact .inr hempty
  rw [isSome_startedLine? hget]
  rcases hkept with hkept | ⟨hempty, rfl⟩
  · exact h.newLine_iff_of_keptAt hfree hlines hkept hin hnj hget hpage
  · obtain rfl : n = i + 1 := Nat.le_antisymm hnj hin
    rw [hget] at hu
    cases hu
    refine iff_of_false (h.stays_of_isEmpty hfree hb hempty hget hmatch hpage) fun hbreaks => ?_
    exact Bool.false_ne_true ((hbreaks.code hget).2.2.symm.trans hmatch)

end

/-- One-line blocks that are kept.  Inside a block without line breaks in the source, nested blocks
included, a token starts a line of the output exactly if it is code behind the closing brace of a
nested block and such a token starts a line there. -/
theorem startedLine?_kept_iff (o : Options) (source : String) (hkeep : o.keepOneLineBlocks = true)
    (hbraces : o.addBraces = false) :
    let tokens := tokensToLayOut o (tokenize o.language o.indentWidth source)
    Unconditional tokens → ∀ i j, OneLine tokens i j → ∀ n, i < n → n ≤ j →
      ((startedLine? o tokens n).isSome = true ↔ BreaksBehindNested o tokens i n) := by
  intro tokens hfree i j h n hin hnj
  have htokens : tokens = (tokenize o.language o.indentWidth source).tokens :=
    if_neg (hbraces ▸ Bool.false_ne_true)
  have hlines : DirectivesStartLines tokens := by
    rw [htokens]
    exact fun n t => lineBreaks_directive_tokenize
  exact h.startedLine?_iff hfree hlines hkeep hin hnj

theorem tokenize_nested : tokenize .c 4 "\x7b if (a) \x7b b; \x7d c; \x7d\n"
    = ⟨[⟨.punctuation, "\x7b", 0, "", 0, false⟩, ⟨.word, "if", 0, " ", 2, false⟩,
        ⟨.punctuation, "(", 0, " ", 5, false⟩, ⟨.word, "a", 0, "", 6, false⟩,
        ⟨.punctuation, ")", 0, "", 7, false⟩, ⟨.punctuation, "\x7b", 0, " ", 9, false⟩,
        ⟨.word, "b", 0, " ", 11, false⟩, ⟨.punctuation, ";", 0, "", 12, false⟩,
        ⟨.punctuation, "\x7d", 0, " ", 14, false⟩, ⟨.word, "c", 0, " ", 16, false⟩,
        ⟨.punctuation, ";", 0, "", 17, false⟩, ⟨.punctuation, "\x7d", 0, " ", 19, false⟩],
      1, some .linux⟩ := by
  decide +kernel

theorem oneLine_nested :
    let tokens := (tokenize .c 4 "\x7b if (a) \x7b b; \x7d c; \x7d\n").tokens
    Unconditional tokens ∧ OneLine tokens 0 11 := by
  have hall : ∀ t ∈ (tokenize .c 4 "\x7b if (a) \x7b b; \x7d c; \x7d\n").tokens,
      t.lineBreaks = 0 := by
    rw [tokenize_nested]
    decide
  refine ⟨?_, ?_, fun n t _ _ hget => hall t (List.mem_of_getElem? hget)⟩
  · rw [tokenize_nested, Unconditional]
    decide
  · rw [tokenize_nested]
    decide

theorem startedLine?_kept_iff_nested :
    let o := Options.default.turnOn .keepOneLineBlocks
    let source := "\x7b if (a) \x7b b; \x7d c; \x7d\n"
    let tokens := tokensToLayOut o (tokenize o.language o.indentWidth source)
    o.keepOneLineBlocks = true ∧ o.addBraces = false ∧ Unconditional tokens ∧
      OneLine tokens 0 11 ∧ ∀ n, 0 < n → n ≤ 11 →
        ((startedLine? o tokens n).isSome = true ↔ BreaksBehindNested o tokens 0 n) := by
  intro o source tokens
  have hkeep : o.keepOneLineBlocks = true := rfl
  have hbraces : o.addBraces = false := rfl
  exact ⟨hkeep, hbraces, oneLine_nested.1, oneLine_nested.2,
    startedLine?_kept_iff o source hkeep hbraces oneLine_nested.1 0 11 oneLine_nested.2⟩

/-- The statement behind a nested block starts a line, though the whole block is to be kept on
one. -/
theorem startedLine?_kept_ne_none :
    let o := Options.default.turnOn .keepOneLineBlocks
    let source := "\x7b if (a) \x7b b; \x7d c; \x7d\n"
    let tokens := tokensToLayOut o (tokenize o.language o.indentWidth source)
    parseOptions "keep-one-line-blocks" = .ok o ∧ Unconditional tokens ∧ OneLine tokens 0 11 ∧
      startedLine? o tokens 9 = some 1 ∧
      format o source = "\x7b if (a) \x7b b; \x7d\n    c; \x7d\n" := by
  intro o source tokens
  have ho : parseOptions "keep-one-line-blocks" = .ok o := by decide +kernel
  have hstarts : startedLine? o (tokenize .c 4 source).tokens 9 = some 1 := by
    rw [show tokenize .c 4 source = _ from tokenize_nested]
    decide +kernel
  have hformat : format o source = "\x7b if (a) \x7b b; \x7d\n    c; \x7d\n" := by
    show (layOut o (tokenize .c 4 source).tokens).render .spaces 4
      ((tokenize .c 4 source).lineEnd.getD .linux) (tokenize .c 4 source).trailingBreaks = _
    rw [show tokenize .c 4 source = _ from tokenize_nested]
    decide +kernel
  exact ⟨ho, oneLine_nested.1, oneLine_nested.2, hstarts, hformat⟩

end Beautifier
