/-
Lines in brackets.

An open bracket waits for the first code that is written behind it on its line,
and remembers the column of that code; a line that is started before it is gone
settles the bracket without a column.  Only the innermost bracket ever waits: one
that is opened behind another is code behind it, and so is a brace, which puts the
brackets of its statement aside.  So in front of each token all open brackets are
settled but perhaps the innermost one (`Brackets`), and one step keeps that
(`BracketState.step`).  Which bracket is the innermost one is a matter of the
tokens (`innermostBracket?`); the column that a line in it is aligned to is the
one at which the first code behind it is written (`aligned_in_brackets`).
-/
import Beautifier.Proofs.Layout.BracketStack
import Beautifier.Proofs.Layout.Spots
import Beautifier.Proofs.Options.Bounds

namespace Beautifier

/-- The token at a position is the first code behind another one, and no token between them, nor it
itself, starts a line. -/
structure FirstCodeBehind (o : Options) (tokens : List Token) (m k : Nat) : Prop where
  lt : m < k
  code : ∃ t, tokens[k]? = some t ∧ t.isTrivia = false
  between : ∀ j, m < j → j < k → ∃ t, tokens[j]? = some t ∧ t.isTrivia = true
  joined : ∀ j, m < j → j ≤ k → startedLine? o tokens j = none

/-- An open bracket as it was written: its token, and the indentation of its line. -/
structure OpenParen.Opened (o : Options) (tokens : List Token) (n : Nat) (p : OpenParen) :
    Prop where
  lt : p.start < n
  bracket : ∃ q, tokens[p.start]? = some q ∧ q.isOneOf ["(", "["] = true ∧
    p.lineIndent = (spotAt o tokens p.start q).indent

/-- A bracket that waits in front of a position: nothing but comments has been written behind it,
and no line has been started. -/
structure OpenParen.Waits (o : Options) (tokens : List Token) (n : Nat) (p : OpenParen) : Prop where
  awaitsAlign : p.awaitsAlign = true
  align : p.align = none
  between : ∀ j, p.start < j → j < n → ∃ t, tokens[j]? = some t ∧ t.isTrivia = true
  joined : ∀ j, p.start < j → j < n → startedLine? o tokens j = none

/-- A bracket that waits no longer remembers the column of the first code behind it, if there is
any on its line. -/
structure OpenParen.Settled (o : Options) (tokens : List Token) (p : OpenParen) : Prop where
  awaitsAlign : p.awaitsAlign = false
  aligned : ∀ k t, FirstCodeBehind o tokens p.start k → tokens[k]? = some t →
    p.align = some ((spotAt o tokens k t).column o)
  unaligned : (∀ k, ¬FirstCodeBehind o tokens p.start k) → p.align = none

/-- The open brackets in front of a position, the innermost first: only the innermost may wait. -/
structure Brackets (o : Options) (tokens : List Token) (n : Nat) (parens : List OpenParen) :
    Prop where
  opened : ∀ p ∈ parens, p.Opened o tokens n
  innermost : ∀ p ∈ parens.head?, p.Waits o tokens n ∨ p.Settled o tokens
  others : ∀ p ∈ parens.tail, p.Settled o tokens

/-- Open brackets none of which waits. -/
def AllSettled (o : Options) (tokens : List Token) (n : Nat) (parens : List OpenParen) : Prop :=
  ∀ p ∈ parens, p.Opened o tokens n ∧ p.Settled o tokens

/-- The open brackets of a state: those of the statements around the open blocks do not wait. -/
structure BracketState (o : Options) (tokens : List Token) (n : Nat) (s : State) : Prop where
  stmt : Brackets o tokens n s.stmt.parens
  outer : ∀ b ∈ s.braces, AllSettled o tokens n b.outer.parens

section
variable {o : Options} {tokens : List Token} {m n k : Nat} {t : Token} {p : OpenParen}
  {parens parens' : List OpenParen}

theorem FirstCodeBehind.unique (hk : FirstCodeBehind o tokens m k) {k' : Nat}
    (hk' : FirstCodeBehind o tokens m k') : k = k' := by
  have hle : ∀ {k k' : Nat}, FirstCodeBehind o tokens m k → FirstCodeBehind o tokens m k' →
      k' ≤ k := by
    intro k k' hk hk'
    refine Nat.le_of_not_lt fun hlt => ?_
    obtain ⟨t, ht, hcode⟩ := hk.code
    obtain ⟨t', ht', htrivia⟩ := hk'.between k hk.lt hlt
    rw [ht] at ht'
    cases ht'
    rw [hcode] at htrivia
    cases htrivia
  exact Nat.le_antisymm (hle hk' hk) (hle hk hk')

/-! ## One bracket -/

namespace OpenParen

theorem Opened.succ (h : p.Opened o tokens n) : p.Opened o tokens (n + 1) :=
  ⟨Nat.lt_succ_of_lt h.lt, h.bracket⟩

theorem Waits.not_firstCodeBehind (h : p.Waits o tokens n) (hlt : p.start < n)
    (hstarts : startedLine? o tokens n ≠ none) : ¬FirstCodeBehind o tokens p.start k := by
  intro hk
  rcases Nat.lt_or_ge k n with hkn | hnk
  · obtain ⟨t, ht, hcode⟩ := hk.code
    obtain ⟨t', ht', htrivia⟩ := h.between k hk.lt hkn
    rw [ht] at ht'
    cases ht'
    rw [hcode] at htrivia
    cases htrivia
  · exact hstarts (hk.joined n hlt hnk)

theorem Waits.settled_newLine (h : p.Waits o tokens n) (hlt : p.start < n)
    (hstarts : startedLine? o tokens n ≠ none) :
    { p with awaitsAlign := false }.Settled o tokens :=
  ⟨rfl, fun _ _ hk _ => absurd hk (h.not_firstCodeBehind hlt hstarts), fun _ => h.align⟩

theorem Waits.settled_sameLine (h : p.Waits o tokens n) (hlt : p.start < n)
    (hget : tokens[n]? = some t) (hcode : t.isTrivia = false)
    (hstarts : startedLine? o tokens n = none) :
    { p with
      awaitsAlign := false
      align := some ((spotAt o tokens n t).column o) }.Settled o tokens := by
  have hfirst : FirstCodeBehind o tokens p.start n := by
    refine ⟨hlt, ⟨t, hget, hcode⟩, h.between, fun j hj hjn => ?_⟩
    rcases Nat.lt_or_eq_of_le hjn with hlt | rfl
    · exact h.joined j hj hlt
    · exact hstarts
  refine ⟨rfl, fun k u hk hu => ?_, fun hnone => absurd hfirst (hnone n)⟩
  have heq : n = k := hfirst.unique hk
  rw [← heq, hget] at hu
  cases hu
  rw [← heq]

theorem Waits.succ (h : p.Waits o tokens n) (hget : tokens[n]? = some t)
    (htrivia : t.isTrivia = true) (hstarts : startedLine? o tokens n = none) :
    p.Waits o tokens (n + 1) := by
  refine ⟨h.awaitsAlign, h.align, fun j hj hjn => ?_, fun j hj hjn => ?_⟩
  · rcases Nat.lt_succ_iff_lt_or_eq.mp hjn with hlt | rfl
    · exact h.between j hj hlt
    · exact ⟨t, hget, htrivia⟩
  · rcases Nat.lt_succ_iff_lt_or_eq.mp hjn with hlt | rfl
    · exact h.joined j hj hlt
    · exact hstarts

theorem Settled.not_waits (h : p.Settled o tokens) : { p with awaitsAlign := false } = p := by
  rw [← h.awaitsAlign]

end OpenParen

/-! ## Many brackets -/

theorem AllSettled.succ (h : AllSettled o tokens n parens) : AllSettled o tokens (n + 1) parens :=
  fun p hp => ⟨(h p hp).1.succ, (h p hp).2⟩

theorem AllSettled.mono (h : AllSettled o tokens n parens) (hsub : parens' ⊆ parens) :
    AllSettled o tokens n parens' :=
  fun p hp => h p (hsub hp)

theorem AllSettled.brackets (h : AllSettled o tokens n parens) : Brackets o tokens n parens :=
  ⟨fun p hp => (h p hp).1, fun p hp => .inr (h p (List.mem_of_head? hp)).2,
    fun p hp => (h p (List.mem_of_mem_tail hp)).2⟩

theorem Brackets.nil : Brackets o tokens n [] :=
  ⟨fun _ hp => absurd hp List.not_mem_nil, fun _ hp => absurd hp (Option.not_mem_none _),
    fun _ hp => absurd hp List.not_mem_nil⟩

theorem Brackets.allSettled_modifyHead (h : Brackets o tokens n parens) {f : OpenParen → OpenParen}
    (hf : ∀ p, (f p).start = p.start ∧ (f p).lineIndent = p.lineIndent)
    (hhead : ∀ p ∈ parens.head?, (f p).Settled o tokens) :
    AllSettled o tokens (n + 1) (parens.modifyHead f) := by
  cases parens with
  | nil => exact fun p hp => absurd hp List.not_mem_nil
  | cons p outer =>
      have hopened := (h.opened p List.mem_cons_self).succ
      refine List.forall_mem_cons.mpr ⟨⟨?_, hhead p rfl⟩, fun q hq => ?_⟩
      · obtain ⟨hstart, hindent⟩ := hf p
        exact ⟨hstart ▸ hopened.lt, by rw [hstart, hindent]; exact hopened.bracket⟩
      · exact ⟨(h.opened q (List.mem_cons_of_mem p hq)).succ, h.others q hq⟩

/-- A token that starts a line settles all brackets. -/
theorem Brackets.newLine (h : Brackets o tokens n parens)
    (hstarts : startedLine? o tokens n ≠ none) :
    AllSettled o tokens (n + 1) (parens.modifyHead fun p => { p with awaitsAlign := false }) := by
  refine h.allSettled_modifyHead (fun p => ⟨rfl, rfl⟩) fun p hp => ?_
  rcases h.innermost p hp with hwaits | hsettled
  · exact hwaits.settled_newLine (h.opened p (List.mem_of_head? hp)).lt hstarts
  · exact hsettled.not_waits.symm ▸ hsettled

theorem Brackets.sameLine (h : Brackets o tokens n parens) (hget : tokens[n]? = some t)
    (hcode : t.isTrivia = false) (hstarts : startedLine? o tokens n = none) {column : Nat}
    (hcolumn : ∀ p ∈ parens.head?, p.awaitsAlign = true → column = (spotAt o tokens n t).column o) :
    AllSettled o tokens (n + 1) (parens.modifyHead fun p =>
      if p.awaitsAlign then { p with awaitsAlign := false, align := some column } else p) := by
  refine h.allSettled_modifyHead (fun p => ?_) fun p hp => ?_
  · split <;> exact ⟨rfl, rfl⟩
  · rcases h.innermost p hp with hwaits | hsettled
    · rw [if_pos hwaits.awaitsAlign, hcolumn p hp hwaits.awaitsAlign]
      exact hwaits.settled_sameLine (h.opened p (List.mem_of_head? hp)).lt hget hcode hstarts
    · rw [if_neg (by rw [hsettled.awaitsAlign]; exact Bool.false_ne_true)]
      exact hsettled

theorem Brackets.comment (h : Brackets o tokens n parens) (hget : tokens[n]? = some t)
    (htrivia : t.isTrivia = true) (hstarts : startedLine? o tokens n = none) :
    Brackets o tokens (n + 1) parens :=
  ⟨fun p hp => (h.opened p hp).succ,
    fun p hp => (h.innermost p hp).imp_left (·.succ hget htrivia hstarts), h.others⟩

theorem AllSettled.open (h : AllSettled o tokens (n + 1) parens) (hget : tokens[n]? = some t)
    (hbracket : t.isOneOf ["(", "["] = true) (hstart : p.start = n) (halign : p.align = none)
    (hawaits : p.awaitsAlign = true) (hindent : p.lineIndent = (spotAt o tokens n t).indent) :
    Brackets o tokens (n + 1) (p :: parens) := by
  have hopened : p.Opened o tokens (n + 1) := by
    subst hstart
    exact ⟨Nat.lt_succ_self _, t, hget, hbracket, hindent⟩
  refine ⟨List.forall_mem_cons.mpr ⟨hopened, fun q hq => (h q hq).1⟩, ?_, fun q hq => (h q hq).2⟩
  rintro _ ⟨rfl⟩
  exact .inl ⟨hawaits, halign, fun j hj hjn => absurd hj (by omega),
    fun j hj hjn => absurd hj (by omega)⟩

end

/-! ## What a token does to the brackets -/

namespace State

theorem parens_colon (s : State) (c : Cursor) : (s.colon c).stmt.parens = s.stmt.parens := by
  rw [colon]
  split_ifs <;> rfl

theorem parens_afterCode (s : State) (c : Cursor) (o : Options) (lineIndent : Indent) :
    (s.afterCode c o lineIndent).stmt.parens ⊆ s.stmt.parens ∨
      c.token.isOneOf ["(", "["] = true ∧ ∃ p : OpenParen, p.start = c.position ∧
        p.lineIndent = lineIndent ∧ p.align = none ∧ p.awaitsAlign = true ∧
        (s.afterCode c o lineIndent).stmt.parens = p :: s.stmt.parens := by
  have hsame : ∀ {parens : List OpenParen}, parens = s.stmt.parens → parens ⊆ s.stmt.parens :=
    fun h => h ▸ List.Subset.refl _
  rw [afterCode]
  cases hkind : c.token.kind with
  | word => exact .inl (hsame (s.parens_headerKeyword c))
  | punctuation =>
      have hopens : ∀ text ∈ ["(", "["], c.token.text = text →
          c.token.isOneOf ["(", "["] = true := by
        intro text hmem htext
        rw [Token.isOneOf, hkind, htext]
        exact List.contains_iff_mem.mpr hmem
      have hcloses : s.closeParen.stmt.parens ⊆ s.stmt.parens := by
        rw [s.closeParen_cases.1]
        exact List.tail_subset _
      dsimp only
      split
      · next htext => exact .inr ⟨hopens _ (by decide) htext, _, rfl, rfl, rfl, rfl, rfl⟩
      · next htext => exact .inr ⟨hopens _ (by decide) htext, _, rfl, rfl, rfl, rfl, rfl⟩
      · exact .inl hcloses
      · exact .inl hcloses
      · split
        · exact .inl (hsame (s.parens_endStatement c o))
        · exact .inl (List.Subset.refl _)
      · exact .inl (List.Subset.refl _)
      · exact .inl (hsame (s.parens_colon c))
      · exact .inl (List.Subset.refl _)
  | _ => exact .inl (List.Subset.refl _)

end State

theorem currentIndent_write {o : Options} {tokens : List Token} {n : Nat} {t : Token}
    (hone : t.lines.2 = []) :
    (((stage o tokens n).page.ready o t (planAt o tokens n t).layout).write o t).currentIndent
      = (spotAt o tokens n t).indent := by
  have hcurrent : ∀ p : Page, p.currentIndent = p.newest.indent := by
    intro p
    rw [Page.currentIndent, Page.newest]
    cases p.lines <;> rfl
  have hmark : ∀ l : Line, (l.mark t.kind).indent = l.indent := by
    intro l
    cases t.kind <;> rfl
  rw [hcurrent, Page.newest_write, hmark, hone]
  exact (Page.text_newest_begin _ t).2

namespace BracketState

variable {o : Options} {tokens : List Token} {n : Nat} {t : Token} {s : State}

theorem start : BracketState o tokens 0 .start :=
  ⟨.nil, fun _ hb => absurd hb List.not_mem_nil⟩

theorem placed_code (h : Brackets o tokens n s.stmt.parens) (hget : tokens[n]? = some t)
    (hcode : t.isTrivia = false) {layout : Layout} (hlayout : (planAt o tokens n t).layout = layout)
    {column : Nat} (hcolumn : s.awaitsAlign = true → column = (spotAt o tokens n t).column o) :
    AllSettled o tokens (n + 1)
      (s.placed (cursorAt tokens n t) layout column).stmt.parens := by
  cases layout with
  | newLine indent blankLines =>
      have hsome := (isSome_startedLine? (o := o) hget).mpr ⟨indent, blankLines, hlayout⟩
      rw [State.parens_placed_newLine]
      exact h.newLine (Option.ne_none_iff_isSome.mpr hsome)
  | sameLine spacing =>
      have hnone : startedLine? o tokens n = none := by
        rw [startedLine?, hget, Option.bind_some, hlayout]
      rw [State.parens_placed_code (c := cursorAt tokens n t) hcode]
      refine h.sameLine hget hcode hnone fun p hp hawaits => hcolumn ?_
      obtain ⟨outer, houter⟩ := List.head?_eq_some_iff.mp hp
      rw [State.awaitsAlign, houter]
      exact hawaits

theorem placed_comment (h : Brackets o tokens n s.stmt.parens) (hget : tokens[n]? = some t)
    (htrivia : t.isTrivia = true) {layout : Layout}
    (hlayout : (planAt o tokens n t).layout = layout) (column : Nat) :
    Brackets o tokens (n + 1) (s.placed (cursorAt tokens n t) layout column).stmt.parens := by
  cases layout with
  | newLine indent blankLines =>
      have hsome := (isSome_startedLine? (o := o) hget).mpr ⟨indent, blankLines, hlayout⟩
      rw [State.parens_placed_newLine]
      exact (h.newLine (Option.ne_none_iff_isSome.mpr hsome)).brackets
  | sameLine spacing =>
      have hnone : startedLine? o tokens n = none := by
        rw [startedLine?, hget, Option.bind_some, hlayout]
      rw [State.parens_placed_comment (c := cursorAt tokens n t) htrivia]
      exact h.comment hget htrivia hnone

theorem settleCode (h : AllSettled o tokens (n + 1) s.stmt.parens)
    (hbraces : ∀ b ∈ s.braces, AllSettled o tokens (n + 1) b.outer.parens)
    (hget : tokens[n]? = some t) (layout : Layout) {lineIndent : Indent}
    (hindent : t.isOneOf ["(", "["] = true → lineIndent = (spotAt o tokens n t).indent)
    (starts : Bool) (role : Role) : BracketState o tokens (n + 1)
      (s.settleCode (cursorAt tokens n t) o layout lineIndent starts role) := by
  refine ⟨?_, by rw [(State.settleCode_keeps ..).1]; exact hbraces⟩
  have hbegun : ((if starts then s.beginStatement (cursorAt tokens n t) layout lineIndent
      else s).owesSpacing (cursorAt tokens n t) o role).stmt.parens ⊆ s.stmt.parens := by
    cases starts with
    | false => exact List.Subset.refl _
    | true => exact List.nil_subset _
  have hsettled := h.mono hbegun
  rw [State.settleCode]
  rcases State.parens_afterCode _ (cursorAt tokens n t) o lineIndent with
    hsub | ⟨hbracket, p, hstart, hline, halign, hawaits, hparens⟩
  · exact (hsettled.mono hsub).brackets
  · rw [hparens]
    exact hsettled.open hget hbracket hstart halign hawaits (hline.trans (hindent hbracket))

theorem settleOpen (h : AllSettled o tokens n s.stmt.parens)
    (hbraces : ∀ b ∈ s.braces, AllSettled o tokens n b.outer.parens) (b : Opening)
    (lineIndent : Indent) : BracketState o tokens n (s.settleOpen o b lineIndent) :=
  ⟨.nil, List.forall_mem_cons.mpr ⟨h, hbraces⟩⟩

theorem settleClose (hbraces : ∀ b ∈ s.braces, AllSettled o tokens n b.outer.parens)
    {b : OpenBrace} (hb : AllSettled o tokens n b.outer.parens) (c : Cursor) :
    BracketState o tokens n (s.settleClose c o b) := by
  simp only [State.settleClose, State.finishBlock]
  split
  · exact ⟨hb.brackets, hbraces⟩
  · refine ⟨?_, hbraces⟩
    have hnil : ∀ beforeElse closingHeader,
        (State.Statement.endBlock b.outer beforeElse closingHeader).parens = [] := by
      intro beforeElse closingHeader
      simp only [State.Statement.endBlock]
      split
      · split <;> rfl
      · split <;> rfl
    rw [hnil]
    exact .nil

theorem settle (h : AllSettled o tokens (n + 1) s.stmt.parens)
    (hbraces : ∀ b ∈ s.braces, AllSettled o tokens (n + 1) b.outer.parens)
    (hget : tokens[n]? = some t) {p : Plan}
    (hclosed : ∀ b, p.action = .closeBrace (some b) → AllSettled o tokens (n + 1) b.outer.parens)
    {lineIndent : Indent}
    (hindent : t.isOneOf ["(", "["] = true → lineIndent = (spotAt o tokens n t).indent) :
    BracketState o tokens (n + 1) (s.settle (cursorAt tokens n t) o p lineIndent) := by
  rw [State.settle]
  cases haction : p.action with
  | directive => exact ⟨h.brackets, hbraces⟩
  | comment => exact ⟨h.brackets, hbraces⟩
  | code starts role => exact settleCode h hbraces hget p.layout hindent starts role
  | openBrace b => exact settleOpen h hbraces b lineIndent
  | closeBrace closed =>
      cases closed with
      | none => exact ⟨h.brackets, hbraces⟩
      | some b => exact settleClose hbraces (hclosed b haction) _

end BracketState

theorem Plan.parens_startBody (stmt : Statement) (starts semicolon : Bool) :
    (Plan.startBody stmt starts semicolon).parens = stmt.parens := by
  rw [startBody]
  split <;> rfl

/-- A plan leaves the open brackets as they are, and the open blocks but for the one that is
closed. -/
theorem Cursor.plan_brackets (c : Cursor) (o : Options) (s : State) (cs : List Conditional)
    (page : Page) (hkind : c.token.kind ≠ .directive) :
    (c.plan o s cs page).state.stmt.parens = s.stmt.parens ∧
      (c.plan o s cs page).state.braces ⊆ s.braces ∧
      (∀ b, (c.plan o s cs page).action = .closeBrace (some b) → b ∈ s.braces) ∧
      (c.token.isTrivia = true → (c.plan o s cs page).action = .comment) := by
  rcases c.plan_cases o s cs page hkind with ⟨-, hplan⟩ | ⟨hcode, hplan⟩
  · rw [hplan]
    refine ⟨rfl, List.Subset.refl _, fun b hb => ?_, fun _ => rfl⟩
    rw [Plan.comment] at hb
    cases hb
  have hnot : ∀ {a : Action}, c.token.isTrivia = true → a = .comment := fun htrivia =>
    absurd (hcode.symm.trans htrivia) Bool.false_ne_true
  rcases hplan with ⟨-, hplan⟩ | ⟨-, -, hplan⟩ | ⟨-, -, hplan⟩
  · rw [hplan]
    refine ⟨rfl, List.Subset.refl _, fun b hb => ?_, hnot⟩
    rw [Plan.openBrace] at hb
    cases hb
  · rw [hplan, Plan.closeBrace]
    cases s.braces with
    | nil =>
        refine ⟨rfl, List.Subset.refl _, fun b hb => ?_, hnot⟩
        dsimp only [Plan.strayBrace] at hb
        cases hb
    | cons b outer =>
        refine ⟨rfl, List.subset_cons_self b outer, fun b' hb' => ?_, hnot⟩
        cases hb'
        exact List.mem_cons_self
  · rw [hplan]
    refine ⟨Plan.parens_startBody .., List.Subset.refl _, fun b hb => ?_, hnot⟩
    rw [Plan.code] at hb
    cases hb

/-! ## All tokens -/

section
variable {o : Options} {tokens : List Token} {n : Nat} {t : Token}

/-- One token: no bracket but the innermost is left waiting, and code settles that one. -/
theorem BracketState.step (hw : 0 < o.indentWidth)
    (h : BracketState o tokens n (stage o tokens n).state) (hget : tokens[n]? = some t)
    (hkind : t.kind ≠ .directive) :
    BracketState o tokens (n + 1) (stage o tokens (n + 1)).state := by
  obtain ⟨hparens, hbraces, hclosed, hcomment⟩ := (cursorAt tokens n t).plan_brackets o
    (stage o tokens n).state (stage o tokens n).conditionals (stage o tokens n).page hkind
  have hcolumn : ((stage o tokens n).page.ready o t (planAt o tokens n t).layout).column
      o.indentWidth = (spotAt o tokens n t).column o := (Page.column_spot hw _).symm
  have hindent : t.isOneOf ["(", "["] = true → (((stage o tokens n).page.ready o t
      (planAt o tokens n t).layout).write o t).currentIndent = (spotAt o tokens n t).indent := by
    intro hbracket
    refine currentIndent_write ?_
    rw [Token.isOneOf, Bool.and_eq_true] at hbracket
    have htext := List.contains_iff_mem.mp hbracket.2
    simp only [List.mem_cons, List.not_mem_nil, or_false] at htext
    rw [Token.lines]
    rcases htext with htext | htext
    · rw [htext]
      decide
    · rw [htext]
      decide
  have houter : ∀ b ∈ (stage o tokens n).state.braces, AllSettled o tokens (n + 1) b.outer.parens :=
    fun b hb => (h.outer b hb).succ
  have hstmt : Brackets o tokens n (planAt o tokens n t).state.stmt.parens := hparens ▸ h.stmt
  have hblocks : ∀ (layout : Layout) (column : Nat),
      ∀ b ∈ ((planAt o tokens n t).state.placed (cursorAt tokens n t) layout column).braces,
        AllSettled o tokens (n + 1) b.outer.parens := by
    intro layout column
    rw [State.braces_placed]
    exact fun b hb => houter b (hbraces hb)
  have hclosed : ∀ b, (planAt o tokens n t).action = .closeBrace (some b) →
      AllSettled o tokens (n + 1) b.outer.parens := fun b hb => houter b (hclosed b hb)
  have hcomment : t.isTrivia = true → (planAt o tokens n t).action = .comment := hcomment
  rw [stage_succ hget]
  show BracketState o tokens (n + 1) (State.settle _ _ _ (planAt o tokens n t) _)
  cases htrivia : t.isTrivia with
  | false =>
      refine settle ?_ (hblocks _ _) hget hclosed hindent
      exact placed_code hstmt hget htrivia rfl fun hawaits => (if_pos hawaits).trans hcolumn
  | true =>
      rw [State.settle, hcomment htrivia]
      exact ⟨placed_comment hstmt hget htrivia rfl _, hblocks _ _⟩

/-- In front of every token no bracket waits but perhaps the innermost one, and the others have the
column of the first code behind them. -/
theorem Unconditional.bracketState_stage
    (hw : 0 < o.indentWidth) (h : Unconditional tokens) : ∀ n ≤ tokens.length,
      BracketState o tokens n (stage o tokens n).state := by
  intro n
  induction n with
  | zero => exact fun _ => .start
  | succ n ih =>
      intro hn
      have hget : tokens[n]? = some tokens[n] := List.getElem?_eq_getElem hn
      have hstate := ih (Nat.le_of_succ_le hn)
      generalize tokens[n] = t at hget
      by_cases hkind : t.kind = .directive
      · obtain ⟨blankLines, hlayout⟩ := layout_directive o tokens n hkind
        have hsome := (isSome_startedLine? (o := o) hget).mpr ⟨_, blankLines, hlayout⟩
        rw [h.stage_directive hget hkind]
        refine ⟨?_, ?_⟩
        · have hsettled := hstate.stmt.newLine (Option.ne_none_iff_isSome.mpr hsome)
          rw [← State.parens_amendParen] at hsettled
          exact hsettled.brackets
        · rw [State.braces_behindDirective]
          exact fun b hb => (hstate.outer b hb).succ
      · exact hstate.step hw hget hkind

/-! ## Lines in brackets -/

/-- A line that code starts in brackets is indented as the innermost bracket says. -/
theorem indent_of_innermostBracket (hunconditional : Unconditional tokens) {m : Nat}
    (hget : tokens[n]? = some t) (hcode : t.isTrivia = false) (hopen : t.is "\x7b" = false)
    (hclose : t.is "\x7d" = false) (hm : innermostBracket? tokens n = some m) {indent : Indent}
    {blankLines : Nat}
    (hlayout : (planAt o tokens n t).layout = .newLine indent blankLines) :
    ∃ p ∈ (stage o tokens n).state.stmt.parens.head?, p.start = m ∧
      indent = (cursorAt tokens n t).parenIndent o p := by
  have hn : n ≤ tokens.length := (List.getElem?_eq_some_iff.mp hget).1.le
  obtain ⟨p, hp, hstart⟩ := Option.map_eq_some_iff.mp (hunconditional.head_parens_stage hn hm)
  refine ⟨p, hp, hstart, ?_⟩
  obtain ⟨outer, hparens⟩ := List.head?_eq_some_iff.mp hp
  rw [planAt, Cursor.plan_code (c := cursorAt tokens n t) hcode hopen hclose, Plan.code] at hlayout
  rw [← (Layout.eq_of_ite_newLine hlayout).1, Cursor.lineIndent]
  simp only [Plan.parens_startBody, hparens]

end

/-- Code that starts a line while brackets are open over the tokens of its statement is aligned to
the first code behind the innermost of them, if there is any on the line of that bracket; if there
is none, the line is indented by one level more than the line of the bracket, and by none if it
starts with a bracket that closes.  The indentation of a line that goes on with a literal is no
level: the blanks it starts with are the literal's. -/
theorem aligned_in_brackets {text : String} {o : Options} (ho : parseOptions text = .ok o)
    (source : String) :
    let tokens := tokensToLayOut o (tokenize o.language o.indentWidth source)
    Unconditional tokens → ∀ n t a m, tokens[n]? = some t →
      t.isTrivia = false → t.is "\x7b" = false → t.is "\x7d" = false →
      startedLine? o tokens n = some a → innermostBracket? tokens n = some m →
        ∃ q s bracket, tokens[m]? = some q ∧ q.isOneOf ["(", "["] = true ∧
          WrittenAt o source m bracket ∧ WrittenAt o source n s ∧ s.line = a ∧ s.text = [] ∧
          (∀ k, FirstCodeBehind o tokens m k →
            ∃ first, WrittenAt o source k first ∧ s.column o = first.column o) ∧
          ((∀ k, ¬FirstCodeBehind o tokens m k) →
            s.indent = if t.is ")" || t.is "]" then bracket.indent
              else bracket.indent.deeper 1) := by
  intro tokens hunconditional n t a m hget hcode hopen hclose ha hm
  have hw : 0 < o.indentWidth := Nat.lt_of_lt_of_le (by decide) (indentWidth_parseOptions ho).1
  obtain ⟨indent, blankLines, hlayout, hspot⟩ := spotAt_of_startedLine? hget ha
  obtain ⟨p, hp, rfl, hindent⟩ :=
    indent_of_innermostBracket hunconditional hget hcode hopen hclose hm hlayout
  have hn : n ≤ tokens.length := (List.getElem?_eq_some_iff.mp hget).1.le
  have hstate := (hunconditional.bracketState_stage hw n hn).stmt
  have hopened := hstate.opened p (List.mem_of_head? hp)
  obtain ⟨q, hq, hbracket, hline⟩ := hopened.bracket
  have hwritten : WrittenAt o source n ⟨a, indent, []⟩ := hspot ▸ writtenAt_spotAt o source hget
  refine ⟨q, ⟨a, indent, []⟩, spotAt o tokens p.start q, hq, hbracket, writtenAt_spotAt o source hq,
    hwritten, rfl, rfl, fun k hk => ?_, fun hnone => ?_⟩
  · obtain ⟨u, hu, -⟩ := hk.code
    refine ⟨spotAt o tokens k u, writtenAt_spotAt o source hu, ?_⟩
    rcases hstate.innermost p hp with hwaits | hsettled
    · exact absurd hk (hwaits.not_firstCodeBehind hopened.lt (ha ▸ Option.some_ne_none a))
    · rw [Spot.column_of_text_eq_nil hw rfl, hindent, Cursor.parenIndent,
        hsettled.aligned k u hk hu]
      exact Indent.columns_alignedTo ..
  · have halign : p.align = none := by
      rcases hstate.innermost p hp with hwaits | hsettled
      · exact hwaits.align
      · exact hsettled.unaligned hnone
    show indent = _
    rw [hindent, Cursor.parenIndent, halign, hline]
    rfl

/-- A call in front of a line is closed again, so that the line is aligned to the first argument of
the outer one; another line starts before there is an argument of the inner one. -/
theorem aligned_in_brackets_nested :
    let o := { Options.default with indentKind := .tab }
    let source := "x = f(g(a),\nb(\nc));\n"
    let tokens := tokensToLayOut o (tokenize o.language o.indentWidth source)
    parseOptions "indent=tab" = .ok o ∧ Unconditional tokens ∧
      innermostBracket? tokens 6 = some 5 ∧
      innermostBracket? tokens 9 = some 3 ∧ FirstCodeBehind o tokens 3 4 ∧
      (∃ s, WrittenAt o source 9 s ∧ s.line = 1 ∧ s.text = [] ∧ s.column o = 6) ∧
      innermostBracket? tokens 11 = some 10 ∧ (∀ k, ¬FirstCodeBehind o tokens 10 k) ∧
      ∃ s, WrittenAt o source 11 s ∧ s.line = 2 ∧ s.text = [] ∧ s.indent = ⟨1, 6⟩ := by
  intro o source tokens
  have ho : parseOptions "indent=tab" = .ok o := by decide +kernel
  have htokens : tokens
      = [⟨.word, "x", 0, "", 0, false⟩, ⟨.punctuation, "=", 0, " ", 2, false⟩,
          ⟨.word, "f", 0, " ", 4, false⟩, ⟨.punctuation, "(", 0, "", 5, false⟩,
          ⟨.word, "g", 0, "", 6, false⟩, ⟨.punctuation, "(", 0, "", 7, false⟩,
          ⟨.word, "a", 0, "", 8, false⟩, ⟨.punctuation, ")", 0, "", 9, false⟩,
          ⟨.punctuation, ",", 0, "", 10, false⟩,
          ⟨.word, "b", 1, "", 0, false⟩, ⟨.punctuation, "(", 0, "", 1, false⟩,
          ⟨.word, "c", 1, "", 0, false⟩, ⟨.punctuation, ")", 0, "", 1, false⟩,
          ⟨.punctuation, ")", 0, "", 2, false⟩, ⟨.punctuation, ";", 0, "", 3, false⟩] := by
    show (tokenize .c 4 "x = f(g(a),\nb(\nc));\n").tokens = _
    decide +kernel
  have hunconditional : Unconditional tokens := by
    rw [htokens, Unconditional]
    decide
  have hfirst : FirstCodeBehind o tokens 3 4 := by
    refine ⟨by decide, ⟨⟨.word, "g", 0, "", 6, false⟩, by rw [htokens]; rfl, rfl⟩,
      fun j hj hjk => absurd hj (by omega), fun j hj hjk => ?_⟩
    obtain rfl : j = 4 := by omega
    rw [htokens]
    decide +kernel
  have hstarts : startedLine? o tokens 9 = some 1 ∧ startedLine? o tokens 11 = some 2 := by
    rw [htokens]
    decide +kernel
  obtain ⟨hargument, houter, hinner⟩ : innermostBracket? tokens 6 = some 5 ∧
      innermostBracket? tokens 9 = some 3 ∧ innermostBracket? tokens 11 = some 10 := by
    rw [htokens]
    decide +kernel
  have hnone : ∀ k, ¬FirstCodeBehind o tokens 10 k := by
    intro k hk
    have hjoined := hk.joined 11 (by decide) hk.lt
    rw [hstarts.2] at hjoined
    cases hjoined
  obtain ⟨hcall, hline, hlast, hopens⟩ :
      tokens[4]? = some ⟨.word, "g", 0, "", 6, false⟩ ∧
        tokens[9]? = some ⟨.word, "b", 1, "", 0, false⟩ ∧
        tokens[11]? = some ⟨.word, "c", 1, "", 0, false⟩ ∧
        tokens[10]? = some ⟨.punctuation, "(", 0, "", 1, false⟩ := by
    rw [htokens]
    exact ⟨rfl, rfl, rfl, rfl⟩
  have hspots : (spotAt o tokens 4 ⟨.word, "g", 0, "", 6, false⟩).column o = 6 ∧
      (spotAt o tokens 10 ⟨.punctuation, "(", 0, "", 1, false⟩).indent = ⟨0, 6⟩ := by
    rw [htokens]
    decide +kernel
  refine ⟨ho, hunconditional, hargument, houter, hfirst, ?_, hinner, hnone, ?_⟩
  · obtain ⟨_, s, _, -, -, -, hwritten, hnumber, htext, haligned, -⟩ :=
      aligned_in_brackets ho source hunconditional 9 _ 1 3 hline rfl rfl rfl hstarts.1 houter
    obtain ⟨first, hwritten', hcolumn⟩ := haligned 4 hfirst
    refine ⟨s, hwritten, hnumber, htext, hcolumn.trans ?_⟩
    rw [hwritten'.eq_spotAt hcall]
    exact hspots.1
  · obtain ⟨_, s, bracket, -, -, hbracket, hwritten, hnumber, htext, -, hindent⟩ :=
      aligned_in_brackets ho source hunconditional 11 _ 2 10 hlast rfl rfl rfl hstarts.2 hinner
    refine ⟨s, hwritten, hnumber, htext, (hindent hnone).trans ?_⟩
    rw [hbracket.eq_spotAt hopens, hspots.2]
    decide

end Beautifier
