/-
Padding around binary operators.

With padded operators a binary operator is apart from the code before it, since
padding is put on last, over whatever leaves white space out (`ordinary_binary`).
The padding behind it is owed to the next token (`padNext_binary`), and that may
stick to what stands before it: a `::` does, also where it begins an operand.  So
what begins an operand behind a binary operator is apart from it exactly unless
it is a `::` in front of which nothing stands in the source (`padded_around_binary`).
-/
import Beautifier.Proofs.Layout.Apart
import Beautifier.Proofs.Layout.Gaps
import Beautifier.Proofs.Options.Bounds

namespace Beautifier

def HasRole (o : Options) (tokens : List Token) (n : Nat) (role : Role) : Prop :=
  ∃ t starts, tokens[n]? = some t ∧ (planAt o tokens n t).action = .code starts role

/-- The token at a position begins an operand: a word, a literal, a unary operator, or one of
`(`, `{` and `::`. -/
def BeginsOperand (o : Options) (tokens : List Token) (n : Nat) (t : Token) : Prop :=
  t.kind = .word ∨ t.kind = .number ∨ t.kind = .string ∨ t.kind = .character ∨
    t.isOneOf ["(", "\x7b", "::", "!", "~", "++", "--"] = true ∨ HasRole o tokens n .unary

/-! ## Roles -/

theorem role_of_isOneOf {c : Cursor} {s : State} {hasPointers : Bool}
    (h : c.token.isOneOf [";", ",", "(", ")", "[", "]", ".", "->", "::"] = true) :
    c.role s hasPointers = .notOperator := by
  simp only [Token.isOneOf, Bool.and_eq_true, beq_iff_eq, List.contains_iff_mem, List.mem_cons,
    List.not_mem_nil, or_false] at h
  obtain ⟨hkind, htext⟩ := h
  rw [Cursor.role, if_neg (by simp [hkind])]
  unfold Role.ofPunctuation
  dsimp only
  split
  all_goals first
    | rfl
    | simp_all

/-- Only a code token other than a brace has a role. -/
theorem Cursor.plan_of_action {c : Cursor} {o : Options} {s : State} {cs : List Conditional}
    {page : Page} {starts : Bool} {role : Role}
    (h : (c.plan o s cs page).action = .code starts role) :
    c.plan o s cs page = .code c o s cs page := by
  by_cases hkind : c.token.kind = .directive
  · rw [Cursor.plan, hkind] at h
    cases h
  rcases c.plan_cases o s cs page hkind with
    ⟨-, hplan⟩ | ⟨-, ⟨-, hplan⟩ | ⟨-, -, hplan⟩ | ⟨-, -, hplan⟩⟩
  · rw [hplan] at h
    cases h
  · rw [hplan] at h
    cases h
  · rw [hplan, Plan.closeBrace] at h
    split at h <;> cases h
  · exact hplan

theorem Cursor.role_of_action {c : Cursor} {o : Options} {s : State} {cs : List Conditional}
    {page : Page} {starts : Bool} {role : Role}
    (h : (c.plan o s cs page).action = .code starts role) :
    ∃ s' : State, c.role s' o.language.hasPointers = role := by
  rw [Cursor.plan_of_action h] at h
  cases h
  exact ⟨_, rfl⟩

theorem of_role_binary {c : Cursor} {s : State} {hasPointers : Bool}
    (h : c.role s hasPointers = .binary) :
    c.token.kind = .punctuation ∧ c.token.isOneOf ["(", ")"] = false := by
  constructor
  · by_contra hkind
    rw [Cursor.role, if_pos (by simpa using hkind)] at h
    cases h
  · rw [← Bool.not_eq_true]
    intro hparen
    rw [role_of_isOneOf] at h
    · cases h
    · simp only [Token.isOneOf, Bool.and_eq_true, List.contains_iff_mem, List.mem_cons,
        List.not_mem_nil, or_false] at hparen ⊢
      refine ⟨hparen.1, ?_⟩
      rcases hparen.2 with h | h <;> simp [h]

/-! ## Padding -/

namespace Spacing

variable {o : Options} {s : State} {role : Role} {prev t : Token}

theorem behind_eq_ordinary (halign : o.alignPointer = Option.none)
    (hs : s.pointerAfter = Option.none) (hprev : prev.isTrivia = false) :
    behind o s role prev t = ordinary o s role prev t := by
  simp [behind, aligned?, halign, hs, hprev]

theorem ordinary_of_pads (h : pads o s role (t.is "(" && s.stmt.headerParenPending) prev t = true) :
    ∃ spacing, ordinary o s role prev t = padded spacing :=
  ⟨_, if_pos h⟩

theorem ordinary_binary (hoper : o.padOper = true) :
    ∃ spacing, ordinary o s .binary prev t = padded spacing :=
  ordinary_of_pads (by simp [pads, hoper])

theorem ordinary_owed (hpad : s.padNext = true) (ht : isTight t = false) :
    ∃ spacing, ordinary o s role prev t = padded spacing :=
  ordinary_of_pads (by simp [pads, hpad, ht])

/-- A `::` is put behind an operator as it stands in the source. -/
theorem ordinary_scope (ht : t.is "::" = true) (hprev : prev.isOneOf ["(", ")"] = false)
    (hkind : prev.kind = .punctuation) (hrole : role ≠ .binary) :
    ordinary o s role prev t = unforced t := by
  obtain ⟨htkind, httext⟩ := Bool.and_eq_true_iff.mp ht
  have hother : ∀ text, text ≠ "::" → t.is text = false := by
    intro text hne
    rw [Token.is, eq_of_beq httext, Bool.and_eq_false_iff]
    exact .inr (beq_eq_false_iff_ne.mpr hne.symm)
  have hbefore : prev.is "(" = false ∧ prev.is ")" = false := by
    simp_all [Token.isOneOf, Token.is]
  have htight : isTight t = true := by
    simp [isTight, Token.isOneOf, eq_of_beq htkind, eq_of_beq httext]
  have hunpads : ∀ headerParen, unpads o headerParen prev t = false := by
    simp [unpads, hbefore, hother]
  have hpads : pads o s role false prev t = false := by
    simp [pads, padsParenOut, padsParenIn, hbefore, hother, htight, hrole]
  rw [ordinary, hother "(" (by decide), Bool.false_and]
  simp [hunpads, hpads]

end Spacing

theorem gap_padded_ne_nil {o : Options} (hwidth : 0 < o.indentWidth) (page : Page) (t : Token)
    (spacing : Spacing) : (page.gap o t spacing.padded).toList ≠ [] := by
  intro hnil
  rcases gap_eq_empty hwidth hnil with hnone | ⟨hwritten, -⟩
  · cases spacing <;> cases hnone
  · cases spacing <;> cases hwritten

theorem gap_asWritten_eq_nil {o : Options} (hwidth : 0 < o.indentWidth) (page : Page) (t : Token) :
    (page.gap o t .asWritten).toList = [] ↔ t.space = "" := by
  constructor
  · intro hnil
    exact (gap_eq_empty hwidth hnil).elim (fun h => absurd h (by decide)) And.right
  · intro hspace
    rw [Page.gap, Page.sourceGap, hspace]
    split <;> rfl

theorem Plan.openSpacing_owed {c : Cursor} {s : State} (hpad : s.padNext = true) (p : Placement) :
    ∃ spacing, openSpacing c s p = .padded spacing := by
  rw [openSpacing, hpad]
  split
  · exact ⟨.one, rfl⟩
  · exact ⟨.atLeastOne, rfl⟩

section
variable {o : Options} {tokens : List Token} {n : Nat} {p t : Token} {starts : Bool} {role : Role}
  {spacing : Spacing}

theorem exists_ordinary (halign : o.alignPointer = none) (hget : tokens[n]? = some p)
    (hp : p.isTrivia = false) (hnext : tokens[n + 1]? = some t)
    (haction : (planAt o tokens (n + 1) t).action = .code starts role)
    (hlayout : (planAt o tokens (n + 1) t).layout = .sameLine spacing) :
    ∃ s : State, s.padNext = (stage o tokens (n + 1)).state.padNext ∧
      spacing = Spacing.ordinary o s role p t := by
  have hplan := Cursor.plan_of_action haction
  rw [planAt, hplan] at haction hlayout
  obtain ⟨-, rfl⟩ := of_ite_eq_sameLine hlayout
  cases haction
  have hn : n + 1 < tokens.length := (List.getElem?_eq_some_iff.mp hnext).1
  rw [Cursor.spacing, tokenAt?_lastOnLine o tokens hget]
  refine ⟨_, ?_, Spacing.behind_eq_ordinary halign ?_ hp⟩
  · rfl
  · exact pointerAfter_stage o tokens halign (Nat.le_of_lt hn)

theorem padNext_binary (hoper : o.padOper = true) (hget : tokens[n]? = some t)
    (haction : (planAt o tokens n t).action = .code starts .binary) :
    (stage o tokens (n + 1)).state.padNext = true := by
  rw [planAt] at haction
  rw [stage_succ hget, padNext_step, Plan.owesPad, haction]
  simp [hoper]

theorem lineBreaks_of_joined {t u : Token} (hget : tokens[n]? = some t)
    (haction : (planAt o tokens n t).action = .code starts role) (hopen : u.is "\x7b" = false)
    (hlayout : (planAt o tokens (n + 1) u).layout = .sameLine spacing) : u.lineBreaks = 0 := by
  by_contra hbreaks
  rcases afterClose_of_lineBreaks hlayout (Nat.pos_of_ne_zero hbreaks) with hbrace | ⟨hclosed, -⟩
  · exact absurd (hopen.symm.trans hbrace) Bool.false_ne_true
  · rw [stage_succ hget] at hclosed
    exact hclosed (afterClose_step_of_plan_code (Cursor.plan_of_action haction))

end

/-! ## Operands -/

section
variable {o : Options} {tokens : List Token} {n : Nat} {t u : Token} {starts : Bool}
  {spacing : Spacing}

/-- What begins an operand is an opening brace or laid out as a code token. -/
theorem BeginsOperand.exists_action (hget : tokens[n]? = some t) (h : BeginsOperand o tokens n t)
    (hopen : t.is "\x7b" = false) :
    ∃ starts role, (planAt o tokens n t).action = .code starts role := by
  have hcode : t.isTrivia = false → t.is "\x7d" = false →
      ∃ starts role, (planAt o tokens n t).action = .code starts role := by
    intro hcode hclose
    rw [planAt, Cursor.plan_code hcode hopen hclose]
    exact ⟨_, _, rfl⟩
  rcases h with hkind | hkind | hkind | hkind | hsign | ⟨t', starts, hget', haction⟩
  · exact hcode (by simp [Token.isTrivia, hkind]) (by simp [Token.is, hkind])
  · exact hcode (by simp [Token.isTrivia, hkind]) (by simp [Token.is, hkind])
  · exact hcode (by simp [Token.isTrivia, hkind]) (by simp [Token.is, hkind])
  · exact hcode (by simp [Token.isTrivia, hkind]) (by simp [Token.is, hkind])
  · obtain ⟨hkind, htext⟩ := Bool.and_eq_true_iff.mp hsign
    refine hcode (by simp [Token.isTrivia, eq_of_beq hkind]) ?_
    rw [← Bool.not_eq_true]
    intro hclose
    rw [eq_of_beq (Bool.and_eq_true_iff.mp hclose).2] at htext
    exact absurd htext (by decide)
  · rw [hget] at hget'
    cases hget'
    exact ⟨starts, _, haction⟩

/-- Of what begins an operand, only a `::` sticks to the token before it. -/
theorem BeginsOperand.isTight_eq (hget : tokens[n]? = some t) (h : BeginsOperand o tokens n t)
    (hscope : t.is "::" = false) : Spacing.isTight t = false := by
  rw [← Bool.not_eq_true]
  intro htight
  obtain ⟨hkind, htext⟩ := Bool.and_eq_true_iff.mp htight
  rcases h with hword | hword | hword | hword | hsign | ⟨t', starts, hget', haction⟩
  · simp [hword] at hkind
  · simp [hword] at hkind
  · simp [hword] at hkind
  · simp [hword] at hkind
  · have hother : t.text ≠ "::" := by
      rintro htext
      simp [Token.is, eq_of_beq hkind, htext] at hscope
    have hsign := (Bool.and_eq_true_iff.mp hsign).2
    simp only [List.contains_iff_mem, List.mem_cons, List.not_mem_nil, or_false] at htext hsign
    rcases htext with h | h | h | h | h | h | h <;> simp_all
  · rw [hget] at hget'
    cases hget'
    obtain ⟨s, hrole⟩ := Cursor.role_of_action haction
    rw [role_of_isOneOf] at hrole
    · cases hrole
    · simp only [Token.isOneOf, Bool.and_eq_true, List.contains_iff_mem, List.mem_cons,
        List.not_mem_nil, or_false] at htext ⊢
      refine ⟨hkind, ?_⟩
      rcases htext with h | h | h | h | h | h | h <;> simp [cursorAt, h]

theorem kind_of_binary (haction : (planAt o tokens n t).action = .code starts .binary) :
    t.kind = .punctuation ∧ t.isOneOf ["(", ")"] = false ∧ t.isTrivia = false := by
  obtain ⟨s, hrole⟩ := Cursor.role_of_action haction
  obtain ⟨hkind, hparen⟩ : t.kind = .punctuation ∧ t.isOneOf ["(", ")"] = false :=
    of_role_binary hrole
  exact ⟨hkind, hparen, by rw [Token.isTrivia, hkind]⟩

/-- What begins an operand behind a binary operator of its line is put behind padding, unless it is
a `::`. -/
theorem exists_padded_behind_binary (hoper : o.padOper = true) (halign : o.alignPointer = none)
    (hget : tokens[n]? = some t) (haction : (planAt o tokens n t).action = .code starts .binary)
    (hnext : tokens[n + 1]? = some u) (hbegins : BeginsOperand o tokens (n + 1) u)
    (hlayout : (planAt o tokens (n + 1) u).layout = .sameLine spacing)
    (hscope : u.is "::" = false) : ∃ spacing', spacing = .padded spacing' := by
  have hpad := padNext_binary hoper hget haction
  cases hopen : u.is "\x7b" with
  | true =>
      rw [planAt, Cursor.plan_openBrace hopen] at hlayout
      obtain ⟨-, rfl⟩ := of_ite_eq_sameLine hlayout
      exact Plan.openSpacing_owed hpad _
  | false =>
      obtain ⟨starts', role, haction'⟩ := hbegins.exists_action hnext hopen
      obtain ⟨-, -, hcode⟩ := kind_of_binary haction
      obtain ⟨s, hs, hordinary⟩ := exists_ordinary halign hget hcode hnext haction' hlayout
      rw [hordinary]
      exact Spacing.ordinary_owed (hs.trans hpad) (hbegins.isTight_eq hnext hscope)

/-- In front of a `::` behind a binary operator of its line stands what the source has there. -/
theorem gap_scope_behind_binary (hwidth : 0 < o.indentWidth) (halign : o.alignPointer = none)
    (hget : tokens[n]? = some t) (haction : (planAt o tokens n t).action = .code starts .binary)
    (hnext : tokens[n + 1]? = some u) (hbegins : BeginsOperand o tokens (n + 1) u)
    (hlayout : (planAt o tokens (n + 1) u).layout = .sameLine spacing)
    (hscope : u.is "::" = true) :
    ((stage o tokens (n + 1)).page.gap o u spacing).toList = [] ↔ u.space = "" := by
  obtain ⟨hkindScope, htextScope⟩ := Bool.and_eq_true_iff.mp hscope
  have hopen : u.is "\x7b" = false := by
    rw [Token.is, eq_of_beq htextScope]
    exact Bool.and_false _
  obtain ⟨starts', role, haction'⟩ := hbegins.exists_action hnext hopen
  obtain ⟨hkind, hparen, hcode⟩ := kind_of_binary haction
  obtain ⟨s, -, hordinary⟩ := exists_ordinary halign hget hcode hnext haction' hlayout
  have hnoOperator : role ≠ .binary := by
    obtain ⟨s', hrole⟩ := Cursor.role_of_action haction'
    rw [← hrole, role_of_isOneOf]
    · decide
    · simp [Token.isOneOf, cursorAt, eq_of_beq hkindScope, eq_of_beq htextScope]
  have hzero := lineBreaks_of_joined hget haction hopen hlayout
  rw [hordinary, Spacing.ordinary_scope hscope hparen hkind hnoOperator, Spacing.unforced,
    if_pos hzero, gap_asWritten_eq_nil hwidth]

/-- What stands in front of an operand behind a binary operator of its line. -/
theorem gap_behind_binary (hwidth : 0 < o.indentWidth) (hoper : o.padOper = true)
    (halign : o.alignPointer = none) (hget : tokens[n]? = some t)
    (haction : (planAt o tokens n t).action = .code starts .binary)
    (hnext : tokens[n + 1]? = some u) (hbegins : BeginsOperand o tokens (n + 1) u)
    (hlayout : (planAt o tokens (n + 1) u).layout = .sameLine spacing) :
    ((stage o tokens (n + 1)).page.gap o u spacing).toList = [] ↔
      u.is "::" = true ∧ u.space = "" := by
  cases hscope : u.is "::" with
  | false =>
      obtain ⟨spacing', rfl⟩ :=
        exists_padded_behind_binary hoper halign hget haction hnext hbegins hlayout hscope
      exact iff_of_false (gap_padded_ne_nil hwidth _ u spacing') fun h => Bool.false_ne_true h.1
  | true =>
      rw [gap_scope_behind_binary hwidth halign hget haction hnext hbegins hlayout hscope]
      exact (and_iff_right rfl).symm

end

/-! ## In the output -/

/-- Padding around binary operators.  A binary operator is apart from the code token before it on
its line.  What begins an operand behind it on its line is apart from it, but for a `::` in front of
which nothing stands in the source: that is put directly behind the operator. -/
theorem padded_around_binary {text : String} {o : Options} (ho : parseOptions text = .ok o)
    (hoper : o.padOper = true) (halign : o.alignPointer = none) (source : String) :
    let tokens := tokensToLayOut o (tokenize o.language o.indentWidth source)
    ∀ n, HasRole o tokens n .binary →
      (∀ m p, n = m + 1 → tokens[m]? = some p → p.isTrivia = false →
        startedLine? o tokens n = none →
          ∃ gap, ApartBy o source m gap ∧ (∀ c ∈ gap, isSpace c = true) ∧ gap ≠ []) ∧
      ∀ u, tokens[n + 1]? = some u → BeginsOperand o tokens (n + 1) u →
        startedLine? o tokens (n + 1) = none →
          ∃ gap, ApartBy o source n gap ∧ (∀ c ∈ gap, isSpace c = true) ∧
            (gap = [] ↔ u.is "::" = true ∧ u.space = "") := by
  rintro tokens n ⟨t, starts, hget, haction⟩
  have hwidth : 0 < o.indentWidth := Nat.lt_of_lt_of_le (by decide) (indentWidth_parseOptions ho).1
  constructor
  · rintro m p rfl hprev hcode hstarts
    obtain ⟨spacing, hlayout, hapart, hspaces⟩ := exists_apartBy hget hstarts
    obtain ⟨s, -, hordinary⟩ := exists_ordinary halign hprev hcode hget haction hlayout
    obtain ⟨spacing', hpadded⟩ : ∃ spacing', Spacing.ordinary o s .binary p t = .padded spacing' :=
      Spacing.ordinary_binary hoper
    refine ⟨_, hapart, hspaces, ?_⟩
    rw [hordinary, hpadded]
    exact gap_padded_ne_nil hwidth _ t spacing'
  · intro u hnext hbegins hstarts
    obtain ⟨spacing, hlayout, hapart, hspaces⟩ := exists_apartBy hnext hstarts
    exact ⟨_, hapart, hspaces,
      gap_behind_binary hwidth hoper halign hget haction hnext hbegins hlayout⟩

/-- An assignment is apart from what stands on either side of it. -/
theorem padded_around_assignment :
    let o := Options.default.turnOn .padOper
    let source := "x=a;\n"
    let tokens := tokensToLayOut o (tokenize o.language o.indentWidth source)
    parseOptions "pad-oper" = .ok o ∧ HasRole o tokens 1 .binary ∧
      (∃ gap, ApartBy o source 0 gap ∧ gap ≠ []) ∧ ∃ gap, ApartBy o source 1 gap ∧ gap ≠ [] := by
  intro o source tokens
  have ho : parseOptions "pad-oper" = .ok o := by decide +kernel
  have htokens : tokens
      = [⟨.word, "x", 0, "", 0, false⟩, ⟨.punctuation, "=", 0, "", 1, false⟩,
          ⟨.word, "a", 0, "", 2, false⟩, ⟨.punctuation, ";", 0, "", 3, false⟩] := by
    show (tokenize .c 4 "x=a;\n").tokens = _
    decide +kernel
  have hrole : HasRole o tokens 1 .binary := by
    refine ⟨⟨.punctuation, "=", 0, "", 1, false⟩, false, ?_, ?_⟩
    · rw [htokens]
      rfl
    · rw [htokens]
      decide +kernel
  have hjoined : startedLine? o tokens 1 = none ∧ startedLine? o tokens 2 = none := by
    rw [htokens]
    decide +kernel
  obtain ⟨hfirst, hlast⟩ : tokens[0]? = some ⟨.word, "x", 0, "", 0, false⟩ ∧
      tokens[2]? = some ⟨.word, "a", 0, "", 2, false⟩ := by
    rw [htokens]
    exact ⟨rfl, rfl⟩
  obtain ⟨hbefore, hbehind⟩ := padded_around_binary ho rfl rfl source 1 hrole
  refine ⟨ho, hrole, ?_, ?_⟩
  · obtain ⟨gap, happart, -, hne⟩ := hbefore 0 _ rfl hfirst rfl hjoined.1
    exact ⟨gap, happart, hne⟩
  · obtain ⟨gap, happart, -, hnil⟩ := hbehind _ hlast (.inl rfl) hjoined.2
    exact ⟨gap, happart, fun h => absurd (hnil.mp h).1 (by decide)⟩

/-- A `::` is put directly behind the assignment in front of it. -/
theorem not_padded_in_front_of_scope :
    let o := Options.default.turnOn .padOper
    let source := "x=::f();\n"
    let tokens := tokensToLayOut o (tokenize o.language o.indentWidth source)
    parseOptions "pad-oper" = .ok o ∧ format o source = "x =::f();\n" ∧
      ¬∀ n u, HasRole o tokens n .binary → tokens[n + 1]? = some u →
        BeginsOperand o tokens (n + 1) u → startedLine? o tokens (n + 1) = none →
          ∃ gap, ApartBy o source n gap ∧ gap ≠ [] := by
  intro o source tokens
  have ho : parseOptions "pad-oper" = .ok o := by decide +kernel
  have hread : tokenize o.language o.indentWidth source
      = ⟨[⟨.word, "x", 0, "", 0, false⟩, ⟨.punctuation, "=", 0, "", 1, false⟩,
          ⟨.punctuation, "::", 0, "", 2, false⟩, ⟨.word, "f", 0, "", 4, false⟩,
          ⟨.punctuation, "(", 0, "", 5, false⟩, ⟨.punctuation, ")", 0, "", 6, false⟩,
          ⟨.punctuation, ";", 0, "", 7, false⟩], 1, some .linux⟩ := by
    show tokenize .c 4 "x=::f();\n" = _
    decide +kernel
  have htokens : tokens = _ := congrArg (tokensToLayOut o) hread
  refine ⟨ho, ?_, fun hall => ?_⟩
  · rw [format, hread]
    decide +kernel
  have hrole : HasRole o tokens 1 .binary := by
    refine ⟨⟨.punctuation, "=", 0, "", 1, false⟩, false, ?_, ?_⟩
    · rw [htokens]
      rfl
    · rw [htokens]
      decide +kernel
  obtain ⟨hfirst, hscope⟩ : tokens[1]? = some ⟨.punctuation, "=", 0, "", 1, false⟩ ∧
      tokens[2]? = some ⟨.punctuation, "::", 0, "", 2, false⟩ := by
    rw [htokens]
    exact ⟨rfl, rfl⟩
  have hjoined : startedLine? o tokens 2 = none := by
    rw [htokens]
    decide +kernel
  have hspots : (spotAt o tokens 1 ⟨.punctuation, "=", 0, "", 1, false⟩).front o = ['x', ' '] ∧
      (spotAt o tokens 2 ⟨.punctuation, "::", 0, "", 2, false⟩).front o = ['x', ' ', '='] := by
    rw [htokens]
    decide +kernel
  obtain ⟨gap, ⟨p, s, s', front, hp, hs, hs', -, hfront, hsame⟩, hne⟩ :=
    hall 1 _ hrole hscope (.inr (.inr (.inr (.inr (.inl rfl))))) hjoined
  cases hfirst.symm.trans hp
  rw [hs'.eq_spotAt hscope, hspots.2, show front = s.front o from hsame, hs.eq_spotAt hfirst,
    hspots.1] at hfront
  -- what stands in front of the second token is that of the first and the first, and no gap
  exact hne (List.self_eq_append_right.mp hfront)

end Beautifier
