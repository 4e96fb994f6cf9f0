/-
The layout between two tokens of a list, by position.

`stage o tokens n` is the layout in front of the token at position `n`.  What
a whole run keeps is shown by induction on `n` from what one step keeps.
-/
import Beautifier.Format

namespace Beautifier

/-- A token of a list in its place. -/
def cursorAt (tokens : List Token) (n : Nat) (t : Token) : Cursor where
  before := (tokens.take n).reverse
  token := t
  after := tokens.drop (n + 1)
  position := n
  closer := (Matching.closers tokens)[n]?.join

/-- The layout in front of the token at a position, or behind the last token. -/
def stage (o : Options) (tokens : List Token) : Nat → Progress
  | 0 => .start
  | n + 1 =>
      match tokens[n]? with
      | some t => (stage o tokens n).step o (cursorAt tokens n t)
      | none => stage o tokens n

variable {o : Options} {tokens : List Token} {n : Nat} {t : Token}

@[simp] theorem stage_zero : stage o tokens 0 = .start := rfl

theorem stage_succ (h : tokens[n]? = some t) :
    stage o tokens (n + 1) = (stage o tokens n).step o (cursorAt tokens n t) := by
  rw [stage, h]

theorem run_eq_stage (ts : List Token) :
    ∀ n, tokens.drop n = ts → n ≤ tokens.length →
      Progress.run o (Matching.closers tokens) n (tokens.take n).reverse ts (stage o tokens n)
        = stage o tokens tokens.length := by
  induction ts with
  | nil =>
      intro n hdrop hle
      have hn : n = tokens.length :=
        Nat.le_antisymm hle (List.drop_eq_nil_iff.mp hdrop)
      rw [Progress.run, hn]
  | cons t ts ih =>
      intro n hdrop hle
      have hlt : n < tokens.length := by
        apply Nat.lt_of_le_of_ne hle
        rintro rfl
        rw [List.drop_length] at hdrop
        cases hdrop
      have hget : tokens[n]? = some t := by
        rw [← List.head?_drop, hdrop, List.head?_cons]
      have hafter : tokens.drop (n + 1) = ts := by
        rw [← List.tail_drop, hdrop, List.tail_cons]
      have hbefore : (tokens.take (n + 1)).reverse = t :: (tokens.take n).reverse := by
        rw [List.take_add_one, hget, Option.toList_some, List.reverse_append,
          List.reverse_singleton,
          List.singleton_append]
      have hstep := ih (n + 1) hafter hlt
      rw [hbefore, stage_succ hget] at hstep
      rw [Progress.run]
      simp only [cursorAt, hafter] at hstep
      exact hstep

/-- A list of tokens is laid out by one step for each token. -/
theorem layOut_eq_stage (o : Options) (tokens : List Token) :
    layOut o tokens = (stage o tokens tokens.length).page := by
  have h := run_eq_stage (o := o) tokens 0 (List.drop_zero ..) (Nat.zero_le _)
  rw [layOut, ← h]
  rfl

/-- What holds in front of the first token and is kept by every step holds at the end. -/
theorem stage_induction {P : Nat → Progress → Prop} (zero : P 0 .start)
    (succ : ∀ n t r, tokens[n]? = some t → P n r → P (n + 1) (r.step o (cursorAt tokens n t))) :
    ∀ n ≤ tokens.length, P n (stage o tokens n) := by
  intro n
  induction n with
  | zero => exact fun _ => zero
  | succ n ih =>
      intro hle
      have hget : tokens[n]? = some tokens[n] := List.getElem?_eq_getElem hle
      rw [stage_succ hget]
      exact succ n _ _ hget (ih (Nat.le_of_succ_le hle))

namespace State

/-! ## Placing a token -/

theorem exists_stmt_placed (s : State) (c : Cursor) (layout : Layout) (column : Nat) :
    ∃ parens, (∀ q ∈ parens, ∃ p ∈ s.stmt.parens, q.start = p.start ∧ q.header = p.header) ∧
      (s.placed c layout column).stmt = { s.stmt with parens } := by
  have hamend : ∀ f : OpenParen → OpenParen,
      (∀ p, (f p).start = p.start ∧ (f p).header = p.header) →
      ∃ parens, (∀ q ∈ parens, ∃ p ∈ s.stmt.parens, q.start = p.start ∧ q.header = p.header) ∧
        (s.amendParen f).stmt = { s.stmt with parens } := by
    intro f hf
    obtain ⟨braces, ⟨active, start, indent, parens, -⟩, -⟩ := s
    cases parens with
    | nil => exact ⟨[], fun q hq => absurd hq List.not_mem_nil, rfl⟩
    | cons p rest =>
        refine ⟨f p :: rest, List.forall_mem_cons.mpr ⟨⟨p, List.mem_cons_self, hf p⟩, ?_⟩, rfl⟩
        exact fun q hq => ⟨q, List.mem_cons_of_mem p hq, rfl, rfl⟩
  cases layout with
  | newLine indent blankLines => exact hamend _ fun _ => ⟨rfl, rfl⟩
  | sameLine spacing =>
      simp only [placed]
      split
      · exact ⟨s.stmt.parens, fun q hq => ⟨q, hq, rfl, rfl⟩, rfl⟩
      · exact hamend _ fun p => by split <;> exact ⟨rfl, rfl⟩

theorem braces_placed (s : State) (c : Cursor) (layout : Layout) (column : Nat) :
    (s.placed c layout column).braces = s.braces := by
  have hamend : ∀ f, (s.amendParen f).braces = s.braces := by
    intro f
    rw [amendParen]
    split <;> rfl
  simp only [placed]
  cases layout with
  | newLine indent blankLines => exact hamend _
  | sameLine spacing =>
      dsimp only
      split
      · rfl
      · exact hamend _

end State

/-- The plan for a token that is no directive. -/
theorem Cursor.plan_cases (c : Cursor) (o : Options) (s : State) (cs : List Conditional)
    (page : Page) (hkind : c.token.kind ≠ .directive) :
    (c.token.isTrivia = true ∧ c.plan o s cs page = .comment c o s cs page) ∨
    c.token.isTrivia = false ∧
      ((c.token.is "\x7b" = true ∧ c.plan o s cs page = .openBrace c o s cs page) ∨
      (c.token.is "\x7b" = false ∧ c.token.is "\x7d" = true ∧
        c.plan o s cs page = .closeBrace c o s cs page) ∨
      (c.token.is "\x7b" = false ∧ c.token.is "\x7d" = false ∧
        c.plan o s cs page = .code c o s cs page)) := by
  have hkinds : c.token.isTrivia = true ∧ c.plan o s cs page = .comment c o s cs page ∨
      c.token.isTrivia = false ∧ c.plan o s cs page =
        if c.token.is "\x7b" then .openBrace c o s cs page
        else if c.token.is "\x7d" then .closeBrace c o s cs page
        else .code c o s cs page := by
    rw [Cursor.plan, Token.isTrivia]
    cases hcases : c.token.kind with
    | directive => exact absurd hcases hkind
    | lineComment => exact .inl ⟨rfl, rfl⟩
    | blockComment => exact .inl ⟨rfl, rfl⟩
    | _ => exact .inr ⟨rfl, rfl⟩
  refine hkinds.imp_right fun ⟨hcode, hplan⟩ => ⟨hcode, ?_⟩
  rw [hplan]
  cases c.token.is "\x7b" with
  | true => exact .inl ⟨rfl, rfl⟩
  | false =>
      cases c.token.is "\x7d" with
      | true => exact .inr (.inl ⟨rfl, rfl, rfl⟩)
      | false => exact .inr (.inr ⟨rfl, rfl, rfl⟩)

section
variable {o : Options} {c : Cursor} {s : State} {cs : List Conditional} {page : Page}

theorem Cursor.plan_openBrace (h : c.token.is "\x7b" = true) :
    c.plan o s cs page = Plan.openBrace c o s cs page := by
  have hkind : c.token.kind = .punctuation := by simp_all [Token.is]
  rw [plan, hkind]
  exact if_pos h

theorem Cursor.plan_closeBrace (h : c.token.is "\x7d" = true) :
    c.plan o s cs page = Plan.closeBrace c o s cs page := by
  have hkind : c.token.kind = .punctuation := by simp_all [Token.is]
  have hopen : ¬c.token.is "\x7b" = true := by simp_all [Token.is]
  rw [plan, hkind]
  exact (if_neg hopen).trans (if_pos h)

theorem Cursor.plan_code (hcode : c.token.isTrivia = false) (hopen : c.token.is "\x7b" = false)
    (hclose : c.token.is "\x7d" = false) : c.plan o s cs page = Plan.code c o s cs page := by
  have hkind : c.token.kind ≠ .directive := by
    intro hkind
    rw [Token.isTrivia, hkind] at hcode
    cases hcode
  simpa [hcode, hopen, hclose] using c.plan_cases o s cs page hkind

end

theorem Layout.eq_of_ite_newLine {cond : Prop} [Decidable cond] {i indent : Indent}
    {spacing : Spacing} {k blankLines : Nat}
    (h : (if cond then Layout.newLine i k else .sameLine spacing) = .newLine indent blankLines) :
    i = indent ∧ k = blankLines := by
  split at h
  · exact Layout.newLine.inj h
  · cases h

end Beautifier
