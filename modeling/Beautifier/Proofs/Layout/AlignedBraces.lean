/-
Braces that line up.

What a closing brace is indented by is fixed when its block is opened.  It is
the indentation of the opening brace if that one starts a line
(`closingIndent_openedBrace`), in every style but the one that indents closing
braces alone.  The block that a closing brace ends is the one that was opened
by the brace that it matches, whatever stands between them, so the two line up
(`braces_aligned`).
-/
import Beautifier.Proofs.Layout.BraceStack
import Beautifier.Proofs.Layout.StartedLines

namespace Beautifier

variable {o : Options} {tokens : List Token} {n i j a b : Nat} {t : Token}

theorem Options.indentsClosingBraces_eq (h : o.style ≠ .ratliff) :
    o.indentsClosingBraces = o.indentsBraces := by
  rw [indentsClosingBraces, indentsBraces, beq_false_of_ne h, Bool.or_false]

/-- The indentation of the closing brace of a block, if it starts a line. -/
def OpenBrace.closingIndent (b : OpenBrace) : Indent :=
  if b.expression then b.openIndent else b.closeIndent

/-- A block that is opened on a line that its brace starts is closed with the indentation of that
line. -/
theorem closingIndent_openedBrace (h : o.style ≠ .ratliff) (c : Cursor) (s : State)
    (opening : Opening) (outer : Statement) :
    (State.openedBrace o opening (Plan.openIndent c o s opening) outer).closingIndent
      = Plan.openIndent c o s opening := by
  rw [OpenBrace.closingIndent, State.openedBrace, Options.indentsClosingBraces_eq h]
  dsimp only
  split
  · rfl
  · next hexpression => rw [Plan.openIndent, if_neg hexpression]

theorem Page.currentIndent_write_newLine (p : Page) (o : Options) (hone : t.lines.2 = [])
    (indent : Indent) (blankLines : Nat) :
    ((p.ready o t (.newLine indent blankLines)).write o t).currentIndent = indent := by
  have hothers : (linesOf (glyphs t.text.toList)).2 = [] := hone
  have hmark : ∀ l : Line, (Line.mark t.kind l).indent = l.indent := fun l => by
    cases t.kind <;> rfl
  simp only [Page.ready, Page.newLine, Page.write, Page.push, hothers, Page.amend, List.map_nil,
    List.reverse_nil, List.nil_append, Page.currentIndent, hmark]
  split <;> rfl

theorem lines_of_is {text : String} (h : t.is text = true) :
    t.lines = linesOf (glyphs text.toList) := by
  rw [Token.lines, beq_iff_eq.mp (Bool.and_eq_true_iff.mp h).2]

/-- The block of an opening brace that starts a line is closed with its indentation. -/
theorem blockAt?_of_newLine (h : o.style ≠ .ratliff) (hget : tokens[i]? = some t)
    (hopen : t.is "\x7b" = true) {indent : Indent} {blankLines : Nat}
    (hlayout : (planAt o tokens i t).layout = .newLine indent blankLines) :
    (blockAt? o tokens i).map OpenBrace.closingIndent = some indent := by
  have hindent : indent = Plan.openIndent (cursorAt tokens i t) o (stage o tokens i).state
      (Plan.opening (cursorAt tokens i t) o (stage o tokens i).state) := by
    rw [planAt, Cursor.plan_openBrace hopen, Plan.openBrace] at hlayout
    dsimp only at hlayout
    split at hlayout
    · cases hlayout
      rfl
    · cases hlayout
  have hcurrent : (stage o tokens (i + 1)).page.currentIndent = indent := by
    rw [page_stage_succ hget, hlayout, Page.currentIndent_write_newLine]
    rw [lines_of_is hopen]
    decide
  obtain ⟨outer, hbraces⟩ := braces_step_openBrace (o := o) (r := stage o tokens i)
    (c := cursorAt tokens i t) hopen
  rw [← stage_succ hget, hcurrent, hindent] at hbraces
  rw [blockAt?, hbraces, List.head?_cons, Option.map_some, closingIndent_openedBrace h, hindent]

/-- A closing brace that starts a line is indented as its block says. -/
theorem closingIndent_of_newLine (hclose : t.is "\x7d" = true) {indent : Indent} {blankLines : Nat}
    (hlayout : (planAt o tokens j t).layout = .newLine indent blankLines) {block : OpenBrace}
    (hblock : (stage o tokens j).state.braces.head? = some block) :
    indent = block.closingIndent := by
  obtain ⟨outer, hbraces⟩ := List.head?_eq_some_iff.mp hblock
  rw [planAt, Cursor.plan_closeBrace hclose, Plan.closeBrace, hbraces] at hlayout
  dsimp only at hlayout
  split at hlayout
  · cases hlayout
    rfl
  · cases hlayout

/-- Matching braces that both start a line of the output have the same indentation.  A brace that is
attached to the line before it starts none, not even where that line is the empty last one of a
literal without an end. -/
theorem braces_aligned (o : Options) (source : String) (hstyle : o.style ≠ .ratliff) :
    let tokens := tokensToLayOut o (tokenize o.language o.indentWidth source)
    Unconditional tokens → ∀ i j a b, (Matching.closers tokens)[i]?.join = some j →
      startedLine? o tokens i = some a → startedLine? o tokens j = some b →
        ∃ blanks x y, (∀ c ∈ blanks, isBlank c = true) ∧
          (outputLines o source)[a]? = some (blanks ++ '\x7b' :: x) ∧
          (outputLines o source)[b]? = some (blanks ++ '\x7d' :: y) := by
  intro tokens hunconditional i j a b hclosers ha hb
  obtain ⟨t, hget, hopen⟩ := Matching.is_of_mem_openAt
    (List.mem_of_head? (Matching.head_openAt_of_closers hclosers))
  obtain ⟨u, hget', hclose⟩ := Matching.is_of_closers hclosers
  have hfirst : t.lines.1 = ['\x7b'] := by rw [lines_of_is hopen]; decide
  have hfirst' : u.lines.1 = ['\x7d'] := by rw [lines_of_is hclose]; decide
  obtain ⟨indent, _, x, hlayout, hline⟩ := line_of_startedLine? hget ha hfirst (by decide)
  obtain ⟨indent', _, y, hlayout', hline'⟩ := line_of_startedLine? hget' hb hfirst' (by decide)
  have hblock := blockAt?_of_newLine hstyle hget hopen hlayout
  obtain ⟨block, hblockAt, hclosing⟩ := Option.map_eq_some_iff.mp hblock
  have hhead := (hunconditional.head_braces_stage (o := o) hclosers).1
  have hindent : indent' = indent :=
    (closingIndent_of_newLine hclose hlayout' (hhead.trans hblockAt)).trans hclosing
  refine ⟨indent.chars o.indentKind o.indentWidth, x, y, isBlank_of_mem_indent, hline, ?_⟩
  rw [hline', hindent]

/-- The braces of a list in a function, which stand one level in with the contents. -/
theorem braces_aligned_list :
    let o := { Options.default with style := .whitesmith }
    let source := "void f() \x7b\n  int a[] =\n\x7b\n1\n\x7d;\n\x7d\n"
    let tokens := tokensToLayOut o (tokenize o.language o.indentWidth source)
    o.style ≠ .ratliff ∧ Unconditional tokens ∧
      (Matching.closers tokens)[10]?.join = some 12 ∧
      startedLine? o tokens 10 = some 3 ∧ startedLine? o tokens 12 = some 5 ∧
      ∃ blanks x y, (∀ c ∈ blanks, isBlank c = true) ∧
        (outputLines o source)[3]? = some (blanks ++ '\x7b' :: x) ∧
        (outputLines o source)[5]? = some (blanks ++ '\x7d' :: y) := by
  intro o source tokens
  have htokens : tokens
      = [⟨.word, "void", 0, "", 0, false⟩, ⟨.word, "f", 0, " ", 5, false⟩,
          ⟨.punctuation, "(", 0, "", 6, false⟩, ⟨.punctuation, ")", 0, "", 7, false⟩,
          ⟨.punctuation, "\x7b", 0, " ", 9, false⟩, ⟨.word, "int", 1, "  ", 2, false⟩,
          ⟨.word, "a", 0, " ", 6, false⟩, ⟨.punctuation, "[", 0, "", 7, false⟩,
          ⟨.punctuation, "]", 0, "", 8, false⟩, ⟨.punctuation, "=", 0, " ", 10, false⟩,
          ⟨.punctuation, "\x7b", 1, "", 0, false⟩, ⟨.number, "1", 1, "", 0, false⟩,
          ⟨.punctuation, "\x7d", 1, "", 0, false⟩, ⟨.punctuation, ";", 0, "", 1, false⟩,
          ⟨.punctuation, "\x7d", 1, "", 0, false⟩] := by
    show (tokenize .c 4 "void f() \x7b\n  int a[] =\n\x7b\n1\n\x7d;\n\x7d\n").tokens = _
    decide +kernel
  have hstyle : o.style ≠ .ratliff := by decide
  have hunconditional : Unconditional tokens := by
    rw [htokens, Unconditional]
    decide
  have hclosers : (Matching.closers tokens)[10]?.join = some 12 := by
    rw [htokens]
    decide
  have hopens : startedLine? o tokens 10 = some 3 := by
    rw [htokens]
    decide +kernel
  have hcloses : startedLine? o tokens 12 = some 5 := by
    rw [htokens]
    decide +kernel
  exact ⟨hstyle, hunconditional, hclosers, hopens, hcloses,
    braces_aligned o source hstyle hunconditional 10 12 3 5 hclosers hopens hcloses⟩

end Beautifier
