/-
The lines of the output that tokens start.

A token that is laid out on a new line starts that line of the output, however
much is written behind it: lines keep their places and their indentation
(`indents_suffix_step`) and only get longer.  So the line reads as the
indentation of the plan and then the token (`line_of_startedLine?`).  A token
that goes on with a line starts none, also where it follows a token that ends
in an empty line.
-/
import Mathlib.Data.List.Infix
import Beautifier.Proofs.Text.Blanks
import Beautifier.Proofs.Layout.Composed

namespace Beautifier

def linesDown (gs : List Glyph) : List (List Char) := (linesOf gs).1 :: (linesOf gs).2

def outputLines (o : Options) (source : String) : List (List Char) :=
  linesDown (glyphs (format o source).toList)

/-- The line of the output that the token at a position starts, counted from the top, if it starts
one. -/
def startedLine? (o : Options) (tokens : List Token) (n : Nat) : Option Nat :=
  tokens[n]?.bind fun t =>
    match (planAt o tokens n t).layout with
    | .newLine _ blankLines => some ((stage o tokens n).page.lines.length + blankLines)
    | .sameLine _ => none

variable {o : Options} {tokens : List Token} {n a : Nat} {t : Token}

theorem isSome_startedLine? (hget : tokens[n]? = some t) :
    (startedLine? o tokens n).isSome = true ↔
      ∃ indent blankLines, (planAt o tokens n t).layout = .newLine indent blankLines := by
  rw [startedLine?, hget, Option.bind_some]
  cases (planAt o tokens n t).layout with
  | newLine indent blankLines => exact iff_of_true rfl ⟨indent, blankLines, rfl⟩
  | sameLine spacing => exact iff_of_false nofun nofun

/-! ## Indentations stay -/

namespace Page

theorem indents_amend {p : Page} {f : Line → Line} (hf : ∀ l, (f l).indent = l.indent) :
    p.lines.map Line.indent <:+ (p.amend f).lines.map Line.indent := by
  rw [amend]
  cases p.lines with
  | nil => exact List.nil_suffix
  | cons l ls =>
      rw [List.map_cons, List.map_cons, hf]

theorem indents_push (p : Page) (width : Nat) (kind : TokenKind) (shift : Int) (text : String) :
    p.lines.map Line.indent <:+ (p.push width kind shift text).lines.map Line.indent := by
  rw [push]
  dsimp only
  refine List.IsSuffix.trans ?_ (indents_amend fun l => by cases kind <;> rfl)
  rw [List.map_append]
  exact List.IsSuffix.trans (indents_amend fun l => by split <;> rfl) (List.suffix_append _ _)

theorem indents_write (p : Page) (o : Options) (t : Token) (layout : Layout) :
    (match layout with
      | .newLine indent blankLines =>
          indent :: (List.replicate blankLines .zero ++ p.lines.map Line.indent)
      | .sameLine _ => p.lines.map Line.indent)
        <:+ ((p.ready o t layout).write o t).lines.map Line.indent := by
  refine List.IsSuffix.trans ?_ (indents_push ..)
  cases layout with
  | newLine indent blankLines =>
      rw [ready, newLine, List.map_cons, List.map_append, List.map_replicate]
      exact List.suffix_rfl
  | sameLine spacing => exact indents_amend fun _ => rfl

end Page

/-- Lines keep their indentation and their places, counted from the top. -/
theorem indents_suffix_stage (o : Options) (tokens : List Token) {m n : Nat} (h : m ≤ n) :
    (stage o tokens m).page.lines.map Line.indent
      <:+ (stage o tokens n).page.lines.map Line.indent := by
  induction h with
  | refl => exact List.suffix_rfl
  | @step n _ ih =>
      cases hget : tokens[n]? with
      | none => rwa [stage, hget]
      | some t =>
          rw [page_stage_succ hget]
          refine ih.trans (List.IsSuffix.trans ?_ (Page.indents_write ..))
          cases (planAt o tokens n t).layout with
          | newLine indent blankLines => exact List.suffix_append (indent :: List.replicate ..) _
          | sameLine spacing => exact List.suffix_rfl

/-! ## Lines get longer -/

/-- A line of a page stands on all later ones at its place, and has at most got longer. -/
theorem Page.Later.line {p q : Page} (h : p.Later q) {above earlier : List Line} {l : Line}
    (hp : p.lines = above ++ l :: earlier) :
    ∃ above' l', q.lines = above' ++ l' :: earlier ∧ l.text.toList <+: l'.text.toList := by
  cases above with
  | nil => exact h l earlier hp
  | cons x above =>
      obtain ⟨above', x', hq, -⟩ := h x (above ++ l :: earlier) hp
      exact ⟨above' ++ x' :: above, l, by rw [hq]; simp, List.prefix_rfl⟩

/-- The line of the page that a token starts. -/
theorem exists_line_of_newLine {indent : Indent} {blankLines : Nat} (hget : tokens[n]? = some t)
    (hlayout : (planAt o tokens n t).layout = .newLine indent blankLines) :
    ∃ above l earlier, (layOut o tokens).lines = above ++ l :: earlier ∧
      earlier.length = (stage o tokens n).page.lines.length + blankLines ∧ l.indent = indent ∧
      t.lines.1 <+: l.text.toList := by
  have hn : n + 1 ≤ tokens.length := (List.getElem?_eq_some_iff.mp hget).1
  obtain ⟨above, l, hlines, htext⟩ := Page.lines_push
    ((stage o tokens n).page.ready o t (.newLine indent blankLines)) o.indentWidth t.kind
    (((stage o tokens n).page.ready o t (.newLine indent blankLines)).shift o t) t.text
  have hpage : (stage o tokens (n + 1)).page.lines = above ++ l ::
      (List.replicate blankLines (.empty .zero) ++ (stage o tokens n).page.lines) := by
    rw [page_stage_succ hget, hlayout]
    exact hlines
  obtain ⟨above', l', hfinal, hprefix⟩ := (later_stage o tokens hn).line hpage
  rw [layOut_eq_stage]
  refine ⟨above', l', _, hfinal, by simp [Nat.add_comm], ?_, ?_⟩
  · have hindents := Page.indents_write (stage o tokens n).page o t (planAt o tokens n t).layout
    rw [← page_stage_succ hget, hlayout] at hindents
    have hwritten := hindents.trans (indents_suffix_stage o tokens hn)
    rw [hfinal, List.map_append, List.map_cons] at hwritten
    have hsame := (List.suffix_of_suffix_length_le hwritten (List.suffix_append _ _)
      (by simp)).eq_of_length (by simp)
    exact (List.cons.inj hsame).1.symm
  · refine List.IsPrefix.trans ?_ hprefix
    rw [htext]
    exact List.prefix_rfl

/-! ## In the output -/

theorem linesDown_chars (cs : List Char) (e : LineEnd) (gs : List Glyph) :
    linesDown (cs.map .char ++ .lineBreak e :: gs) = cs :: linesDown gs := by
  rw [linesDown, linesOf_chars, linesOf]
  simp [linesDown]

theorem linesDown_finished (e : LineEnd) (ls : List Line) (gs : List Glyph) :
    linesDown (Page.finished o e ls ++ gs)
      = ls.reverse.map (Line.chars o.indentKind o.indentWidth) ++ linesDown gs := by
  rw [Page.finished]
  induction ls.reverse with
  | nil => rfl
  | cons l ls ih =>
      rw [List.flatMap_cons, List.append_assoc, List.append_assoc, List.singleton_append,
        linesDown_chars, ih]
      rfl

theorem linesDown_replicate (e : LineEnd) (cs : List Char) (count : Nat) :
    linesDown (cs.map .char ++ List.replicate count (.lineBreak e))
      = cs :: List.replicate count [] := by
  induction count generalizing cs with
  | zero =>
      rw [List.replicate_zero, linesDown, linesOf_chars]
      simp [linesOf]
  | succ count ih =>
      have hempty := ih []
      rw [List.map_nil, List.nil_append] at hempty
      rw [List.replicate_succ, linesDown_chars, hempty, List.replicate_succ]

/-- The lines of the output are those of the page, and the empty ones at the end. -/
theorem outputLines_eq (o : Options) (source : String)
    (h : (layOut o (tokensToLayOut o (tokenize o.language o.indentWidth source))).lines ≠ []) :
    outputLines o source
      = (layOut o (tokensToLayOut o (tokenize o.language o.indentWidth source))).lines.reverse.map
          (Line.chars o.indentKind o.indentWidth)
        ++ List.replicate (tokenize o.language o.indentWidth source).trailingBreaks [] := by
  obtain ⟨l, ls, hls⟩ := List.exists_cons_of_ne_nil h
  rw [outputLines, glyphs_format_eq_rendered, Page.rendered, hls, List.tail_cons, List.headD_cons,
    List.append_assoc, linesDown_finished, linesDown_replicate]
  simp

theorem trimRight_cons {p : Char → Bool} {c : Char} (hc : p c = false) (text : List Char) :
    ∃ more, trimRight p (c :: text) = c :: more := by
  obtain ⟨cut, hcut, heq⟩ := exists_trimRight_append p (c :: text)
  cases htrim : trimRight p (c :: text) with
  | nil =>
      rw [htrim, List.nil_append] at heq
      rw [hcut c (heq ▸ List.mem_cons_self)] at hc
      cases hc
  | cons d more =>
      rw [htrim] at heq
      cases heq
      exact ⟨more, rfl⟩

/-- A line of the output that a token starts reads as the indentation of its plan and then the
token. -/
theorem line_of_startedLine? {source : String} {c : Char} {behind : List Char} :
    let tokens := tokensToLayOut o (tokenize o.language o.indentWidth source)
    tokens[n]? = some t → startedLine? o tokens n = some a → t.lines.1 = c :: behind →
    isBlank c = false →
      ∃ indent blankLines more, (planAt o tokens n t).layout = .newLine indent blankLines ∧
        (outputLines o source)[a]?
          = some (indent.chars o.indentKind o.indentWidth ++ c :: more) := by
  intro tokens hget ha htext hc
  obtain ⟨indent, blankLines, hlayout, rfl⟩ : ∃ indent blankLines,
      (planAt o tokens n t).layout = .newLine indent blankLines ∧
        (stage o tokens n).page.lines.length + blankLines = a := by
    rw [startedLine?, hget, Option.bind_some] at ha
    split at ha
    · next indent blankLines hlayout => exact ⟨indent, blankLines, hlayout, Option.some.inj ha⟩
    · cases ha
  obtain ⟨above, l, earlier, hlines, hlength, hindent, text, htext'⟩ :=
    exists_line_of_newLine hget hlayout
  rw [htext] at htext'
  obtain ⟨more, hmore⟩ : ∃ more,
      (if l.trimmed then trimRight isBlank l.text.toList else l.text.toList) = c :: more := by
    rw [← htext']
    split
    · exact trimRight_cons hc _
    · exact ⟨_, rfl⟩
  refine ⟨indent, blankLines, more, hlayout, ?_⟩
  have hchars : l.chars o.indentKind o.indentWidth
      = indent.chars o.indentKind o.indentWidth ++ c :: more := by
    rw [Line.chars, hmore, hindent]
    rfl
  have hne : (layOut o tokens).lines ≠ [] := by rw [hlines]; simp
  rw [outputLines_eq o source hne, hlines, ← hlength, ← hchars]
  simp

end Beautifier
