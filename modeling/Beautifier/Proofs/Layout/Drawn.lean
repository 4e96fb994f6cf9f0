/-
Two runs that differ in their tabs.

The drawing of a page is the page with the tabs of its lines expanded.  What
the layout asks of a page it could ask of the drawing (`Cursor.plan_drawn`,
`Page.column_drawn`), and pages that are drawn alike still are when the same
thing is written on both, whether the white space is written with tabs or
without.  So under options that differ in how white space is written, and not
in how wide it is, the layout goes through the same states and through pages
that are drawn alike (`drawn_stage`), and these are rendered to the same text
but for its tabs (`Page.untab_rendered`).
-/
import Beautifier.Proofs.Layout.Copied

namespace Beautifier

/-- Two options differ in no more than how white space is written: what lines are indented with,
and whether tabs are turned into spaces. -/
def Options.SameColumns (o o' : Options) : Prop :=
  o' = { o with indentKind := o'.indentKind, convertTabs := o'.convertTabs }

/-! ## Lines -/

namespace Line

/-- A line with the tabs of its text expanded. -/
def drawn (w : Nat) (l : Line) : Line :=
  { l with text := String.ofList (Column.expandTabs w (l.indent.columns w) l.text.toList) }

variable {w : Nat} {l l' : Line}

theorem drawn_eq_iff : l'.drawn w = l.drawn w ↔
    { l' with text := "" } = { l with text := "" } ∧
      Column.expandTabs w (l.indent.columns w) l'.text.toList
        = Column.expandTabs w (l.indent.columns w) l.text.toList := by
  obtain ⟨indent, text, trimmed, hasCode, lineComment, directive⟩ := l
  obtain ⟨indent', text', trimmed', hasCode', lineComment', directive'⟩ := l'
  simp only [drawn, mk.injEq, String.ofList_inj, true_and]
  constructor
  · rintro ⟨rfl, htext, hrest⟩
    exact ⟨⟨rfl, hrest⟩, htext⟩
  · rintro ⟨⟨rfl, hrest⟩, htext⟩
    exact ⟨rfl, htext, hrest⟩

theorem column_drawn (hw : 0 < w) (l : Line) : (l.drawn w).column w = l.column w := by
  rw [column, drawn, String.toList_ofList]
  exact Column.advance_expandTabs hw _ _

theorem isEmpty_text_drawn (hw : 0 < w) (l : Line) :
    (l.drawn w).text.isEmpty = l.text.isEmpty := by
  have hlist : ∀ s : String, s.isEmpty = s.toList.isEmpty := by
    intro s
    rw [Bool.eq_iff_iff, String.isEmpty_iff, List.isEmpty_iff, String.toList_eq_nil_iff]
  rw [hlist, hlist, drawn, String.toList_ofList, Column.isEmpty_expandTabs hw]

theorem drawn_append_congr (hw : 0 < w) (h : l'.drawn w = l.drawn w) {s s' : String}
    (hs : Column.expandTabs w (l.column w) s'.toList
      = Column.expandTabs w (l.column w) s.toList) :
    (l'.append s').drawn w = (l.append s).drawn w := by
  have hcolumn : l'.column w = l.column w := by
    rw [← column_drawn hw l', h, column_drawn hw]
  obtain ⟨hframe, htext⟩ := drawn_eq_iff.mp h
  have hindent : l'.indent = l.indent := (mk.inj hframe).1
  rw [column, column, hindent] at hcolumn
  rw [column] at hs
  refine drawn_eq_iff.mpr ⟨hframe, ?_⟩
  simp only [append, String.toList_append, Column.expandTabs_append, htext, hcolumn, hs]

theorem drawn_mark_congr (h : l'.drawn w = l.drawn w) (kind : TokenKind) :
    (l'.mark kind).drawn w = (l.mark kind).drawn w := by
  have hmark : ∀ l : Line, (l.mark kind).drawn w = (l.drawn w).mark kind := by
    intro l
    cases kind <;> rfl
  rw [hmark, hmark, h]

/-- Whatever lines are indented with, a line looks as its drawing indented with spaces. -/
theorem expandTabs_chars (hw : 0 < w) (kind : IndentKind) (l : Line) :
    Column.expandTabs w 0 (l.chars kind w) = (l.drawn w).chars .spaces w := by
  have htext : Column.expandTabs w (l.indent.columns w)
        (if l.trimmed then trimRight isBlank l.text.toList else l.text.toList)
      = if (l.drawn w).trimmed then trimRight isBlank (l.drawn w).text.toList
        else (l.drawn w).text.toList := by
    simp only [drawn, String.toList_ofList]
    split
    · exact Column.expandTabs_trimRight hw _ _
    · rfl
  rw [chars, chars, ← htext]
  generalize (if l.trimmed then trimRight isBlank l.text.toList else l.text.toList) = text
  rw [Column.isEmpty_expandTabs hw]
  split
  · rfl
  · rw [Column.expandTabs_append, Indent.expandTabs_chars hw, Indent.advance_chars hw]
    rfl

end Line

/-! ## Pages -/

namespace Page

def drawn (w : Nat) (p : Page) : Page := ⟨p.lines.map (Line.drawn w)⟩

variable {w : Nat} {o o' : Options} {p q : Page}

/-! ### What is asked of a page -/

theorem isEmpty_drawn (w : Nat) (p : Page) : (p.drawn w).isEmpty = p.isEmpty := by
  rw [isEmpty, isEmpty, drawn, List.isEmpty_map]

theorem newest_drawn (w : Nat) (p : Page) : (p.drawn w).newest = p.newest.drawn w := by
  rw [newest, newest, drawn]
  cases p.lines <;> rfl

theorem canJoin_drawn (w : Nat) (p : Page) : (p.drawn w).canJoin = p.canJoin := by
  rw [canJoin, canJoin, drawn]
  cases p.lines <;> rfl

theorem currentIndent_drawn (w : Nat) (p : Page) :
    (p.drawn w).currentIndent = p.currentIndent := by
  rw [currentIndent, currentIndent, drawn]
  cases p.lines <;> rfl

theorem onlyComments_drawn (hw : 0 < w) (p : Page) :
    (p.drawn w).onlyComments = p.onlyComments := by
  rw [onlyComments, onlyComments, drawn]
  cases p.lines with
  | nil => rfl
  | cons l ls => exact congrArg (!l.hasCode && !·) (l.isEmpty_text_drawn hw)

theorem column_eq_newest (w : Nat) (p : Page) : p.column w = p.newest.column w := by
  rw [column, newest]
  cases p.lines with
  | nil => simp [Line.column, Line.empty, Indent.columns, Indent.zero, Column.advance_nil]
  | cons l ls => rfl

theorem column_drawn (hw : 0 < w) (p : Page) : (p.drawn w).column w = p.column w := by
  rw [column_eq_newest, column_eq_newest, newest_drawn, Line.column_drawn hw]

/-! ### What is done to a page -/

theorem drawn_newLine_congr (h : q.drawn w = p.drawn w) (indent : Indent) (blankLines : Nat) :
    (q.newLine indent blankLines).drawn w = (p.newLine indent blankLines).drawn w := by
  have hlines : q.lines.map (Line.drawn w) = p.lines.map (Line.drawn w) := congrArg lines h
  rw [drawn, drawn, newLine, newLine, List.map_cons, List.map_cons, List.map_append,
    List.map_append, hlines]

theorem drawn_amend_congr (h : q.drawn w = p.drawn w) {f g : Line → Line}
    (hnewest : (g q.newest).drawn w = (f p.newest).drawn w) :
    (q.amend g).drawn w = (p.amend f).drawn w := by
  have htail : q.lines.tail.map (Line.drawn w) = p.lines.tail.map (Line.drawn w) := by
    rw [List.map_tail, List.map_tail]
    exact congrArg (·.lines.tail) h
  have hcons : (g q.newest :: q.lines.tail).map (Line.drawn w)
      = (f p.newest :: p.lines.tail).map (Line.drawn w) := by
    rw [List.map_cons, List.map_cons, hnewest, htail]
  rw [drawn, drawn, lines_amend, lines_amend]
  exact congrArg mk hcons

theorem drawn_newest_congr (h : q.drawn w = p.drawn w) :
    q.newest.drawn w = p.newest.drawn w := by
  rw [← newest_drawn, h, newest_drawn]

theorem column_congr (hw : 0 < w) (h : q.drawn w = p.drawn w) : q.column w = p.column w := by
  rw [← column_drawn hw q, h, column_drawn hw]

theorem drawn_begin_congr (hw : 0 < w) (h : q.drawn w = p.drawn w) (t : Token) :
    (q.begin t).drawn w = (p.begin t).drawn w := by
  have happend : (q.newest.append (String.ofList t.lines.1)).drawn w
      = (p.newest.append (String.ofList t.lines.1)).drawn w :=
    Line.drawn_append_congr hw (drawn_newest_congr h) rfl
  refine drawn_amend_congr h ?_
  dsimp only
  split
  · exact congrArg (fun l : Line => { l with trimmed := false }) happend
  · exact happend

theorem drawn_write_congr (hw : 0 < o.indentWidth) (ho : o.SameColumns o')
    (h : q.drawn o.indentWidth = p.drawn o.indentWidth) (t : Token) :
    (q.write o' t).drawn o.indentWidth = (p.write o t).drawn o.indentWidth := by
  have hshift : q.shift o' t = p.shift o t := by
    rw [ho]
    exact congrArg (fun column : Nat =>
      if t.kind == .blockComment then (column : Int) - t.column else 0) (column_congr hw h)
  have hwidth : o'.indentWidth = o.indentWidth := by rw [ho]
  have hlines : (q.begin t).lines.map (Line.drawn o.indentWidth)
      = (p.begin t).lines.map (Line.drawn o.indentWidth) :=
    congrArg lines (drawn_begin_congr hw h t)
  have hbelow : ∀ above : List Line,
      (mk (above ++ (q.begin t).lines)).drawn o.indentWidth
        = (mk (above ++ (p.begin t).lines)).drawn o.indentWidth := by
    intro above
    rw [drawn, drawn, List.map_append, List.map_append, hlines]
  rw [write, write, hshift, hwidth]
  exact drawn_amend_congr (hbelow _) (Line.drawn_mark_congr (drawn_newest_congr (hbelow _)) t.kind)

theorem expandTabs_gap (p : Page) (o : Options) (t : Token) (spacing : Spacing) :
    Column.expandTabs o.indentWidth (p.column o.indentWidth) (p.gap o t spacing).toList
      = Column.expandTabs o.indentWidth (p.column o.indentWidth)
          (p.gap { o with convertTabs := false } t spacing).toList := by
  have hsource : Column.expandTabs o.indentWidth (p.column o.indentWidth) (p.sourceGap o t).toList
      = Column.expandTabs o.indentWidth (p.column o.indentWidth) t.space.toList := by
    rw [sourceGap]
    split
    · rw [String.toList_ofList, Column.expandTabs_expandTabs]
    · rfl
  cases spacing with
  | none => rfl
  | one => rfl
  | asWritten => exact hsource
  | atLeastOne =>
      rw [gap, gap]
      split
      · rfl
      · exact hsource

theorem drawn_ready_congr (hw : 0 < o.indentWidth) (ho : o.SameColumns o')
    (h : q.drawn o.indentWidth = p.drawn o.indentWidth) (t : Token) (layout : Layout) :
    (q.ready o' t layout).drawn o.indentWidth = (p.ready o t layout).drawn o.indentWidth := by
  cases layout with
  | newLine indent blankLines => exact drawn_newLine_congr h indent blankLines
  | sameLine spacing =>
      refine drawn_amend_congr h (Line.drawn_append_congr hw (drawn_newest_congr h) ?_)
      have hcolumn : q.column o.indentWidth = p.column o.indentWidth := column_congr hw h
      have hgap' := q.expandTabs_gap o' t spacing
      have hgap := p.expandTabs_gap o t spacing
      have hwidth : o'.indentWidth = o.indentWidth := by rw [ho]
      rw [hwidth, hcolumn] at hgap'
      rw [← column_eq_newest, hgap', hgap, ho]
      cases spacing <;> rfl

/-! ### Rendering -/

theorem untab_finished (hw : 0 < o.indentWidth) (e : LineEnd) (ls : List Line)
    (gs : List Glyph) : untab o.indentWidth 0 (finished o e ls ++ gs)
      = (ls.reverse.flatMap fun l =>
          ((l.drawn o.indentWidth).chars .spaces o.indentWidth).map .char ++ [.lineBreak e])
        ++ untab o.indentWidth 0 gs := by
  rw [finished]
  induction ls.reverse with
  | nil => rfl
  | cons l ls ih =>
      rw [List.flatMap_cons, List.flatMap_cons, List.append_assoc, List.append_assoc, untab_chars,
        Line.expandTabs_chars hw, List.singleton_append, untab, ih]
      simp

/-- A page is rendered as its drawing, but for tabs. -/
theorem untab_rendered (hw : 0 < o.indentWidth) (e : LineEnd) (p : Page) (n : Nat) :
    untab o.indentWidth 0 (p.rendered o e ++ List.replicate n (.lineBreak e))
      = ((p.drawn o.indentWidth).lines.tail.reverse.flatMap fun l =>
          (l.chars .spaces o.indentWidth).map .char ++ [.lineBreak e])
        ++ ((p.drawn o.indentWidth).newest.chars .spaces o.indentWidth).map .char
        ++ List.replicate n (.lineBreak e) := by
  have hbreaks : ∀ column, untab o.indentWidth column (List.replicate n (.lineBreak e))
      = List.replicate n (.lineBreak e) := by
    induction n with
    | zero => exact fun _ => rfl
    | succ n ih =>
        intro column
        rw [List.replicate_succ, untab, ih]
  have htail : (p.drawn o.indentWidth).lines.tail.reverse
      = p.lines.tail.reverse.map (Line.drawn o.indentWidth) := by
    rw [drawn, ← List.map_tail, List.map_reverse]
  rw [rendered, List.append_assoc, untab_finished hw, untab_chars, Line.expandTabs_chars hw,
    hbreaks, htail, List.flatMap_map, newest_drawn, List.append_assoc]
  rfl

end Page

/-! ## Plans -/

section
variable {w : Nat} {c : Cursor} {o o' : Options} {s : State} {p : Page}

theorem Cursor.blankLines_drawn (hw : 0 < w) (c : Cursor) (o : Options) (s : State) (p : Page)
    (starts afterDo : Bool) :
    c.blankLines o s (p.drawn w) starts afterDo = c.blankLines o s p starts afterDo := by
  have hapart : c.setsHeaderApart s (p.drawn w) afterDo = c.setsHeaderApart s p afterDo := by
    rw [setsHeaderApart, setsHeaderApart, p.onlyComments_drawn hw]
  rw [blankLines, blankLines, p.isEmpty_drawn, hapart]

/-- A page asks for the same plan as its drawing. -/
theorem Cursor.plan_drawn (hw : 0 < w) (c : Cursor) (o : Options) (s : State)
    (cs : List Conditional) (p : Page) : c.plan o s cs (p.drawn w) = c.plan o s cs p := by
  have hempty := p.isEmpty_drawn w
  have hjoin := p.canJoin_drawn w
  have hblank := fun o s => c.blankLines_drawn hw o s p
  have hafter : ∀ closed, Plan.breaksAfterClose o (p.drawn w) closed c.token
      = Plan.breaksAfterClose o p closed c.token := by
    intro closed
    rw [Plan.breaksAfterClose, Plan.breaksAfterClose, hjoin]
  have hopens : ∀ placement, Plan.opensLine c s (p.drawn w) placement
      = Plan.opensLine c s p placement := by
    intro placement
    simp only [Plan.opensLine, hempty, hjoin]
  have hcloses : ∀ s b, Plan.closesLine c s (p.drawn w) b = Plan.closesLine c s p b := by
    intro s b
    rw [Plan.closesLine, Plan.closesLine, hempty]
  have hcomment : Plan.comment c o s cs (p.drawn w) = Plan.comment c o s cs p := by
    rw [Plan.comment, Plan.comment, hempty, hblank]
  have hdirective : Plan.directive c o s cs (p.drawn w) = Plan.directive c o s cs p := by
    rw [Plan.directive, Plan.directive, hblank]
  have hcode : Plan.code c o s cs (p.drawn w) = Plan.code c o s cs p := by
    simp only [Plan.code, hempty, hblank, hafter]
  have hopen : Plan.openBrace c o s cs (p.drawn w) = Plan.openBrace c o s cs p := by
    simp only [Plan.openBrace, hblank, hopens]
  have hclose : Plan.closeBrace c o s cs (p.drawn w) = Plan.closeBrace c o s cs p := by
    simp only [Plan.closeBrace, Plan.strayBrace, hempty, hblank, hcloses]
  rw [plan, plan, hcomment, hdirective, hcode, hopen, hclose]

/-! ## Two runs -/

def Progress.drawn (w : Nat) (r : Progress) : Progress := { r with page := r.page.drawn w }

theorem drawn_step (hw : 0 < o.indentWidth) (ho : o.SameColumns o') {r r' : Progress}
    (h : r'.drawn o.indentWidth = r.drawn o.indentWidth) (c : Cursor) :
    (r'.step o' c).drawn o.indentWidth = (r.step o c).drawn o.indentWidth := by
  obtain ⟨state, conditionals, page⟩ := r
  obtain ⟨state', conditionals', page'⟩ := r'
  obtain ⟨rfl, rfl, hpage⟩ := Progress.mk.inj h
  have hpage : page'.drawn o.indentWidth = page.drawn o.indentWidth := hpage
  have hplan : c.plan o' state' conditionals' page' = c.plan o state' conditionals' page := by
    rw [← c.plan_drawn hw o' _ _ page', hpage, c.plan_drawn hw, ho]
    rfl
  have hready := Page.drawn_ready_congr hw ho hpage c.token
    (c.plan o state' conditionals' page).layout
  have hcolumn := Page.column_congr hw hready
  have hwrite := Page.drawn_write_congr hw ho hready c.token
  have hindent := congrArg Page.currentIndent hwrite
  rw [Page.currentIndent_drawn, Page.currentIndent_drawn] at hindent
  have hwidth : o'.indentWidth = o.indentWidth := by rw [ho]
  have hsettle : ∀ (s : State) (p : Plan) (i : Indent), s.settle c o' p i = s.settle c o p i := by
    intro s p i
    rw [ho]
    rfl
  simp only [Progress.step, Progress.drawn, hplan, hwidth, hcolumn, hindent, hsettle, hwrite]

/-- In front of every token two runs are in the same state, with pages that are drawn alike. -/
theorem drawn_stage (hw : 0 < o.indentWidth) (ho : o.SameColumns o') (tokens : List Token)
    (n : Nat) :
    (stage o' tokens n).drawn o.indentWidth = (stage o tokens n).drawn o.indentWidth := by
  induction n with
  | zero => rfl
  | succ n ih =>
      rw [stage, stage]
      cases tokens[n]? with
      | none => exact ih
      | some t => exact drawn_step hw ho ih _

theorem drawn_layOut (hw : 0 < o.indentWidth) (ho : o.SameColumns o') (tokens : List Token) :
    (layOut o' tokens).drawn o.indentWidth = (layOut o tokens).drawn o.indentWidth := by
  rw [layOut_eq_stage, layOut_eq_stage]
  exact congrArg Progress.page (drawn_stage hw ho tokens tokens.length)

end

end Beautifier
