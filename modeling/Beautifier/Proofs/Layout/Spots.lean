/-
Where tokens are written.

The spot of a token is the line of the output that its text starts on, with
what stands there in front of it.  The further lines of the text stand below,
one by one, and the next token starts on the last of them or further down
(`line_lt_spotAt`).  A line of the page stays as it is once a newer one has been
started (`line?_stage`), so the output reads at each spot as the page did when
the token was written (`writtenAt_spotAt`), and a line of the output is read
off at the last token that stands on it (`exists_lastOn`).
-/
import Beautifier.Proofs.Layout.Drawn
import Beautifier.Proofs.Layout.StartedLines

namespace Beautifier

/-- Where a token is written: on which line of the output, counted from the top, how that line is
indented, and what stands between its indentation and the token. -/
structure Spot where
  line : Nat
  indent : Indent
  text : List Char
deriving DecidableEq, Repr

namespace Spot

/-- What stands in front of the token on its line. -/
def front (o : Options) (s : Spot) : List Char :=
  s.indent.chars o.indentKind o.indentWidth ++ s.text

def column (o : Options) (s : Spot) : Nat := Column.width o.indentWidth (s.front o)

theorem column_of_text_eq_nil {o : Options} (hw : 0 < o.indentWidth) {s : Spot} (h : s.text = []) :
    s.column o = s.indent.columns o.indentWidth := by
  rw [column, front, h, List.append_nil]
  exact Indent.advance_chars hw o.indentKind s.indent

end Spot

/-- A line without the marks that its tokens have left on it. -/
def Line.unmarked (l : Line) : Line :=
  { l with hasCode := false, lineComment := false, directive := false }

theorem Line.unmarked_mark (kind : TokenKind) (l : Line) : (l.mark kind).unmarked = l.unmarked := by
  cases kind <;> rfl

namespace Page

variable {p q : Page} {o : Options} {t : Token} {a : Nat}

def spot (p : Page) : Spot := ⟨p.lines.length - 1, p.newest.indent, p.newest.text.toList⟩

/-- The line of a page at a place, counted from the top. -/
def line? (p : Page) (a : Nat) : Option Line := p.lines.reverse[a]?

theorem spot_newLine (p : Page) (indent : Indent) (blankLines : Nat) :
    (p.newLine indent blankLines).spot = ⟨p.lines.length + blankLines, indent, []⟩ := by
  simp [spot, newLine, newest, Line.empty, Nat.add_comm]

theorem spot_space (p : Page) (gap : String) : (p.space gap).spot
    = { p.spot with text := p.spot.text ++ gap.toList } := by
  cases hp : p.lines <;> simp [spot, space, amend, newest, hp, Line.append]

theorem column_spot (hw : 0 < o.indentWidth) (p : Page) :
    p.spot.column o = p.column o.indentWidth := by
  rw [Spot.column, Spot.front, Column.width, Column.advance_append, spot,
    Indent.advance_chars hw, column_eq_newest, Line.column]

/-! ## Writing a token -/

/-- The lines of a page behind a token, from the top: the first line of the text goes on with the
newest line, and the others stand below. -/
theorem unmarked_write (p : Page) (t : Token) :
    (p.write o t).lines.reverse.map Line.unmarked
      = p.lines.tail.reverse.map Line.unmarked ++ (p.begin t).newest.unmarked ::
          t.lines.2.map fun piece =>
            (Line.continuation t.kind o.indentWidth (p.shift o t) piece).unmarked := by
  have hbegin : (p.begin t).lines = (p.begin t).newest :: p.lines.tail := by
    rw [newest, begin, lines_amend, List.headD_cons]
  have hamend : ∀ q : Page, q.lines ≠ [] →
      (q.amend (Line.mark t.kind)).lines.map Line.unmarked = q.lines.map Line.unmarked := by
    intro q hq
    obtain ⟨l, ls, hl⟩ := List.exists_cons_of_ne_nil hq
    rw [lines_amend, hl, List.headD_cons, List.tail_cons, List.map_cons, List.map_cons,
      Line.unmarked_mark]
  have hwritten : (p.write o t).lines.map Line.unmarked
      = ((t.lines.2.map (Line.continuation t.kind o.indentWidth (p.shift o t))).reverse
          ++ (p.begin t).lines).map Line.unmarked :=
    hamend ⟨_⟩ (List.append_ne_nil_of_right_ne_nil _ (lines_begin p t))
  rw [List.map_reverse, hwritten, hbegin]
  simp [Function.comp_def]

theorem length_write (p : Page) (t : Token) :
    (p.write o t).lines.length = p.spot.line + 1 + t.lines.2.length := by
  have hlength := congrArg List.length (p.unmarked_write (o := o) t)
  simp only [List.length_map, List.length_reverse, List.length_append, List.length_cons,
    List.length_tail] at hlength
  have hspot : p.spot.line = p.lines.length - 1 := rfl
  omega

theorem line?_write_first (p : Page) (t : Token) :
    ((p.write o t).line? p.spot.line).map Line.unmarked = some (p.begin t).newest.unmarked := by
  have htail : (p.lines.tail.reverse.map Line.unmarked).length = p.spot.line := by
    simp [spot]
  rw [line?, ← List.getElem?_map, unmarked_write, List.getElem?_append_right (Nat.le_of_eq htail),
    htail, Nat.sub_self, List.getElem?_cons_zero]

theorem line?_write_further (p : Page) (t : Token) (i : Nat) :
    ((p.write o t).line? (p.spot.line + 1 + i)).map Line.unmarked
      = t.lines.2[i]?.map fun piece =>
          (Line.continuation t.kind o.indentWidth (p.shift o t) piece).unmarked := by
  have htail : (p.lines.tail.reverse.map Line.unmarked).length = p.spot.line := by
    simp [spot]
  have hindex : p.spot.line + 1 + i - p.spot.line = i + 1 := by omega
  rw [line?, ← List.getElem?_map, unmarked_write, List.getElem?_append_right (by omega), htail,
    hindex, List.getElem?_cons_succ, List.getElem?_map]

theorem exists_lines_eq_of_line? {l : Line} (h : p.line? a = some l) :
    ∃ above earlier, p.lines = above ++ l :: earlier ∧ earlier.length = a := by
  obtain ⟨ha, hl⟩ := List.getElem?_eq_some_iff.mp h
  refine ⟨(p.lines.reverse.drop (a + 1)).reverse, (p.lines.reverse.take a).reverse, ?_, ?_⟩
  · conv => lhs; rw [← List.reverse_reverse p.lines, ← List.take_append_drop a p.lines.reverse,
      List.drop_eq_getElem_cons ha, hl]
    simp
  · rw [List.length_reverse, List.length_take]
    exact Nat.min_eq_left ha.le

theorem Later.line?_eq (h : p.Later q) (ha : a + 1 < p.lines.length) : q.line? a = p.line? a := by
  cases hp : p.lines with
  | nil =>
      rw [hp] at ha
      exact absurd ha (Nat.not_lt_zero _)
  | cons l earlier =>
      obtain ⟨above, l', hq, -⟩ := h l earlier hp
      rw [hp, List.length_cons] at ha
      rw [line?, line?, hp, hq]
      simp only [List.reverse_append, List.reverse_cons, List.append_assoc]
      rw [List.getElem?_append_left (by simpa using ha),
        List.getElem?_append_left (by simpa using ha)]

end Page

def spotAt (o : Options) (tokens : List Token) (n : Nat) (t : Token) : Spot :=
  ((stage o tokens n).page.ready o t (planAt o tokens n t).layout).spot

section
variable {o : Options} {tokens : List Token} {m n a : Nat} {t u : Token}

/-! ## The lines of a token -/

theorem spotAt_of_newLine {indent : Indent} {blankLines : Nat}
    (h : (planAt o tokens n t).layout = .newLine indent blankLines) : spotAt o tokens n t
      = ⟨(stage o tokens n).page.lines.length + blankLines, indent, []⟩ := by
  rw [spotAt, h]
  exact Page.spot_newLine ..

theorem spotAt_of_sameLine {spacing : Spacing}
    (h : (planAt o tokens n t).layout = .sameLine spacing) : spotAt o tokens n t
      = { (stage o tokens n).page.spot with
          text := (stage o tokens n).page.spot.text
            ++ ((stage o tokens n).page.gap o t spacing).toList } := by
  rw [spotAt, h]
  exact Page.spot_space ..

/-- A token that starts a line stands behind its indentation and nothing else. -/
theorem spotAt_of_startedLine? (hget : tokens[n]? = some t) (h : startedLine? o tokens n = some a) :
    ∃ indent blankLines, (planAt o tokens n t).layout = .newLine indent blankLines ∧
      spotAt o tokens n t = ⟨a, indent, []⟩ := by
  rw [startedLine?, hget, Option.bind_some] at h
  split at h
  · next indent blankLines hlayout =>
    cases h
    exact ⟨indent, blankLines, hlayout, spotAt_of_newLine hlayout⟩
  · cases h

/-- A directive starts a line at the margin. -/
theorem layout_directive (o : Options) (tokens : List Token) (n : Nat)
    (hkind : t.kind = .directive) :
    ∃ blankLines, (planAt o tokens n t).layout = .newLine .zero blankLines := by
  rw [planAt, Cursor.plan]
  simp only [cursorAt, hkind]
  exact ⟨_, rfl⟩

theorem sameLine_of_startedLine? (hget : tokens[n]? = some t) (h : startedLine? o tokens n = none) :
    ∃ spacing, (planAt o tokens n t).layout = .sameLine spacing := by
  cases hlayout : (planAt o tokens n t).layout with
  | newLine indent blankLines =>
      have hsome := (isSome_startedLine? (o := o) hget).mpr ⟨indent, blankLines, hlayout⟩
      rw [h] at hsome
      cases hsome
  | sameLine spacing => exact ⟨spacing, rfl⟩

theorem length_stage_succ (hget : tokens[n]? = some t) : (stage o tokens (n + 1)).page.lines.length
    = (spotAt o tokens n t).line + 1 + t.lines.2.length := by
  rw [page_stage_succ hget]
  exact Page.length_write ..

theorem exists_firstLine_stage (hget : tokens[n]? = some t) :
    ∃ l, (stage o tokens (n + 1)).page.line? (spotAt o tokens n t).line = some l ∧
      l.indent = (spotAt o tokens n t).indent ∧
      l.text.toList = (spotAt o tokens n t).text ++ t.lines.1 ∧
      l.trimmed = (((stage o tokens n).page.ready o t
        (planAt o tokens n t).layout).begin t).newest.trimmed := by
  obtain ⟨l, hline, hl⟩ := Option.map_eq_some_iff.mp
    (((stage o tokens n).page.ready o t (planAt o tokens n t).layout).line?_write_first (o := o) t)
  obtain ⟨htext, hindent⟩ := Page.text_newest_begin
    ((stage o tokens n).page.ready o t (planAt o tokens n t).layout) t
  rw [← page_stage_succ hget] at hline
  have htrimmed := congrArg Line.trimmed hl
  exact ⟨l, hline, (congrArg Line.indent hl).trans hindent,
    (congrArg (fun l : Line => l.text.toList) hl).trans htext, htrimmed⟩

theorem exists_furtherLine_stage {i : Nat} {piece : List Char} (hget : tokens[n]? = some t)
    (hpiece : t.lines.2[i]? = some piece) :
    ∃ l, (stage o tokens (n + 1)).page.line? ((spotAt o tokens n t).line + 1 + i) = some l ∧
      l.unmarked = (Line.continuation t.kind o.indentWidth (((stage o tokens n).page.ready o t
        (planAt o tokens n t).layout).shift o t) piece).unmarked := by
  have hwritten := ((stage o tokens n).page.ready o t
    (planAt o tokens n t).layout).line?_write_further (o := o) t i
  rw [← page_stage_succ hget, hpiece, Option.map_some] at hwritten
  exact Option.map_eq_some_iff.mp hwritten

theorem length_stage_le (o : Options) (tokens : List Token) (h : m ≤ n) :
    (stage o tokens m).page.lines.length ≤ (stage o tokens n).page.lines.length := by
  have hlength := (indents_suffix_stage o tokens h).length_le
  rwa [List.length_map, List.length_map] at hlength

theorem length_stage_le_line (o : Options) (tokens : List Token) (n : Nat) (t : Token) :
    (stage o tokens n).page.lines.length ≤ (spotAt o tokens n t).line + 1 := by
  cases hlayout : (planAt o tokens n t).layout with
  | newLine indent blankLines =>
      rw [spotAt_of_newLine hlayout]
      exact Nat.le_succ_of_le (Nat.le_add_right _ _)
  | sameLine spacing =>
      rw [spotAt_of_sameLine hlayout]
      exact Nat.le_add_of_sub_le (Nat.le_refl _)

/-- A token starts no higher than the last line of any token before it. -/
theorem line_le_spotAt (hmn : m < n) (hget : tokens[m]? = some t) (u : Token) :
    (spotAt o tokens m t).line + t.lines.2.length ≤ (spotAt o tokens n u).line := by
  have hbehind := length_stage_succ (o := o) hget
  have hle := length_stage_le (m := m + 1) o tokens hmn
  have hstart := length_stage_le_line o tokens n u
  omega

/-- A token that starts a line starts it below all tokens before. -/
theorem line_lt_spotAt (hmn : m < n) (hget : tokens[m]? = some t) (hu : tokens[n]? = some u)
    (ha : startedLine? o tokens n = some a) :
    (spotAt o tokens m t).line + t.lines.2.length < a := by
  obtain ⟨indent, blankLines, hlayout, hspot⟩ := spotAt_of_startedLine? hu ha
  have hline : (spotAt o tokens n u).line = a := by rw [hspot]
  rw [spotAt_of_newLine hlayout] at hline
  have hbehind := length_stage_succ (o := o) hget
  have hle := length_stage_le (m := m + 1) o tokens hmn
  dsimp only at hline
  omega

theorem line_spotAt_succ (hget : tokens[n]? = some t) (hu : tokens[n + 1]? = some u)
    (h : startedLine? o tokens (n + 1) = none) :
    (spotAt o tokens (n + 1) u).line = (spotAt o tokens n t).line + t.lines.2.length := by
  obtain ⟨spacing, hlayout⟩ := sameLine_of_startedLine? hu h
  have hbehind := length_stage_succ (o := o) hget
  rw [spotAt_of_sameLine hlayout, Page.spot, hbehind]
  dsimp only
  omega

/-! ## Lines stay -/

/-- A line stays as it is once there is a newer one. -/
theorem line?_stage (o : Options) (tokens : List Token) (hmn : m ≤ n)
    (ha : a + 1 < (stage o tokens m).page.lines.length) :
    (stage o tokens n).page.line? a = (stage o tokens m).page.line? a :=
  (later_stage o tokens hmn).line?_eq ha

theorem exists_line?_stage (o : Options) (tokens : List Token) (hmn : m ≤ n) {l : Line}
    (h : (stage o tokens m).page.line? a = some l) :
    ∃ l', (stage o tokens n).page.line? a = some l' ∧ l'.indent = l.indent ∧
      l.text.toList <+: l'.text.toList := by
  obtain ⟨_, earlier, hlines, hlength⟩ := Page.exists_lines_eq_of_line? h
  obtain ⟨above, l', hfinal, hprefix⟩ := (later_stage o tokens hmn).line hlines
  have hindents := indents_suffix_stage o tokens hmn
  rw [hlines, hfinal, List.map_append, List.map_append, List.map_cons, List.map_cons] at hindents
  have hsame := (List.suffix_of_suffix_length_le ((List.suffix_append _ _).trans hindents)
    (List.suffix_append _ _) (by simp)).eq_of_length (by simp)
  refine ⟨l', ?_, (List.cons.inj hsame).1.symm, hprefix⟩
  rw [Page.line?, hfinal]
  simp [← hlength]

theorem line?_of_blankLines (hget : tokens[n]? = some t) {indent : Indent} {blankLines : Nat}
    (hlayout : (planAt o tokens n t).layout = .newLine indent blankLines)
    (ha : (stage o tokens n).page.lines.length ≤ a) (hlt : a < (spotAt o tokens n t).line) :
    (layOut o tokens).line? a = some (.empty .zero) := by
  have hn : n + 1 ≤ tokens.length := (List.getElem?_eq_some_iff.mp hget).1
  have hbehind := length_stage_succ (o := o) hget
  have hblank : (((stage o tokens n).page.newLine indent blankLines).write o t).line? a
      = some (.empty .zero) := by
    obtain ⟨above, l, hlines, -⟩ := Page.lines_push
      ((stage o tokens n).page.newLine indent blankLines) o.indentWidth t.kind
      (((stage o tokens n).page.newLine indent blankLines).shift o t) t.text
    rw [Page.line?, Page.write, hlines]
    rw [spotAt_of_newLine hlayout] at hlt
    have hcount : a - (stage o tokens n).page.lines.length < blankLines := by
      dsimp only at hlt
      omega
    simp only [Page.newLine, List.tail_cons, List.reverse_append, List.reverse_cons,
      List.append_assoc, List.reverse_replicate]
    rw [List.getElem?_append_right (by simpa using ha), List.length_reverse,
      List.getElem?_append_left (by simpa using hcount), List.getElem?_replicate, if_pos hcount]
  rw [layOut_eq_stage, line?_stage o tokens hn (by omega), page_stage_succ hget, hlayout]
  exact hblank

/-- The token at a position is the last one on a line: its text reaches to the line, and the next
token starts further down. -/
structure LastOn (o : Options) (tokens : List Token) (n : Nat) (t : Token) (a : Nat) : Prop where
  get : tokens[n]? = some t
  first : (spotAt o tokens n t).line ≤ a
  last : a ≤ (spotAt o tokens n t).line + t.lines.2.length
  next : ∀ u, tokens[n + 1]? = some u → a < (spotAt o tokens (n + 1) u).line

/-- A token is the last one on each line that it reaches, or the next token goes on with its last
line. -/
theorem lastOn_or_joined (hget : tokens[n]? = some t) (hfirst : (spotAt o tokens n t).line ≤ a)
    (hlast : a ≤ (spotAt o tokens n t).line + t.lines.2.length) :
    LastOn o tokens n t a ∨ a = (spotAt o tokens n t).line + t.lines.2.length ∧
      n + 1 < tokens.length ∧ startedLine? o tokens (n + 1) = none := by
  by_cases hnext : ∃ u, tokens[n + 1]? = some u ∧ (spotAt o tokens (n + 1) u).line ≤ a
  · obtain ⟨u, hu, hle⟩ := hnext
    refine .inr ?_
    cases hstarts : startedLine? o tokens (n + 1) with
    | some b =>
        obtain ⟨_, _, -, hspot⟩ := spotAt_of_startedLine? hu hstarts
        have hlt := line_lt_spotAt (Nat.lt_succ_self n) hget hu hstarts
        rw [hspot] at hle
        dsimp only at hle
        omega
    | none =>
        have hline := line_spotAt_succ hget hu hstarts
        exact ⟨by omega, (List.getElem?_eq_some_iff.mp hu).1, rfl⟩
  · refine .inl ⟨hget, hfirst, hlast, fun u hu => ?_⟩
    exact Nat.lt_of_not_le fun hle => hnext ⟨u, hu, hle⟩

/-- Nothing changes a line behind the last token on it. -/
theorem LastOn.line?_layOut (h : LastOn o tokens n t a) :
    (layOut o tokens).line? a = (stage o tokens (n + 1)).page.line? a := by
  have hn : n + 1 ≤ tokens.length := (List.getElem?_eq_some_iff.mp h.get).1
  have hbehind := length_stage_succ (o := o) h.get
  have hlast := h.last
  rw [layOut_eq_stage]
  cases hu : tokens[n + 1]? with
  | none =>
      rw [Nat.le_antisymm (List.getElem?_eq_none_iff.mp hu) hn]
  | some u =>
      have hnext := h.next u hu
      rcases Nat.eq_or_lt_of_le hlast with heq | hlt
      · -- the next token starts a line, and the newest line of the page stays as it is
        have hu' := (List.getElem?_eq_some_iff.mp hu).1
        cases hlayout : (planAt o tokens (n + 1) u).layout with
        | sameLine spacing =>
            rw [spotAt_of_sameLine hlayout, Page.spot, hbehind] at hnext
            dsimp only at hnext
            omega
        | newLine indent blankLines =>
            have hsuffix : (stage o tokens (n + 1)).page.lines
                <:+ (stage o tokens tokens.length).page.lines := by
              have hstep := Page.suffix_tail_step (c := cursorAt tokens (n + 1) u) hlayout
              rw [← stage_succ hu] at hstep
              exact (later_stage o tokens hu').suffix hstep.1 hstep.2
            obtain ⟨above, habove⟩ := hsuffix
            rw [Page.line?, Page.line?, ← habove, List.reverse_append,
              List.getElem?_append_left (by rw [List.length_reverse]; omega)]
      · exact line?_stage o tokens hn (by omega)

/-- Among the tokens from one on that starts no lower than a line, there is a last one. -/
theorem exists_last_le (hget : tokens[m]? = some t) (ha : (spotAt o tokens m t).line ≤ a) :
    ∃ n u, m ≤ n ∧ tokens[n]? = some u ∧ (spotAt o tokens n u).line ≤ a ∧
      ∀ v, tokens[n + 1]? = some v → a < (spotAt o tokens (n + 1) v).line := by
  induction hk : tokens.length - m generalizing m t with
  | zero =>
      have hm := (List.getElem?_eq_some_iff.mp hget).1
      omega
  | succ k ih =>
      by_cases hnext : ∃ v, tokens[m + 1]? = some v ∧ (spotAt o tokens (m + 1) v).line ≤ a
      · obtain ⟨v, hv, hle⟩ := hnext
        obtain ⟨n, u, hmn, hlast⟩ := ih hv hle (by omega)
        exact ⟨n, u, Nat.le_of_succ_le hmn, hlast⟩
      · refine ⟨m, t, Nat.le_refl m, hget, ha, fun v hv => ?_⟩
        exact Nat.lt_of_not_le fun hle => hnext ⟨v, hv, hle⟩

/-- A line of the page on which no token stands was left empty above one. -/
theorem lastOn_or_blank {l : Line} (h : (layOut o tokens).line? a = some l) :
    (∃ n t, LastOn o tokens n t a) ∨ l = .empty .zero := by
  have ha : a < (stage o tokens tokens.length).page.lines.length := by
    have hlt := (List.getElem?_eq_some_iff.mp h).1
    rwa [List.length_reverse, layOut_eq_stage] at hlt
  have hblank : ∀ n t, tokens[n]? = some t → (stage o tokens n).page.lines.length ≤ a →
      a < (spotAt o tokens n t).line → l = .empty .zero := by
    intro n t hget hle hlt
    cases hlayout : (planAt o tokens n t).layout with
    | sameLine spacing =>
        rw [spotAt_of_sameLine hlayout, Page.spot] at hlt
        dsimp only at hlt
        omega
    | newLine indent blankLines =>
        rw [line?_of_blankLines hget hlayout hle hlt] at h
        exact (Option.some.inj h).symm
  cases hfirst : tokens[0]? with
  | none =>
      rw [List.getElem?_eq_none_iff, Nat.le_zero, List.length_eq_zero_iff] at hfirst
      rw [hfirst] at ha
      exact absurd ha (Nat.not_lt_zero a)
  | some t =>
      by_cases hle : (spotAt o tokens 0 t).line ≤ a
      · obtain ⟨n, u, -, hget, hstart, hnext⟩ := exists_last_le hfirst hle
        by_cases hlast : a ≤ (spotAt o tokens n u).line + u.lines.2.length
        · exact .inl ⟨n, u, hget, hstart, hlast, hnext⟩
        · have hbehind := length_stage_succ (o := o) hget
          cases hv : tokens[n + 1]? with
          | none =>
              have hn := (List.getElem?_eq_some_iff.mp hget).1
              rw [← Nat.le_antisymm (List.getElem?_eq_none_iff.mp hv) hn] at hbehind
              omega
          | some v => exact .inr (hblank (n + 1) v hv (by omega) (hnext v hv))
      · exact .inr (hblank 0 t hfirst (Nat.zero_le a) (Nat.lt_of_not_le hle))

end

/-! ## Reading the output -/

theorem trimRight_prefix_append (p : Char → Bool) (text rest : List Char) :
    trimRight p text <+: trimRight p (text ++ rest) := by
  induction rest using List.reverseRecOn with
  | nil => rw [List.append_nil]
  | append_singleton rest c ih =>
      rw [← List.append_assoc]
      cases hc : p c with
      | true => rwa [trimRight_append (List.forall_mem_singleton.mpr hc)]
      | false =>
          obtain ⟨cut, -, htext⟩ := exists_trimRight_append p text
          refine List.IsPrefix.trans ⟨cut, htext.symm⟩ ?_
          rw [trimRight_concat hc, List.append_assoc]
          exact List.prefix_append ..

theorem Line.exists_chars_eq (kind : IndentKind) (width : Nat) {l : Line} {front text : List Char}
    {c : Char} {more : List Char} (htext : text = c :: more) (hc : isBlank c = false)
    (h : front ++ text <+: l.text.toList) :
    ∃ rest, l.chars kind width
      = l.indent.chars kind width ++ front ++ trimRight isBlank text ++ rest := by
  obtain ⟨behind, hbehind⟩ := h
  have hshown : ∃ rest, (if l.trimmed then trimRight isBlank l.text.toList else l.text.toList)
      = front ++ (trimRight isBlank text ++ rest) := by
    rw [← hbehind, List.append_assoc]
    split
    · obtain ⟨rest, hrest⟩ := trimRight_prefix_append isBlank text behind
      refine ⟨rest, ?_⟩
      rw [hrest, htext, List.cons_append, trimRight_append_cons hc]
    · obtain ⟨cut, -, hcut⟩ := exists_trimRight_append isBlank text
      exact ⟨cut ++ behind, by rw [← List.append_assoc (trimRight isBlank text), ← hcut]⟩
  obtain ⟨rest, hrest⟩ := hshown
  obtain ⟨more', hmore⟩ := trimRight_cons hc more
  refine ⟨rest, ?_⟩
  rw [Line.chars, hrest, htext, hmore]
  simp

section
variable {o : Options} {source : String} {n a : Nat} {t : Token}

/-- The lines of the page are lines of the output. -/
theorem outputLines_of_line? {l : Line} (h : (layOut o
      (tokensToLayOut o (tokenize o.language o.indentWidth source))).line? a = some l) :
    (outputLines o source)[a]? = some (l.chars o.indentKind o.indentWidth) := by
  have ha := (List.getElem?_eq_some_iff.mp h).1
  have hne : (layOut o
      (tokensToLayOut o (tokenize o.language o.indentWidth source))).lines ≠ [] := by
    intro hnil
    rw [hnil] at ha
    exact absurd ha (Nat.not_lt_zero a)
  rw [outputLines_eq o source hne, List.getElem?_append_left (by simpa using ha), List.getElem?_map]
  exact congrArg _ h

/-- All lines of the output are lines of the page, but for empty ones. -/
theorem line?_of_outputLines {line : List Char} (h : (outputLines o source)[a]? = some line)
    (hne : line ≠ []) :
    ∃ l, (layOut o (tokensToLayOut o (tokenize o.language o.indentWidth source))).line? a = some l ∧
      line = l.chars o.indentKind o.indentWidth := by
  by_cases hlines : (layOut o
      (tokensToLayOut o (tokenize o.language o.indentWidth source))).lines = []
  · have hpage : outputLines o source
        = [] :: List.replicate (tokenize o.language o.indentWidth source).trailingBreaks [] := by
      rw [outputLines, glyphs_format_eq_rendered, Page.rendered, hlines]
      exact linesDown_replicate _ [] _
    rw [hpage, ← List.replicate_succ] at h
    exact absurd (List.mem_replicate.mp (List.mem_of_getElem? h)).2 hne
  · rw [outputLines_eq o source hlines, List.getElem?_append] at h
    split at h
    · rw [List.getElem?_map, Option.map_eq_some_iff] at h
      obtain ⟨l, hl, rfl⟩ := h
      exact ⟨l, hl, rfl⟩
    · exact absurd (List.mem_replicate.mp (List.mem_of_getElem? h)).2 hne

/-- The token at a position is written at a spot of the output: its line reads as what stands in
front of the token, and then the first line of its text. -/
def WrittenAt (o : Options) (source : String) (n : Nat) (s : Spot) : Prop :=
  let tokens := tokensToLayOut o (tokenize o.language o.indentWidth source)
  ∃ t more, tokens[n]? = some t ∧ spotAt o tokens n t = s ∧
    (outputLines o source)[s.line]? = some (s.front o ++ trimRight isBlank t.lines.1 ++ more)

/-- Every token is written at its spot. -/
theorem writtenAt_spotAt (o : Options) (source : String) :
    let tokens := tokensToLayOut o (tokenize o.language o.indentWidth source)
    tokens[n]? = some t → WrittenAt o source n (spotAt o tokens n t) := by
  intro tokens hget
  have hn : n + 1 ≤ tokens.length := (List.getElem?_eq_some_iff.mp hget).1
  obtain ⟨c, more, hfirst, hink⟩ := Token.StartsInInk.exists_firstLine
    (starts_tokensToLayOut o o.language o.indentWidth source t (List.mem_of_getElem? hget))
  obtain ⟨l, hline, hindent, htext, -⟩ := exists_firstLine_stage (o := o) hget
  obtain ⟨l', hfinal, hindent', hprefix⟩ := exists_line?_stage o tokens hn hline
  rw [← layOut_eq_stage] at hfinal
  rw [htext] at hprefix
  obtain ⟨rest, hchars⟩ :=
    Line.exists_chars_eq o.indentKind o.indentWidth hfirst (isBlank_eq_false hink) hprefix
  rw [hindent', hindent] at hchars
  have hread := outputLines_of_line? hfinal
  rw [hchars] at hread
  exact ⟨t, rest, hget, rfl, hread⟩

theorem WrittenAt.eq_spotAt {s : Spot} (h : WrittenAt o source n s) :
    let tokens := tokensToLayOut o (tokenize o.language o.indentWidth source)
    tokens[n]? = some t → s = spotAt o tokens n t := by
  intro tokens hget
  obtain ⟨u, _, hu, hspot, -⟩ := h
  rw [hget] at hu
  cases hu
  exact hspot.symm

/-- A line of the output that is not empty ends in the text of some token. -/
theorem exists_lastOn {line : List Char} (h : (outputLines o source)[a]? = some line)
    (hne : line ≠ []) :
    let tokens := tokensToLayOut o (tokenize o.language o.indentWidth source)
    ∃ n t l, LastOn o tokens n t a ∧ (stage o tokens (n + 1)).page.line? a = some l ∧
      line = l.chars o.indentKind o.indentWidth := by
  intro tokens
  obtain ⟨l, hl, rfl⟩ := line?_of_outputLines h hne
  rcases lastOn_or_blank hl with ⟨n, t, hlast⟩ | rfl
  · exact ⟨n, t, l, hlast, hlast.line?_layOut.symm.trans hl, rfl⟩
  · exact absurd rfl hne

end

end Beautifier
