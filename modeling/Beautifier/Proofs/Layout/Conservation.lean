/-
Formatting conserves ink.

Each step appends white space and then the text of its token to the page, and
rendering adds and drops white space only.  So the ink of the output is the
ink of the tokens in their order, and with no braces added that of the source
(`ink_format`).
-/
import Beautifier.Proofs.Layout.Stage
import Beautifier.Proofs.Token.Cover
import Beautifier.Proofs.Text.Tabs

namespace Beautifier

def Page.ink (p : Page) : List Char := p.lines.reverse.flatMap fun l => Beautifier.ink l.text.toList

/-- The white space in front of a token is white space. -/
def Token.HasSpace (t : Token) : Prop := ∀ c ∈ t.space.toList, isSpace c = true

/-! ## What is put on the page -/

namespace Page

theorem ink_newLine (p : Page) (indent : Indent) (blankLines : Nat) :
    (p.newLine indent blankLines).ink = p.ink := by
  simp [Page.ink, newLine, Line.empty, List.flatMap_append, List.flatMap_replicate]

theorem ink_amend (p : Page) (f : Line → Line) (more : List Char)
    (hf : ∀ l, Beautifier.ink (f l).text.toList = Beautifier.ink l.text.toList ++ more) :
    (p.amend f).ink = p.ink ++ more := by
  unfold amend
  split
  · next h => simp [Page.ink, h, hf, Line.empty]
  · next l rest h => simp [Page.ink, h, hf]

theorem ink_space (p : Page) {gap : String} (hgap : ∀ c ∈ gap.toList, isSpace c = true) :
    (p.space gap).ink = p.ink := by
  have h := ink_amend p (·.append gap) [] fun l => by simp [Line.append, ink_eq_nil hgap]
  rw [space, h, List.append_nil]

theorem ink_continuation (kind : TokenKind) (width : Nat) (shift : Int) (piece : List Char) :
    Beautifier.ink (Line.continuation kind width shift piece).text.toList
      = Beautifier.ink piece := by
  cases kind <;> simp [Line.continuation]

theorem ink_push (p : Page) (width : Nat) (kind : TokenKind) (shift : Int) (text : String) :
    (p.push width kind shift text).ink = p.ink ++ Beautifier.ink text.toList := by
  have hlines := ink_linesOf (glyphs text.toList)
  rw [chars_glyphs] at hlines
  simp only [push]
  generalize (linesOf (glyphs text.toList)).1 = first at hlines ⊢
  generalize (linesOf (glyphs text.toList)).2 = others at hlines ⊢
  have hmark : ∀ q : Page, (q.amend (Line.mark kind)).ink = q.ink := by
    intro q
    have h := ink_amend q (Line.mark kind) [] fun l => by cases kind <;> simp [Line.mark]
    rw [h, List.append_nil]
  have hbegun := ink_amend p (fun l =>
      let l := l.append (String.ofList first)
      if Line.keepsBlanks kind && !others.isEmpty then { l with trimmed := false } else l)
    (Beautifier.ink first) (fun l => by simp only []; split <;> simp [Line.append])
  rw [hmark, ← hlines, ← List.append_assoc, ← hbegun]
  simp only [Page.ink, List.reverse_append, List.reverse_reverse, List.flatMap_append,
    List.flatMap_map, ink_continuation]

/-! ## What rendering does -/

theorem ink_lineChars (kind : IndentKind) (width : Nat) (l : Line) :
    Beautifier.ink (l.chars kind width) = Beautifier.ink l.text.toList := by
  have htext : Beautifier.ink (if l.trimmed then trimRight isBlank l.text.toList
      else l.text.toList) = Beautifier.ink l.text.toList := by
    split
    · exact ink_trimRight _
    · rfl
  rw [Line.chars]
  generalize (if l.trimmed then trimRight isBlank l.text.toList else l.text.toList) = text
    at htext ⊢
  split
  · next h => rw [← htext, List.isEmpty_iff.mp h]
  · rw [ink_append, ink_indent, List.nil_append, htext]

theorem ink_intersperse (e : LineEnd) (lines : List (List Char)) :
    Beautifier.ink (lines.intersperse e.chars).flatten = lines.flatMap Beautifier.ink := by
  induction lines with
  | nil => rfl
  | cons l rest ih =>
      cases rest with
      | nil => simp
      | cons l' rest =>
          rw [List.intersperse_cons_cons, List.flatten_cons, List.flatten_cons, ink_append,
            ink_append, ink_lineEnd, ih, List.nil_append, ← List.flatMap_cons]

theorem ink_lineEnds (e : LineEnd) (n : Nat) :
    Beautifier.ink (List.replicate n e.chars).flatten = [] := by
  apply ink_eq_nil
  intro c hc
  obtain ⟨l, hl, hc⟩ := List.mem_flatten.mp hc
  rw [(List.mem_replicate.mp hl).2] at hc
  exact isSpace_of_mem_lineEnd hc

theorem ink_render (p : Page) (kind : IndentKind) (width : Nat) (e : LineEnd) (trailing : Nat) :
    Beautifier.ink (p.render kind width e trailing).toList = p.ink := by
  simp only [render, String.toList_ofList, ink_append, ink_intersperse, ink_lineEnds,
    List.append_nil, List.flatMap_map, ink_lineChars, Page.ink]

end Page

/-! ## What the gaps are -/

variable {q : Char → Prop}

/-- A gap is made of spaces and of what stands in front of the token in the source. -/
theorem Page.forall_mem_gap (p : Page) (o : Options) {t : Token} (hone : q ' ')
    (ht : ∀ c ∈ t.space.toList, q c) (spacing : Spacing) :
    ∀ c ∈ (p.gap o t spacing).toList, q c := by
  have hsource : ∀ c ∈ (p.sourceGap o t).toList, q c := by
    rw [Page.sourceGap]
    split
    · rw [String.toList_ofList]
      exact forall_mem_expandTabs hone ht _
    · exact ht
  have hspace : ∀ c ∈ " ".toList, q c := by
    intro c hc
    rwa [List.mem_singleton.mp hc]
  cases spacing with
  | none => exact fun c hc => absurd hc List.not_mem_nil
  | one => exact hspace
  | asWritten => exact hsource
  | atLeastOne =>
      rw [Page.gap]
      split
      · exact hspace
      · exact hsource

/-! ## The run -/

/-- One step appends the ink of its token. -/
theorem ink_step (o : Options) (r : Progress) (c : Cursor) (hc : c.token.HasSpace) :
    (r.step o c).page.ink = r.page.ink ++ ink c.token.text.toList := by
  have hready : ∀ layout, (r.page.ready o c.token layout).ink = r.page.ink := by
    intro layout
    cases layout with
    | newLine indent blankLines => exact Page.ink_newLine ..
    | sameLine spacing =>
        have hone : isSpace ' ' = true := rfl
        exact Page.ink_space _ (Page.forall_mem_gap _ _ hone hc _)
  simp only [Progress.step, Page.write, Page.ink_push, hready]

theorem ink_layOut (o : Options) {tokens : List Token} (ht : ∀ t ∈ tokens, t.HasSpace) :
    (layOut o tokens).ink = tokens.flatMap fun t => ink t.text.toList := by
  have h : (stage o tokens tokens.length).page.ink
      = (tokens.take tokens.length).flatMap fun t => ink t.text.toList := stage_induction
    (P := fun n r => r.page.ink = (tokens.take n).flatMap fun t => ink t.text.toList) rfl
    (by
      intro n t r hget ih
      rw [ink_step o r _ (ht t (List.mem_of_getElem? hget)), ih, List.take_add_one, hget]
      simp [cursorAt])
    tokens.length (Nat.le_refl _)
  rw [layOut_eq_stage, h, List.take_length]

theorem mem_insertAt {position : Nat} {opens closes : List Nat} {ts : List Token} {t : Token}
    (h : t ∈ BraceInsertion.insertAt position opens closes ts) :
    t ∈ ts ∨ t = BraceInsertion.openingBrace ∨ t = BraceInsertion.closingBrace := by
  induction ts generalizing position opens closes with
  | nil => exact absurd h List.not_mem_nil
  | cons u ts ih =>
      simp only [BraceInsertion.insertAt, List.mem_append, List.mem_map, List.mem_cons] at h
      rcases h with (⟨_, _, rfl⟩ | rfl | ⟨_, _, rfl⟩) | h
      · exact .inr (.inl rfl)
      · exact .inl List.mem_cons_self
      · exact .inr (.inr rfl)
      · rcases ih h with h | h
        · exact .inl (List.mem_cons_of_mem _ h)
        · exact .inr h

/-- What is laid out are tokens of the source and braces put in. -/
theorem forall_mem_tokensToLayOut {P : Token → Prop} (o : Options) {stream : TokenStream}
    (hread : ∀ t ∈ stream.tokens, P t) (hopening : P BraceInsertion.openingBrace)
    (hclosing : P BraceInsertion.closingBrace) : ∀ t ∈ tokensToLayOut o stream, P t := by
  intro t ht
  rw [tokensToLayOut] at ht
  split at ht
  · rcases mem_insertAt ht with ht | rfl | rfl
    · exact hread t ht
    · exact hopening
    · exact hclosing
  · exact hread t ht

theorem hasSpace_tokensToLayOut (o : Options) {stream : TokenStream}
    (h : ∀ t ∈ stream.tokens, t.HasSpace) : ∀ t ∈ tokensToLayOut o stream, t.HasSpace := by
  have hone : ∀ c ∈ " ".toList, isSpace c = true := by
    intro c hc
    rw [List.mem_singleton.mp hc]
    rfl
  exact forall_mem_tokensToLayOut o h hone hone

theorem starts_tokensToLayOut (o : Options) (language : Language) (width : Nat)
    (source : String) : ∀ t ∈ tokensToLayOut o (tokenize language width source),
      ∃ first behind, t.text.toList = first :: behind ∧ isSpace first = false := by
  refine forall_mem_tokensToLayOut o ?_ ⟨_, _, rfl, rfl⟩ ⟨_, _, rfl, rfl⟩
  obtain ⟨gaps, -, hall, -⟩ :=
    (partition_tokenize language width source).exists_gaps (canonical_glyphs _)
  intro t ht
  obtain ⟨n, hn, rfl⟩ := List.mem_iff_getElem.mp ht
  exact (hall.get hn (hall.length_eq ▸ hn)).starts

/-- Formatting moves white space and nothing else: the ink of the output is that of the tokens
that are laid out, in their order, and without added braces that of the source.  No option and no
fault of the source makes a difference. -/
theorem ink_format (o : Options) (source : String) :
    ink (format o source).toList
        = (tokensToLayOut o (tokenize o.language o.indentWidth source)).flatMap
            (fun t => ink t.text.toList)
      ∧ (o.addBraces = false → ink (format o source).toList = ink source.toList) := by
  have hpart := partition_tokenize o.language o.indentWidth source
  have hspace : ∀ t ∈ (tokenize o.language o.indentWidth source).tokens, t.HasSpace :=
    fun t ht c hc => isSpace_of_isGapChar (hpart.isGapChar_of_mem_space t ht c hc)
  have hlaid : ink (format o source).toList
      = (tokensToLayOut o (tokenize o.language o.indentWidth source)).flatMap
          (fun t => ink t.text.toList) := by
    simp only [format, Page.ink_render]
    exact ink_layOut o (hasSpace_tokensToLayOut o hspace)
  refine ⟨hlaid, fun hadd => ?_⟩
  rw [hlaid, tokensToLayOut, if_neg (by simp [hadd]), ← hpart.ink_eq, chars_glyphs]

/-- A source with an unmatched brace and an open string keeps its ink under default options. -/
theorem ink_format_unbalanced :
    Options.default.addBraces = false ∧
      ink (format .default "\x7d if(a \x22b").toList = ink "\x7d if(a \x22b".toList :=
  ⟨rfl, (ink_format .default "\x7d if(a \x22b").2 rfl⟩

end Beautifier
