/-
Rows as tokens.

The signs of a row say which tokens it is read as: what each is, and whether it
starts the line or what stands between it and the token before.  A text of rows,
with any blanks at the starts of its lines, is read as the tokens that the signs
tell of (`spelt_rows`, `Spelt.read`).  Blanks and columns of tokens that start
lines are left open, since the layout does not look at them.
-/
import Beautifier.Proofs.Token.Pieces
import Beautifier.Proofs.Token.Cover
import Beautifier.Proofs.Nesting.Rows

namespace Beautifier

/-! ## Lines of text -/

/-- Lines joined by line endings, and more line endings behind. -/
def writeLines (e : LineEnd) (trailing : Nat) (lines : List (List Char)) : String :=
  String.ofList
    ((lines.intersperse e.chars).flatten ++ (List.replicate trailing e.chars).flatten)

/-- The glyphs of lines and of line breaks behind them. -/
def lineGlyphs (e : LineEnd) (trailing : Nat) : List (List Char) → List Glyph
  | [] => List.replicate trailing (.lineBreak e)
  | first :: others => joinLines e first others ++ List.replicate trailing (.lineBreak e)

theorem charsOf_joinLines (e : LineEnd) (first : List Char) (others : List (List Char)) :
    Glyph.charsOf (joinLines e first others)
      = ((first :: others).intersperse e.chars).flatten := by
  have hchars : ∀ cs : List Char, Glyph.charsOf (cs.map .char) = cs := fun cs => by
    simp [Glyph.charsOf, List.flatMap_map, Glyph.chars]
  induction others generalizing first with
  | nil => simp [joinLines, hchars]
  | cons second others ih =>
      have hsecond := ih second
      rw [joinLines, Glyph.charsOf_append, hchars] at hsecond
      rw [List.intersperse_cons_cons, List.flatten_cons, List.flatten_cons, ← hsecond, joinLines,
        List.flatMap_cons, List.cons_append, Glyph.charsOf_append, Glyph.charsOf_cons,
        Glyph.charsOf_append, hchars, hchars]
      rfl

theorem plain_lineGlyphs {e : LineEnd} {trailing : Nat} {lines : List (List Char)}
    (h : ∀ l ∈ lines, ∀ c ∈ l, c ≠ '\r' ∧ c ≠ '\n') : Plain e (lineGlyphs e trailing lines) := by
  have hbreaks : Plain e (List.replicate trailing (.lineBreak e)) := by
    intro g hg
    rw [(List.mem_replicate.mp hg).2]
  cases lines with
  | nil => exact hbreaks
  | cons first others =>
      obtain ⟨hfirst, hothers⟩ := List.forall_mem_cons.mp h
      exact plain_append.mpr ⟨plain_joinLines.mpr ⟨hfirst, hothers⟩, hbreaks⟩

/-- Lines without line breaks of their own are found again. -/
theorem glyphs_writeLines {e : LineEnd} {trailing : Nat} {lines : List (List Char)}
    (h : ∀ l ∈ lines, ∀ c ∈ l, c ≠ '\r' ∧ c ≠ '\n') :
    glyphs (writeLines e trailing lines).toList = lineGlyphs e trailing lines := by
  rw [← glyphs_charsOf (plain_lineGlyphs h), writeLines, String.toList_ofList]
  congr 1
  have hbreaks : (List.replicate trailing e.chars).flatten
      = Glyph.charsOf (List.replicate trailing (.lineBreak e)) := by
    simp [Glyph.charsOf, List.flatMap_replicate, Glyph.chars]
  cases lines with
  | nil => exact hbreaks
  | cons first others =>
      rw [lineGlyphs, Glyph.charsOf_append, charsOf_joinLines, hbreaks]

/-! ## The first line ending -/

/-- Lines joined by the first line ending of a text of as many lines are joined by its only one. -/
theorem writeLines_firstEnd {e : LineEnd} {trailing : Nat} {lines lines' : List (List Char)}
    (h : ∀ l ∈ lines, ∀ c ∈ l, c ≠ '\r' ∧ c ≠ '\n') (hlength : lines'.length = lines.length) :
    writeLines (((lineGlyphs e trailing lines).findSome? Glyph.lineEnd?).getD .linux) trailing
        lines' = writeLines e trailing lines' := by
  cases hfirst : (lineGlyphs e trailing lines).findSome? Glyph.lineEnd? with
  | some e' =>
      obtain ⟨g, hg, heq⟩ := List.exists_of_findSome?_eq_some hfirst
      have hplain := plain_lineGlyphs h g hg
      cases g with
      | char c => cases heq
      | lineBreak e'' =>
          cases heq
          rw [Option.getD_some, hplain]
  | none =>
      -- without a line break there is one line at most, and nothing to join
      have hbreak : .lineBreak e ∉ lineGlyphs e trailing lines := fun hmem => by
        cases List.findSome?_eq_none_iff.mp hfirst _ hmem
      obtain rfl : trailing = 0 := by
        refine Nat.eq_zero_of_not_pos fun hpos => hbreak ?_
        have hmem : .lineBreak e ∈ List.replicate trailing (Glyph.lineBreak e) :=
          List.mem_replicate.mpr ⟨Nat.ne_of_gt hpos, rfl⟩
        cases lines with
        | nil => exact hmem
        | cons first others => exact List.mem_append_right _ hmem
      match lines, lines', hlength with
      | [], [], _ => rfl
      | [_], [_], _ => rfl
      | first :: second :: others, _, _ =>
          refine absurd ?_ hbreak
          simp [lineGlyphs, joinLines]

namespace Nesting

/-! ## Signs -/

/-- What is told of a token: what it is, and the white space in front of it; none if it starts a
line. -/
structure Sign where
  gap : Option String
  kind : TokenKind
  text : String

/-- The line breaks and the white space in front of the token at position `n` are as told.  Only
the very first token starts a line without a line break. -/
def Sign.Leads (n : Nat) (gap : Option String) (lineBreaks : Nat) (space : String) : Prop :=
  match gap with
  | none => lineBreaks = min n 1
  | some gap => lineBreaks = 0 ∧ space = gap

/-- The token at position `n` is as the sign tells. -/
structure Sign.Is (x : Sign) (n : Nat) (t : Token) : Prop where
  kind : t.kind = x.kind
  text : t.text = x.text
  inserted : t.inserted = false
  leads : Sign.Leads n x.gap t.lineBreaks t.space

/-- The tokens from position `n` on are as the signs tell. -/
inductive Tells : Nat → List Sign → List Token → Prop
  | nil {n : Nat} : Tells n [] []
  | cons {n : Nat} {x : Sign} {xs : List Sign} {t : Token} {ts : List Token} :
      x.Is n t → Tells (n + 1) xs ts → Tells n (x :: xs) (t :: ts)

theorem Tells.exists_getElem? {n k : Nat} {xs : List Sign} {ts : List Token} {x : Sign}
    (h : Tells n xs ts) (hget : xs[k]? = some x) : ∃ t, ts[k]? = some t ∧ x.Is (n + k) t := by
  induction h generalizing k with
  | nil => cases hget
  | @cons n y ys t ts hfirst _ ih =>
      cases k with
      | zero =>
          cases hget
          exact ⟨t, rfl, hfirst⟩
      | succ k =>
          obtain ⟨u, hu, his⟩ := ih hget
          exact ⟨u, hu, by rwa [Nat.add_assoc, Nat.add_comm 1 k] at his⟩

theorem Tells.length_eq {n : Nat} {xs : List Sign} {ts : List Token} (h : Tells n xs ts) :
    ts.length = xs.length := by
  induction h with
  | nil => rfl
  | cons _ _ ih => rw [List.length_cons, List.length_cons, ih]

def conditionSigns (w : Word) : List Sign :=
  [⟨some " ", .punctuation, "("⟩, ⟨some "", .word, w.text⟩, ⟨some "", .punctuation, ")"⟩]

def Row.signs : Row → List Sign
  | .simple w => [⟨none, .word, w.text⟩, ⟨some "", .punctuation, ";"⟩]
  | .ifHeader behindElse w =>
      (if behindElse then [⟨none, .word, "else"⟩, ⟨some " ", .word, "if"⟩]
        else [⟨none, .word, "if"⟩]) ++ conditionSigns w
  | .elseHeader => [⟨none, .word, "else"⟩]
  | .loopHeader w => ⟨none, .word, "while"⟩ :: conditionSigns w
  | .opening => [⟨none, .punctuation, "\x7b"⟩]
  | .closing => [⟨none, .punctuation, "\x7d"⟩]

/-! ## Reading -/

/-- White space that may stand in front of a token. -/
inductive Sign.Gap (e : LineEnd) (n : Nat) : Option String → List Glyph → Prop
  | start {lead : List Char} : (∀ c ∈ lead, isGapChar c = true) →
      Gap e n none (List.replicate (min n 1) (.lineBreak e) ++ lead.map .char)
  | behind {gap : String} : gap.toList.all isGapChar = true →
      Gap e n (some gap) (gap.toList.map .char)

/-- What would be read together with a word in front of it. -/
def joinsWord (c : Char) : Bool := Scanner.isWordChar c || c == '\x22'

/-- A text that is read as one token of the kind in front of `gs`. -/
inductive Sign.Legible (gs : List Glyph) : TokenKind → List Char → Prop
  | word {first : Char} {others : List Char} : Scanner.isWordStart first = true →
      others.all Scanner.isWordChar = true →
      Scanner.startsWith joinsWord gs = false → Legible gs .word (first :: others)
  | mark {c : Char} : c ∈ ['(', ')', ';', '\x7b', '\x7d'] → Legible gs .punctuation [c]

/-- The glyphs that tokens are written with, and line breaks behind them. -/
inductive Spelt (e : LineEnd) (trailing : Nat) : Nat → List Sign → List Glyph → Prop
  | done {n : Nat} : Spelt e trailing n [] (List.replicate trailing (.lineBreak e))
  | cons {n : Nat} {x : Sign} {xs : List Sign} {gap gs : List Glyph} :
      Sign.Gap e n x.gap gap → Sign.Legible gs x.kind x.text.toList →
      Spelt e trailing (n + 1) xs gs →
      Spelt e trailing n (x :: xs) (gap ++ (x.text.toList.map .char ++ gs))

variable {e : LineEnd} {trailing n : Nat}

theorem Sign.Gap.isGap {x : Option String} {gap : List Glyph} (h : Sign.Gap e n x gap) :
    ∀ g ∈ gap, g.isGap = true := by
  have hchars : ∀ {cs : List Char}, (∀ c ∈ cs, isGapChar c = true) →
      ∀ g ∈ cs.map Glyph.char, g.isGap = true := by
    intro cs hcs g hg
    obtain ⟨c, hc, rfl⟩ := List.mem_map.mp hg
    exact hcs c hc
  cases h with
  | start hlead =>
      intro g hg
      rcases List.mem_append.mp hg with hg | hg
      · exact isGap_of_mem_breaks g hg
      · exact hchars hlead g hg
  | behind hgap => exact hchars (List.all_eq_true.mp hgap)

theorem not_isGapChar_of_isWordStart {c : Char} (h : Scanner.isWordStart c = true) :
    isGapChar c = false := by
  refine Bool.eq_false_iff.mpr fun hgap => ?_
  simp only [isGapChar, isBlank, Bool.or_eq_true, beq_iff_eq] at hgap
  rcases hgap with ((rfl | rfl) | rfl) | rfl <;> cases h

/-- A legible text is read as one token, whatever stands in front of it. -/
theorem Sign.Legible.reads {gs : List Glyph} {kind : TokenKind} {cs : List Char}
    (h : Sign.Legible gs kind cs) (atLineStart : Bool) :
    ∃ first others, cs = first :: others ∧ isGapChar first = false ∧
      Scanner.Reads .c atLineStart first (others.map .char ++ gs) kind ⟨others.map .char, gs⟩ := by
  cases h with
  | @word first others hstart hothers hstop =>
      have hstops : ∀ p : Char → Bool, (∀ c, p c = true → joinsWord c = true) →
          Scanner.startsWith p gs = false := by
        intro p hp
        refine Bool.eq_false_iff.mpr fun h => ?_
        obtain ⟨c, rest, rfl, hc⟩ := Scanner.startsWith_eq_true.mp h
        exact Bool.eq_false_iff.mp hstop (hp c hc)
      have hword : Scanner.word (others.map .char ++ gs) = ⟨others.map .char, gs⟩ := by
        refine Scanner.word_append (fun g hg => ?_) (hstops _ fun c hc => by simp [joinsWord, hc])
        obtain ⟨c, hc, rfl⟩ := List.mem_map.mp hg
        exact ⟨c, rfl, List.all_eq_true.mp hothers c hc⟩
      have hquote : Scanner.startsWith (· == '\x22') gs = false :=
        hstops _ fun c hc => by simp [joinsWord, hc]
      refine ⟨first, others, rfl, not_isGapChar_of_isWordStart hstart, ?_⟩
      rw [← hword]
      refine .word hstart ?_
      rw [hword, hquote]
      rfl
  | @mark c hc =>
      simp only [List.mem_cons, List.not_mem_nil, or_false] at hc
      rcases hc with rfl | rfl | rfl | rfl | rfl <;>
        exact ⟨_, [], rfl, rfl,
          .punctuation rfl rfl rfl (by decide) (by decide) rfl (by decide) rfl (by decide)⟩

theorem Sign.Gap.leads {x : Option String} {gap : List Glyph} (h : Sign.Gap e n x gap) :
    Sign.Leads n x (gapBreaks gap) (String.ofList (gapSpace gap)) := by
  cases h with
  | @start lead => exact (gapBreaks_replicate e (min n 1) lead).1
  | @behind s =>
      obtain ⟨hbreaks, hspace⟩ := gapBreaks_replicate e 0 s.toList
      rw [List.replicate_zero, List.nil_append] at hbreaks hspace
      exact ⟨hbreaks, by rw [hspace, String.ofList_toList]⟩

/-- What is written is read as the signs tell. -/
theorem Spelt.read {xs : List Sign} {gs : List Glyph} (h : Spelt e trailing n xs gs)
    (width : Nat) (position : Position) :
    Tells n xs (readTokens .c width position gs).tokens ∧
      (readTokens .c width position gs).trailingBreaks = trailing ∧
      (readTokens .c width position gs).lineEnd = (position.advance width gs).lineEnd := by
  induction h generalizing position with
  | done =>
      have hgap : splitGap (List.replicate trailing (.lineBreak e)) = (_, none) :=
        splitGap_of_isGap isGap_of_mem_breaks
      have hbreaks := (gapBreaks_replicate e trailing []).1
      rw [List.map_nil, List.append_nil] at hbreaks
      rw [readTokens]
      split
      · rw [hgap]
        exact ⟨.nil, hbreaks, rfl⟩
      · next hsplit =>
        rw [hgap] at hsplit
        cases hsplit
  | @cons n x xs gap gs hgap hlegible _ ih =>
      obtain ⟨first, others, htext, hfirst, hreads⟩ :=
        hlegible.reads (position.advance width gap).atLineStart
      rw [htext, List.map_cons, List.cons_append, readTokens_cons hgap.isGap hfirst hreads]
      obtain ⟨htells, htrailing, hlineEnd⟩ :=
        ih (position.behind width gap (.char first :: others.map .char))
      refine ⟨.cons ⟨rfl, ?_, rfl, ?_⟩ htells, htrailing, hlineEnd.trans ?_⟩
      · show Glyph.textOf ((first :: others).map .char) = x.text
        rw [← htext]
        simp [Glyph.textOf, Glyph.charsOf, List.flatMap_map, Glyph.chars]
      · exact hgap.leads
      · rw [← List.cons_append, Position.advance_append, Position.advance_append,
          Position.lineEnd_advance, Position.lineEnd_advance width (Position.advance ..)]
        rfl

/-! ## Rows -/

theorem Word.chars_legible (w : Word) {gs : List Glyph}
    (hgs : Scanner.startsWith joinsWord gs = false) : Sign.Legible gs .word w.text.toList := by
  rw [Word.text, String.toList_ofList]
  exact .word w.starts (List.all_eq_true.mpr w.goesOn) hgs

theorem Spelt.condition {xs : List Sign} {gs : List Glyph} (w : Word)
    (h : Spelt e trailing (n + 3) xs gs) :
    Spelt e trailing n (conditionSigns w ++ xs)
      (.char ' ' :: ((Row.condition w).map .char ++ gs)) := by
  have hclose : Spelt e trailing (n + 2) (⟨some "", .punctuation, ")"⟩ :: xs) _ :=
    .cons (.behind rfl) (.mark (by decide)) h
  have hword : Spelt e trailing (n + 1) (⟨some "", .word, w.text⟩ :: _) _ :=
    .cons (.behind rfl) (w.chars_legible rfl) hclose
  have hopen : Spelt e trailing n (⟨some " ", .punctuation, "("⟩ :: _) _ :=
    .cons (.behind rfl) (.mark (by decide)) hword
  simpa [conditionSigns, Row.condition, Word.text] using hopen

theorem Spelt.row {xs : List Sign} {gs : List Glyph} {lead : List Char} (row : Row)
    (hlead : ∀ c ∈ lead, isGapChar c = true) (hgs : Scanner.startsWith joinsWord gs = false)
    (h : Spelt e trailing (n + row.signs.length) xs gs) :
    Spelt e trailing n (row.signs ++ xs)
      (List.replicate (min n 1) (.lineBreak e) ++ (lead ++ row.chars).map .char ++ gs) := by
  have hstart : Sign.Gap e n none _ := .start hlead
  cases row with
  | simple w =>
      have hend : Spelt e trailing (n + 1) (⟨some "", .punctuation, ";"⟩ :: xs) _ :=
        .cons (.behind rfl) (.mark (by decide)) h
      have hword : Spelt e trailing n (⟨none, .word, w.text⟩ :: _) _ :=
        .cons hstart (w.chars_legible rfl) hend
      simpa [Row.signs, Row.chars, Word.text] using hword
  | ifHeader behindElse w =>
      cases behindElse with
      | true =>
          have hif : Spelt e trailing (n + 1) (⟨some " ", .word, "if"⟩ :: _) _ :=
            .cons (.behind rfl) (.word rfl rfl rfl)
              (Spelt.condition w h)
          have helse : Spelt e trailing n (⟨none, .word, "else"⟩ :: _) _ :=
            .cons hstart (.word rfl rfl rfl) hif
          simpa [Row.signs, Row.chars] using helse
      | false =>
          have hif : Spelt e trailing n (⟨none, .word, "if"⟩ :: _) _ :=
            .cons hstart (.word rfl rfl rfl) (Spelt.condition w h)
          simpa [Row.signs, Row.chars] using hif
  | elseHeader =>
      have helse : Spelt e trailing n (⟨none, .word, "else"⟩ :: xs) _ :=
        .cons hstart (.word rfl rfl hgs) h
      simpa [Row.signs, Row.chars] using helse
  | loopHeader w =>
      have hwhile : Spelt e trailing n (⟨none, .word, "while"⟩ :: _) _ :=
        .cons hstart (.word rfl rfl rfl) (Spelt.condition w h)
      simpa [Row.signs, Row.chars] using hwhile
  | opening =>
      have hopen : Spelt e trailing n (⟨none, .punctuation, "\x7b"⟩ :: xs) _ :=
        .cons hstart (.mark (by decide)) h
      simpa [Row.signs, Row.chars] using hopen
  | closing =>
      have hclose : Spelt e trailing n (⟨none, .punctuation, "\x7d"⟩ :: xs) _ :=
        .cons hstart (.mark (by decide)) h
      simpa [Row.signs, Row.chars] using hclose

/-- A line that holds a row, behind any blanks. -/
def Row.On (row : Row) (line : List Char) : Prop :=
  ∃ lead, (∀ c ∈ lead, isGapChar c = true) ∧ line = lead ++ row.chars

/-- The glyphs of lines that each stand behind a line break, and of line breaks behind them. -/
def below (e : LineEnd) (trailing : Nat) (lines : List (List Char)) : List Glyph :=
  (lines.flatMap fun l => .lineBreak e :: l.map .char) ++ List.replicate trailing (.lineBreak e)

theorem startsWith_below (p : Char → Bool) (lines : List (List Char)) :
    Scanner.startsWith p (below e trailing lines) = false := by
  cases lines with
  | nil => cases trailing <;> rfl
  | cons => rfl

theorem spelt_below {rows : List Row} {lines : List (List Char)}
    (h : List.Forall₂ Row.On rows lines) (hn : 0 < n) :
    Spelt e trailing n (rows.flatMap Row.signs) (below e trailing lines) := by
  induction h generalizing n with
  | nil => exact .done
  | @cons row line rows lines hline hlines ih =>
      obtain ⟨lead, hlead, rfl⟩ := hline
      have hmin : min n 1 = 1 := by omega
      have hrow := Spelt.row row hlead (startsWith_below _ lines) (ih (Nat.add_pos_left hn _))
      rw [hmin] at hrow
      simpa [below] using hrow

/-- A text of rows is written as their signs tell, whatever the blanks. -/
theorem spelt_lineGlyphs {rows : List Row} {lines : List (List Char)}
    (h : List.Forall₂ Row.On rows lines) :
    Spelt e trailing 0 (rows.flatMap Row.signs) (lineGlyphs e trailing lines) := by
  cases h with
  | nil => exact .done
  | @cons row line rows lines hline hlines =>
      obtain ⟨lead, hlead, rfl⟩ := hline
      have hsigns : 0 < 0 + row.signs.length := by
        cases row <;> simp [Row.signs, conditionSigns]
      have hrow := Spelt.row row hlead (startsWith_below _ lines)
        (@spelt_below e trailing _ _ _ hlines hsigns)
      simpa [lineGlyphs, joinLines, below] using hrow

/-! ### Whole texts -/

theorem Word.breakless (w : Word) : '\r' ∉ w.chars ∧ '\n' ∉ w.chars := by
  have hword : ∀ c ∈ w.chars, Scanner.isWordChar c = true :=
    List.forall_mem_cons.mpr ⟨Bool.or_eq_true_iff.mpr (.inl w.starts), w.goesOn⟩
  exact ⟨fun h => Bool.false_ne_true (hword _ h), fun h => Bool.false_ne_true (hword _ h)⟩

theorem Row.breakless (row : Row) : '\r' ∉ row.chars ∧ '\n' ∉ row.chars := by
  cases row with
  | simple w => simp [chars, w.breakless]
  | ifHeader behindElse w => cases behindElse <;> simp [chars, condition, w.breakless]
  | loopHeader w => simp [chars, condition, w.breakless]
  | _ => simp [chars]

theorem Row.On.breakless {row : Row} {line : List Char} (h : row.On line) :
    ∀ c ∈ line, c ≠ '\r' ∧ c ≠ '\n' := by
  obtain ⟨lead, hlead, rfl⟩ := h
  intro c hc
  rcases List.mem_append.mp hc with hc | hc
  · exact ne_of_isGapChar (hlead c hc)
  · exact ⟨fun heq => row.breakless.1 (heq ▸ hc), fun heq => row.breakless.2 (heq ▸ hc)⟩

theorem breakless_of_on {rows : List Row} {lines : List (List Char)}
    (h : List.Forall₂ Row.On rows lines) : ∀ l ∈ lines, ∀ c ∈ l, c ≠ '\r' ∧ c ≠ '\n' := by
  induction h with
  | nil => exact fun _ hl => absurd hl List.not_mem_nil
  | cons hline _ ih => exact List.forall_mem_cons.mpr ⟨hline.breakless, ih⟩

/-- A text of rows is read as their signs tell. -/
theorem tokenize_rows {rows : List Row} {lines : List (List Char)}
    (h : List.Forall₂ Row.On rows lines) (e : LineEnd) (trailing width : Nat) :
    let stream := tokenize .c width (writeLines e trailing lines)
    Tells 0 (rows.flatMap Row.signs) stream.tokens ∧ stream.trailingBreaks = trailing ∧
      stream.lineEnd = (lineGlyphs e trailing lines).findSome? Glyph.lineEnd? := by
  obtain ⟨htells, htrailing, hlineEnd⟩ := (spelt_lineGlyphs h).read (max width 1) .start
  rw [tokenize, glyphs_writeLines (breakless_of_on h)]
  exact ⟨htells, htrailing, hlineEnd.trans (Position.lineEnd_advance ..)⟩

end Nesting

end Beautifier
