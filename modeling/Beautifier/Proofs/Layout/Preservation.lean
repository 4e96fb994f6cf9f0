/-
Formatting preserves the tokens.

After every step the page spells the tokens that are laid out so far
(`spells_stage`): each token is written as a copy of it, behind a new line or
behind white space that keeps it apart from the token before.  So the output is
read as the tokens of the source again (`content_format`).
-/
import Beautifier.Proofs.Options.Bounds
import Beautifier.Proofs.Layout.Gaps
import Beautifier.Proofs.Layout.Written

namespace Beautifier

/-! ## Gaps on the page -/

theorem plain_of_isGapChar {e : LineEnd} {cs : List Char} (h : ∀ c ∈ cs, isGapChar c = true) :
    Plain e (cs.map .char) := by
  refine plain_chars.mpr fun c hc => ⟨?_, ?_⟩
  · rintro rfl
    cases h _ hc
  · rintro rfl
    cases h _ hc

theorem isGap_of_isGapChar {cs : List Char} (h : ∀ c ∈ cs, isGapChar c = true) :
    ∀ g ∈ cs.map Glyph.char, g.isGap = true := by
  intro g hg
  obtain ⟨c, hc, rfl⟩ := List.mem_map.mp hg
  exact h c hc

theorem joins_newLine {e : LineEnd} {prev : Option Token} (t : Token) {n : Nat}
    {blanks : List Char} (hblanks : ∀ c ∈ blanks, isGapChar c = true)
    (hprev : ∀ p ∈ prev, 0 < n) :
    Joins e prev t (List.replicate n (.lineBreak e) ++ blanks.map .char) := by
  have hfirst : ∀ p ∈ prev,
      ∃ gap, List.replicate n (Glyph.lineBreak e) ++ blanks.map .char = .lineBreak e :: gap := by
    intro p hp
    obtain ⟨m, rfl⟩ := Nat.exists_eq_add_of_lt (hprev p hp)
    rw [Nat.zero_add, List.replicate_succ]
    exact ⟨_, rfl⟩
  refine ⟨?_, plain_append.mpr ⟨?_, plain_of_isGapChar hblanks⟩, fun p hp _ => hfirst p hp, ?_,
    ?_⟩
  · intro g hg
    rcases List.mem_append.mp hg with hg | hg
    · rw [(List.mem_replicate.mp hg).2]
      rfl
    · exact isGap_of_isGapChar hblanks g hg
  · intro g hg
    rw [(List.mem_replicate.mp hg).2]
  · intro _
    cases prev with
    | none => exact .inl rfl
    | some p =>
        obtain ⟨gap, heq⟩ := hfirst p rfl
        rw [heq]
        exact .inr List.mem_cons_self
  · intro hnil p hp
    obtain ⟨gap, heq⟩ := hfirst p hp
    rw [heq] at hnil
    cases hnil

theorem Page.isEmpty_push (p : Page) (width : Nat) (kind : TokenKind) (shift : Int)
    (text : String) : (p.push width kind shift text).isEmpty = false := by
  obtain ⟨above, l, hlines, -⟩ := lines_push p width kind shift text
  rw [isEmpty, hlines]
  simp

theorem isEmpty_stage (o : Options) (tokens : List Token) {n : Nat} (h : n < tokens.length) :
    (stage o tokens (n + 1)).page.isEmpty = false := by
  rw [stage_succ (List.getElem?_eq_getElem h)]
  exact Page.isEmpty_push ..

/-! ## The run -/

/-- What the layout takes for granted of the tokens of a source without carriage returns. -/
structure Faithful (language : Language) (tokens : List Token) : Prop where
  isRead : ∀ t ∈ tokens, t.IsRead language
  spaces : ∀ t ∈ tokens, ∀ c ∈ t.space.toList, isGapChar c = true
  chain : tokens.IsChain fun t u => t.endsLine = true → 0 < u.lineBreaks
  notInserted : ∀ t ∈ tokens, t.inserted = false

theorem Partition.faithful {language : Language} {source : List Glyph} {tokens : List Token}
    {trailing : Nat} (h : Partition language source tokens trailing)
    (hplain : Plain .linux source) (hsettled : ∀ t ∈ tokens, t.Settled language) :
    Faithful language tokens :=
  ⟨h.isRead hplain hsettled, h.isGapChar_of_mem_space, h.isChain_lineBreaks, h.not_inserted⟩

theorem JoinsLine.kind_ne_directive {o : Options} {s : State} {page : Page} {c : Cursor}
    {spacing : Spacing} (h : JoinsLine o s page c spacing) : c.token.kind ≠ .directive := by
  intro hkind
  cases h with
  | comment hcomment => rcases hcomment with hcomment | hcomment <;> simp [hkind] at hcomment
  | openBrace hopen => simp [Token.is, hkind] at hopen
  | closeBrace hclose => simp [Token.is, hkind] at hclose
  | code htrivia => simp [Token.isTrivia, hkind] at htrivia

section
variable {language : Language} {o : Options} {tokens : List Token} {e : LineEnd} {n : Nat}

theorem exists_of_getLast?_take (hn : n ≤ tokens.length) {p : Token}
    (hp : p ∈ (tokens.take n).getLast?) : ∃ m, n = m + 1 ∧ tokens[m]? = some p := by
  cases n with
  | zero => simp at hp
  | succ m =>
      refine ⟨m, rfl, ?_⟩
      rw [List.take_add_one, List.getElem?_eq_getElem hn, Option.toList_some,
        List.getLast?_concat] at hp
      rw [List.getElem?_eq_getElem hn]
      exact hp

/-- Where pointers are aligned, no `*` or `&` in front of position `n` goes on with the token that
is written directly behind it. -/
def Unfused (o : Options) (tokens : List Token) (n : Nat) : Prop :=
  o.alignPointer ≠ none → ∀ m, m + 1 < n → ¬FusesAt o tokens m

/-- A token behind one that ends its line does not go on with the line. -/
theorem Faithful.not_endsLine (htokens : Faithful language tokens) {p t : Token}
    (hget : tokens[n]? = some p) (hnext : tokens[n + 1]? = some t) {spacing : Spacing}
    (h : JoinsLine o (stage o tokens (n + 1)).state (stage o tokens (n + 1)).page
      (cursorAt tokens (n + 1) t) spacing) : p.endsLine = false := by
  apply Bool.eq_false_iff.mpr
  intro hends
  obtain ⟨_, _, _, _, hcan⟩ := stage_of_endsLine (o := o) hget hends
  have hbreaks : 0 < t.lineBreaks := by
    have hstep := List.isChain_iff_getElem.mp htokens.chain n (List.getElem?_eq_some_iff.mp hnext).1
    rw [(List.getElem?_eq_some_iff.mp hget).2, (List.getElem?_eq_some_iff.mp hnext).2] at hstep
    exact hstep hends
  -- only an inserted brace stays behind, and none of the tokens is inserted
  have hinserted := (staysBehind_of_joinsLine h hcan (.inl hbreaks)).inserted
  have hnot := htokens.notInserted t (List.mem_of_getElem? hnext)
  rw [show t = BraceInsertion.openingBrace from hinserted] at hnot
  cases hnot

theorem Faithful.tight_of_gap (htokens : Faithful language tokens) (hwidth : 0 < o.indentWidth)
    (hfuse : Unfused o tokens (n + 2)) {p t : Token} {spacing : Spacing}
    (hget : tokens[n]? = some p) (hnext : tokens[n + 1]? = some t)
    (hlayout : ((cursorAt tokens (n + 1) t).plan o (stage o tokens (n + 1)).state
      (stage o tokens (n + 1)).conditionals (stage o tokens (n + 1)).page).layout
        = .sameLine spacing)
    (hgap : ((stage o tokens (n + 1)).page.gap o t spacing).toList = []) :
    (t.lineBreaks = 0 ∧ t.space = "") ∨ t.startsSolo = true ∨ p.stopsBefore t = true := by
  have hlt : n + 1 < tokens.length := (List.getElem?_eq_some_iff.mp hnext).1
  have hbefore : (cursorAt tokens (n + 1) t).before.head? = some p := by
    rw [cursorAt, List.head?_reverse, List.take_add_one, hget, Option.toList_some,
      List.getLast?_concat]
  obtain ⟨_, first, _, _, ht⟩ := htokens.isRead t (List.mem_of_getElem? hnext)
  have hfirst : t.text.toList.head? = some first := by
    rw [ht.text_eq]
    rfl
  have hpointer : (stage o tokens (n + 1)).state.pointerAfter ≠ none →
      p.isTrivia = true ∨ p.isOneOf ["*", "&", "&&", "\x7d"] = true := by
    intro hpointer
    rw [stage_succ hget] at hpointer
    exact pointerAfter_step hpointer
  rcases tight_of_joinsLine hbefore (tokenAt?_lastOnLine o tokens hget t) hpointer hfirst
    (joinsLine_of_sameLine hlayout) (gap_eq_empty hwidth hgap) with
    htight | hsolo | hstops | ⟨hfuses, hsome⟩
  · exact .inl htight
  · exact .inr (.inl hsolo)
  · exact .inr (.inr hstops)
  · have halign : o.alignPointer ≠ none := by
      rcases hsome with halign | hpointer
      · exact halign
      · exact fun halign => hpointer (pointerAfter_stage o tokens halign hlt.le)
    exact absurd ⟨p, t, spacing, hget, hnext, hfuses, hlayout, String.toList_eq_nil_iff.mp hgap⟩
      (hfuse halign n (Nat.lt_succ_self _))

theorem joins_sameLine (htokens : Faithful language tokens) (hwidth : 0 < o.indentWidth)
    (hfuse : Unfused o tokens (n + 1)) {t : Token} {spacing : Spacing} (hget : tokens[n]? = some t)
    (h : ((cursorAt tokens n t).plan o (stage o tokens n).state (stage o tokens n).conditionals
      (stage o tokens n).page).layout = .sameLine spacing) :
    Joins e (tokens.take n).getLast? t
      (((stage o tokens n).page.gap o t spacing).toList.map .char) := by
  have hlt : n < tokens.length := (List.getElem?_eq_some_iff.mp hget).1
  have hjoins := joinsLine_of_sameLine h
  have hgap : ∀ c ∈ ((stage o tokens n).page.gap o t spacing).toList, isGapChar c = true := by
    have hone : isGapChar ' ' = true := rfl
    exact Page.forall_mem_gap _ o hone (htokens.spaces t (List.mem_of_getElem? hget)) spacing
  refine ⟨isGap_of_isGapChar hgap, plain_of_isGapChar hgap, fun p hp hends => ?_,
    fun hkind => absurd hkind hjoins.kind_ne_directive, fun hnil p hp => ?_⟩
  · obtain ⟨m, rfl, hm⟩ := exists_of_getLast?_take hlt.le hp
    exact absurd ((htokens.not_endsLine hm hget hjoins).symm.trans hends) Bool.false_ne_true
  · obtain ⟨m, rfl, hm⟩ := exists_of_getLast?_take hlt.le hp
    exact htokens.tight_of_gap hwidth hfuse hm hget h (List.map_eq_nil_iff.mp hnil)

theorem Page.rendered_spells {p : Page} {ts : List Token}
    (h : Spells e none ts (p.written o e)) (hts : ∀ t ∈ ts, t.IsRead language) :
    Spells e none ts (p.rendered o e) := by
  obtain ⟨blanks, hblanks, hwritten⟩ := p.exists_blanks (o := o) (e := e)
  rw [hwritten] at h
  cases ts with
  | cons t ts => exact h.of_append_blanks hblanks hts (List.cons_ne_nil _ _)
  | nil =>
      generalize hgs : p.rendered o e ++ blanks.map .char = gs at h
      cases h
      rw [(List.append_eq_nil_iff.mp hgs).1]
      exact .nil

theorem exists_gap_ready (htokens : Faithful language tokens) (hwidth : 0 < o.indentWidth)
    (hfuse : Unfused o tokens (n + 1)) {t : Token} (hget : tokens[n]? = some t)
    (hspells : Spells e none (tokens.take n) ((stage o tokens n).page.written o e)) :
    ∃ front gap, ((stage o tokens n).page.ready o t ((cursorAt tokens n t).plan o
        (stage o tokens n).state (stage o tokens n).conditionals
        (stage o tokens n).page).layout).written o e = front ++ gap ∧
      Spells e none (tokens.take n) front ∧ Joins e (tokens.take n).getLast? t gap := by
  have hlt : n < tokens.length := (List.getElem?_eq_some_iff.mp hget).1
  generalize hlayout : ((cursorAt tokens n t).plan o (stage o tokens n).state
    (stage o tokens n).conditionals (stage o tokens n).page).layout = layout
  cases layout with
  | newLine indent blankLines =>
      refine ⟨_, _, Page.written_newLine .., Page.rendered_spells hspells fun u hu =>
        htokens.isRead u (List.mem_of_mem_take hu), joins_newLine t (fun c hc => ?_)
        fun p hp => ?_⟩
      · simp [isGapChar, isBlank_of_mem_indent c hc]
      · obtain ⟨m, rfl, -⟩ := exists_of_getLast?_take hlt.le hp
        rw [isEmpty_stage o tokens (Nat.lt_of_succ_lt hlt)]
        exact Nat.lt_of_lt_of_le Nat.zero_lt_one (Nat.le_add_right 1 _)
  | sameLine spacing =>
      exact ⟨_, _, Page.written_space .., hspells,
        joins_sameLine htokens hwidth hfuse hget hlayout⟩

/-- After every step the page spells the tokens that are laid out, as far as no token is written
directly behind a `*` or `&` that goes on with it. -/
theorem spells_stage_of_unfused (htokens : Faithful language tokens) (hwidth : 0 < o.indentWidth)
    (hn : n ≤ tokens.length) (hfuse : Unfused o tokens n) :
    Spells e none (tokens.take n) ((stage o tokens n).page.written o e) := by
  induction n with
  | zero =>
      show Spells e none [] (Page.blank.written o e)
      rw [Page.written_blank]
      exact .nil
  | succ n ih =>
      have hget : tokens[n]? = some tokens[n] := List.getElem?_eq_getElem hn
      have htake : tokens.take (n + 1) = tokens.take n ++ [tokens[n]] := by
        rw [List.take_add_one, hget, Option.toList_some]
      have hbefore : Unfused o tokens n :=
        fun halign m hm => hfuse halign m (Nat.lt_succ_of_lt hm)
      obtain ⟨front, gap, hready, hfront, hjoins⟩ :=
        exists_gap_ready htokens hwidth hfuse hget (ih (Nat.le_of_succ_le hn) hbefore)
      obtain ⟨_, _, _, _, ht⟩ := htokens.isRead tokens[n] (List.getElem_mem hn)
      obtain ⟨copy, hcopy, hwritten⟩ := Page.exists_copy_write (e := e) ht o
        ((stage o tokens n).page.ready o tokens[n] ((cursorAt tokens n tokens[n]).plan o
          (stage o tokens n).state (stage o tokens n).conditionals (stage o tokens n).page).layout)
      have hpage : (stage o tokens (n + 1)).page.written o e = front ++ (gap ++ copy) := by
        rw [stage_succ hget, ← List.append_assoc, ← hready]
        exact hwritten
      rw [htake, hpage]
      exact hfront.snoc (by simpa using hjoins) hcopy

/-- Without an alignment of pointers the page spells the tokens after every step. -/
theorem spells_stage (htokens : Faithful language tokens) (halign : o.alignPointer = none)
    (hwidth : 0 < o.indentWidth) (hn : n ≤ tokens.length) :
    Spells e none (tokens.take n) ((stage o tokens n).page.written o e) :=
  spells_stage_of_unfused htokens hwidth hn fun h => absurd halign h

end

/-! ## The output -/

/-- The line ending of the output. -/
def lineEndOf (o : Options) (source : String) : LineEnd :=
  (o.lineEnd <|> (tokenize o.language o.indentWidth source).lineEnd).getD .linux

theorem format_eq {o : Options} (hbraces : o.addBraces = false) (source : String) :
    format o source = (layOut o (tokenize o.language o.indentWidth source).tokens).render
      o.indentKind o.indentWidth (lineEndOf o source)
      (tokenize o.language o.indentWidth source).trailingBreaks := by
  rw [format, tokensToLayOut, hbraces]
  rfl

/-- The output is what the page holds behind the last token, and the line breaks at the end of the
source. -/
theorem glyphs_format {o : Options} (hbraces : o.addBraces = false) {source : String}
    (hplain : Plain (lineEndOf o source)
      ((layOut o (tokenize o.language o.indentWidth source).tokens).rendered o
        (lineEndOf o source))) :
    glyphs (format o source).toList
      = (layOut o (tokenize o.language o.indentWidth source).tokens).rendered o (lineEndOf o source)
        ++ List.replicate (tokenize o.language o.indentWidth source).trailingBreaks
          (.lineBreak (lineEndOf o source)) := by
  rw [format_eq hbraces, Page.toList_render, glyphs_charsOf]
  refine plain_append.mpr ⟨hplain, ?_⟩
  intro g hg
  rw [(List.mem_replicate.mp hg).2]

/-- Formatting preserves the tokens, under all options that neither put in braces nor move `*` and
`&`: the output is read as tokens of the same kinds and contents.  Strings, characters and block
comments have to be closed, and no `#` may stand where it starts no directive; otherwise a source
may be unbalanced and make no sense. -/
theorem content_format {text : String} {o : Options} (ho : parseOptions text = .ok o)
    (hbraces : o.addBraces = false) (halign : o.alignPointer = none) {source : String}
    (hreturn : '\r' ∉ source.toList)
    (hclosed : ∀ t ∈ (tokenize o.language o.indentWidth source).tokens,
      t.mayStayOpen = true → t.isClosed o.language = true)
    (hhash : ∀ t ∈ (tokenize o.language o.indentWidth source).tokens, t.is "#" = false)
    (tabWidth : Nat) :
    (tokenize o.language tabWidth (format o source)).tokens.map Token.content
      = (tokenize o.language o.indentWidth source).tokens.map Token.content := by
  have hplain := plain_glyphs hreturn
  have hpart := partition_tokenize o.language o.indentWidth source
  have hsettled : ∀ t ∈ (tokenize o.language o.indentWidth source).tokens,
      t.Settled o.language := fun t ht => ⟨hclosed t ht, hhash t ht⟩
  have htokens := hpart.faithful hplain hsettled
  have hwidth : 0 < o.indentWidth := by
    have hbounds := (indentWidth_parseOptions ho).1
    exact Nat.lt_of_lt_of_le (by decide) hbounds
  have hspells := spells_stage (e := lineEndOf o source) htokens halign hwidth (Nat.le_refl _)
  rw [List.take_length, ← layOut_eq_stage] at hspells
  have hrendered := Page.rendered_spells hspells htokens.isRead
  have hglyphs := glyphs_format hbraces (hrendered.plain htokens.isRead)
  rw [tokenize, hglyphs]
  exact hpart.content_readTokens hplain hsettled hrendered _ fun _ => rfl

/-- With the padding inside parentheses removed the two signs still stand apart, and the string and
the comments are read again as they are. -/
theorem content_format_unpadded :
    let source := "f ( a- -\x22b\x22 ); /* c \n d */ // e  \n"
    parseOptions "--style=allman -U" = .ok ((Options.default.withStyle .allman).turnOn .unpadParen)
      ∧ (tokenize .c 8 (format ((Options.default.withStyle .allman).turnOn .unpadParen)
          source)).tokens.map Token.content
        = (tokenize .c 4 source).tokens.map Token.content := by
  intro source
  have ho : parseOptions "--style=allman -U"
      = .ok ((Options.default.withStyle .allman).turnOn .unpadParen) := by decide +kernel
  have htokens : (tokenize .c 4 source).tokens
      = [⟨.word, "f", 0, "", 0, false⟩, ⟨.punctuation, "(", 0, " ", 2, false⟩,
          ⟨.word, "a", 0, " ", 4, false⟩, ⟨.punctuation, "-", 0, "", 5, false⟩,
          ⟨.punctuation, "-", 0, " ", 7, false⟩, ⟨.string, "\x22b\x22", 0, "", 8, false⟩,
          ⟨.punctuation, ")", 0, " ", 12, false⟩, ⟨.punctuation, ";", 0, "", 13, false⟩,
          ⟨.blockComment, "/* c \n d */", 0, " ", 15, false⟩,
          ⟨.lineComment, "// e  ", 0, " ", 6, false⟩] := by
    show (tokenize .c 4 "f ( a- -\x22b\x22 ); /* c \n d */ // e  \n").tokens = _
    decide +kernel
  refine ⟨ho, content_format ho rfl rfl (by decide) ?_ ?_ 8⟩
  · show ∀ t ∈ (tokenize .c 4 source).tokens, t.mayStayOpen = true → t.isClosed .c = true
    rw [htokens]
    decide +kernel
  · show ∀ t ∈ (tokenize .c 4 source).tokens, t.is "#" = false
    rw [htokens]
    decide +kernel

end Beautifier
