/-
Where formatting changes the tokens.

The alignment of pointers may write a token directly behind a `*` or `&` that
goes on with it (`FusesAt`).  The two are then read as one operator, whatever
is written behind them: a written character that is not blank stays on the page
(`written_stage_keeps`), and all tokens before are read as they are
(`Partition.readTokens_front`).  Everywhere else formatting preserves the
tokens, so this is the only way in which it changes the code of a source
(`codeContent_format_iff`).
-/
import Mathlib.Data.Nat.Find
import Beautifier.Proofs.Layout.Preservation

namespace Beautifier

/-! ## The code among the tokens -/

/-- The kinds and contents of the tokens that are neither comments nor directives. -/
def codeContent (ts : List Token) : List (TokenKind × List (List Char)) :=
  (ts.filter (!·.isTrivia)).map Token.content

theorem codeContent_append (ts us : List Token) :
    codeContent (ts ++ us) = codeContent ts ++ codeContent us := by
  simp [codeContent]

theorem codeContent_cons {t : Token} (ht : t.isTrivia = false) (ts : List Token) :
    codeContent (t :: ts) = t.content :: codeContent ts := by
  simp [codeContent, ht]

theorem codeContent_congr {ts us : List Token}
    (h : ts.map Token.content = us.map Token.content) : codeContent ts = codeContent us := by
  let isCode (c : TokenKind × List (List Char)) : Bool :=
    !(Token.mk c.1 "" 0 "" 0 false).isTrivia
  have hcode : ∀ ts, codeContent ts = (ts.map Token.content).filter isCode := by
    intro ts
    rw [List.filter_map]
    rfl
  rw [hcode, hcode, h]

/-! ## What stays on the page -/

theorem exists_of_append_blanks {front front' more : List Glyph} {c : Char} {blanks : List Char}
    (hc : isBlank c = false) (hblanks : ∀ d ∈ blanks, isBlank d = true)
    (h : front' ++ blanks.map .char = front ++ .char c :: more) :
    ∃ more', front' = front ++ .char c :: more' := by
  have hnot : Glyph.char c ∉ blanks.map .char := by
    intro hmem
    obtain ⟨d, hd, heq⟩ := List.mem_map.mp hmem
    rw [Glyph.char.inj heq] at hd
    rw [hblanks c hd] at hc
    cases hc
  rcases List.append_eq_append_iff.mp h with ⟨kept, -, hcut⟩ | ⟨kept, rfl, hcut⟩
  · rw [hcut] at hnot
    exact absurd (List.mem_append_right _ List.mem_cons_self) hnot
  · cases kept with
    | nil =>
        rw [List.nil_append] at hcut
        rw [← hcut] at hnot
        exact absurd List.mem_cons_self hnot
    | cons g kept =>
        cases hcut
        exact ⟨kept, rfl⟩

section
variable {language : Language} {o : Options} {tokens : List Token} {e : LineEnd} {n : Nat}

/-- Making a page ready for a token cuts blanks off the end of what is written and puts a gap
behind. -/
theorem Page.exists_written_ready (p : Page) {t : Token}
    (hspace : ∀ c ∈ t.space.toList, isGapChar c = true) (layout : Layout) :
    ∃ (front gap : List Glyph) (blanks : List Char), (∀ c ∈ blanks, isBlank c = true) ∧
      p.written o e = front ++ blanks.map .char ∧
      (p.ready o t layout).written o e = front ++ gap ∧ Plain e gap := by
  cases layout with
  | newLine indent blankLines =>
      obtain ⟨blanks, hblanks, hpage⟩ := p.exists_blanks (o := o) (e := e)
      refine ⟨_, _, blanks, hblanks, hpage, written_newLine .., plain_append.mpr ⟨?_, ?_⟩⟩
      · intro g hg
        rw [(List.mem_replicate.mp hg).2]
      · exact plain_of_isGapChar fun c hc => by simp [isGapChar, isBlank_of_mem_indent c hc]
  | sameLine spacing =>
      have hone : isGapChar ' ' = true := rfl
      exact ⟨_, _, [], by simp, (List.append_nil _).symm, written_space ..,
        plain_of_isGapChar (forall_mem_gap p o hone hspace spacing)⟩

theorem exists_written_step (htokens : Faithful language tokens) {t : Token}
    (hget : tokens[n]? = some t) :
    ∃ (front gap copy : List Glyph) (blanks : List Char), (∀ c ∈ blanks, isBlank c = true) ∧
      (stage o tokens n).page.written o e = front ++ blanks.map .char ∧
      (stage o tokens (n + 1)).page.written o e = front ++ (gap ++ copy) ∧
      Plain e gap ∧ Copies e t copy := by
  have hmem := List.mem_of_getElem? hget
  obtain ⟨_, _, _, _, ht⟩ := htokens.isRead t hmem
  obtain ⟨front, gap, blanks, hblanks, hbefore, hready, hgap⟩ :=
    (stage o tokens n).page.exists_written_ready (o := o) (e := e) (htokens.spaces t hmem)
      ((cursorAt tokens n t).plan o (stage o tokens n).state (stage o tokens n).conditionals
        (stage o tokens n).page).layout
  obtain ⟨copy, hcopy, hwritten⟩ := Page.exists_copy_write (e := e) ht o _
  refine ⟨front, gap, copy, blanks, hblanks, hbefore, ?_, hgap, hcopy⟩
  rw [stage_succ hget, ← List.append_assoc, ← hready]
  exact hwritten

theorem plain_written_stage (htokens : Faithful language tokens)
    (hsource : ∀ t ∈ tokens, Plain .linux (glyphs t.text.toList)) (hn : n ≤ tokens.length) :
    Plain e ((stage o tokens n).page.written o e) := by
  induction n with
  | zero =>
      show Plain e (Page.blank.written o e)
      rw [Page.written_blank]
      exact plain_nil
  | succ n ih =>
      have hget : tokens[n]? = some tokens[n] := List.getElem?_eq_getElem hn
      obtain ⟨front, gap, copy, blanks, -, hbefore, hafter, hgap, hcopy⟩ :=
        exists_written_step (o := o) (e := e) htokens hget
      have hplain := ih (Nat.le_of_succ_le hn)
      rw [hbefore] at hplain
      rw [hafter]
      exact plain_append.mpr ⟨(plain_append.mp hplain).1,
        plain_append.mpr ⟨hgap, hcopy.plain (hsource _ (List.getElem_mem hn))⟩⟩

/-- What is written up to a character that is not blank stays. -/
theorem written_stage_keeps (htokens : Faithful language tokens) {front more : List Glyph}
    {c : Char} (hc : isBlank c = false)
    (h : (stage o tokens n).page.written o e = front ++ .char c :: more) {m : Nat} (hnm : n ≤ m)
    (hm : m ≤ tokens.length) :
    ∃ more', (stage o tokens m).page.written o e = front ++ .char c :: more' := by
  induction m, hnm using Nat.le_induction with
  | base => exact ⟨more, h⟩
  | succ m _ ih =>
      obtain ⟨more', hmore⟩ := ih (Nat.le_of_succ_le hm)
      obtain ⟨front', gap, copy, blanks, hblanks, hbefore, hafter, -, -⟩ :=
        exists_written_step (o := o) (e := e) htokens (List.getElem?_eq_getElem hm)
      obtain ⟨kept, rfl⟩ := exists_of_append_blanks hc hblanks (hbefore.symm.trans hmore)
      exact ⟨kept ++ (gap ++ copy), by rw [hafter, List.append_assoc, List.cons_append]⟩

end

/-! ## Reading a fused operator -/

/-- The signs of declarators and the characters that go on with them. -/
def fusing : List (Char × Char) := [('*', '='), ('&', '='), ('&', '&')]

theorem Token.of_fuses {p t : Token} (h : p.fuses t = true) :
    ∃ f c, (f, c) ∈ fusing ∧ p.kind = .punctuation ∧ p.text.toList = [f] ∧
      t.text.toList.head? = some c := by
  cases hc : t.text.toList.head? with
  | none => simp [fuses, hc] at h
  | some c =>
      simp only [fuses, hc, Option.any_some, is, Bool.or_eq_true, Bool.and_eq_true,
        beq_iff_eq] at h
      rcases h with ⟨⟨hkind, htext⟩, rfl⟩ | ⟨⟨hkind, htext⟩, rfl | rfl⟩
      · exact ⟨'*', '=', by decide, hkind, by rw [htext]; rfl, rfl⟩
      · exact ⟨'&', '=', by decide, hkind, by rw [htext]; rfl, rfl⟩
      · exact ⟨'&', '&', by decide, hkind, by rw [htext]; rfl, rfl⟩

theorem reads_fused {language : Language} {f c : Char} (h : (f, c) ∈ fusing) (start : Bool)
    (gs : List Glyph) :
    Scanner.Reads language start f (.char c :: gs) .punctuation ⟨[.char c], gs⟩ := by
  have hcut : Scanner.punctuation f (.char c :: gs) = ⟨[.char c], gs⟩ := by
    simp only [fusing, List.mem_cons, Prod.mk.injEq, List.not_mem_nil, or_false] at h
    rcases h with ⟨rfl, rfl⟩ | ⟨rfl, rfl⟩ | ⟨rfl, rfl⟩ <;> rfl
  have hsigns : ∀ x ∈ fusing, (x.1 == '#') = false ∧ (x.1 == '/') = false ∧ x.1 ≠ '\x22' ∧
      x.1 ≠ '\x27' ∧ (x.1 == '@') = false ∧ x.1.isDigit = false ∧ (x.1 == '.') = false ∧
      Scanner.isWordStart x.1 = false := by decide
  obtain ⟨hhash, hslash, hquote, hquote', hat, hdigit, hdot, hword⟩ := hsigns _ h
  rw [← hcut]
  exact .punctuation (by rw [hhash]; rfl) (by rw [hslash]; rfl) (by rw [hslash]; rfl) hquote
    hquote' (by rw [hat]; rfl) hdigit (by rw [hdot]; rfl) hword

section
variable {language : Language} {o : Options} {tokens : List Token} {e : LineEnd} {n : Nat}

theorem Copies.eq_sign {p : Token} {copy : List Glyph} (h : Copies e p copy)
    (hp : p.IsRead language) (hkind : p.kind = .punctuation) {f c : Char} (hf : (f, c) ∈ fusing)
    (htext : p.text.toList = [f]) : copy = [.char f] := by
  have hglyphs : ∀ x ∈ fusing, glyphs [x.1] = [.char x.1] := by decide
  obtain ⟨_, first, _, cut, ht⟩ := hp
  obtain ⟨tail, rfl, hcases⟩ := h.exists_tail ht
  have heq := ht.glyphs_eq
  rw [htext, hglyphs _ hf, List.cons.injEq, Glyph.char.injEq] at heq
  obtain ⟨rfl, hnil⟩ := heq
  rcases hcases with ⟨-, rfl⟩ | ⟨hexact, -⟩
  · rw [← hnil, List.map_nil]
  · simp [Token.isExact, Token.endsLine, hkind] at hexact

/-- Where the first token is written directly behind a sign that goes on with it, the page holds
the tokens before the sign, the sign and the character, and nothing of that is cut off later. -/
theorem exists_written_fused (htokens : Faithful language tokens) (hwidth : 0 < o.indentWidth)
    (hn : FusesAt o tokens n) (hfirst : ∀ m < n, ¬FusesAt o tokens m) :
    ∃ p f c gs gap more, tokens[n]? = some p ∧ (f, c) ∈ fusing ∧ p.kind = .punctuation ∧
      p.text.toList = [f] ∧ Spells e none (tokens.take n) gs ∧
      Joins e (tokens.take n).getLast? p gap ∧ Copies e p [.char f] ∧
      (stage o tokens tokens.length).page.rendered o e
        = gs ++ (gap ++ .char f :: .char c :: more) := by
  obtain ⟨p, t, spacing, hp, ht, hfuses, hlayout, hgap⟩ := hn
  obtain ⟨f, c, hf, hkind, htext, hc⟩ := Token.of_fuses hfuses
  have hlt : n + 1 < tokens.length := (List.getElem?_eq_some_iff.mp ht).1
  have htake : tokens.take (n + 1) = tokens.take n ++ [p] := by
    rw [List.take_add_one, hp, Option.toList_some]
  have hspells := spells_stage_of_unfused (e := e) htokens hwidth hlt.le
    fun _ m hm => hfirst m (Nat.succ_lt_succ_iff.mp hm)
  rw [htake] at hspells
  obtain ⟨gs, gap, copy, hwritten, hfront, hjoins, hcopy⟩ := hspells.snoc_inv
  have hsign := hcopy.eq_sign (htokens.isRead p (List.mem_of_getElem? hp)) hkind hf htext
  subst hsign
  -- the token behind the sign starts with the character
  obtain ⟨_, first, _, _, hread⟩ := htokens.isRead t (List.mem_of_getElem? ht)
  obtain ⟨copy', hcopy', hstep⟩ := Page.exists_copy_write (e := e) hread o
    ((stage o tokens (n + 1)).page.ready o t (.sameLine spacing))
  obtain ⟨tail, rfl, -⟩ := hcopy'.exists_tail hread
  have hcfirst : c = first := by
    rw [hread.text_eq] at hc
    exact (Option.some.inj hc).symm
  subst hcfirst
  have hnext : (stage o tokens (n + 2)).page.written o e
      = (gs ++ (gap ++ [.char f])) ++ .char c :: tail := by
    rw [stage_succ ht]
    simp only [Progress.step, hlayout]
    rw [← hwritten]
    refine hstep.trans ?_
    rw [Page.ready, hgap, Page.written_space]
    simp
  have hblank : isBlank c = false := hread.not_isBlank
  obtain ⟨more, hend⟩ := written_stage_keeps htokens hblank hnext hlt (Nat.le_refl _)
  obtain ⟨blanks, hblanks, hrendered⟩ :=
    (stage o tokens tokens.length).page.exists_blanks (o := o) (e := e)
  obtain ⟨kept, hkept⟩ := exists_of_append_blanks hblank hblanks (hrendered.symm.trans hend)
  refine ⟨p, f, c, gs, gap, kept, hp, hf, hkind, htext, hfront, by simpa using hjoins, hcopy, ?_⟩
  rw [hkept]
  simp

end

/-! ## The output -/

/-- A sign and the character that goes on with it are no copy of the sign. -/
theorem Partition.codeContent_readTokens_ne {language : Language} {e : LineEnd}
    {source gs gap more : List Glyph} {ts others : List Token} {p : Token} {trailing : Nat}
    {f c : Char} (hsource : Partition language source (ts ++ p :: others) trailing)
    (hplain : Plain .linux source) (hts : ∀ t ∈ ts ++ [p], t.Settled language)
    (h : Spells e none ts gs) (hjoins : Joins e ts.getLast? p gap)
    (hcopy : Copies e p [.char f]) (hf : (f, c) ∈ fusing) (hkind : p.kind = .punctuation)
    (htext : p.text.toList = [f]) (width : Nat) :
    codeContent (readTokens language width .start
        (gs ++ (gap ++ .char f :: .char c :: more))).tokens
      ≠ codeContent (ts ++ p :: others) := by
  have hsigns : ∀ x ∈ fusing, looksPast x.1 = false ∧ isGapChar x.1 = false ∧
      linesOf (glyphs [x.1]) = ([x.1], []) ∧ linesOf (glyphs [x.1, x.2]) = ([x.1, x.2], []) := by
    decide
  obtain ⟨hpast, hgap, hone, htwo⟩ := hsigns _ hf
  have hstarts : p.startsPast = false := by
    rw [Token.startsPast, htext]
    exact hpast
  obtain ⟨us, position, hfront, hus⟩ := hsource.readTokens_front hplain hts h
    (by simpa using hjoins) hcopy hstarts (.char c :: more) width
    (fun _ => (rfl : Position.start.atLineStart = _))
  have hreads : Scanner.Reads language (position.advance width gap).atLineStart f
      (.char c :: more) .punctuation ⟨[.char c], more⟩ := reads_fused hf _ more
  have hread := readTokens_cons hjoins.isGap hgap hreads
  have hcode : ∀ {t : Token}, t.kind = .punctuation → t.isTrivia = false := by
    intro t ht
    simp [Token.isTrivia, ht]
  intro hsame
  rw [List.singleton_append] at hfront
  rw [hfront, hread, codeContent_append, codeContent_append,
    codeContent_cons (hcode (t := .readBehind width position .punctuation gap _) rfl),
    codeContent_cons (hcode hkind), codeContent_congr hus] at hsame
  have hcontent := (List.cons.inj (List.append_cancel_left hsame)).1
  rw [Token.content, Token.content, Token.lines, Token.lines, hkind, htext, hone,
    Token.readBehind, Glyph.textOf, String.toList_ofList] at hcontent
  have hchars : Glyph.charsOf [.char f, .char c] = [f, c] := rfl
  rw [hchars, htwo] at hcontent
  simp [Token.contentLine] at hcontent

/-- Formatting preserves the code of a source exactly where it writes no token directly behind a
`*` or `&` that goes on with it.  Comments and directives set aside, the output is then read as
tokens of the same kinds and contents; otherwise the sign and the token are read as `*=`, `&=` or
`&&`. -/
theorem codeContent_format_iff {text : String} {o : Options} (ho : parseOptions text = .ok o)
    (hbraces : o.addBraces = false) {source : String} (hreturn : '\r' ∉ source.toList)
    (hclosed : ∀ t ∈ (tokenize o.language o.indentWidth source).tokens,
      t.mayStayOpen = true → t.isClosed o.language = true)
    (hhash : ∀ t ∈ (tokenize o.language o.indentWidth source).tokens, t.is "#" = false)
    (tabWidth : Nat) :
    codeContent (tokenize o.language tabWidth (format o source)).tokens
        = codeContent (tokenize o.language o.indentWidth source).tokens ↔
      ∀ n, ¬FusesAt o (tokenize o.language o.indentWidth source).tokens n := by
  have hplain := plain_glyphs hreturn
  have hpart := partition_tokenize o.language o.indentWidth source
  have hsettled : ∀ t ∈ (tokenize o.language o.indentWidth source).tokens,
      t.Settled o.language := fun t ht => ⟨hclosed t ht, hhash t ht⟩
  have htokens := hpart.faithful hplain hsettled
  have htexts : ∀ t ∈ (tokenize o.language o.indentWidth source).tokens,
      Plain .linux (glyphs t.text.toList) := by
    intro t ht
    obtain ⟨_, _, _, _, hread⟩ := htokens.isRead t ht
    rw [hread.glyphs_eq]
    exact hread.plain
  have hwidth : 0 < o.indentWidth :=
    Nat.lt_of_lt_of_le (by decide) (indentWidth_parseOptions ho).1
  have hwritten := plain_written_stage (o := o) (e := lineEndOf o source) htokens htexts
    (Nat.le_refl _)
  obtain ⟨blanks, -, hblanks⟩ := (stage o (tokenize o.language o.indentWidth source).tokens
    (tokenize o.language o.indentWidth source).tokens.length).page.exists_blanks (o := o)
      (e := lineEndOf o source)
  rw [hblanks] at hwritten
  have hglyphs := glyphs_format hbraces (by
    rw [layOut_eq_stage]
    exact (plain_append.mp hwritten).1)
  rw [layOut_eq_stage] at hglyphs
  rw [tokenize, hglyphs]
  constructor
  · intro hsame
    by_contra hfuses
    obtain ⟨n, hn, hfirst⟩ : ∃ n, FusesAt o (tokenize o.language o.indentWidth source).tokens n ∧
        ∀ m < n, ¬FusesAt o (tokenize o.language o.indentWidth source).tokens m := by
      classical
      have hex := not_forall_not.mp hfuses
      exact ⟨Nat.find hex, Nat.find_spec hex, fun m hm => Nat.find_min hex hm⟩
    obtain ⟨p, f, c, gs, gap, more, hp, hf, hkind, htext, hspells, hjoins, hcopy, hrendered⟩ :=
      exists_written_fused (e := lineEndOf o source) htokens hwidth hn hfirst
    generalize (tokenize o.language o.indentWidth source).tokens = tokens at *
    obtain ⟨hlt, hget⟩ := List.getElem?_eq_some_iff.mp hp
    have hsplit : tokens.take n ++ p :: tokens.drop (n + 1) = tokens := by
      rw [← hget, List.getElem_cons_drop, List.take_append_drop]
    rw [← hsplit] at hpart
    have hfront : ∀ t ∈ tokens.take n ++ [p], t ∈ tokens := by
      intro t ht
      rw [← hsplit]
      exact List.mem_append.mpr ((List.mem_append.mp ht).imp_right fun h =>
        List.mem_cons.mpr (.inl (List.mem_singleton.mp h)))
    rw [hrendered] at hsame
    simp only [List.append_assoc, List.cons_append] at hsame
    exact hpart.codeContent_readTokens_ne hplain (fun t ht => hsettled t (hfront t ht)) hspells
      hjoins hcopy hf hkind htext (max tabWidth 1) (hsame.trans (congrArg codeContent hsplit.symm))
  · intro hunfused
    have hspells := spells_stage_of_unfused (e := lineEndOf o source) htokens hwidth (Nat.le_refl _)
      fun _ m _ => hunfused m
    rw [List.take_length] at hspells
    exact codeContent_congr (hpart.content_readTokens hplain hsettled
      (Page.rendered_spells hspells htokens.isRead) _ fun _ => rfl)

theorem not_fusesAt {o : Options} {tokens : List Token}
    (h : tokens.IsChain fun p t => p.fuses t = false) (n : Nat) : ¬FusesAt o tokens n := by
  rintro ⟨p, t, _, hp, ht, hfuses, -⟩
  obtain ⟨hn, rfl⟩ := List.getElem?_eq_some_iff.mp hp
  obtain ⟨hn', rfl⟩ := List.getElem?_eq_some_iff.mp ht
  rw [List.isChain_iff_getElem.mp h n hn'] at hfuses
  cases hfuses

/-- The signs in front of a name and of a closing parenthesis are written without white space and
read as they are. -/
theorem codeContent_format_declarators :
    let source := "void f(int * & p, char * );\n"
    let o := { Options.default with alignPointer := some .name }
    parseOptions "--align-pointer=name" = .ok o ∧
      codeContent (tokenize .c 8 (format o source)).tokens
        = codeContent (tokenize .c 4 source).tokens := by
  intro source o
  have ho : parseOptions "--align-pointer=name" = .ok o := by decide +kernel
  have htokens : (tokenize .c 4 source).tokens
      = [⟨.word, "void", 0, "", 0, false⟩, ⟨.word, "f", 0, " ", 5, false⟩,
          ⟨.punctuation, "(", 0, "", 6, false⟩, ⟨.word, "int", 0, "", 7, false⟩,
          ⟨.punctuation, "*", 0, " ", 11, false⟩, ⟨.punctuation, "&", 0, " ", 13, false⟩,
          ⟨.word, "p", 0, " ", 15, false⟩, ⟨.punctuation, ",", 0, "", 16, false⟩,
          ⟨.word, "char", 0, " ", 18, false⟩, ⟨.punctuation, "*", 0, " ", 23, false⟩,
          ⟨.punctuation, ")", 0, " ", 25, false⟩, ⟨.punctuation, ";", 0, "", 26, false⟩] := by
    show (tokenize .c 4 "void f(int * & p, char * );\n").tokens = _
    decide +kernel
  refine ⟨ho, (codeContent_format_iff ho rfl (by decide) ?_ ?_ 8).mpr (not_fusesAt ?_)⟩
  · show ∀ t ∈ (tokenize .c 4 source).tokens, t.mayStayOpen = true → t.isClosed .c = true
    rw [htokens]
    decide +kernel
  · show ∀ t ∈ (tokenize .c 4 source).tokens, t.is "#" = false
    rw [htokens]
    decide +kernel
  · show (tokenize .c 4 source).tokens.IsChain _
    rw [htokens]
    decide +kernel

/-- A parameter without a name in front of its default: aligned to the name that is missing, the
sign is written in front of the `=`, and the output holds a `*=`. -/
theorem codeContent_format_default_ne :
    let source := "void f(int * = 0);\n"
    let o := { Options.default with alignPointer := some .name }
    parseOptions "--align-pointer=name" = .ok o ∧ format o source = "void f(int *= 0);\n" ∧
      codeContent (tokenize .c 4 (format o source)).tokens
        ≠ codeContent (tokenize .c 4 source).tokens := by
  intro source o
  have hstream : tokenize .c 4 source
      = ⟨[⟨.word, "void", 0, "", 0, false⟩, ⟨.word, "f", 0, " ", 5, false⟩,
          ⟨.punctuation, "(", 0, "", 6, false⟩, ⟨.word, "int", 0, "", 7, false⟩,
          ⟨.punctuation, "*", 0, " ", 11, false⟩, ⟨.punctuation, "=", 0, " ", 13, false⟩,
          ⟨.number, "0", 0, " ", 15, false⟩, ⟨.punctuation, ")", 0, "", 16, false⟩,
          ⟨.punctuation, ";", 0, "", 17, false⟩], 1, some .linux⟩ := by
    show tokenize .c 4 "void f(int * = 0);\n" = _
    decide +kernel
  have hformat : format o source = "void f(int *= 0);\n" := by
    show (layOut o (tokensToLayOut o (tokenize .c 4 source))).render .spaces 4
      ((none <|> (tokenize .c 4 source).lineEnd).getD .linux)
      (tokenize .c 4 source).trailingBreaks = _
    rw [hstream]
    decide +kernel
  have hoperator : (codeContent (tokenize .c 4 "void f(int *= 0);\n").tokens).length = 8 := by
    decide +kernel
  refine ⟨by decide +kernel, hformat, fun hsame => ?_⟩
  rw [hformat, hstream] at hsame
  rw [hsame] at hoperator
  revert hoperator
  decide

end Beautifier
