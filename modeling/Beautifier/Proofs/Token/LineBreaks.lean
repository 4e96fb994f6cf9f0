/-
The line breaks of a source.

What a reader knows of the lines of a source, the column it stands at and the
first line ending it has met, goes by the glyphs it passes.  These are the glyphs
of the source as long as every token is read glyph by glyph, and one kind of
token is not: a carriage return in the delimiter of a raw string is taken as a
plain character (`Reads.source_eq_of_not_mem`).  So a token stands at the column
that its line gives it unless there is such a delimiter in front of it, and the
line ending is the first of the source if there is none at all
(`lineBreaks_tokenize`).
-/
import Beautifier.Proofs.Token.Cover
import Beautifier.Proofs.Token.Pieces

namespace Beautifier

/-! ## Lines of a text -/

/-- The first line ending of a text. -/
def firstLineEnd : List Char → Option LineEnd
  | [] => none
  | '\r' :: '\n' :: _ => some .windows
  | '\r' :: _ => some .macOld
  | '\n' :: _ => some .linux
  | _ :: rest => firstLineEnd rest

/-- What stands in a text behind its last line break. -/
def behindBreaks (text : List Char) : List Char :=
  (text.reverse.takeWhile fun c => c != '\r' && c != '\n').reverse

/-- The column behind a character of a text that may go over several lines. -/
def columnStep (width column : Nat) (c : Char) : Nat :=
  if c = '\r' ∨ c = '\n' then 0 else Column.step width column c

theorem findSome?_glyphs (text : List Char) :
    (glyphs text).findSome? Glyph.lineEnd? = firstLineEnd text := by
  fun_induction glyphs text with
  | case1 => rfl
  | case2 rest _ => rfl
  | case3 rest hfeed _ =>
      rw [firstLineEnd]
      · rfl
      · exact hfeed
  | case4 rest _ => rfl
  | case5 c rest hpair hreturn hfeed ih =>
      rw [firstLineEnd]
      · exact ih
      · exact hpair
      · exact hreturn
      · exact hfeed

theorem behindBreaks_concat (text : List Char) (c : Char) : behindBreaks (text ++ [c])
    = if c = '\r' ∨ c = '\n' then [] else behindBreaks text ++ [c] := by
  rw [behindBreaks, List.reverse_append, List.reverse_singleton, List.singleton_append]
  split
  · next hbreak =>
    rw [List.takeWhile_cons_of_neg (by rcases hbreak with rfl | rfl <;> simp)]
    rfl
  · next hplain =>
    rw [not_or] at hplain
    rw [List.takeWhile_cons_of_pos (by simp [hplain]), List.reverse_cons, behindBreaks]

/-- Step by step one comes to the width of what stands behind the last line break. -/
theorem foldl_columnStep (width : Nat) (text : List Char) :
    text.foldl (columnStep width) 0 = Column.width width (behindBreaks text) := by
  induction text using List.reverseRecOn with
  | nil => rfl
  | append_singleton text c ih =>
      rw [List.foldl_append, ih, behindBreaks_concat, List.foldl_cons, List.foldl_nil, columnStep]
      split
      · rfl
      · rw [Column.width, Column.width, Column.advance_append]
        rfl

theorem Position.column_advance {width : Nat} {p : Position} {gs : List Glyph}
    (h : Canonical gs) :
    (p.advance width gs).column = (Glyph.charsOf gs).foldl (columnStep width) p.column := by
  induction gs generalizing p with
  | nil => rfl
  | cons g gs ih =>
      obtain ⟨htail, hg⟩ := canonical_cons.mp h
      rw [advance, List.foldl_cons, ← advance, ih htail, Glyph.charsOf_cons, List.foldl_append]
      congr 1
      cases g with
      | char c => exact (if_neg (by simpa using hg)).symm
      | lineBreak e => cases e <;> rfl

/-! ## Raw strings -/

/-- Characters that end the delimiter of a raw string, or that it cannot have. -/
def endsDelimiter (c : Char) : Bool :=
  c == '(' || c == '\x22' || c == '\\' || c == ' ' || c == '\n'

/-- What a raw string has for its delimiter, behind its introducer and quote.  No other token has
one. -/
def Token.rawDelimiter (t : Token) : List Char :=
  let introducer := t.text.toList.takeWhile (· != '\x22')
  if t.kind == .string && Scanner.rawIntroducers.contains (String.ofList introducer) then
    (t.text.toList.drop (introducer.length + 1)).takeWhile (!endsDelimiter ·)
  else []

namespace Scanner

variable {gs : List Glyph}

theorem not_endsDelimiter_of_mem (h : Canonical gs) :
    ∀ c ∈ Glyph.charsOf (rawDelimiter gs).2.taken, endsDelimiter c = false := by
  have hnone : ∀ c ∈ Glyph.charsOf [], endsDelimiter c = false :=
    fun c hc => absurd hc List.not_mem_nil
  fun_induction rawDelimiter gs with
  | case1 => exact hnone
  | case2 => exact hnone
  | case3 => exact hnone
  | case4 c rest hopen hends raw cut hcut ih =>
      rw [hcut] at ih
      obtain ⟨htail, -, hfeed⟩ := canonical_cons.mp h
      refine List.forall_mem_cons.mpr ⟨?_, ih htail⟩
      simp only [Bool.not_eq_true, Bool.or_eq_false_iff] at hopen hends
      simp [endsDelimiter, hopen, hends, hfeed]
  | case5 rest raw cut hcut ih =>
      rw [hcut] at ih
      exact List.forall_mem_cons.mpr ⟨rfl, ih h.tail⟩
  | case6 => exact List.forall_mem_cons.mpr ⟨rfl, hnone⟩
  | case7 => exact hnone

theorem source_rawDelimiter_of_not_mem (h : '\r' ∉ Glyph.charsOf (rawDelimiter gs).2.taken) :
    (rawDelimiter gs).2.source = gs := by
  fun_induction rawDelimiter gs with
  | case1 => rfl
  | case2 => rfl
  | case3 => rfl
  | case4 c rest _ _ raw cut hcut ih =>
      rw [hcut] at ih
      exact congrArg _ (ih fun hmem => h (List.mem_cons_of_mem _ hmem))
  | case5 => exact absurd List.mem_cons_self h
  | case6 => exact absurd List.mem_cons_self h
  | case7 => rfl

theorem source_rawBody_of_not_mem {closing : List Char} (h : '\r' ∉ closing) :
    (rawBody closing gs).source = gs := by
  fun_induction rawBody closing gs with
  | case1 => rfl
  | case2 g rest behind hdrop => exact source_of_dropChars?_of_not_mem h hdrop
  | case3 g rest _ ih => rw [Cut.source_push, ih]

theorem source_rawString_of_not_mem (h : '\r' ∉ Glyph.charsOf (rawDelimiter gs).2.taken) :
    (rawString gs).source = gs := by
  have hsource := source_rawDelimiter_of_not_mem h
  simp only [rawString, Cut.source_prepend]
  split
  · rw [source_rawBody_of_not_mem (by simpa using h)]
    exact hsource
  · rw [source_quoted]
    exact hsource

theorem mem_rawDelimiter {t : Token} {first : Char} {rest : List Glyph} (hgs : Canonical gs)
    (hkind : t.kind = .string) (hfirst : isWordStart first = true)
    (hquote : (word gs).rest = .char '\x22' :: rest)
    (hraw : rawIntroducers.contains (String.ofList (first :: Glyph.charsOf (word gs).taken)) = true)
    (htext : t.text = Glyph.textOf (.char first
      :: (((rawString rest).push (.char '\x22')).prepend (word gs).taken).taken)) {c : Char}
    (hc : c ∈ Glyph.charsOf (rawDelimiter rest).2.taken) : c ∈ t.rawDelimiter := by
  obtain ⟨body, hbody⟩ : ∃ body, Glyph.charsOf (rawString rest).taken
      = Glyph.charsOf (rawDelimiter rest).2.taken ++ body :=
    ⟨_, Glyph.charsOf_append ..⟩
  set introducer := first :: Glyph.charsOf (word gs).taken with hintroducer
  have hplain : ∀ d ∈ introducer, (d != '\x22') = true := by
    have hne : ∀ d, isWordChar d = true → (d != '\x22') = true := by
      intro d hd
      rw [bne_iff_ne]
      rintro rfl
      exact absurd hd (by decide)
    refine List.forall_mem_cons.mpr ⟨hne first ?_, fun d hd => hne d ?_⟩
    · rw [isWordChar, hfirst, Bool.true_or]
    · obtain ⟨g, hg, hd⟩ := List.mem_flatMap.mp hd
      obtain ⟨e, rfl, he⟩ := isWordChar_of_mem_word g hg
      rwa [List.mem_singleton.mp hd]
  have hchars : t.text.toList = introducer ++ '\x22' :: Glyph.charsOf (rawString rest).taken := by
    rw [htext, Glyph.textOf, String.toList_ofList]
    simp [Cut.push, Cut.prepend, Glyph.chars, hintroducer]
  have hfront : t.text.toList.takeWhile (· != '\x22') = introducer := by
    rw [hchars, List.takeWhile_append_of_pos hplain, List.takeWhile_cons_of_neg (by simp),
      List.append_nil]
  have hrest : Canonical rest := by
    have hword := hgs.suffix (suffix_of_source (source_word gs))
    rw [hquote] at hword
    exact hword.tail
  have hbehind : t.text.toList.drop (introducer.length + 1)
      = Glyph.charsOf (rawDelimiter rest).2.taken ++ body := by
    rw [hchars, ← List.drop_drop, List.drop_left, List.drop_succ_cons, List.drop_zero, hbody]
  have hdelimiter : ∀ d ∈ Glyph.charsOf (rawDelimiter rest).2.taken, (!endsDelimiter d) = true :=
    fun d hd => by rw [not_endsDelimiter_of_mem hrest d hd, Bool.not_false]
  rw [Token.rawDelimiter, hfront, if_pos (by rw [hkind, hraw]; rfl), hbehind,
    List.takeWhile_append_of_pos hdelimiter]
  exact List.mem_append_left _ hc

/-- A token without a carriage return in the delimiter of a raw string is read glyph by glyph. -/
theorem Reads.source_eq_of_not_mem {language : Language} {atLineStart : Bool} {first : Char}
    {cut : Cut} {t : Token} (h : Reads language atLineStart first gs t.kind cut)
    (hgs : Canonical gs) (htext : t.text = Glyph.textOf (.char first :: cut.taken))
    (hreturn : '\r' ∉ t.rawDelimiter) : cut.source = gs := by
  generalize hkind : t.kind = kind at h
  cases h with
  | directive => exact source_directive ..
  | lineComment => exact source_lineComment _
  | blockComment => rw [Cut.source_push, source_blockComment]
  | string => exact source_quoted ..
  | character => exact source_quoted ..
  | verbatim => rw [Cut.source_push, source_verbatim]
  | number => exact source_number ..
  | fraction => exact source_number ..
  | @rawString _ _ rest hfirst hquote _ hraw =>
      have hword : (Scanner.word gs).taken ++ (Scanner.word gs).rest = gs := source_word gs
      have hplain : '\r' ∉ Glyph.charsOf (rawDelimiter rest).2.taken :=
        fun hmem => hreturn (mem_rawDelimiter hgs hkind hfirst hquote hraw htext hmem)
      rw [Cut.source_prepend, Cut.source_push, source_rawString_of_not_mem hplain, ← hquote, hword]
  | word => exact source_word _
  | punctuation => exact source_punctuation ..

end Scanner

/-! ## The whole source -/

/-- The text of a source in front of the token at position `n`. -/
def textBefore (gaps : List (List Char)) (ts : List Token) (n : Nat) : List Char :=
  ((List.zipWith (fun gap t => gap ++ t.text.toList) gaps ts).take n).flatten ++ gaps.getD n []

/-- A stream of tokens, read from a position on, counts the line breaks of the text that its tokens
and the gaps between them make. -/
structure TokenStream.CountsBreaks (stream : TokenStream) (width : Nat) (p : Position)
    (gaps : List (List Char)) (text : List Glyph) : Prop where
  lineEnd : (∀ t ∈ stream.tokens, '\r' ∉ t.rawDelimiter) →
    stream.lineEnd = (p.advance width text).lineEnd
  column : ∀ n t, stream.tokens[n]? = some t →
    (∀ u ∈ stream.tokens.take n, '\r' ∉ u.rawDelimiter) →
    t.column = (textBefore gaps stream.tokens n).foldl (columnStep width) p.column

/-- One more token in front.  If no delimiter of a raw string in it holds a carriage return, it and
what is left are, glyph by glyph, what stands behind the gap. -/
theorem TokenStream.CountsBreaks.cons {stream : TokenStream} {t : Token} {width : Nat}
    {p : Position} {gaps : List (List Char)} {gap taken rest source : List Glyph}
    {atLineStart : Bool} (hcounts : stream.CountsBreaks width
      { (p.advance width gap).advance width taken with atLineStart } gaps rest)
    (hsource : Canonical source) (hgap : gap <+: source)
    (htoken : t.text.toList = Glyph.charsOf taken)
    (hcolumn : t.column = (p.advance width gap).column)
    (hsplit : '\r' ∉ t.rawDelimiter → source = gap ++ taken ++ rest) :
    ({ stream with tokens := t :: stream.tokens } : TokenStream).CountsBreaks width p
      (Glyph.charsOf gap :: gaps) source where
  lineEnd := fun hall => by
    obtain ⟨hreturn, hothers⟩ := List.forall_mem_cons.mp hall
    refine (hcounts.lineEnd hothers).trans ?_
    rw [hsplit hreturn, Position.advance_append, Position.advance_append]
    simp only [Position.lineEnd_advance]
  column := fun n u hget hall => by
    cases n with
    | zero =>
        cases hget
        obtain ⟨tail, rfl⟩ := hgap
        exact hcolumn.trans (Position.column_advance hsource.left)
    | succ n =>
        obtain ⟨hreturn, hothers⟩ := List.forall_mem_cons.mp hall
        have htaken : Canonical (gap ++ taken) := by
          rw [hsplit hreturn] at hsource
          exact hsource.left
        have hbehind : ((p.advance width gap).advance width taken).column
            = (Glyph.charsOf (gap ++ taken)).foldl (columnStep width) p.column := by
          rw [← Position.column_advance htaken, Position.advance_append]
        have hbefore : textBefore (Glyph.charsOf gap :: gaps) (t :: stream.tokens) (n + 1)
            = Glyph.charsOf (gap ++ taken) ++ textBefore gaps stream.tokens n := by
          simp [textBefore, htoken, Glyph.charsOf_append]
        rw [hbefore, List.foldl_append, ← hbehind]
        exact hcounts.column n u hget hothers

theorem countsBreaks_readTokens (language : Language) (width : Nat) (p : Position)
    {source : List Glyph} (hsource : Canonical source) :
    let stream := readTokens language width p source
    ∃ (gaps : List (List Char)) (last : List Char),
      List.Forall₂ Token.Follows stream.tokens gaps ∧ (∀ c ∈ last, isSpace c = true) ∧
      Glyph.charsOf source = (List.zipWith (fun gap t => gap ++ t.text.toList) gaps
        stream.tokens).flatten ++ last ∧
      stream.CountsBreaks width p gaps source := by
  fun_induction readTokens language width p source with
  | case1 p source gap start hsplit =>
      have hgap : gap = source := splitGap_none hsplit
      have hspace : ∀ c ∈ Glyph.charsOf gap, isSpace c = true :=
        isSpace_of_isGap isGap_of_mem_splitGap
      exact ⟨[], Glyph.charsOf source, .nil, hgap ▸ hspace, rfl, fun _ => by rw [← hgap],
        fun n t hget => absurd hget (by simp)⟩
  | case2 p source gap start first rest hsplit scanned taken token behind others ih =>
      obtain ⟨heq, hfirst⟩ := splitGap_some hsplit
      have hreads : Scanner.Reads language start.atLineStart first rest token.kind scanned.2 :=
        Scanner.reads_scan ..
      rw [show (splitGap source).1 = gap from rfl] at heq
      rw [← heq] at hsource ⊢
      have hrest : Canonical rest := (hsource.suffix (List.suffix_append gap _)).tail
      obtain ⟨gaps, last, hgaps, hlast, hchars, hcounts⟩ := ih (hreads.canonical_rest hrest)
      have htoken : token.text.toList = Glyph.charsOf taken := String.toList_ofList
      refine ⟨Glyph.charsOf gap :: gaps, last,
        .cons (.of_taken hsource isGap_of_mem_splitGap hfirst rfl rfl rfl) hgaps, hlast, ?_,
        hcounts.cons hsource (List.prefix_append gap _) htoken rfl fun hreturn => ?_⟩
      · have htake : Glyph.charsOf taken ++ Glyph.charsOf scanned.2.rest
            = Glyph.charsOf (.char first :: rest) := by
          have hcut := hreads.chars_eq
          rw [Cut.source, Glyph.charsOf_append] at hcut
          rw [Glyph.charsOf_cons, Glyph.charsOf_cons, List.append_assoc, hcut]
        rw [Glyph.charsOf_append, ← htake, hchars, List.zipWith_cons_cons, List.flatten_cons,
          htoken]
        simp only [List.append_assoc, others]
      · have hcut : scanned.2.taken ++ scanned.2.rest = rest :=
          hreads.source_eq_of_not_mem hrest rfl hreturn
        rw [List.append_assoc, List.cons_append, hcut]

/-- Every line break of a source is accounted for.  A source is gaps and tokens in turn; if no
delimiter of a raw string holds a carriage return, the line ending that is found is the first of
the source, wherever it stands.  A token that no such delimiter stands in front of stands at the
column that the text between it and the line break before it is wide. -/
theorem lineBreaks_tokenize (language : Language) (width : Nat) (source : String) :
    let stream := tokenize language width source
    ∃ (gaps : List (List Char)) (last : List Char),
      List.Forall₂ Token.Follows stream.tokens gaps ∧ (∀ c ∈ last, isSpace c = true) ∧
      source.toList = (List.zipWith (fun gap t => gap ++ t.text.toList) gaps
        stream.tokens).flatten ++ last ∧
      ((∀ t ∈ stream.tokens, '\r' ∉ t.rawDelimiter) →
        stream.lineEnd = firstLineEnd source.toList) ∧
      ∀ n t, stream.tokens[n]? = some t →
        (∀ u ∈ stream.tokens.take n, '\r' ∉ u.rawDelimiter) →
        t.column = Column.width (max width 1)
          (behindBreaks (textBefore gaps stream.tokens n)) := by
  intro stream
  obtain ⟨gaps, last, hgaps, hlast, hchars, hcounts⟩ :=
    countsBreaks_readTokens language (max width 1) .start (canonical_glyphs source.toList)
  rw [chars_glyphs] at hchars
  refine ⟨gaps, last, hgaps, hlast, hchars, fun hall => ?_, fun n t hget hall => ?_⟩
  · rw [← findSome?_glyphs]
    exact (hcounts.lineEnd hall).trans (Position.lineEnd_advance ..)
  · rw [← foldl_columnStep]
    exact hcounts.column n t hget hall

/-- The line break in a comment is the first of the source, and the column of the word behind the
comment is counted from it. -/
theorem lineBreaks_tokenize_comment :
    let stream := tokenize .c 4 "/*\r\n\t*/ x"
    (∀ t ∈ stream.tokens, '\r' ∉ t.rawDelimiter) ∧ stream.lineEnd = some .windows ∧
      stream.tokens[1]?.map Token.column
        = some (Column.width 4 (behindBreaks "/*\r\n\t*/ ".toList)) := by
  intro stream
  have htokens : stream.tokens = [⟨.blockComment, "/*\r\n\t*/", 0, "", 0, false⟩,
      ⟨.word, "x", 0, " ", 7, false⟩] := by
    show (tokenize .c 4 "/*\r\n\t*/ x").tokens = _
    decide +kernel
  obtain ⟨gaps, last, hgaps, -, -, hlineEnd, hcolumn⟩ := lineBreaks_tokenize .c 4 "/*\r\n\t*/ x"
  rw [show (tokenize .c 4 "/*\r\n\t*/ x").tokens = _ from htokens] at hgaps hlineEnd hcolumn
  rw [htokens]
  have hall : ∀ t ∈ [(⟨.blockComment, "/*\r\n\t*/", 0, "", 0, false⟩ : Token),
      ⟨.word, "x", 0, " ", 7, false⟩], '\r' ∉ t.rawDelimiter := by decide
  cases hgaps with
  | @cons _ gap₀ _ _ hfirst hgaps => cases hgaps with
    | @cons _ gap₁ _ _ hsecond _ =>
        obtain rfl : gap₀ = [] := (hfirst.space_eq rfl).symm
        obtain rfl : gap₁ = [' '] := (hsecond.space_eq rfl).symm
        refine ⟨hall, (hlineEnd hall).trans (by decide), ?_⟩
        exact congrArg some (hcolumn 1 _ rfl fun u hu => hall u (List.mem_of_mem_take hu))

/-- A carriage return in the delimiter of a raw string is passed over: no line ending is found, and
the word behind stands at column 9 and not at column 2 of its line. -/
theorem lineBreaks_lost_in_delimiter :
    let source := "R\x22\r(x)\r\x22 y"
    let stream := tokenize .c 4 source
    firstLineEnd source.toList = some .macOld ∧ stream.lineEnd = none ∧
      ∃ t u, stream.tokens = [t, u] ∧ t.text = "R\x22\r(x)\r\x22" ∧ u.text = "y" ∧
        source.toList = t.text.toList ++ ' ' :: u.text.toList ∧
        Column.width 4 (behindBreaks (t.text.toList ++ [' '])) = 2 ∧ u.column = 9 := by
  have hstream : tokenize .c 4 "R\x22\r(x)\r\x22 y"
      = ⟨[⟨.string, "R\x22\r(x)\r\x22", 0, "", 0, false⟩, ⟨.word, "y", 0, " ", 9, false⟩], 0,
          none⟩ := by
    decide +kernel
  refine ⟨by decide, by rw [hstream], ?_⟩
  rw [hstream]
  exact ⟨_, _, rfl, rfl, rfl, by decide, by decide, rfl⟩

end Beautifier
