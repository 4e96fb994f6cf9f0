/-
The line endings of the output.

The output is cut at every copy of its line ending (`cutAt`).  What is written
are pieces without line endings in disguise, so the cut finds the lines of the
page and no carriage return or line feed is left in one of them
(`cutAt_charsOf`).

The line breaks in the white space at the end come from two places: the breaks
behind the last token, which are counted in the source, and the text of the
last token itself, which may end in empty lines if nothing closes it.  These
lines stay empty in the copy of the token (`endsInBreak_copy`).
-/
import Beautifier.Proofs.Insertion.Bodies
import Beautifier.Proofs.Layout.Composed
import Beautifier.Proofs.Token.Cover

namespace Beautifier

/-! ## Cutting at a separator -/

/-- The pieces of a text between the copies of a separator, each of them found from the left behind
the one before: the first piece, and the others.  `skip` counts the characters of a copy that are
still to be passed over. -/
def cutAt (sep : List Char) : Nat → List Char → List Char × List (List Char)
  | _, [] => ([], [])
  | skip + 1, _ :: rest => cutAt sep skip rest
  | 0, c :: rest =>
      if sep.isPrefixOf (c :: rest) then
        let (first, others) := cutAt sep (sep.length - 1) rest
        ([], first :: others)
      else
        let (first, others) := cutAt sep 0 rest
        (c :: first, others)

variable {e : LineEnd} {gs : List Glyph}

theorem cutAt_lineEnd (e : LineEnd) (rest : List Char) :
    cutAt e.chars 0 (e.chars ++ rest)
      = ([], (cutAt e.chars 0 rest).1 :: (cutAt e.chars 0 rest).2) := by
  cases e <;> simp [LineEnd.chars, cutAt]

theorem cutAt_char {c : Char} (hc : c ≠ '\r' ∧ c ≠ '\n') (rest : List Char) :
    cutAt e.chars 0 (c :: rest)
      = (c :: (cutAt e.chars 0 rest).1, (cutAt e.chars 0 rest).2) := by
  cases e <;> simp [LineEnd.chars, cutAt, hc.1.symm, hc.2.symm]

/-- Where every line break is the separator, the pieces are the lines. -/
theorem cutAt_charsOf (h : Plain e gs) : cutAt e.chars 0 (Glyph.charsOf gs) = linesOf gs := by
  induction gs with
  | nil => rfl
  | cons g gs ih =>
      obtain ⟨hg, hgs⟩ := plain_cons.mp h
      have hg := hg g List.mem_cons_self
      rw [Glyph.charsOf_cons]
      cases g with
      | char c =>
          show cutAt e.chars 0 (c :: Glyph.charsOf gs) = _
          rw [cutAt_char hg, ih hgs, linesOf]
      | lineBreak e' =>
          cases hg
          rw [Glyph.chars, cutAt_lineEnd, ih hgs, linesOf]

/-! ## The white space at the end -/

def isBreak (c : Char) : Bool := c == '\r' || c == '\n'

/-- Whether the white space at the end of a text holds a line break. -/
def endsInBreak (text : List Char) : Bool := (text.reverse.takeWhile isSpace).any isBreak

variable {s t : List Char}

theorem endsInBreak_append_of_ink (h : ink t ≠ []) : endsInBreak (s ++ t) = endsInBreak t := by
  have hstops : (t.reverse.takeWhile isSpace).length ≠ t.reverse.length := by
    intro hlength
    have hall : t.reverse.takeWhile isSpace = t.reverse :=
      (List.takeWhile_prefix isSpace).eq_of_length hlength
    refine h (ink_eq_nil fun c hc => ?_)
    exact List.takeWhile_eq_self_iff.mp hall c (List.mem_reverse.mpr hc)
  rw [endsInBreak, endsInBreak, List.reverse_append, List.takeWhile_append, if_neg hstops]

theorem endsInBreak_append_of_space (h : ∀ c ∈ t, isSpace c = true) :
    endsInBreak (s ++ t) = (endsInBreak s || t.any isBreak) := by
  have hall : ∀ c ∈ t.reverse, isSpace c = true := fun c hc => h c (List.mem_reverse.mp hc)
  rw [endsInBreak, endsInBreak, List.reverse_append, List.takeWhile_append_of_pos hall,
    List.any_append, List.any_reverse, Bool.or_comm]

theorem endsInBreak_of_breakless (h : ∀ c ∈ t, isBreak c = false) : endsInBreak t = false := by
  rw [endsInBreak, List.any_eq_false]
  intro c hc
  rw [h c (List.mem_reverse.mp ((List.takeWhile_sublist isSpace).subset hc))]
  exact Bool.false_ne_true

theorem isSpace_of_isBreak {c : Char} (h : isBreak c = true) : isSpace c = true := by
  rw [isBreak, Bool.or_eq_true, beq_iff_eq, beq_iff_eq] at h
  rcases h with rfl | rfl <;> rfl

/-- A text ends in a line break if its last line stands behind one and holds no ink. -/
theorem endsInBreak_charsOf (h : ∀ c, .char c ∈ gs → isBreak c = false) :
    endsInBreak (Glyph.charsOf gs) = true ↔ ((linesOf gs).2.map ink).getLast? = some [] := by
  have hline : ∀ l, l = (linesOf gs).1 ∨ l ∈ (linesOf gs).2 → ∀ c ∈ l, isBreak c = false :=
    fun l hl c hc => h c (Partition.mem_linesOf hl c hc)
  by_cases hone : (linesOf gs).2 = []
  · rw [charsOf_of_line hone, endsInBreak_of_breakless (hline _ (.inl rfl)), hone]
    simp
  · obtain ⟨front, x, hx, hchars⟩ := exists_charsOf_eq hone
    obtain ⟨others, last, hlast⟩ := (linesOf gs).2.eq_nil_or_concat.resolve_left hone
    have hbreakless : ∀ c ∈ last, isBreak c = false := hline last (.inr (by simp [hlast]))
    have hbreak : isBreak x = true := by rcases hx with rfl | rfl <;> rfl
    rw [hlast, List.concat_eq_append, List.getLastD_concat] at hchars
    rw [hlast, List.concat_eq_append, List.map_append, List.map_singleton, List.getLast?_concat,
      hchars, Option.some.injEq]
    by_cases hink : ink last = []
    · have hspace : ∀ c ∈ x :: last, isSpace c = true := by
        refine List.forall_mem_cons.mpr ⟨isSpace_of_isBreak hbreak, fun c hc => ?_⟩
        simpa using List.filter_eq_nil_iff.mp hink c hc
      rw [endsInBreak_append_of_space hspace, List.any_cons, hbreak]
      simp [hink]
    · rw [List.append_cons, endsInBreak_append_of_ink hink, endsInBreak_of_breakless hbreakless]
      simp [hink]

theorem Canonical.isBreak_eq_false (h : Canonical gs) {c : Char} (hc : .char c ∈ gs) :
    isBreak c = false := by
  obtain ⟨front, behind, rfl⟩ := List.append_of_mem hc
  obtain ⟨-, hr, hn⟩ := canonical_cons.mp (h.suffix (List.suffix_append front _))
  simp [isBreak, hr, hn]

/-- Texts in turn, each with something in front of it, and white space behind the last one end as
the last text does, or in a break of the white space. -/
theorem endsInBreak_flatMap {α : Type} {gap text : α → List Char} {xs : List α} {last : List Char}
    (htext : ∀ x ∈ xs, ink (text x) ≠ []) (hlast : ∀ c ∈ last, isSpace c = true) :
    endsInBreak (xs.flatMap (fun x => gap x ++ text x) ++ last)
      = (xs.getLast?.any (fun x => endsInBreak (text x)) || last.any isBreak) := by
  rw [endsInBreak_append_of_space hlast]
  congr 1
  rcases xs.eq_nil_or_concat with rfl | ⟨front, x, rfl⟩
  · rfl
  · rw [List.concat_eq_append, List.flatMap_append, List.flatMap_singleton, ← List.append_assoc,
      endsInBreak_append_of_ink (htext x (by simp)), List.getLast?_concat]
    rfl

/-! ## The copy of a token -/

theorem Piece.Fits.endsInBreak_copy {tabs : Bool} {p : Piece} (h : p.Fits tabs e) :
    endsInBreak (Glyph.charsOf p.copy) = endsInBreak p.token.text.toList := by
  have hinks : ∀ {lead : Bool} {ls ls' : List (List Char)},
      List.Forall₂ (Reindented tabs lead) ls ls' → ls'.map ink = ls.map ink := by
    intro lead ls ls' hlines
    induction hlines with
    | nil => rfl
    | cons hl _ ih => rw [List.map_cons, List.map_cons, hl.ink_eq, ih]
  have htext := @endsInBreak_charsOf (Beautifier.glyphs p.token.text.toList)
    fun c hc => (canonical_glyphs _).isBreak_eq_false hc
  have hcopy := @endsInBreak_charsOf p.copy fun c hc => by
    have hplain := (plain_append.mp h.plain_glyphs).2 _ hc
    simp [isBreak, hplain.1, hplain.2]
  rw [chars_glyphs] at htext
  obtain ⟨first, others, -, hothers, heq⟩ := h.copy
  rw [Bool.eq_iff_iff, htext, hcopy, heq, linesOf_joinLines, hinks hothers, Token.lines]

/-! ## The last token -/

theorem any_isBreak_eq (text : List Char) : text.any isBreak = decide (0 < countBreaks text) := by
  fun_induction countBreaks text with
  | case1 => rfl
  | case2 rest ih => simp [isBreak]
  | case3 rest _ ih => simp [isBreak]
  | case4 rest ih => simp [isBreak]
  | case5 c rest _ hreturn hfeed ih =>
      have hc : isBreak c = false := by
        simp only [isBreak, Bool.or_eq_false_iff, beq_eq_false_iff_ne]
        exact ⟨hreturn, hfeed⟩
      rw [List.any_cons, hc, ih, Bool.false_or]

theorem ink_ne_nil {first : Char} {behind : List Char} (h : isSpace first = false) :
    ink (first :: behind) ≠ [] := by
  simp [ink, h]

/-- The white space at the end of a source is that behind its last token, and what the text of the
token ends in. -/
theorem endsInBreak_source (language : Language) (width : Nat) (source : String) :
    endsInBreak source.toList
      = ((tokenize language width source).tokens.getLast?.any
            (fun t => endsInBreak t.text.toList)
          || decide (0 < (tokenize language width source).trailingBreaks)) := by
  obtain ⟨gaps, last, hgaps, hspace, htrailing, hsource⟩ :=
    exists_gaps_tokenize language width source
  generalize (tokenize language width source).tokens = tokens at hgaps hsource ⊢
  have htexts : ∀ x ∈ gaps.zip tokens, ink x.2.text.toList ≠ [] := by
    intro x hx
    obtain ⟨n, hn, rfl⟩ := List.mem_iff_getElem.mp hx
    rw [List.length_zip, ← hgaps.length_eq, Nat.min_self] at hn
    obtain ⟨first, behind, htext, hfirst⟩ := (hgaps.get hn (hgaps.length_eq ▸ hn)).starts
    rw [List.getElem_zip]
    simp only [List.get_eq_getElem] at htext
    rw [htext]
    exact ink_ne_nil hfirst
  have hend := @endsInBreak_flatMap _ (fun x => x.1) _ _ _ htexts hspace
  have hlastToken : tokens.getLast? = (gaps.zip tokens).getLast?.map (·.2) := by
    rw [← List.getLast?_map, List.map_snd_zip (Nat.le_of_eq hgaps.length_eq)]
  have hflat : (List.zipWith (fun gap t => gap ++ t.text.toList) gaps tokens).flatten
      = (gaps.zip tokens).flatMap fun x => x.1 ++ x.2.text.toList := by
    rw [List.flatMap_def, List.map_zip_eq_zipWith]
    rfl
  rw [hsource, htrailing, ← any_isBreak_eq, hflat, hend, hlastToken, Option.any_map]

/-- So does the white space at the end of the output. -/
theorem endsInBreak_format (o : Options) (source : String) :
    endsInBreak (format o source).toList
      = ((tokensToLayOut o (tokenize o.language o.indentWidth source)).getLast?.any
            (fun t => endsInBreak t.text.toList)
          || decide (0 < (tokenize o.language o.indentWidth source).trailingBreaks)) := by
  obtain ⟨pieces, h⟩ := @exists_composition true o nofun source
  have hstarts := starts_tokensToLayOut o o.language o.indentWidth source
  rw [← h.tokens] at hstarts ⊢
  have htexts : ∀ p ∈ pieces, ink (Glyph.charsOf p.copy) ≠ [] := by
    intro p hp
    obtain ⟨first, behind, htext, hfirst⟩ := hstarts p.token (List.mem_map_of_mem hp)
    have hglyphs := (h.fits p hp).ink_glyphs
    rw [Piece.glyphs, Glyph.charsOf_append, ink_append,
      ink_eq_nil (isSpace_of_isGap (h.fits p hp).isGap), List.nil_append, htext] at hglyphs
    rw [hglyphs]
    exact ink_ne_nil hfirst
  have hbreaks : ∀ n, Glyph.charsOf (List.replicate n (.lineBreak (lineEndOf o source)))
      = (List.replicate n (lineEndOf o source).chars).flatten := by
    intro n
    simp [Glyph.charsOf, List.flatMap_replicate, Glyph.chars]
  have hspace : ∀ n, ∀ c ∈ (List.replicate n (lineEndOf o source).chars).flatten,
      isSpace c = true := by
    intro n c hc
    obtain ⟨cs, hcs, hc⟩ := List.mem_flatten.mp hc
    rw [(List.mem_replicate.mp hcs).2] at hc
    exact isSpace_of_mem_lineEnd hc
  have hany : ∀ n, (List.replicate n (lineEndOf o source).chars).flatten.any isBreak
      = decide (0 < n) := by
    intro n
    cases n with
    | zero => rfl
    | succ n =>
        rw [List.replicate_succ, List.flatten_cons, List.any_append]
        cases lineEndOf o source <;> simp [LineEnd.chars, isBreak]
  have houtput : (format o source).toList
      = (pieces.flatMap fun p => Glyph.charsOf p.gap ++ Glyph.charsOf p.copy)
        ++ (List.replicate (tokenize o.language o.indentWidth source).trailingBreaks
          (lineEndOf o source).chars).flatten := by
    rw [← chars_glyphs (format o source).toList, h.output, Glyph.charsOf_append, hbreaks]
    congr 1
    rw [Glyph.charsOf, List.flatMap_assoc]
    exact List.flatMap_congr fun p _ => Glyph.charsOf_append p.gap p.copy
  rw [houtput, endsInBreak_flatMap htexts (hspace _), hany, List.getLast?_map, Option.any_map]
  congr 1
  cases hlast : pieces.getLast? with
  | none => rfl
  | some p => exact (h.fits p (List.mem_of_getLast? hlast)).endsInBreak_copy

/-! ## With braces added -/

/-- The kinds of tokens that hold no line break. -/
def TokenKind.isOneLine : TokenKind → Bool
  | .word | .number | .punctuation | .lineComment => true
  | _ => false

theorem Scanner.Reads.char_of_mem {language : Language} {atLineStart : Bool} {first : Char}
    {source : List Glyph} {kind : TokenKind} {cut : Cut}
    (h : Scanner.Reads language atLineStart first source kind cut) (hkind : kind.isOneLine = true) :
    ∀ g ∈ cut.taken, g ∈ source ∧ ∃ c, g = .char c := by
  have htaken : ∀ {gs : List Glyph} {cut : Cut}, cut.source = gs → ∀ g ∈ cut.taken, g ∈ gs :=
    fun hsource g hg => hsource ▸ List.mem_append_left _ hg
  cases h with
  | lineComment =>
      exact fun g hg => ⟨htaken (Scanner.source_lineComment _) g hg,
        Scanner.chars_lineComment _ g hg⟩
  | number =>
      exact fun g hg => ⟨htaken (Scanner.source_number ..) g hg,
        (Scanner.mayGoOn_of_mem_number g hg).imp fun _ hc => hc.1⟩
  | fraction =>
      exact fun g hg => ⟨htaken (Scanner.source_number ..) g hg,
        (Scanner.mayGoOn_of_mem_number g hg).imp fun _ hc => hc.1⟩
  | word =>
      exact fun g hg => ⟨htaken (Scanner.source_word _) g hg,
        (Scanner.isWordChar_of_mem_word g hg).imp fun _ hc => hc.1⟩
  | punctuation =>
      exact fun g hg => ⟨htaken (Scanner.source_punctuation ..) g hg,
        (Scanner.mayGoOn_of_mem_punctuation g hg).imp fun _ hc => hc.1⟩
  | _ => cases hkind

theorem Partition.breakless {language : Language} {source : List Glyph}
    {ts : List Token} {trailing : Nat} (h : Partition language source ts trailing)
    (hsource : Canonical source) :
    ∀ t ∈ ts, t.kind.isOneLine = true → ∀ c ∈ t.text.toList, isBreak c = false := by
  induction h with
  | done => exact fun t ht => absurd ht List.not_mem_nil
  | @token gap rest first _ cut t ts _ _ _ hreads htext _ _ _ _ ih =>
      have hbehind : Canonical (.char first :: rest) := hsource.suffix (List.suffix_append gap _)
      refine List.forall_mem_cons.mpr
        ⟨fun hkind c hc => ?_, ih (hreads.canonical_rest hbehind.tail)⟩
      rw [htext, Glyph.textOf, String.toList_ofList] at hc
      obtain ⟨g, hg, hc⟩ := List.mem_flatMap.mp hc
      obtain ⟨hmem, d, rfl⟩ : g ∈ .char first :: rest ∧ ∃ d, g = .char d := by
        rcases List.mem_cons.mp hg with rfl | hg
        · exact ⟨List.mem_cons_self, first, rfl⟩
        · exact (hreads.char_of_mem hkind g hg).imp_left (List.mem_cons_of_mem _)
      rw [List.mem_singleton.mp hc]
      exact hbehind.isBreak_eq_false hmem

namespace BraceInsertion

/-- The last of the tokens stays the last one, or a body ends with it. -/
theorem getLast?_insertAt {n : Nat} {opens closes : List Nat} {ts : List Token} :
    (insertAt n opens closes ts).getLast? = ts.getLast? ∨
      (insertAt n opens closes ts).getLast? = some closingBrace ∧
        ∃ p ∈ closes, p + 1 = n + ts.length := by
  induction ts generalizing n opens closes with
  | nil => exact .inl rfl
  | cons t ts ih =>
      cases ts with
      | nil =>
          cases hclose : closes.takeWhile (· == n) with
          | nil => exact .inl (by simp [insertAt, hclose])
          | cons p ps =>
              have hp : p ∈ closes.takeWhile (· == n) := hclose ▸ List.mem_cons_self
              have hn : (p == n) = true := List.all_eq_true.mp List.all_takeWhile p hp
              have hlast : (insertAt n opens closes [t]).getLast? = some closingBrace := by
                have hbraces : (p :: ps).map (fun _ => closingBrace)
                    = List.replicate ps.length closingBrace ++ [closingBrace] := by
                  rw [List.map_const', List.length_cons, List.replicate_succ']
                rw [insertAt, insertAt, List.append_nil, hclose, hbraces, ← List.cons_append,
                  ← List.append_assoc, List.getLast?_concat]
              rw [beq_iff_eq.mp hn] at hp
              exact .inr ⟨hlast, n, (List.takeWhile_sublist _).subset hp, rfl⟩
      | cons u us =>
          have hne : insertAt (n + 1) (opens.dropWhile (· == n)) (closes.dropWhile (· == n))
              (u :: us) ≠ [] := by simp [insertAt]
          rw [insertAt, List.getLast?_append_of_ne_nil _ hne, List.getLast?_cons_cons]
          rcases ih with hlast | ⟨hlast, p, hp, hlength⟩
          · exact .inl hlast
          · refine .inr ⟨hlast, p, (List.dropWhile_sublist _).subset hp, ?_⟩
            rw [hlength, List.length_cons (a := t)]
            omega

/-- The last token ends in empty lines if the last one in front of the braces does: the one that a
closing brace may stand behind is a semicolon, or a line comment. -/
theorem endsInBreak_insertBraces {tokens : List Token}
    (hcomments : ∀ t ∈ tokens, t.kind = .lineComment → ∀ c ∈ t.text.toList, isBreak c = false) :
    (insertBraces tokens).getLast?.any (fun t => endsInBreak t.text.toList)
      = tokens.getLast?.any fun t => endsInBreak t.text.toList := by
  rcases @getLast?_insertAt 0 ((bodies 0 tokens).map (·.1))
    (((bodies 0 tokens).map (·.2)).mergeSort (· ≤ ·)) tokens with
    hlast | ⟨hlast, p, hp, hlength⟩
  · exact congrArg (Option.any _) hlast
  · rw [insertBraces, hlast]
    rw [List.mem_mergeSort, bodies_eq] at hp
    obtain ⟨body, hbody, rfl⟩ := List.mem_map.mp hp
    obtain ⟨i, -, hi⟩ := List.mem_filterMap.mp hbody
    obtain ⟨t, ht, hcase⟩ := last_of_bodyAt? hi
    have hget : tokens.getLast? = some t := by
      rw [List.getLast?_eq_getElem?, ← ht]
      congr 1
      omega
    have hbreakless : endsInBreak t.text.toList = false := by
      rcases hcase with hsemicolon | hkind
      · rw [beq_iff_eq.mp (Bool.and_eq_true_iff.mp hsemicolon).2]
        decide
      · exact endsInBreak_of_breakless (hcomments t (List.mem_of_getElem? ht) hkind)
    rw [hget, Option.any_some, Option.any_some, hbreakless]
    decide

end BraceInsertion

theorem endsInBreak_tokensToLayOut (o : Options) (language : Language) (width : Nat)
    (source : String) :
    (tokensToLayOut o (tokenize language width source)).getLast?.any
        (fun t => endsInBreak t.text.toList)
      = (tokenize language width source).tokens.getLast?.any
        fun t => endsInBreak t.text.toList := by
  unfold tokensToLayOut
  split
  · refine BraceInsertion.endsInBreak_insertBraces fun t ht hkind => ?_
    exact (partition_tokenize language width source).breakless (canonical_glyphs _) t ht
      (hkind ▸ rfl)
  · rfl

/-- The output is made up of lines behind one another, each but the last closed by the line ending
of the output: between its copies no carriage return and no line feed is left.  The white space at
the end of the output holds a line break exactly if that at the end of the source does. -/
theorem lineEndings_format (o : Options) (source : String) :
    (∀ piece, (let pieces := cutAt (lineEndOf o source).chars 0 (format o source).toList
        piece = pieces.1 ∨ piece ∈ pieces.2) → '\r' ∉ piece ∧ '\n' ∉ piece) ∧
      endsInBreak (format o source).toList = endsInBreak source.toList := by
  constructor
  · obtain ⟨pieces, h⟩ := @exists_composition true o nofun source
    have hplain : Plain (lineEndOf o source) (glyphs (format o source).toList) := by
      rw [h.output]
      refine plain_append.mpr ⟨fun g hg => ?_, fun g hg => ?_⟩
      · obtain ⟨p, hp, hg⟩ := List.mem_flatMap.mp hg
        exact (h.fits p hp).plain_glyphs g hg
      · rw [(List.mem_replicate.mp hg).2]
    rw [← chars_glyphs (format o source).toList, cutAt_charsOf hplain]
    intro piece hpiece
    constructor
    · exact fun hr => (hplain _ (Partition.mem_linesOf hpiece _ hr)).1 rfl
    · exact fun hn => (hplain _ (Partition.mem_linesOf hpiece _ hn)).2 rfl
  · rw [endsInBreak_format, endsInBreak_source, endsInBreak_tokensToLayOut]

end Beautifier
