/-
Copies of a token.

A copy of a token is what the layout writes for it: its text with another line
ending, and for comments and directives with other blanks at the ends of its
lines (`Copies`).  Where a copy is followed by nothing that its reader would
take along, the reader takes the copy and nothing else (`Copies.reads`), and
the copy has the content of the token (`Copies.content_eq`).
-/
import Beautifier.Proofs.Token.Respace

namespace Beautifier

variable {e : LineEnd}

namespace Token

def lines (t : Token) : List Char × List (List Char) := linesOf (glyphs t.text.toList)

/-- Whether only the line ending may change in the text of a token. -/
def isExact (t : Token) : Bool := !t.endsLine && t.kind != .blockComment

/-- A token is closed if a letter written directly behind it is not taken along. -/
def isClosed (language : Language) (t : Token) : Bool :=
  match glyphs t.text.toList with
  | .char first :: rest =>
      (Scanner.scan language false first (rest ++ Scanner.letter)).2.rest == Scanner.letter
  | _ => false

/-- Whether a token is read alone in front of a character, whatever stands behind that. -/
def stopsAt (t : Token) (c : Char) : Bool := Scanner.stopsAt t.kind t.text.toList c

/-- Whether a token is read alone in front of a token. -/
def stopsBefore (t u : Token) : Bool := u.text.toList.head?.any t.stopsAt

/-- Whether the reader of the token before may look past the first character of a token. -/
def startsPast (t : Token) : Bool := t.text.toList.head?.any looksPast

/-- Whether a token of this kind is open or closed. -/
def mayStayOpen (t : Token) : Bool :=
  t.kind == .string || t.kind == .character || t.kind == .blockComment

/-- What a line of a token says: comments and directives without the blanks at the ends of their
lines, block comments without those at the starts. -/
def contentLine (kind : TokenKind) (l : List Char) : List Char :=
  match kind with
  | .blockComment => trimRight isBlank (l.dropWhile isBlank)
  | .lineComment | .directive => trimRight isBlank l
  | _ => l

/-- What a token says: its kind and what its lines say. -/
def content (t : Token) : TokenKind × List (List Char) :=
  (t.kind, (t.lines.1 :: t.lines.2).map (contentLine t.kind))

theorem contentLine_eq {t : Token} (ht : t.isExact = false) {l l' : List Char}
    (h : Reblanked (t.kind == .blockComment) l l') :
    contentLine t.kind l = contentLine t.kind l' := by
  cases hkind : t.kind with
  | blockComment => exact h.trim_eq
  | lineComment =>
      rw [hkind] at h
      exact h.trimmed_of_false.trimRight_eq
  | directive =>
      rw [hkind] at h
      exact h.trimmed_of_false.trimRight_eq
  | _ => simp [isExact, endsLine, hkind] at ht

theorem map_contentLine_eq {t : Token} (ht : t.isExact = false) {ls ls' : List (List Char)}
    (h : List.Forall₂ (Reblanked (t.kind == .blockComment)) ls ls') :
    ls.map (contentLine t.kind) = ls'.map (contentLine t.kind) := by
  induction h with
  | nil => rfl
  | cons hl _ ih => rw [List.map_cons, List.map_cons, contentLine_eq ht hl, ih]

end Token

/-- What may be written for a token. -/
inductive Copies (e : LineEnd) (t : Token) : List Glyph → Prop
  | exact : t.isExact = true → Copies e t (joinLines e t.lines.1 t.lines.2)
  | respaced {first : List Char} {others : List (List Char)} : t.isExact = false →
      Trimmed t.lines.1 first →
      List.Forall₂ (Reblanked (t.kind == .blockComment)) t.lines.2 others →
      Copies e t (joinLines e first others)

/-- A token that is closed if it may stay open, and no stray `#`. -/
def Token.Settled (language : Language) (t : Token) : Prop :=
  (t.mayStayOpen = true → t.isClosed language = true) ∧ t.is "#" = false

/-- A settled token as it is read from a source without carriage returns. -/
structure Token.ReadFrom (language : Language) (t : Token) (atLineStart : Bool) (first : Char)
    (source : List Glyph) (cut : Cut) : Prop where
  reads : Scanner.Reads language atLineStart first source t.kind cut
  glyphs_eq : glyphs t.text.toList = .char first :: cut.taken
  plain : Plain .linux (.char first :: cut.taken)
  notGap : isGapChar first = false
  settled : t.Settled language

/-- A token that can be read in this way. -/
def Token.IsRead (language : Language) (t : Token) : Prop :=
  ∃ atLineStart first source cut, t.ReadFrom language atLineStart first source cut

/-- Words, numbers and operators are made of characters that may go on in one of them. -/
theorem Scanner.Reads.mayGoOn_of_mem {language : Language} {atLineStart : Bool} {first : Char}
    {source : List Glyph} {kind : TokenKind} {cut : Cut}
    (h : Scanner.Reads language atLineStart first source kind cut)
    (hkind : kind = .word ∨ kind = .number ∨ kind = .punctuation) :
    ∀ g ∈ cut.taken, ∃ c, g = .char c ∧ mayGoOn c = true := by
  cases h with
  | number => exact Scanner.mayGoOn_of_mem_number
  | fraction => exact Scanner.mayGoOn_of_mem_number
  | word =>
      exact fun g hg => (Scanner.isWordChar_of_mem_word g hg).imp fun _ hc =>
        ⟨hc.1, mayGoOn_of_isWordChar hc.2⟩
  | punctuation => exact Scanner.mayGoOn_of_mem_punctuation
  | _ => simp at hkind

namespace Token.ReadFrom

variable {language : Language} {t : Token} {atLineStart : Bool} {first : Char}
  {source : List Glyph} {cut : Cut}

theorem plain_text (h : t.ReadFrom language atLineStart first source cut) :
    Plain .linux (glyphs t.text.toList) := by
  rw [h.glyphs_eq]
  exact h.plain

theorem not_isBlank (h : t.ReadFrom language atLineStart first source cut) :
    isBlank first = false := by
  have hgap := h.notGap
  simp only [isGapChar, Bool.or_eq_false_iff] at hgap
  exact hgap.1.1

theorem closed_rest (h : t.ReadFrom language atLineStart first source cut)
    (hopen : t.mayStayOpen = true) :
    (Scanner.scan language false first (cut.taken ++ Scanner.letter)).2.rest = Scanner.letter := by
  have hclosed := h.settled.1 hopen
  rw [isClosed, h.glyphs_eq] at hclosed
  exact eq_of_beq hclosed

theorem mayGoOn_of_mem (h : t.ReadFrom language atLineStart first source cut)
    (hkind : t.kind = .word ∨ t.kind = .number ∨ t.kind = .punctuation) :
    ∀ g ∈ cut.taken, ∃ c, g = .char c ∧ mayGoOn c = true := h.reads.mayGoOn_of_mem hkind

theorem endsInk (h : t.ReadFrom language atLineStart first source cut)
    (ht : t.endsLine = false) :
    ∃ front c, .char first :: cut.taken = front ++ [Glyph.char c] ∧ isBlank c = false := by
  by_cases hopen : t.mayStayOpen = true
  · have hends : ∃ c, Scanner.EndsWith c cut.taken ∧ isBlank c = false := by
      by_cases hcomment : t.kind = .blockComment
      · have hclosed := h.closed_rest hopen
        have hreads := h.reads
        rw [hcomment] at hreads
        cases hreads with
        | @blockComment src =>
            rw [show ((Scanner.blockComment src).push (.char '*')).taken ++ Scanner.letter
              = .char '*' :: ((Scanner.blockComment src).taken ++ Scanner.letter) from rfl,
              Scanner.scan_of_reads .blockComment] at hclosed
            exact ⟨'/', (Scanner.endsWith_of_blockComment hclosed).cons _, rfl⟩
      · have hkind : t.kind = .string ∨ t.kind = .character := by
          simpa [mayStayOpen, hcomment] using hopen
        rcases (Scanner.reads_literal h.reads (plain_cons.mp h.plain).2 hkind
          (h.closed_rest hopen)).1 with hends | hends
        · exact ⟨_, hends, rfl⟩
        · exact ⟨_, hends, rfl⟩
    obtain ⟨c, hends, hc⟩ := hends
    obtain ⟨front, heq⟩ := hends.cons (.char first)
    exact ⟨front, c, heq, hc⟩
  · have hkind : t.kind = .word ∨ t.kind = .number ∨ t.kind = .punctuation := by
      cases hkind : t.kind <;> simp [mayStayOpen, endsLine, hkind] at hopen ht ⊢
    rcases List.eq_nil_or_concat cut.taken with hnil | ⟨front, g, heq⟩
    · rw [hnil]
      exact ⟨[], first, rfl, h.not_isBlank⟩
    · rw [List.concat_eq_append] at heq
      obtain ⟨c, rfl, hc⟩ := h.mayGoOn_of_mem hkind g (by simp [heq])
      refine ⟨.char first :: front, c, by rw [heq, List.cons_append], ?_⟩
      simp only [mayGoOn, isGapChar, Bool.and_eq_true, Bool.not_eq_true', Bool.or_eq_false_iff]
        at hc
      exact hc.1.1.1

theorem ne_hash (h : t.ReadFrom language atLineStart first source cut)
    (hkind : t.kind = .punctuation) : first ≠ '#' := by
  rintro rfl
  have hglyphs := h.glyphs_eq
  have hhash := h.settled.2
  have htext : cut.taken = [] → t.text.toList = ['#'] := by
    intro hnil
    rw [← chars_glyphs t.text.toList, hglyphs, hnil]
    rfl
  have hreads := h.reads
  rw [hkind] at hreads
  cases hreads with
  | punctuation =>
      have htext : t.text = "#" := String.toList_inj.mp (htext rfl)
      simp [is, hkind, htext] at hhash

theorem text_eq (h : t.ReadFrom language atLineStart first source cut) :
    t.text.toList = first :: Glyph.charsOf cut.taken := by
  rw [← chars_glyphs t.text.toList, h.glyphs_eq, Glyph.charsOf_cons]
  rfl

/-- Behind its first character a token that starts with a dot or quote is read alone nowhere. -/
theorem stopsAt_eq_false (h : t.ReadFrom language atLineStart first source cut)
    (hpast : looksPast first = true) (c : Char) : t.stopsAt c = false := by
  have hreads := h.reads
  rw [Token.stopsAt, h.text_eq]
  generalize t.kind = kind at hreads
  cases hreads with
  | word hstart =>
      rcases (Bool.or_eq_true _ _).mp hpast with hfirst | hfirst
      · rw [eq_of_beq hfirst] at hstart
        cases hstart
      · rw [eq_of_beq hfirst] at hstart
        cases hstart
  | punctuation _ _ _ _ hquote =>
      rcases (Bool.or_eq_true _ _).mp hpast with hfirst | hfirst
      · exact absurd (eq_of_beq hfirst) hquote
      · rw [eq_of_beq hfirst]
        rfl
  | _ => rfl

end Token.ReadFrom

namespace Copies

variable {language : Language} {t : Token} {atLineStart : Bool} {first : Char}
  {source copy : List Glyph} {cut : Cut}

/-- A copy says what its token says. -/
theorem content_eq {u : Token} (h : Copies e t copy) (hkind : u.kind = t.kind)
    (htext : u.text = Glyph.textOf copy) (hplain : Plain e copy) : u.content = t.content := by
  have hlines : u.lines = linesOf copy := by
    rw [Token.lines, htext, Glyph.textOf, String.toList_ofList, glyphs_charsOf hplain]
  rw [Token.content, Token.content, hkind, hlines]
  cases h with
  | exact => rw [linesOf_joinLines]
  | respaced hexact hfirst hothers =>
      rw [linesOf_joinLines, List.map_cons, List.map_cons,
        Token.contentLine_eq hexact (hfirst.reblanked _)]
      rw [Token.map_contentLine_eq hexact hothers]

theorem exists_tail (h : Copies e t copy)
    (ht : t.ReadFrom language atLineStart first source cut) :
    ∃ tail, copy = .char first :: tail ∧
      (t.isExact = true ∧ tail = cut.taken.map (Glyph.withEnd e) ∨
        t.isExact = false ∧ Respaced e (t.kind == .blockComment) cut.taken tail) := by
  cases h with
  | exact hexact =>
      refine ⟨cut.taken.map (Glyph.withEnd e), ?_, .inl ⟨hexact, rfl⟩⟩
      rw [Token.lines, joinLines_linesOf, ht.glyphs_eq]
      rfl
  | respaced hexact hfirst hothers =>
      have hcopy := @respaced_joinLines e .linux _ _ _ _ _ hfirst hothers
      rw [Token.lines, joinLines_linesOf, ht.glyphs_eq, map_withEnd ht.plain] at hcopy
      obtain ⟨tail, heq, htail⟩ := hcopy.char_inv ht.not_isBlank
      exact ⟨tail, heq, .inr ⟨hexact, htail⟩⟩

theorem plain (h : Copies e t copy) (ht : Plain .linux (glyphs t.text.toList)) :
    Plain e copy := by
  rw [← map_withEnd ht, ← joinLines_linesOf, ← Token.lines, plain_joinLines] at ht
  obtain ⟨hfirst, hothers⟩ := ht
  cases h with
  | exact => exact plain_joinLines.mpr ⟨hfirst, hothers⟩
  | respaced _ hfirst' hothers' =>
      refine plain_joinLines.mpr ⟨fun c hc => hfirst c (hfirst'.subset hc), ?_⟩
      generalize t.lines.2 = ls at hothers hothers'
      induction hothers' with
      | nil => simp
      | cons hl _ ih =>
          intro l' hl' c hc
          rcases List.mem_cons.mp hl' with rfl | hl'
          · rcases hl.mem hc with hc | hc
            · exact hothers _ List.mem_cons_self c hc
            · constructor
              · rintro rfl
                cases hc
              · rintro rfl
                cases hc
          · exact ih (fun l hl => hothers l (List.mem_cons_of_mem _ hl)) l' hl' c hc

/-! ### Blanks at the end -/

theorem of_append_blanks {blanks : List Char} (hblanks : ∀ c ∈ blanks, isBlank c = true)
    (h : Copies e t (copy ++ blanks.map .char))
    (ht : t.ReadFrom language atLineStart first source cut) : Copies e t copy := by
  have hplain : Plain e copy := by
    have hplain := h.plain ht.plain_text
    exact (plain_append.mp hplain).1
  have hjoin : joinLines e (linesOf copy).1 (linesOf copy).2 = copy := by
    rw [joinLines_linesOf, map_withEnd hplain]
  by_cases hexact : t.isExact = true
  · -- an exact copy ends in ink, so there are no blanks
    obtain ⟨front, c, hend, hc⟩ := ht.endsInk (by simp_all [Token.isExact])
    obtain ⟨tail, hcopy, hcases⟩ := h.exists_tail ht
    have htail : tail = cut.taken.map (Glyph.withEnd e) := by
      rcases hcases with ⟨-, htail⟩ | ⟨hno, -⟩
      · exact htail
      · rw [hexact] at hno
        cases hno
    have heq : copy ++ blanks.map .char = front.map (Glyph.withEnd e) ++ [.char c] := by
      rw [hcopy, htail]
      have hmap := congrArg (List.map (Glyph.withEnd e)) hend
      rwa [List.map_cons, List.map_append] at hmap
    rcases List.eq_nil_or_concat blanks with rfl | ⟨init, d, rfl⟩
    · rwa [List.map_nil, List.append_nil] at h
    · rw [List.concat_eq_append, List.map_append, ← List.append_assoc] at heq
      have hd : d = c := by
        have hlast := (List.append_inj' heq rfl).2
        simpa using hlast
      rw [hd] at hblanks
      rw [hblanks c (by simp)] at hc
      cases hc
  · have hexact := Bool.eq_false_iff.mpr hexact
    rw [← hjoin]
    generalize hgs : copy ++ blanks.map .char = gs at h
    cases h with
    | exact hyes =>
        rw [hexact] at hyes
        cases hyes
    | respaced _ hfirst hothers =>
        obtain ⟨hcut, hcuts⟩ := trimmed_linesOf_append hblanks copy
        rw [hgs, linesOf_joinLines] at hcut hcuts
        exact .respaced hexact (hfirst.trans hcut) (forall₂_trimmed hothers hcuts)

/-! ### Reading a copy -/

variable {start : Bool} {tail rest : List Glyph}

/-- The reader of a token takes a copy of it and nothing else. -/
theorem reads (h : Copies e t (.char first :: tail))
    (ht : t.ReadFrom language atLineStart first source cut)
    (hstart : t.kind = .directive → start = true)
    (hends : t.endsLine = true → atLineEnd rest = true ∧ (cut.rest = [] → rest = []))
    (hbehind : Mirrors 2 cut.rest rest ∨
      ∃ c behind, rest = .char c :: behind ∧ t.stopsAt c = true) :
    Scanner.Reads language start first (tail ++ rest) t.kind ⟨tail, rest⟩ := by
  obtain ⟨tail', heq, hcases⟩ := h.exists_tail ht
  cases heq
  rcases hcases with ⟨hexact, rfl⟩ | ⟨hexact, htail⟩
  · have hhash := ht.ne_hash
    rcases hbehind with hmirrors | ⟨c, behind, rfl, hstops⟩
    · refine Scanner.reads_exact ht.reads (plain_cons.mp ht.plain).2 e start ?_ ?_ hhash hmirrors
      · simp only [Token.isExact, Token.endsLine, Bool.and_eq_true, Bool.not_eq_true',
          Bool.or_eq_false_iff, beq_eq_false_iff_ne, bne_iff_ne] at hexact
        exact ⟨hexact.1.1, hexact.2, hexact.1.2⟩
      · intro hkind
        apply ht.closed_rest
        rcases hkind with hkind | hkind <;> simp [Token.mayStayOpen, hkind]
    · rw [Token.stopsAt, ht.text_eq] at hstops
      rw [map_withEnd_of_chars (ht.reads.chars_of_stopsAt hstops)]
      exact Scanner.reads_stopped ht.reads hhash hstops
  · obtain ⟨kind, text, lineBreaks, space, column, inserted⟩ := t
    have hreads := ht.reads
    cases hreads with
    | lineComment =>
        have hchars := htail.chars (Scanner.chars_lineComment _)
        obtain ⟨tail', rfl, -⟩ := htail.char_inv (by decide)
        have hread := Scanner.lineComment_append hchars (hends rfl).1
        rw [← hread]
        exact .lineComment
    | @blockComment src =>
        obtain ⟨tail', rfl, hinner⟩ := htail.char_inv (by decide)
        have hclosed := ht.closed_rest rfl
        rw [show ((Scanner.blockComment src).push (.char '*')).taken ++ Scanner.letter
          = .char '*' :: ((Scanner.blockComment src).taken ++ Scanner.letter) from rfl,
          Scanner.scan_of_reads .blockComment] at hclosed
        have hread := (Scanner.blockComment_respaced hinner hclosed).2 rest
        have hreads : Scanner.Reads language start '/' (.char '*' :: (tail' ++ rest))
            .blockComment ((Scanner.blockComment (tail' ++ rest)).push (.char '*')) :=
          .blockComment
        rwa [hread] at hreads
    | directive _ hlang =>
        obtain ⟨hend, hnil⟩ := hends rfl
        rw [← Scanner.directive_respaced htail hend hnil]
        exact .directive (hstart rfl) hlang
    | _ => cases hexact

/-- Copies of tokens mirror the tokens. -/
theorem mirrors (h : Copies e t (.char first :: tail))
    (ht : t.ReadFrom language atLineStart first source cut)
    (hmirrors : looksPast first = true → Mirrors 2 cut.rest rest) :
    Mirrors 2 (.char first :: (cut.taken ++ cut.rest)) (.char first :: (tail ++ rest)) := by
  refine fun hgoes => ⟨_, rfl, fun hpast => ?_⟩
  obtain ⟨tail', heq, hcases⟩ := h.exists_tail ht
  cases heq
  rcases hcases with ⟨-, rfl⟩ | ⟨hexact, -⟩
  · exact ((hmirrors hpast).append e cut.taken).pred
  · -- comments and directives start with a character that no reader looks past
    have hreads := ht.reads
    obtain ⟨kind, text, lineBreaks, space, column, inserted⟩ := t
    cases hreads with
    | lineComment => cases hpast
    | blockComment => cases hpast
    | directive => cases hpast
    | _ => cases hexact

end Copies

end Beautifier
