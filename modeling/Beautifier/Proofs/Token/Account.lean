/-
Reading one token loses nothing.

A reader cuts a source in two.  What it takes and what it leaves are the
source again, character by character (`chars_scan`).  Glyph by glyph this
fails in one place, the delimiter of a raw string, where a carriage return is
taken as a plain character; in a source without carriage returns it holds
there too (`source_scan`).
-/
import Beautifier.Token.Scanner

namespace Beautifier

namespace Cut

/-- What a cut was made from. -/
def source (c : Cut) : List Glyph := c.taken ++ c.rest

@[simp] theorem source_mk (taken rest : List Glyph) :
    Cut.source ⟨taken, rest⟩ = taken ++ rest := rfl

@[simp] theorem source_push (g : Glyph) (c : Cut) : (c.push g).source = g :: c.source := rfl

@[simp] theorem source_prepend (gs : List Glyph) (c : Cut) :
    (c.prepend gs).source = gs ++ c.source := List.append_assoc ..

@[simp] theorem source_stop (rest : List Glyph) : (Cut.stop rest).source = rest := rfl

end Cut

/-- Every line of a list of glyphs ends in a line feed. -/
def NoReturn (gs : List Glyph) : Prop := ∀ e, Glyph.lineBreak e ∈ gs → e = .linux

theorem NoReturn.tail {g : Glyph} {gs : List Glyph} (h : NoReturn (g :: gs)) : NoReturn gs :=
  fun e he => h e (List.mem_cons_of_mem g he)

theorem NoReturn.suffix {gs hs : List Glyph} (h : NoReturn gs) (hsub : hs <:+ gs) :
    NoReturn hs :=
  fun e he => h e (hsub.subset he)

namespace Scanner

theorem startsWith_eq_true {p : Char → Bool} {gs : List Glyph} :
    startsWith p gs = true ↔ ∃ c rest, gs = .char c :: rest ∧ p c = true := by
  constructor
  · intro h
    cases gs with
    | nil => exact absurd h (by simp [startsWith])
    | cons g rest =>
        cases g with
        | char c => exact ⟨c, rest, rfl, h⟩
        | lineBreak e => exact absurd h (by simp [startsWith])
  · rintro ⟨c, rest, rfl, h⟩
    exact h

theorem eq_cons_tail {d : Char} {gs : List Glyph} (h : startsWith (· == d) gs = true) :
    gs = .char d :: gs.tail := by
  obtain ⟨c, rest, rfl, hc⟩ := startsWith_eq_true.mp h
  rw [eq_of_beq hc, List.tail_cons]

/-! ## Readers of glyphs -/

theorem source_lineComment (gs : List Glyph) : (lineComment gs).source = gs := by
  fun_induction lineComment gs with
  | case1 c rest ih => rw [Cut.source_push, ih]
  | case2 => rfl

theorem source_blockComment (gs : List Glyph) : (blockComment gs).source = gs := by
  fun_induction blockComment gs with
  | case1 rest => rfl
  | case2 g rest _ ih => rw [Cut.source_push, ih]
  | case3 => rfl

theorem source_directive (part : DirectivePart) (continued : Bool) (gs : List Glyph) :
    (directive part continued gs).source = gs := by
  fun_induction directive part continued gs <;>
    simp_all only [Cut.source_push, Cut.source_prepend, Cut.source_stop, List.cons_append,
      List.nil_append]

theorem source_quoted (quote : Char) (gs : List Glyph) : (quoted quote gs).source = gs := by
  fun_induction quoted quote gs with
  | case1 g rest ih => rw [Cut.source_prepend, ih]; rfl
  | case2 rest => rfl
  | case3 c rest _ _ ih => rw [Cut.source_push, ih]
  | case4 => rfl

theorem source_verbatim (gs : List Glyph) : (verbatim gs).source = gs := by
  fun_induction verbatim gs with
  | case1 rest ih => rw [Cut.source_prepend, ih]; rfl
  | case2 rest => rfl
  | case3 g rest _ _ ih => rw [Cut.source_push, ih]
  | case4 => rfl

theorem source_number (hex : Bool) (previous : Char) (gs : List Glyph) :
    (number hex previous gs).source = gs := by
  fun_induction number hex previous gs with
  | case1 previous c rest _ ih => rw [Cut.source_push, ih]
  | case2 => rfl
  | case3 => rfl

theorem source_word (gs : List Glyph) : (word gs).source = gs := by
  fun_induction word gs with
  | case1 c rest _ ih => rw [Cut.source_push, ih]
  | case2 => rfl
  | case3 => rfl

/-! ## Readers of characters -/

theorem chars_of_dropChars? {cs : List Char} {gs rest : List Glyph}
    (h : dropChars? cs gs = some rest) : cs ++ Glyph.charsOf rest = Glyph.charsOf gs := by
  fun_induction dropChars? cs gs with
  | case1 => simp_all
  | case2 cs d tail ih => simp [Glyph.chars, ih h]
  | case3 => cases h
  | case4 cs tail ih => simp [Glyph.chars, LineEnd.chars, ih h]
  | case5 => cases h

theorem source_of_dropChars? {cs : List Char} {gs rest : List Glyph} (hn : NoReturn gs)
    (h : dropChars? cs gs = some rest) : cs.map .char ++ rest = gs := by
  fun_induction dropChars? cs gs with
  | case1 => simp_all
  | case2 cs d tail ih => simp [ih hn.tail h]
  | case3 => cases h
  | case4 cs tail ih => exact absurd (hn .macOld List.mem_cons_self) (by decide)
  | case5 => cases h

theorem chars_rawDelimiter (gs : List Glyph) :
    Glyph.charsOf (rawDelimiter gs).2.source = Glyph.charsOf gs := by
  fun_induction rawDelimiter gs <;> simp_all [Glyph.chars, LineEnd.chars]

theorem source_rawDelimiter {gs : List Glyph} (hn : NoReturn gs) :
    (rawDelimiter gs).2.source = gs := by
  fun_induction rawDelimiter gs with
  | case1 => rfl
  | case2 => rfl
  | case3 => rfl
  | case4 c rest _ _ raw cut hcut ih =>
      have := ih hn.tail
      simp_all
  | case5 => exact absurd (hn .macOld List.mem_cons_self) (by decide)
  | case6 => exact absurd (hn .windows List.mem_cons_self) (by decide)
  | case7 => rfl

theorem chars_rawBody (closing : List Char) (gs : List Glyph) :
    Glyph.charsOf (rawBody closing gs).source = Glyph.charsOf gs := by
  fun_induction rawBody closing gs with
  | case1 => rfl
  | case2 g rest behind h =>
      have hmap : Glyph.charsOf (closing.map Glyph.char) = closing := by
        simp [Glyph.charsOf, List.flatMap_map, Glyph.chars]
      rw [Cut.source_mk, Glyph.charsOf_append, hmap, chars_of_dropChars? h]
  | case3 g rest _ ih => rw [Cut.source_push, Glyph.charsOf_cons, ih, Glyph.charsOf_cons]

theorem source_rawBody {closing : List Char} {gs : List Glyph} (hn : NoReturn gs) :
    (rawBody closing gs).source = gs := by
  fun_induction rawBody closing gs with
  | case1 => rfl
  | case2 g rest behind h => exact source_of_dropChars? hn h
  | case3 g rest _ ih => rw [Cut.source_push, ih hn.tail]

theorem chars_rawString (gs : List Glyph) :
    Glyph.charsOf (rawString gs).source = Glyph.charsOf gs := by
  have h := chars_rawDelimiter gs
  rw [Cut.source, Glyph.charsOf_append] at h
  simp only [rawString, Cut.source_prepend, Glyph.charsOf_append]
  split
  · rw [chars_rawBody, h]
  · rw [source_quoted, h]

theorem source_rawString {gs : List Glyph} (hn : NoReturn gs) : (rawString gs).source = gs := by
  have h := source_rawDelimiter hn
  have hrest : NoReturn (rawDelimiter gs).2.rest := hn.suffix ⟨_, h⟩
  simp only [rawString, Cut.source_prepend]
  split
  · rw [source_rawBody hrest]
    exact h
  · rw [source_quoted]
    exact h

/-! ## Punctuation -/

/-- The punctuation that starts with a character takes nothing more, or the rest of an entry of
the table. -/
theorem punctuation_cases (first : Char) (gs : List Glyph) :
    punctuation first gs = .stop gs ∨
      ∃ cs rest, first :: cs ∈ longPunctuation ∧ dropChars? cs gs = some rest ∧
        punctuation first gs = ⟨cs.map .char, rest⟩ := by
  unfold punctuation
  generalize h : longPunctuation.findSome? _ = longer
  cases longer with
  | none => exact .inl rfl
  | some cut =>
      obtain ⟨p, hp, hcut⟩ := List.exists_of_findSome?_eq_some h
      cases p with
      | nil => cases hcut
      | cons c cs =>
          split at hcut
          · next c cs heq =>
            cases heq
            split at hcut
            · obtain ⟨rest, hrest, rfl⟩ := Option.map_eq_some_iff.mp hcut
              subst c
              exact .inr ⟨cs, rest, hp, hrest, rfl⟩
            · cases hcut
          · cases hcut

/-- No entry of the table holds a carriage return. -/
theorem not_return_mem_longPunctuation :
    ∀ p ∈ longPunctuation, '\r' ∉ p := by
  decide

theorem source_of_dropChars?_of_not_mem {cs : List Char} {gs rest : List Glyph}
    (hcs : '\r' ∉ cs) (h : dropChars? cs gs = some rest) : cs.map .char ++ rest = gs := by
  fun_induction dropChars? cs gs with
  | case1 => simp_all
  | case2 cs d tail ih => simp [ih (fun hd => hcs (List.mem_cons_of_mem _ hd)) h]
  | case3 => cases h
  | case4 => exact absurd List.mem_cons_self hcs
  | case5 => cases h

theorem dropChars?_eq_some_iff {cs : List Char} (hcs : '\r' ∉ cs) {gs rest : List Glyph} :
    dropChars? cs gs = some rest ↔ gs = cs.map .char ++ rest := by
  constructor
  · exact fun h => (source_of_dropChars?_of_not_mem hcs h).symm
  · rintro rfl
    induction cs with
    | nil => rfl
    | cons c cs ih =>
        rw [List.map_cons, List.cons_append, dropChars?, if_pos rfl]
        exact ih fun h => hcs (List.mem_cons_of_mem _ h)

theorem source_punctuation (first : Char) (gs : List Glyph) :
    (punctuation first gs).source = gs := by
  rcases punctuation_cases first gs with h | ⟨cs, rest, hmem, hdrop, h⟩
  · rw [h, Cut.source_stop]
  · have hcs : '\r' ∉ cs :=
      fun hc => not_return_mem_longPunctuation _ hmem (List.mem_cons_of_mem _ hc)
    rw [h, Cut.source_mk, source_of_dropChars?_of_not_mem hcs hdrop]

/-! ## One token -/

/-- How a token is read: one case for each reader. -/
inductive Reads (language : Language) (atLineStart : Bool) :
    Char → List Glyph → TokenKind → Cut → Prop
  | directive {gs : List Glyph} : atLineStart = true → language.hasDirectives = true →
      Reads language atLineStart '#' gs .directive (directive .code false gs)
  | lineComment {rest : List Glyph} :
      Reads language atLineStart '/' (.char '/' :: rest) .lineComment
        (lineComment (.char '/' :: rest))
  | blockComment {rest : List Glyph} :
      Reads language atLineStart '/' (.char '*' :: rest) .blockComment
        ((blockComment rest).push (.char '*'))
  | string {gs : List Glyph} :
      Reads language atLineStart '\x22' gs .string (quoted '\x22' gs)
  | character {gs : List Glyph} :
      Reads language atLineStart '\x27' gs .character (quoted '\x27' gs)
  | verbatim {rest : List Glyph} : language.hasVerbatimStrings = true →
      Reads language atLineStart '@' (.char '\x22' :: rest) .string
        ((verbatim rest).push (.char '\x22'))
  | number {first : Char} {gs : List Glyph} : first.isDigit = true →
      Reads language atLineStart first gs .number (number (isHex first gs) first gs)
  | fraction {gs : List Glyph} : startsWith Char.isDigit gs = true →
      Reads language atLineStart '.' gs .number (number false '.' gs)
  | rawString {first : Char} {gs rest : List Glyph} : isWordStart first = true →
      (word gs).rest = .char '\x22' :: rest → language.hasRawStrings = true →
      rawIntroducers.contains (String.ofList (first :: Glyph.charsOf (word gs).taken)) = true →
      Reads language atLineStart first gs .string
        (((rawString rest).push (.char '\x22')).prepend (word gs).taken)
  | word {first : Char} {gs : List Glyph} : isWordStart first = true →
      (startsWith (· == '\x22') (word gs).rest && language.hasRawStrings
        && rawIntroducers.contains (String.ofList (first :: Glyph.charsOf (word gs).taken)))
        = false →
      Reads language atLineStart first gs .word (word gs)
  | punctuation {first : Char} {gs : List Glyph} :
      (first == '#' && atLineStart && language.hasDirectives) = false →
      (first == '/' && startsWith (· == '/') gs) = false →
      (first == '/' && startsWith (· == '*') gs) = false →
      first ≠ '\x22' → first ≠ '\x27' →
      (first == '@' && startsWith (· == '\x22') gs && language.hasVerbatimStrings) = false →
      first.isDigit = false → (first == '.' && startsWith Char.isDigit gs) = false →
      isWordStart first = false →
      Reads language atLineStart first gs .punctuation (punctuation first gs)

/-- Each token is read in one of the ways. -/
theorem reads_scan (language : Language) (atLineStart : Bool) (first : Char) (gs : List Glyph) :
    Reads language atLineStart first gs (scan language atLineStart first gs).1
      (scan language atLineStart first gs).2 := by
  unfold scan
  split
  · next h =>
    simp only [Bool.and_eq_true, beq_iff_eq] at h
    obtain ⟨⟨rfl, hstart⟩, hlang⟩ := h
    exact .directive hstart hlang
  next h₁ =>
  split
  · next h =>
    rw [Bool.and_eq_true, beq_iff_eq] at h
    obtain ⟨rfl, h⟩ := h
    rw [eq_cons_tail h]
    exact .lineComment
  next h₂ =>
  split
  · next h =>
    rw [Bool.and_eq_true, beq_iff_eq] at h
    obtain ⟨rfl, h⟩ := h
    rw [eq_cons_tail h]
    exact .blockComment
  next h₃ =>
  split
  · next h => cases eq_of_beq h; exact .string
  next h₄ =>
  split
  · next h => cases eq_of_beq h; exact .character
  next h₅ =>
  split
  · next h =>
    simp only [Bool.and_eq_true, beq_iff_eq] at h
    obtain ⟨⟨rfl, h⟩, hlang⟩ := h
    rw [eq_cons_tail h]
    exact .verbatim hlang
  next h₆ =>
  split
  · next h => exact .number h
  next h₇ =>
  split
  · next h =>
    rw [Bool.and_eq_true, beq_iff_eq] at h
    obtain ⟨rfl, h⟩ := h
    exact .fraction h
  next h₈ =>
  split
  · next hword =>
    simp only []
    split
    · next h =>
      simp only [Bool.and_eq_true] at h
      obtain ⟨⟨h, hlang⟩, hraw⟩ := h
      exact .rawString hword (eq_cons_tail h) hlang hraw
    · next h => exact .word hword (Bool.eq_false_iff.mpr h)
  next h₉ =>
  simp only [Bool.not_eq_true] at h₁ h₂ h₃ h₆ h₇ h₈ h₉
  exact .punctuation h₁ h₂ h₃ (by simpa using h₄) (by simpa using h₅) h₆ h₇ h₈ h₉

section
variable {language : Language} {atLineStart : Bool} {first : Char} {gs : List Glyph}
  {kind : TokenKind} {cut : Cut}

theorem Reads.source_eq (h : Reads language atLineStart first gs kind cut) (hn : NoReturn gs) :
    cut.source = gs := by
  cases h with
  | directive => exact source_directive ..
  | lineComment => exact source_lineComment _
  | blockComment => rw [Cut.source_push, source_blockComment]
  | string => exact source_quoted ..
  | character => exact source_quoted ..
  | verbatim => rw [Cut.source_push, source_verbatim]
  | number => exact source_number ..
  | fraction => exact source_number ..
  | @rawString _ _ rest _ hquote =>
      have hw : (Scanner.word gs).taken ++ (Scanner.word gs).rest = gs := source_word gs
      rw [hquote] at hw
      have hrest : NoReturn rest := (hn.suffix ⟨_, hw⟩).tail
      rw [Cut.source_prepend, Cut.source_push, source_rawString hrest, hw]
  | word => exact source_word _
  | punctuation => exact source_punctuation ..

theorem Reads.chars_eq (h : Reads language atLineStart first gs kind cut) :
    Glyph.charsOf cut.source = Glyph.charsOf gs := by
  cases h with
  | directive => rw [source_directive]
  | lineComment => rw [source_lineComment]
  | blockComment => rw [Cut.source_push, source_blockComment]
  | string => rw [source_quoted]
  | character => rw [source_quoted]
  | verbatim => rw [Cut.source_push, source_verbatim]
  | number => rw [source_number]
  | fraction => rw [source_number]
  | @rawString _ _ rest _ hquote =>
      have hw : (Scanner.word gs).taken ++ (Scanner.word gs).rest = gs := source_word gs
      rw [Cut.source_prepend, Cut.source_push, Glyph.charsOf_append, Glyph.charsOf_cons,
        chars_rawString, ← Glyph.charsOf_cons, ← Glyph.charsOf_append, ← hquote, hw]
  | word => rw [source_word]
  | punctuation => rw [source_punctuation]

end

end Scanner

end Beautifier
