/-
Closed literals.

A literal is closed if a letter written directly behind it is not taken along.
Then nothing is: the literal ends in its closing quote, and it is read again
whatever stands behind it, also with another line ending inside
(`quoted_closed`, `verbatim_closed`, `rawString_closed`).
-/
import Beautifier.Proofs.Text.Lines
import Beautifier.Proofs.Token.Account

namespace Beautifier.Scanner

variable {e : LineEnd}

/-! ## The first character -/

theorem startsWith_append {p : Char → Bool} {gs : List Glyph} (h : startsWith p gs = true)
    (rest : List Glyph) : startsWith p (gs ++ rest) = true := by
  obtain ⟨c, tail, rfl, hc⟩ := startsWith_eq_true.mp h
  exact hc

theorem startsWith_of_append {p : Char → Bool} {gs rest : List Glyph} (hgs : gs ≠ [])
    (h : startsWith p (gs ++ rest) = true) : startsWith p gs = true := by
  obtain ⟨g, tail, rfl⟩ := List.exists_cons_of_ne_nil hgs
  cases g with
  | char c => exact h
  | lineBreak e => cases h

/-! ## Quoted literals and verbatim strings -/

/-- A letter that stands behind a token. -/
abbrev letter : List Glyph := [.char 'x']

def EndsWith (c : Char) (gs : List Glyph) : Prop := ∃ front, gs = front ++ [.char c]

theorem EndsWith.append {c : Char} {gs : List Glyph} (h : EndsWith c gs) (front : List Glyph) :
    EndsWith c (front ++ gs) := by
  obtain ⟨init, rfl⟩ := h
  exact ⟨front ++ init, (List.append_assoc ..).symm⟩

theorem EndsWith.cons {c : Char} {gs : List Glyph} (h : EndsWith c gs) (g : Glyph) :
    EndsWith c (g :: gs) := h.append [g]

theorem quoted_cons {quote c : Char} (hc : c ≠ '\\') (rest : List Glyph) :
    quoted quote (.char c :: rest)
      = if c = quote then ⟨[.char c], rest⟩ else (quoted quote rest).push (.char c) := by
  rw [quoted]
  exact fun _ _ _ h => hc h

theorem quoted_closed {quote : Char} (hquote : quote ≠ '\\') (hletter : quote ≠ 'x')
    {gs : List Glyph} (h : (quoted quote (gs ++ letter)).rest = letter) :
    EndsWith quote gs ∧ ∀ e rest, quoted quote (gs.map (Glyph.withEnd e) ++ rest)
      = ⟨gs.map (Glyph.withEnd e), rest⟩ := by
  fun_induction quoted quote gs with
  | case1 g gs ih =>
      obtain ⟨hends, hread⟩ := ih h
      refine ⟨(hends.cons g).cons _, fun e rest => ?_⟩
      simp only [List.map_cons, List.cons_append, Glyph.withEnd, quoted, hread]
      rfl
  | case2 gs hescape =>
      rw [List.cons_append, quoted_cons hquote, if_pos rfl] at h
      cases List.append_left_eq_self.mp h
      refine ⟨⟨[], rfl⟩, fun e rest => ?_⟩
      show quoted quote (.char quote :: rest) = _
      rw [quoted_cons hquote, if_pos rfl]
      rfl
  | case3 c gs hescape hc ih =>
      by_cases hback : c = '\\'
      · -- a backslash at the end takes the letter along
        cases gs with
        | cons g gs => exact (hescape g gs rfl hback).elim
        | nil =>
            subst hback
            cases h
      · rw [List.cons_append, quoted_cons hback, if_neg hc] at h
        obtain ⟨hends, hread⟩ := ih h
        refine ⟨hends.cons _, fun e rest => ?_⟩
        simp only [List.map_cons, List.cons_append, Glyph.withEnd]
        rw [quoted_cons hback, if_neg hc, hread]
        rfl
  | case4 gs _ hchar =>
      cases gs with
      | nil =>
          rw [List.nil_append, letter, quoted_cons (by decide), if_neg (Ne.symm hletter)] at h
          cases h
      | cons g gs =>
          cases g with
          | char c => exact absurd rfl (hchar c gs)
          | lineBreak e => cases h

theorem verbatim_quote {rest : List Glyph} (h : startsWith (· == '\x22') rest = false) :
    verbatim (.char '\x22' :: rest) = ⟨[.char '\x22'], rest⟩ := by
  rw [verbatim]
  rintro tail rfl
  cases h

theorem verbatim_cons {g : Glyph} (hg : g ≠ .char '\x22') (rest : List Glyph) :
    verbatim (g :: rest) = (verbatim rest).push g := by
  rw [verbatim]
  · exact fun _ h _ => hg h
  · exact hg

theorem startsWith_verbatim_rest (gs : List Glyph) :
    startsWith (· == '\x22') (verbatim gs).rest = false := by
  fun_induction verbatim gs with
  | case1 gs ih => exact ih
  | case2 gs hdouble =>
      rw [← Bool.not_eq_true]
      exact fun h => hdouble _ (eq_cons_tail h)
  | case3 g gs _ _ ih => exact ih
  | case4 => rfl

theorem verbatim_closed {gs : List Glyph} (h : (verbatim (gs ++ letter)).rest = letter) :
    EndsWith '\x22' gs ∧ ∀ e rest, startsWith (· == '\x22') rest = false →
      verbatim (gs.map (Glyph.withEnd e) ++ rest) = ⟨gs.map (Glyph.withEnd e), rest⟩ := by
  fun_induction verbatim gs with
  | case1 gs ih =>
      obtain ⟨hends, hread⟩ := ih h
      refine ⟨(hends.cons _).cons _, fun e rest hrest => ?_⟩
      simp only [List.map_cons, List.cons_append, Glyph.withEnd, verbatim, hread e rest hrest]
      rfl
  | case2 gs hdouble =>
      have hquote : startsWith (· == '\x22') (gs ++ letter) = false := by
        rw [← Bool.not_eq_true]
        intro hquote
        cases gs with
        | nil => cases hquote
        | cons g gs => exact hdouble gs (eq_cons_tail (startsWith_of_append (by simp) hquote))
      rw [List.cons_append, verbatim_quote hquote] at h
      cases List.append_left_eq_self.mp h
      refine ⟨⟨[], rfl⟩, fun e rest hrest => ?_⟩
      exact verbatim_quote hrest
  | case3 g gs _ hg ih =>
      rw [List.cons_append, verbatim_cons hg] at h
      obtain ⟨hends, hread⟩ := ih h
      refine ⟨hends.cons _, fun e rest hrest => ?_⟩
      have hg' : Glyph.withEnd e g ≠ .char '\x22' := by
        cases g with
        | char c => exact hg
        | lineBreak e' => exact Glyph.noConfusion
      rw [List.map_cons, List.cons_append, verbatim_cons hg', hread e rest hrest]
      rfl
  | case4 => cases h

/-! ## Raw strings -/

/-- The delimiter of a raw string ends at a character, or else the string is not closed: it runs
to the end of the source or of the line. -/
theorem rawDelimiter_cases {gs : List Glyph} (hplain : Plain .linux gs) :
    (∃ front c behind raw, gs = front ++ .char c :: behind ∧
        (∀ g ∈ front, ∃ d, g = .char d ∧ d ≠ '\r') ∧
        ∀ rest, rawDelimiter (front ++ .char c :: rest) = (raw, ⟨front, .char c :: rest⟩)) ∨
      (∃ taken, rawDelimiter (gs ++ letter) = (true, ⟨taken, []⟩)) ∨
      ∃ taken e behind, rawDelimiter (gs ++ letter) = (false, ⟨taken, .lineBreak e :: behind⟩) := by
  induction gs with
  | nil => exact .inr (.inl ⟨letter, rfl⟩)
  | cons g gs ih =>
      obtain ⟨hg, htail⟩ := plain_cons.mp hplain
      have hg := hg g List.mem_cons_self
      cases g with
      | lineBreak e =>
          cases hg
          exact .inr (.inr ⟨[], .linux, gs ++ letter, rfl⟩)
      | char c =>
          by_cases hopen : c = '('
          · subst hopen
            exact .inl ⟨[], '(', gs, true, rfl, by simp, fun rest => rfl⟩
          by_cases hplainer : (c == '\x22' || c == '\\' || c == ' ') = true
          · refine .inl ⟨[], c, gs, false, rfl, by simp, fun rest => ?_⟩
            rw [List.nil_append, rawDelimiter, if_neg (by simpa using hopen), if_pos hplainer]
            rfl
          have hstep : ∀ rest, rawDelimiter (.char c :: rest)
              = ((rawDelimiter rest).1, (rawDelimiter rest).2.push (.char c)) := by
            intro rest
            rw [rawDelimiter, if_neg (by simpa using hopen), if_neg hplainer]
          rcases ih htail with ⟨front, d, behind, raw, rfl, hfront, hread⟩ | ⟨taken, hread⟩ |
            ⟨taken, e, behind, hread⟩
          · refine .inl ⟨.char c :: front, d, behind, raw, rfl, ?_, fun rest => ?_⟩
            · intro g hg'
              rcases List.mem_cons.mp hg' with rfl | hg'
              · exact ⟨c, rfl, hg.1⟩
              · exact hfront g hg'
            · rw [List.cons_append, hstep, hread]
              rfl
          · refine .inr (.inl ⟨.char c :: taken, ?_⟩)
            rw [List.cons_append, hstep, hread]
            rfl
          · refine .inr (.inr ⟨.char c :: taken, e, behind, ?_⟩)
            rw [List.cons_append, hstep, hread]
            rfl

theorem chars_prefix_withEnd {cs : List Char} {gs : List Glyph}
    (h : cs.map .char <+: gs.map (Glyph.withEnd e)) : cs.map .char <+: gs := by
  induction cs generalizing gs with
  | nil => exact List.nil_prefix
  | cons c cs ih =>
      cases gs with
      | nil => exact absurd (List.prefix_nil.mp h) (List.cons_ne_nil _ _)
      | cons g gs =>
          obtain ⟨hg, htail⟩ := List.cons_prefix_cons.mp h
          cases g with
          | lineBreak e' => cases hg
          | char d =>
              cases hg
              exact (List.prefix_cons_inj _).mpr (ih htail)

theorem rawBody_of_some {closing : List Char} {g : Glyph} {gs behind : List Glyph}
    (h : dropChars? closing (g :: gs) = some behind) :
    rawBody closing (g :: gs) = ⟨closing.map .char, behind⟩ := by
  rw [rawBody, h]

theorem rawBody_of_none {closing : List Char} {g : Glyph} {gs : List Glyph}
    (h : dropChars? closing (g :: gs) = none) :
    rawBody closing (g :: gs) = (rawBody closing gs).push g := by
  rw [rawBody, h]

/-- The closing characters do not start in front of where they first stand in a body, whatever its
line endings are and whatever stands behind it. -/
theorem dropChars?_withEnd_eq_none {closing : List Char} (hreturn : '\r' ∉ closing) {g : Glyph}
    {gs front : List Glyph} (hfront : gs = front ++ closing.map .char)
    (h : dropChars? closing (g :: (gs ++ letter)) = none) (e : LineEnd) (rest : List Glyph) :
    dropChars? closing (Glyph.withEnd e g :: (gs.map (Glyph.withEnd e) ++ rest)) = none := by
  rw [Option.eq_none_iff_forall_ne_some]
  intro behind hsome
  have heq := (dropChars?_eq_some_iff hreturn).mp hsome
  -- the closing characters fit into the body, so they stand in it already
  have hprefix : closing.map Glyph.char <+: (g :: gs).map (Glyph.withEnd e) := by
    have hbody : closing.map Glyph.char <+: (g :: gs).map (Glyph.withEnd e) ++ rest :=
      ⟨behind, heq.symm⟩
    refine List.prefix_of_prefix_length_le hbody (List.prefix_append ..) ?_
    rw [hfront]
    simp
    omega
  obtain ⟨behind', hbehind'⟩ := chars_prefix_withEnd hprefix
  have hin : dropChars? closing (g :: (gs ++ letter)) = some (behind' ++ letter) := by
    rw [dropChars?_eq_some_iff hreturn, ← List.append_assoc, hbehind']
    rfl
  rw [h] at hin
  cases hin

/-- The body of a raw string that leaves a letter behind ends in the closing characters. -/
theorem rawBody_closed {c : Char} {cs : List Char} (hreturn : '\r' ∉ c :: cs) {gs : List Glyph}
    (h : (rawBody (c :: cs) (gs ++ letter)).rest = letter) :
    (∃ front, gs = front ++ (c :: cs).map .char) ∧
      ∀ e rest, rawBody (c :: cs) (gs.map (Glyph.withEnd e) ++ rest)
        = ⟨gs.map (Glyph.withEnd e), rest⟩ := by
  induction gs with
  | nil =>
      cases hdrop : dropChars? (c :: cs) letter with
      | none =>
          rw [List.nil_append, letter, rawBody_of_none hdrop] at h
          cases h
      | some behind =>
          rw [List.nil_append, letter, rawBody_of_some hdrop] at h
          have hlength := congrArg List.length ((dropChars?_eq_some_iff hreturn).mp hdrop)
          have hbehind : behind = letter := h
          simp [hbehind] at hlength
  | cons g gs ih =>
      cases hdrop : dropChars? (c :: cs) (g :: (gs ++ letter)) with
      | some behind =>
          rw [List.cons_append, rawBody_of_some hdrop] at h
          have hbehind : behind = letter := h
          have heq := (dropChars?_eq_some_iff hreturn).mp hdrop
          rw [hbehind, ← List.cons_append] at heq
          rw [List.append_cancel_right heq]
          refine ⟨⟨[], rfl⟩, fun e rest => ?_⟩
          have hchars : ((c :: cs).map Glyph.char).map (Glyph.withEnd e) = (c :: cs).map .char := by
            rw [List.map_map]
            rfl
          rw [hchars]
          exact rawBody_of_some ((dropChars?_eq_some_iff hreturn).mpr rfl)
      | none =>
          rw [List.cons_append, rawBody_of_none hdrop] at h
          obtain ⟨⟨front, hfront⟩, hread⟩ := ih h
          refine ⟨⟨g :: front, congrArg _ hfront⟩, fun e rest => ?_⟩
          rw [List.map_cons, List.cons_append,
            rawBody_of_none (dropChars?_withEnd_eq_none hreturn hfront hdrop e rest), hread]
          rfl

/-- The characters that close a raw string. -/
def closingChars (delimiter : List Glyph) : List Char :=
  ')' :: (Glyph.charsOf delimiter ++ ['\x22'])

theorem return_not_mem_closingChars {delimiter : List Glyph}
    (h : ∀ g ∈ delimiter, ∃ d, g = .char d ∧ d ≠ '\r') : '\r' ∉ closingChars delimiter := by
  intro hmem
  have hmem : '\r' ∈ Glyph.charsOf delimiter := by simpa [closingChars] using hmem
  obtain ⟨g, hg, hmem⟩ := List.mem_flatMap.mp hmem
  obtain ⟨d, rfl, hd⟩ := h g hg
  exact hd (List.mem_singleton.mp hmem).symm

theorem rawString_closed {gs : List Glyph} (hplain : Plain .linux gs)
    (h : (rawString (gs ++ letter)).rest = letter) :
    EndsWith '\x22' gs ∧ ∀ e rest, rawString (gs.map (Glyph.withEnd e) ++ rest)
      = ⟨gs.map (Glyph.withEnd e), rest⟩ := by
  rcases rawDelimiter_cases hplain with ⟨front, c, behind, raw, rfl, hfront, hread⟩ |
    ⟨taken, hread⟩ | ⟨taken, e, behind, hread⟩
  · have hmap : ∀ e, front.map (Glyph.withEnd e) = front :=
      map_withEnd_of_chars fun g hg => (hfront g hg).imp fun _ hd => hd.1
    have hsplit : ∀ rest, rawString (front ++ .char c :: rest)
        = (if raw then rawBody (closingChars front) (.char c :: rest)
            else quoted '\x22' (.char c :: rest)).prepend front := by
      intro rest
      rw [rawString, hread]
      rfl
    rw [List.append_assoc, List.cons_append, hsplit] at h
    cases raw with
    | true =>
        have h : (rawBody (closingChars front) ((.char c :: behind) ++ letter)).rest = letter := h
        obtain ⟨⟨body, hbody⟩, hclosed⟩ := rawBody_closed (return_not_mem_closingChars hfront) h
        refine ⟨.append ⟨body ++ (')' :: Glyph.charsOf front).map .char, ?_⟩ front,
          fun e rest => ?_⟩
        · rw [hbody]
          simp
        · rw [List.map_append, hmap, List.append_assoc, List.map_cons, List.cons_append]
          show rawString (front ++ .char c :: _) = _
          rw [hsplit, if_pos rfl]
          exact congrArg (Cut.prepend front) (hclosed e rest)
    | false =>
        have h : (quoted '\x22' ((.char c :: behind) ++ letter)).rest = letter := h
        obtain ⟨hends, hclosed⟩ := quoted_closed (by decide) (by decide) h
        refine ⟨hends.append front, fun e rest => ?_⟩
        rw [List.map_append, hmap, List.append_assoc, List.map_cons, List.cons_append]
        show rawString (front ++ .char c :: _) = _
        rw [hsplit, if_neg Bool.false_ne_true]
        exact congrArg (Cut.prepend front) (hclosed e rest)
  · rw [rawString, hread] at h
    cases h
  · rw [rawString, hread] at h
    cases h

end Beautifier.Scanner
