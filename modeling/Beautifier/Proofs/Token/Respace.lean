/-
Comments and directives with other blanks.

The layout drops the blanks at the ends of the lines of a comment or a
directive and moves the lines of a block comment.  `Respaced` relates the
glyphs before and after.  Blanks at the start and at the end of a line decide
nothing about where a comment or directive ends, so its reader takes the
respaced glyphs as well.
-/
import Beautifier.Proofs.Text.Blanks
import Beautifier.Proofs.Token.Reread

namespace Beautifier

/-- The second list is the first one with another line ending, blanks cut off at the ends of
lines, and, where `lead` allows it, other blanks at the starts of the lines behind a break. -/
inductive Respaced (e : LineEnd) (lead : Bool) : List Glyph → List Glyph → Prop
  | nil : Respaced e lead [] []
  | char {c : Char} {gs gs' : List Glyph} : Respaced e lead gs gs' →
      Respaced e lead (.char c :: gs) (.char c :: gs')
  | cut {c : Char} {gs gs' : List Glyph} : isBlank c = true → Respaced e lead gs gs' →
      atLineEnd gs' = true → Respaced e lead (.char c :: gs) gs'
  | lineBreak {e' : LineEnd} {blanks blanks' : List Char} {gs gs' : List Glyph} :
      (∀ c ∈ blanks, isBlank c = true) → (∀ c ∈ blanks', isBlank c = true) →
      (lead = false → blanks = [] ∧ blanks' = []) → Respaced e lead gs gs' →
      Respaced e lead (.lineBreak e' :: (blanks.map .char ++ gs))
        (.lineBreak e :: (blanks'.map .char ++ gs'))

namespace Respaced

variable {e : LineEnd} {lead : Bool} {gs gs' : List Glyph} {c : Char}

theorem char_inv (hc : isBlank c = false) (h : Respaced e lead (.char c :: gs) gs') :
    ∃ tail', gs' = .char c :: tail' ∧ Respaced e lead gs tail' := by
  cases h with
  | char h => exact ⟨_, rfl, h⟩
  | cut hblank =>
      rw [hc] at hblank
      cases hblank

theorem char_char_inv {d : Char} (hc : isBlank c = false) (hd : isBlank d = false)
    (h : Respaced e lead (.char c :: .char d :: gs) gs') :
    ∃ tail', gs' = .char c :: .char d :: tail' ∧ Respaced e lead gs tail' := by
  obtain ⟨tail', rfl, hsecond⟩ := h.char_inv hc
  obtain ⟨tail', rfl, htail⟩ := hsecond.char_inv hd
  exact ⟨tail', rfl, htail⟩

theorem lineBreak_inv {e' : LineEnd} (h : Respaced e false (.lineBreak e' :: gs) gs') :
    ∃ tail', gs' = .lineBreak e :: tail' ∧ Respaced e false gs tail' := by
  generalize hsource : Glyph.lineBreak e' :: gs = source at h
  cases h with
  | lineBreak _ _ hlead htail =>
      obtain ⟨rfl, rfl⟩ := hlead rfl
      cases hsource
      exact ⟨_, rfl, htail⟩
  | _ => cases hsource

theorem startsWith (h : Respaced e lead gs gs') {rest : List Glyph}
    (hrest : atLineEnd rest = true)
    (hs : Scanner.startsWith (· == c) (gs' ++ rest) = true) :
    Scanner.startsWith (· == c) gs = true := by
  cases h with
  | nil =>
      obtain ⟨d, tail, rfl, -⟩ := Scanner.startsWith_eq_true.mp hs
      cases hrest
  | char => exact hs
  | lineBreak => cases hs
  | cut _ _ hend =>
      cases gs' with
      | nil =>
          obtain ⟨d, tail, rfl, -⟩ := Scanner.startsWith_eq_true.mp hs
          cases hrest
      | cons g tail' =>
          cases g with
          | char d => cases hend
          | lineBreak _ => cases hs

theorem chars (h : Respaced e lead gs gs') (hgs : ∀ g ∈ gs, ∃ c, g = .char c) :
    ∀ g ∈ gs', ∃ c, g = .char c := by
  induction h with
  | nil => exact hgs
  | char _ ih =>
      intro g hg
      rcases List.mem_cons.mp hg with rfl | hg
      · exact ⟨_, rfl⟩
      · exact ih (fun g hg => hgs g (List.mem_cons_of_mem _ hg)) g hg
  | cut _ _ _ ih => exact ih fun g hg => hgs g (List.mem_cons_of_mem _ hg)
  | lineBreak =>
      obtain ⟨c, hc⟩ := hgs _ List.mem_cons_self
      cases hc

end Respaced

/-! ## Lines with other blanks -/

theorem Respaced.of_trimmed {e : LineEnd} {lead : Bool} {l l' : List Char} (h : Trimmed l l')
    {gs gs' : List Glyph} (hgs : Respaced e lead gs gs') (hend : atLineEnd gs' = true) :
    Respaced e lead (l.map .char ++ gs) (l'.map .char ++ gs') := by
  obtain ⟨blanks, hblanks, rfl⟩ := h
  induction l' with
  | cons c l' ih => exact .char ih
  | nil =>
      induction blanks with
      | nil => exact hgs
      | cons c blanks ih =>
          exact .cut (hblanks c List.mem_cons_self)
            (ih fun d hd => hblanks d (List.mem_cons_of_mem _ hd)) hend

theorem respaced_joinLines {e e' : LineEnd} {lead : Bool} {first first' : List Char}
    {others others' : List (List Char)} (hfirst : Trimmed first first')
    (hothers : List.Forall₂ (Reblanked lead) others others') :
    Respaced e lead (joinLines e' first others) (joinLines e first' others') := by
  have hrest : Respaced e lead (others.flatMap fun l => .lineBreak e' :: l.map .char)
        (others'.flatMap fun l => .lineBreak e :: l.map .char) ∧
      atLineEnd (others'.flatMap fun l => .lineBreak e :: l.map .char) = true := by
    induction hothers with
    | nil => exact ⟨.nil, rfl⟩
    | cons hl _ ih =>
        obtain ⟨blanks, blanks', content, content', hblanks, hblanks', hlead, htrimmed, rfl, rfl⟩ :=
          hl
        refine ⟨?_, rfl⟩
        have hline := Respaced.of_trimmed htrimmed ih.1 ih.2
        simp only [List.flatMap_cons, List.map_append, List.cons_append, List.append_assoc]
        exact .lineBreak hblanks hblanks' hlead hline
  exact .of_trimmed hfirst hrest.1 hrest.2

namespace Scanner

variable {e : LineEnd}

/-! ## Line comments -/

theorem chars_lineComment (gs : List Glyph) :
    ∀ g ∈ (lineComment gs).taken, ∃ c, g = .char c := by
  fun_induction lineComment gs with
  | case1 c rest ih =>
      intro g hg
      rcases List.mem_cons.mp hg with rfl | hg
      · exact ⟨c, rfl⟩
      · exact ih g hg
  | case2 => simp [Cut.stop]

theorem lineComment_append {taken rest : List Glyph} (htaken : ∀ g ∈ taken, ∃ c, g = .char c)
    (hrest : atLineEnd rest = true) : lineComment (taken ++ rest) = ⟨taken, rest⟩ := by
  induction taken with
  | nil =>
      cases rest with
      | nil => rfl
      | cons g rest =>
          cases g with
          | char c => cases hrest
          | lineBreak e => rfl
  | cons g taken ih =>
      obtain ⟨c, rfl⟩ := htaken g List.mem_cons_self
      rw [List.cons_append, lineComment, ih fun g hg => htaken g (List.mem_cons_of_mem _ hg)]
      rfl

/-! ## Block comments -/

theorem blockComment_cons {g : Glyph} {rest : List Glyph}
    (h : g = .char '*' → startsWith (· == '/') rest = false) :
    blockComment (g :: rest) = (blockComment rest).push g := by
  rw [blockComment]
  rintro tail hg rfl
  cases h hg

theorem blockComment_blanks {blanks : List Char} (h : ∀ c ∈ blanks, isBlank c = true)
    (rest : List Glyph) :
    blockComment (blanks.map .char ++ rest) = (blockComment rest).prepend (blanks.map .char) := by
  induction blanks with
  | nil => rfl
  | cons c blanks ih =>
      have hc : Glyph.char c ≠ .char '*' := by
        rintro heq
        cases heq
        cases h '*' List.mem_cons_self
      rw [List.map_cons, List.cons_append, blockComment_cons fun heq => absurd heq hc,
        ih fun d hd => h d (List.mem_cons_of_mem _ hd)]
      rfl

theorem endsWith_blockComment (gs : List Glyph) :
    (blockComment gs).rest = [] ∨ EndsWith '/' (blockComment gs).taken := by
  fun_induction blockComment gs with
  | case1 rest => exact .inr ⟨[.char '*'], rfl⟩
  | case2 g rest _ ih => exact ih.imp_right fun h => h.cons g
  | case3 => exact .inl rfl

theorem endsWith_of_blockComment {gs : List Glyph}
    (h : (blockComment (gs ++ letter)).rest = letter) : EndsWith '/' gs := by
  have hsource : (blockComment (gs ++ letter)).taken ++ (blockComment (gs ++ letter)).rest
      = gs ++ letter := source_blockComment _
  rcases endsWith_blockComment (gs ++ letter) with hnil | hends
  · rw [h] at hnil
    cases hnil
  · rw [h, List.append_cancel_right_eq] at hsource
    rwa [hsource] at hends

theorem not_startsWith_letter {gs : List Glyph} {c : Char} (hc : c ≠ 'x')
    (h : startsWith (· == c) gs = false) : startsWith (· == c) (gs ++ letter) = false := by
  rw [← Bool.not_eq_true] at h ⊢
  intro hs
  cases gs with
  | nil => exact hc (eq_of_beq hs).symm
  | cons g gs => exact h (startsWith_of_append (List.cons_ne_nil g gs) hs)

/-- With other blanks a text does not start with another character, unless nothing of it is left. -/
theorem not_startsWith_respaced {lead : Bool} {gs gs' : List Glyph} {c : Char}
    (hgs : Respaced e lead gs gs') (hne : gs' ≠ []) (h : startsWith (· == c) gs = false)
    (rest : List Glyph) : startsWith (· == c) (gs' ++ rest) = false := by
  rw [← Bool.not_eq_true] at h ⊢
  intro hs
  have hnil : startsWith (· == c) (gs' ++ []) = true := by
    rw [List.append_nil]
    exact startsWith_of_append hne hs
  exact h (hgs.startsWith rfl hnil)

/-- A closed block comment is read again with other blanks at the ends of its lines. -/
theorem blockComment_respaced {gs gs' : List Glyph} (hgs : Respaced e true gs gs')
    (h : (blockComment (gs ++ letter)).rest = letter) :
    gs' ≠ [] ∧ ∀ rest, blockComment (gs' ++ rest) = ⟨gs', rest⟩ := by
  induction hgs with
  | nil => cases h
  | @char c gs gs' hgs ih =>
      by_cases hclose : c = '*' ∧ startsWith (· == '/') gs = true
      · obtain ⟨rfl, hclose⟩ := hclose
        obtain ⟨d, tail, rfl, hd⟩ := startsWith_eq_true.mp hclose
        cases eq_of_beq hd
        cases List.append_left_eq_self.mp (h : tail ++ letter = letter)
        obtain ⟨tail', rfl, htail⟩ := hgs.char_inv (by decide)
        cases htail
        exact ⟨List.cons_ne_nil _ _, fun rest => rfl⟩
      · have hslash : Glyph.char c = .char '*' → startsWith (· == '/') gs = false := fun hc =>
          Bool.eq_false_iff.mpr fun hs => hclose ⟨Glyph.char.inj hc, hs⟩
        rw [List.cons_append,
          blockComment_cons fun hc => not_startsWith_letter (by decide) (hslash hc)] at h
        obtain ⟨hne, hread⟩ := ih h
        refine ⟨List.cons_ne_nil _ _, fun rest => ?_⟩
        rw [List.cons_append,
          blockComment_cons fun hc => not_startsWith_respaced hgs hne (hslash hc) rest, hread]
        rfl
  | @cut c gs gs' hblank hgs hend ih =>
      have hc : Glyph.char c ≠ .char '*' := by
        intro hc
        cases hc
        cases hblank
      rw [List.cons_append, blockComment_cons fun hstar => absurd hstar hc] at h
      exact ih h
  | lineBreak hblanks hblanks' _ hgs ih =>
      rw [List.cons_append, List.append_assoc, blockComment_cons Glyph.noConfusion,
        blockComment_blanks hblanks] at h
      refine ⟨List.cons_ne_nil _ _, fun rest => ?_⟩
      rw [List.cons_append, List.append_assoc, blockComment_cons Glyph.noConfusion,
        blockComment_blanks hblanks', (ih h).2]
      rfl

/-! ## Directives -/

theorem continuesLine_of_isBlank {continued : Bool} {c : Char} (h : isBlank c = true) :
    continuesLine continued c = continued := if_pos h

theorem directive_char {part : DirectivePart} {continued : Bool} {c : Char} {rest : List Glyph}
    (hclose : part = .blockComment → c = '*' → startsWith (· == '/') rest = false)
    (hopen : part = .code → c = '/' →
      startsWith (· == '*') rest = false ∧ startsWith (· == '/') rest = false) :
    directive part continued (.char c :: rest)
      = (directive part (continuesLine continued c) rest).push (.char c) := by
  cases part with
  | blockComment =>
      rw [directive]
      rintro tail rfl rfl
      cases hclose rfl rfl
  | lineComment =>
      rw [directive]
      · rintro tail ⟨⟩
      · rintro ⟨⟩
      · rintro tail ⟨⟩
      · rintro tail ⟨⟩
  | code =>
      rw [directive]
      · rintro tail ⟨⟩
      · rintro ⟨⟩
      · rintro tail - rfl rfl
        cases (hopen rfl rfl).1
      · rintro tail - rfl rfl
        cases (hopen rfl rfl).2

/-- One character of a directive, kept or cut off. -/
theorem directive_char_respaced {part : DirectivePart} {continued : Bool} {c : Char}
    {src taken gs' rest : List Glyph} (hend : atLineEnd rest = true)
    (htaken : (directive part (continuesLine continued c) src).taken = taken)
    (hclose : part = .blockComment → c = '*' → startsWith (· == '/') src = false)
    (hopen : part = .code → c = '/' →
      startsWith (· == '*') src = false ∧ startsWith (· == '/') src = false)
    (hgs : Respaced e false (.char c :: taken) gs')
    (ih : ∀ {tail'}, Respaced e false taken tail' →
      directive part (continuesLine continued c) (tail' ++ rest) = ⟨tail', rest⟩) :
    directive part continued (gs' ++ rest) = ⟨gs', rest⟩ := by
  have hsource : taken ++ (directive part (continuesLine continued c) src).rest = src := by
    rw [← htaken]
    exact source_directive ..
  cases hgs with
  | cut hblank htail _ =>
      rw [← ih htail, continuesLine_of_isBlank hblank]
  | @char _ _ tail' htail =>
      have hsees : ∀ d : Char, startsWith (· == d) src = false →
          startsWith (· == d) (tail' ++ rest) = false := by
        intro d hd
        rw [← Bool.not_eq_true] at hd ⊢
        intro hd'
        apply hd
        rw [← hsource]
        exact startsWith_append (htail.startsWith hend hd') _
      rw [List.cons_append, directive_char (fun hp hc => hsees _ (hclose hp hc))
        (fun hp hc => (hopen hp hc).imp (hsees _) (hsees _)), ih htail]
      rfl

theorem directive_break {part : DirectivePart} {e' : LineEnd} {rest : List Glyph}
    (hpart : part ≠ .blockComment) :
    directive part true (.lineBreak e' :: rest)
        = (directive .code false rest).push (.lineBreak e') ∧
      directive part false (.lineBreak e' :: rest) = .stop (.lineBreak e' :: rest) := by
  cases part with
  | blockComment => exact absurd rfl hpart
  | code => exact ⟨rfl, rfl⟩
  | lineComment => exact ⟨rfl, rfl⟩

/-- A directive is read again with the blanks at the ends of its lines cut off. -/
theorem directive_respaced {part : DirectivePart} {continued : Bool} {gs gs' rest : List Glyph}
    (hgs : Respaced e false (directive part continued gs).taken gs')
    (hend : atLineEnd rest = true)
    (hnil : (directive part continued gs).rest = [] → rest = []) :
    directive part continued (gs' ++ rest) = ⟨gs', rest⟩ := by
  fun_induction directive part continued gs generalizing gs' with
  | case1 =>
      cases hgs
      rw [hnil rfl]
      rw [List.append_nil, directive]
      rfl
  | case2 =>
      obtain ⟨tail', rfl, htail⟩ := hgs.char_char_inv (by decide) (by decide)
      rename_i ih
      rw [List.cons_append, List.cons_append, directive, ih htail hnil]
      rfl
  | case3 continued c src hstar ih =>
      refine directive_char_respaced hend rfl (fun _ hc => ?_) (by simp) hgs
        fun htail => ih htail hnil
      rw [← Bool.not_eq_true]
      exact fun hs => hstar _ (eq_cons_tail hs) hc
  | case4 continued e' src ih =>
      obtain ⟨tail', rfl, htail⟩ := hgs.lineBreak_inv
      rw [List.cons_append, directive, ih htail hnil]
      rfl
  | case5 part e' src hpart ih =>
      obtain ⟨tail', rfl, htail⟩ := hgs.lineBreak_inv
      rw [List.cons_append, (directive_break hpart).1, ih htail hnil]
      rfl
  | case6 part continued e' src hpart hcontinued =>
      cases hgs
      rw [Bool.eq_false_iff.mpr hcontinued, List.nil_append]
      cases rest with
      | nil =>
          rw [directive]
          rfl
      | cons g rest =>
          cases g with
          | char c => cases hend
          | lineBreak e' => exact (directive_break hpart).2
  | case7 =>
      obtain ⟨tail', rfl, htail⟩ := hgs.char_char_inv (by decide) (by decide)
      rename_i ih
      rw [List.cons_append, List.cons_append, directive, ih htail hnil]
      rfl
  | case8 =>
      obtain ⟨tail', rfl, htail⟩ := hgs.char_char_inv (by decide) (by decide)
      rename_i ih
      rw [List.cons_append, List.cons_append, directive, ih htail hnil]
      rfl
  | case9 part continued c src _ hpart hstar hslash ih =>
      refine directive_char_respaced hend rfl (fun hp => absurd hp hpart) (fun hp hc => ?_) hgs
        fun htail => ih htail hnil
      rw [← Bool.not_eq_true, ← Bool.not_eq_true]
      exact ⟨fun hs => hstar _ hp (eq_cons_tail hs) hc, fun hs => hslash _ hp (eq_cons_tail hs) hc⟩

end Scanner

end Beautifier
