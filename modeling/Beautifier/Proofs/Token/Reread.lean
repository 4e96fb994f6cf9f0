/-
Reading a token again.

A reader that took some glyphs takes them again when something else stands
behind them, provided that it sees nothing there that it did not see before
(`Mirrors`).  Which reader it is depends on the first characters, and these
are seen in both sources too, so a whole token is read again (`reads_exact`).
-/
import Beautifier.Proofs.Token.Lookahead
import Beautifier.Proofs.Token.Literal

namespace Beautifier.Scanner

/-! ## Words -/

theorem isWordChar_of_mem_word {gs : List Glyph} :
    ∀ g ∈ (word gs).taken, ∃ c, g = .char c ∧ isWordChar c = true := by
  fun_induction word gs with
  | case1 c rest hc ih =>
      intro g hg
      rcases List.mem_cons.mp hg with rfl | hg
      · exact ⟨c, rfl, hc⟩
      · exact ih g hg
  | case2 => simp [Cut.stop]
  | case3 => simp [Cut.stop]

theorem startsWith_word_rest (gs : List Glyph) : startsWith isWordChar (word gs).rest = false := by
  fun_induction word gs with
  | case1 c rest hc ih => exact ih
  | case2 c rest hc => exact Bool.eq_false_iff.mpr hc
  | case3 rest h =>
      cases rest with
      | nil => rfl
      | cons g rest =>
          cases g with
          | char c => exact absurd rfl (h c rest)
          | lineBreak e => rfl

theorem word_append {taken rest : List Glyph}
    (htaken : ∀ g ∈ taken, ∃ c, g = .char c ∧ isWordChar c = true)
    (hrest : startsWith isWordChar rest = false) : word (taken ++ rest) = ⟨taken, rest⟩ := by
  induction taken with
  | nil =>
      cases rest with
      | nil => rfl
      | cons g rest =>
          cases g with
          | char c =>
              have hc : ¬isWordChar c = true := Bool.eq_false_iff.mp hrest
              rw [List.nil_append, word, if_neg hc]
              rfl
          | lineBreak e => rfl
  | cons g taken ih =>
      obtain ⟨c, rfl, hc⟩ := htaken g List.mem_cons_self
      rw [List.cons_append, word, if_pos hc, ih fun g hg => htaken g (List.mem_cons_of_mem _ hg)]
      rfl

/-! ## Numbers -/

theorem isNumberChar_of_isAlphanum {c : Char} (h : c.isAlphanum = true) :
    isNumberChar c = true := by
  simp [isNumberChar, h]

/-- What may go on with a number, seen with what stands behind it. -/
def numberGoesOn (hex : Bool) (previous c : Char) (rest : List Glyph) : Bool :=
  isNumberChar c || ((c == '+' || c == '-') && isExponent hex previous)
    || (c == '\x27' && previous.isAlphanum && startsWith Char.isAlphanum rest)

theorem number_cons (hex : Bool) (previous c : Char) (rest : List Glyph) :
    number hex previous (.char c :: rest)
      = if numberGoesOn hex previous c rest then (number hex c rest).push (.char c)
        else .stop (.char c :: rest) := by
  rw [number]
  rfl

theorem mayGoOn_of_numberGoesOn {hex : Bool} {previous c : Char} {rest : List Glyph}
    (h : numberGoesOn hex previous c rest = true) : mayGoOn c = true := by
  simp only [numberGoesOn, Bool.or_eq_true, Bool.and_eq_true] at h
  rcases h with (h | ⟨h | h, -⟩) | ⟨⟨h, -⟩, -⟩
  · exact mayGoOn_of_isNumberChar h
  · exact mayGoOn_of_beq (by decide) h
  · exact mayGoOn_of_beq (by decide) h
  · exact mayGoOn_of_beq (by decide) h

theorem numberGoesOn_mono {hex : Bool} {previous c : Char} {rest rest' : List Glyph}
    (hrest : c = '\x27' → startsWith Char.isAlphanum rest = true →
      startsWith Char.isAlphanum rest' = true)
    (h : numberGoesOn hex previous c rest = true) :
    numberGoesOn hex previous c rest' = true := by
  simp only [numberGoesOn, Bool.or_eq_true, Bool.and_eq_true] at h ⊢
  exact h.imp_right fun ⟨hc, hs⟩ => ⟨hc, hrest (eq_of_beq hc.1) hs⟩

theorem startsWith_number_taken {p : Char → Bool} (hp : ∀ c, p c = true → c.isAlphanum = true)
    {hex : Bool} {previous : Char} {gs rest' : List Glyph} (h : startsWith p gs = true) :
    startsWith p ((number hex previous gs).taken ++ rest') = true := by
  obtain ⟨c, rest, rfl, hc⟩ := startsWith_eq_true.mp h
  rw [number_cons, if_pos (by simp [numberGoesOn, isNumberChar_of_isAlphanum (hp c hc)])]
  exact hc

/-- A number is read again in front of what mirrors what stood behind it. -/
theorem number_mirror {hex : Bool} {previous : Char} {gs rest' : List Glyph}
    (h : Mirrors 2 (number hex previous gs).rest rest') :
    number hex previous ((number hex previous gs).taken ++ rest')
      = ⟨(number hex previous gs).taken, rest'⟩ := by
  fun_induction number hex previous gs with
  | case1 previous c rest hc ih =>
      have hc' : numberGoesOn hex previous c ((number hex c rest).taken ++ rest') = true :=
        numberGoesOn_mono (fun _ => startsWith_number_taken fun _ h => h) hc
      simp only [Cut.push, List.cons_append]
      rw [number_cons, if_pos hc', ih h]
      rfl
  | case2 previous c rest hc =>
      cases rest' with
      | nil => rfl
      | cons g tail' =>
          cases g with
          | lineBreak e => rfl
          | char d =>
              have hstop : ¬numberGoesOn hex previous d tail' = true := by
                intro hd
                obtain ⟨tail, heq, htail⟩ := h (mayGoOn_of_numberGoesOn hd)
                cases heq
                refine hc (numberGoesOn_mono (fun hquote => ?_) hd)
                exact (htail (by rw [hquote]; rfl)).startsWith fun _ => mayGoOn_of_isAlphanum
              show number hex previous (.char d :: tail') = _
              rw [number_cons, if_neg hstop]
              rfl
  | case3 previous rest hrest =>
      cases rest' with
      | nil => rfl
      | cons g tail' =>
          cases g with
          | lineBreak e => rfl
          | char d =>
              have hstop : ¬numberGoesOn hex previous d tail' = true := by
                intro hd
                obtain ⟨tail, heq, -⟩ := h (mayGoOn_of_numberGoesOn hd)
                exact hrest d tail heq
              show number hex previous (.char d :: tail') = _
              rw [number_cons, if_neg hstop]
              rfl

/-! ## Punctuation -/

/-- The cut behind `first` that an entry of the table of long punctuation makes. -/
def longCut (first : Char) (gs : List Glyph) : List Char → Option Cut
  | c :: cs => if c = first then (dropChars? cs gs).map (⟨cs.map .char, ·⟩) else none
  | [] => none

theorem punctuation_eq (first : Char) (gs : List Glyph) :
    punctuation first gs = (longPunctuation.findSome? (longCut first gs)).getD (.stop gs) := by
  unfold punctuation
  congr 2

theorem longPunctuation_tail {c : Char} {cs : List Char} (h : c :: cs ∈ longPunctuation) :
    cs.length ≤ 2 ∧ '\r' ∉ cs ∧ ∀ d ∈ cs, mayGoOn d = true := by
  have htable : ∀ p ∈ longPunctuation, p.tail.length ≤ 2 ∧ '\r' ∉ p.tail ∧
      p.tail.all mayGoOn = true := by decide
  obtain ⟨hlength, hreturn, hgoes⟩ := htable _ h
  exact ⟨hlength, hreturn, List.all_eq_true.mp hgoes⟩

/-- No entry of the table that fits is longer than the punctuation that is read. -/
theorem punctuation_longest {first : Char} {cs : List Char} {gs : List Glyph}
    (hmem : first :: cs ∈ longPunctuation) (hfits : cs.map .char <+: gs) :
    cs.length ≤ (punctuation first gs).taken.length := by
  have hsorted : longPunctuation.Pairwise fun p q => q.length ≤ p.length := by decide
  have hcut : longCut first gs (first :: cs) ≠ none := by
    obtain ⟨behind, hgs⟩ := hfits
    have hreturn := (longPunctuation_tail hmem).2.1
    rw [longCut, if_pos rfl, (dropChars?_eq_some_iff hreturn).mpr hgs.symm]
    nofun
  rw [punctuation_eq]
  cases hlong : longPunctuation.findSome? (longCut first gs) with
  | none => exact absurd (List.findSome?_eq_none_iff.mp hlong _ hmem) hcut
  | some cut =>
      obtain ⟨before, p, behind, htable, hp, hbefore⟩ := List.findSome?_eq_some_iff.mp hlong
      rw [htable] at hmem hsorted
      have hlength : cs.length + 1 ≤ p.length := by
        rcases List.mem_append.mp hmem with hmem | hmem
        · exact absurd (hbefore _ hmem) hcut
        · rcases List.mem_cons.mp hmem with rfl | hmem
          · exact Nat.le_refl _
          · exact List.rel_of_pairwise_cons (List.pairwise_append.mp hsorted).2.1 hmem
      cases p with
      | nil => cases hp
      | cons c ds =>
          rw [longCut] at hp
          split at hp
          · obtain ⟨_, -, rfl⟩ := Option.map_eq_some_iff.mp hp
            simpa using hlength
          · cases hp

/-- Punctuation is read again where no longer one stands. -/
theorem punctuation_again {first : Char} {cs : List Char} {rest rest' : List Glyph}
    (hp : punctuation first (cs.map .char ++ rest) = ⟨cs.map .char, rest⟩)
    (hlonger : ∀ d ds tail', rest' = .char d :: tail' → ds.map .char <+: tail' →
      first :: (cs ++ d :: ds) ∉ longPunctuation) :
    punctuation first (cs.map .char ++ rest') = ⟨cs.map .char, rest'⟩ := by
  have hle : ∀ cs', first :: cs' ∈ longPunctuation → cs'.map .char <+: cs.map .char ++ rest' →
      cs'.length ≤ cs.length := by
    intro cs' hmem hfits
    by_contra hlt
    obtain ⟨more, heq⟩ : cs.map Glyph.char <+: cs'.map .char :=
      List.prefix_of_prefix_length_le (List.prefix_append ..) hfits (by simp; omega)
    obtain ⟨cs₁, cs₂, rfl, hcs₁, hcs₂⟩ := List.map_eq_append_iff.mp heq.symm
    have hsame : cs₁ = cs := List.map_injective_iff.mpr (fun _ _ => Glyph.char.inj) hcs₁
    subst hsame
    rw [List.map_append, List.prefix_append_right_inj] at hfits
    cases cs₂ with
    | nil => simp at hlt
    | cons d ds =>
        obtain ⟨behind, hrest'⟩ := hfits
        exact hlonger d ds _ hrest'.symm (List.prefix_append ..) hmem
  have hge : cs.length ≤ (punctuation first (cs.map .char ++ rest')).taken.length := by
    rcases punctuation_cases first (cs.map .char ++ rest) with hstop | ⟨cs', _, hmem, -, hlong⟩
    · rw [hp] at hstop
      have hnil : cs.map Glyph.char = [] := congrArg Cut.taken hstop
      rw [List.map_eq_nil_iff.mp hnil]
      exact Nat.zero_le _
    · rw [hp] at hlong
      have hsame : cs = cs' :=
        List.map_injective_iff.mpr (fun _ _ => Glyph.char.inj) (congrArg Cut.taken hlong)
      rw [← hsame] at hmem
      exact punctuation_longest hmem (List.prefix_append ..)
  rcases punctuation_cases first (cs.map .char ++ rest') with
    hstop | ⟨cs', tail, hmem, hdrop, hlong⟩
  · rw [hstop] at hge ⊢
    rw [List.length_eq_zero_iff.mp (Nat.le_zero.mp hge)]
    rfl
  · rw [hlong] at hge ⊢
    have heq := (dropChars?_eq_some_iff (longPunctuation_tail hmem).2.1).mp hdrop
    have hlength : (cs.map Glyph.char).length = (cs'.map Glyph.char).length := by
      simpa using Nat.le_antisymm (by simpa using hge) (hle cs' hmem (heq ▸ List.prefix_append ..))
    obtain ⟨hsame, htail⟩ := List.append_inj heq hlength
    rw [hsame, htail]

/-- Punctuation is read again in front of what mirrors what stood behind it. -/
theorem punctuation_mirror {first : Char} {cs : List Char} {rest rest' : List Glyph}
    (h : Mirrors 2 rest rest')
    (hp : punctuation first (cs.map .char ++ rest) = ⟨cs.map .char, rest⟩) :
    punctuation first (cs.map .char ++ rest') = ⟨cs.map .char, rest'⟩ := by
  -- an entry of three characters goes on with a dot, or its first two are an entry
  have htable : ∀ p ∈ longPunctuation, ∀ c d ds, p = c :: d :: ds → ds ≠ [] →
      looksPast d = true ∨ [c, d] ∈ longPunctuation := by
    have hdecide : ∀ p ∈ longPunctuation,
        p.drop 2 = [] ∨ p[1]?.any looksPast = true ∨ p.take 2 ∈ longPunctuation := by decide
    rintro p hp c d ds rfl hds
    simpa [hds] using hdecide _ hp
  have hread : ∀ cs', first :: cs' ∈ longPunctuation → cs'.map .char <+: cs.map .char ++ rest →
      cs'.length ≤ cs.length := by
    intro cs' hmem hfits
    simpa [hp] using punctuation_longest hmem hfits
  refine punctuation_again hp fun d ds tail' hrest' hds hmem => ?_
  subst hrest'
  obtain ⟨hlength, -, hgoes⟩ := longPunctuation_tail hmem
  obtain ⟨tail, rfl, htail⟩ := h (hgoes d (by simp))
  cases ds with
  | nil =>
      have hle := hread _ hmem (by simp)
      rw [List.length_append, List.length_singleton] at hle
      omega
  | cons m ms =>
      have hcs : cs = [] := List.length_eq_zero_iff.mp (by simp at hlength; omega)
      have hms : ms = [] := List.length_eq_zero_iff.mp (by simp at hlength; omega)
      subst hcs hms
      rcases htable _ hmem first d [m] rfl (List.cons_ne_nil _ _) with hpast | htwo
      · obtain ⟨behind', rfl⟩ := hds
        obtain ⟨behind, rfl, -⟩ := htail hpast (hgoes m (by simp))
        have hle := hread _ hmem ⟨behind, rfl⟩
        simp at hle
      · have hle := hread [d] htwo ⟨tail, rfl⟩
        simp at hle

/-! ## Characters that a token stops at -/

/-- Whether a word or punctuation `cs` is read alone in front of a character, whatever stands
behind that: no word, string or longer punctuation goes on with the character. -/
def stopsAt (kind : TokenKind) (cs : List Char) (c : Char) : Bool :=
  match kind, cs with
  | .word, _ => !isWordChar c && c != '\x22'
  | .punctuation, first :: _ =>
      !(['/', '@', '.'].contains first)
        && !longPunctuation.any fun p => (cs ++ [c]).isPrefixOf p
  | _, _ => false

/-! ## One token -/

theorem beq_false_of_class {p : Char → Bool} {c d : Char} (hc : p c = true) (hd : p d = false) :
    (c == d) = false := by
  rw [beq_eq_false_iff_ne]
  rintro rfl
  rw [hd] at hc
  cases hc

theorem not_isDigit_of_isWordStart {c : Char} (h : isWordStart c = true) : c.isDigit = false := by
  have hdigits : ∀ n ≤ 57, 48 ≤ n → isWordStart (Char.ofNat n) = false := by decide
  rw [← Bool.not_eq_true]
  intro hdigit
  obtain ⟨hlow, hhigh⟩ : 48 ≤ c.toNat ∧ c.toNat ≤ 57 := Char.isDigit_iff_toNat.mp hdigit
  have hnot := hdigits c.toNat hhigh hlow
  rw [Char.ofNat_toNat, h] at hnot
  cases hnot

variable {language : Language} {atLineStart : Bool} {first : Char} {gs : List Glyph}
  {kind : TokenKind} {cut : Cut}

/-- The ways of reading a token exclude each other. -/
theorem scan_of_reads (h : Reads language atLineStart first gs kind cut) :
    scan language atLineStart first gs = (kind, cut) := by
  have hword : isWordStart first = true → scan language atLineStart first gs
      = if startsWith (· == '\x22') (word gs).rest && language.hasRawStrings
            && rawIntroducers.contains (String.ofList (first :: Glyph.charsOf (word gs).taken)) then
          (.string, ((rawString (word gs).rest.tail).push (.char '\x22')).prepend (word gs).taken)
        else (.word, word gs) := by
    intro hstart
    have hne : ∀ d : Char, isWordStart d = false → (first == d) = false :=
      fun d => beq_false_of_class hstart
    simp only [scan, hne '#' rfl, hne '/' rfl, hne '\x22' rfl, hne '\x27' rfl, hne '@' rfl,
      hne '.' rfl, not_isDigit_of_isWordStart hstart, hstart, Bool.false_and, if_true,
      Bool.false_eq_true, if_false]
  cases h with
  | directive hstart hlang => simp [scan, hstart, hlang]
  | lineComment => simp [scan, startsWith]
  | blockComment => simp [scan, startsWith]
  | string => simp [scan]
  | character => simp [scan]
  | verbatim hlang => simp [scan, startsWith, hlang]
  | number hdigit =>
      have hne : ∀ d : Char, d.isDigit = false → (first == d) = false :=
        fun d => beq_false_of_class hdigit
      simp [scan, hne '#' rfl, hne '/' rfl, hne '\x22' rfl, hne '\x27' rfl, hne '@' rfl, hdigit]
  | fraction hdigit => simp [scan, hdigit]
  | rawString hstart hquote hlang hraw =>
      rw [hword hstart, hquote, hlang, hraw]
      rfl
  | word hstart hraw =>
      rw [hword hstart, hraw]
      rfl
  | punctuation h₁ h₂ h₃ h₄ h₅ h₆ h₇ h₈ h₉ =>
      simp only [scan, h₁, h₂, h₃, h₆, h₇, h₈, h₉, beq_false_of_ne h₄, beq_false_of_ne h₅,
        Bool.false_eq_true, if_false]

theorem mayGoOn_of_mem_number {hex : Bool} {previous : Char} {gs : List Glyph} :
    ∀ g ∈ (number hex previous gs).taken, ∃ c, g = .char c ∧ mayGoOn c = true := by
  fun_induction number hex previous gs with
  | case1 previous c rest hc ih =>
      intro g hg
      rcases List.mem_cons.mp hg with rfl | hg
      · exact ⟨c, rfl, mayGoOn_of_numberGoesOn hc⟩
      · exact ih g hg
  | case2 => simp [Cut.stop]
  | case3 => simp [Cut.stop]

theorem mayGoOn_of_mem_punctuation {first : Char} {gs : List Glyph} :
    ∀ g ∈ (punctuation first gs).taken, ∃ c, g = .char c ∧ mayGoOn c = true := by
  rcases punctuation_cases first gs with h | ⟨cs, rest, hmem, -, h⟩
  · simp [h, Cut.stop]
  · rw [h]
    intro g hg
    obtain ⟨c, hc, rfl⟩ := List.mem_map.mp hg
    exact ⟨c, rfl, (longPunctuation_tail hmem).2.2 c hc⟩

theorem isHex_mirror {hex : Bool} {rest : List Glyph}
    (h : Mirrors 2 (number hex first gs).rest rest) :
    isHex first ((number hex first gs).taken ++ rest) = isHex first gs := by
  have halnum : ∀ c : Char, (c == 'x' || c == 'X') = true → c.isAlphanum = true := by
    intro c hc
    rcases (Bool.or_eq_true _ _).mp hc with hc | hc
    · rw [eq_of_beq hc]
      rfl
    · rw [eq_of_beq hc]
      rfl
  have hgs := h.append .linux (number hex first gs).taken
  rw [map_withEnd_of_chars fun g hg => (mayGoOn_of_mem_number g hg).imp fun _ h => h.1,
    ← Cut.source, source_number] at hgs
  have hsees : startsWith (fun c => c == 'x' || c == 'X') ((number hex first gs).taken ++ rest)
      = startsWith (fun c => c == 'x' || c == 'X') gs := by
    rw [Bool.eq_iff_iff]
    exact ⟨hgs.startsWith fun c hc => mayGoOn_of_isAlphanum (halnum c hc),
      startsWith_number_taken halnum⟩
  rw [isHex, isHex, hsees]

/-- A raw string is read up to its first quote whatever stands behind that. -/
theorem reads_rawString (hstart : isWordStart first = true) (hlang : language.hasRawStrings = true)
    (hraw : rawIntroducers.contains (String.ofList (first :: Glyph.charsOf (word gs).taken)) = true)
    (atLineStart : Bool) (src : List Glyph) :
    Reads language atLineStart first ((word gs).taken ++ .char '\x22' :: src) .string
      (((rawString src).push (.char '\x22')).prepend (word gs).taken) := by
  have hword : word ((word gs).taken ++ .char '\x22' :: src)
      = ⟨(word gs).taken, .char '\x22' :: src⟩ := word_append isWordChar_of_mem_word rfl
  have hreads : Reads language atLineStart first ((word gs).taken ++ .char '\x22' :: src) .string
      (((rawString src).push (.char '\x22')).prepend
        (word ((word gs).taken ++ .char '\x22' :: src)).taken) :=
    .rawString hstart (by rw [hword]) hlang (by rwa [hword])
  rwa [hword] at hreads

/-- A closed literal ends in a quote, and is read again with another line ending whatever stands
behind it; only a verbatim string must not be followed by a quote. -/
theorem reads_literal (h : Reads language atLineStart first gs kind cut)
    (hplain : Plain .linux cut.taken) (hkind : kind = .string ∨ kind = .character)
    (hclosed : (scan language false first (cut.taken ++ letter)).2.rest = letter) :
    (EndsWith '\x22' cut.taken ∨ EndsWith '\x27' cut.taken) ∧
      ∀ e start rest, (first = '@' → startsWith (· == '\x22') rest = false) →
        Reads language start first (cut.taken.map (Glyph.withEnd e) ++ rest) kind
          ⟨cut.taken.map (Glyph.withEnd e), rest⟩ := by
  cases h with
  | string =>
      rw [scan_of_reads .string] at hclosed
      obtain ⟨hends, hread⟩ := quoted_closed (by decide) (by decide) hclosed
      refine ⟨.inl hends, fun e start rest _ => ?_⟩
      rw [← hread e rest]
      exact .string
  | character =>
      rw [scan_of_reads .character] at hclosed
      obtain ⟨hends, hread⟩ := quoted_closed (by decide) (by decide) hclosed
      refine ⟨.inr hends, fun e start rest _ => ?_⟩
      rw [← hread e rest]
      exact .character
  | @verbatim src hlang =>
      rw [show ((verbatim src).push (.char '\x22')).taken ++ letter
        = .char '\x22' :: ((verbatim src).taken ++ letter) from rfl,
        scan_of_reads (.verbatim hlang)] at hclosed
      obtain ⟨hends, hread⟩ := verbatim_closed hclosed
      refine ⟨.inl (hends.cons _), fun e start rest hquote => ?_⟩
      have hread := congrArg (Cut.push (.char '\x22')) (hread e rest (hquote rfl))
      rw [show Cut.mk (((verbatim src).push (.char '\x22')).taken.map (Glyph.withEnd e)) rest = _
        from hread.symm]
      exact .verbatim hlang
  | @rawString _ _ src hstart hquote hlang hraw =>
      have hchars : ∀ g ∈ (word gs).taken, ∃ c, g = .char c := fun g hg =>
        (isWordChar_of_mem_word g hg).imp fun _ h => h.1
      have hread := reads_rawString hstart hlang hraw
      simp only [Cut.prepend, Cut.push] at hclosed hplain ⊢
      rw [List.append_assoc, List.cons_append, scan_of_reads (hread _ _)] at hclosed
      obtain ⟨hends, hstring⟩ :=
        rawString_closed (plain_cons.mp (plain_append.mp hplain).2).2 hclosed
      refine ⟨.inl ((hends.cons _).append _), fun e start rest _ => ?_⟩
      have hreads := hread start ((rawString src).taken.map (Glyph.withEnd e) ++ rest)
      rw [hstring e rest] at hreads
      rw [List.map_append, map_withEnd_of_chars hchars, List.append_assoc]
      exact hreads
  | _ => simp at hkind

theorem reads_word {rest : List Glyph} (hstart : isWordStart first = true)
    (hraw : (startsWith (· == '\x22') (word gs).rest && language.hasRawStrings
      && rawIntroducers.contains (String.ofList (first :: Glyph.charsOf (word gs).taken))) = false)
    (hrest : startsWith isWordChar rest = false)
    (hquote : startsWith (· == '\x22') rest = true →
      startsWith (· == '\x22') (word gs).rest = true) :
    Reads language atLineStart first ((word gs).taken ++ rest) .word ⟨(word gs).taken, rest⟩ := by
  have hread : word ((word gs).taken ++ rest) = ⟨(word gs).taken, rest⟩ :=
    word_append isWordChar_of_mem_word hrest
  rw [← hread]
  refine .word hstart ?_
  rw [hread]
  rw [← Bool.not_eq_true] at hraw ⊢
  intro h
  apply hraw
  simp only [Bool.and_eq_true] at h ⊢
  exact ⟨⟨hquote h.1.1, h.1.2⟩, h.2⟩

theorem reads_number {rest : List Glyph} (hdigit : first.isDigit = true)
    (hmirrors : Mirrors 2 (number (isHex first gs) first gs).rest rest) :
    Reads language atLineStart first ((number (isHex first gs) first gs).taken ++ rest) .number
      ⟨(number (isHex first gs) first gs).taken, rest⟩ := by
  generalize htaken : (number (isHex first gs) first gs).taken = taken
  have hreads : Reads language atLineStart first (taken ++ rest) .number
      (number (isHex first (taken ++ rest)) first (taken ++ rest)) := .number hdigit
  rwa [← htaken, isHex_mirror hmirrors, number_mirror hmirrors, htaken] at hreads

theorem reads_fraction {rest : List Glyph} (hdigit : startsWith Char.isDigit gs = true)
    (hmirrors : Mirrors 2 (number false '.' gs).rest rest) :
    Reads language atLineStart '.' ((number false '.' gs).taken ++ rest) .number
      ⟨(number false '.' gs).taken, rest⟩ := by
  rw [← number_mirror hmirrors]
  exact .fraction (startsWith_number_taken (fun c hc => by simp [Char.isAlphanum, hc]) hdigit)

/-- Punctuation stays what it is: no comment, literal or number is seen to start there.  Only a
stray `#` might start a directive elsewhere. -/
theorem reads_punctuation {start : Bool} {rest : List Glyph}
    (h : Reads language atLineStart first gs .punctuation cut) (hhash : first ≠ '#')
    (hread : punctuation first (cut.taken ++ rest) = ⟨cut.taken, rest⟩)
    (hmirrors : first ∈ ['/', '@', '.'] → Mirrors 2 cut.rest rest) :
    Reads language start first (cut.taken ++ rest) .punctuation ⟨cut.taken, rest⟩ := by
  cases h with
  | punctuation h₁ h₂ h₃ h₄ h₅ h₆ h₇ h₈ h₉ =>
      have hsees : ∀ {d : Char} {p : Char → Bool}, d ∈ ['/', '@', '.'] →
          (∀ c, p c = true → mayGoOn c = true) → (first == d && startsWith p gs) = false →
          (first == d && startsWith p ((punctuation first gs).taken ++ rest)) = false := by
        intro d p hd hp h
        rw [← Bool.not_eq_true, Bool.and_eq_true] at h ⊢
        intro ⟨hfirst, hrest⟩
        have hgs := (hmirrors (eq_of_beq hfirst ▸ hd)).append .linux (punctuation first gs).taken
        rw [map_withEnd_of_chars fun g hg => (mayGoOn_of_mem_punctuation g hg).imp fun _ h => h.1,
          ← Cut.source, source_punctuation] at hgs
        exact h ⟨hfirst, hgs.startsWith hp hrest⟩
      rw [← hread]
      refine .punctuation ?_ (hsees (by simp) (fun _ => mayGoOn_of_beq (by decide)) h₂)
        (hsees (by simp) (fun _ => mayGoOn_of_beq (by decide)) h₃) h₄ h₅ ?_ h₇
        (hsees (by simp) (fun _ => mayGoOn_of_isDigit) h₈) h₉
      · rw [beq_false_of_ne hhash]
        rfl
      · rw [Bool.and_eq_false_iff] at h₆ ⊢
        exact h₆.imp_left (hsees (by simp) fun _ => mayGoOn_of_beq (by decide))

theorem exists_chars_punctuation (first : Char) (gs : List Glyph) :
    ∃ (cs : List Char) (rest : List Glyph),
      punctuation first gs = ⟨cs.map .char, rest⟩ ∧ gs = cs.map .char ++ rest := by
  have hsource := source_punctuation first gs
  rcases punctuation_cases first gs with hstop | ⟨cs, rest, -, -, hlong⟩
  · exact ⟨[], gs, hstop, rfl⟩
  · rw [hlong] at hsource
    exact ⟨cs, rest, hlong, hsource.symm⟩

theorem Reads.chars_of_stopsAt {c : Char} (h : Reads language atLineStart first gs kind cut)
    (hstops : stopsAt kind (first :: Glyph.charsOf cut.taken) c = true) :
    ∀ g ∈ cut.taken, ∃ c, g = .char c := by
  intro g hg
  cases h with
  | word => exact (isWordChar_of_mem_word g hg).imp fun _ h => h.1
  | punctuation => exact (mayGoOn_of_mem_punctuation g hg).imp fun _ h => h.1
  | _ => cases hstops

/-- A word or punctuation is read again in front of a character that it stops at. -/
theorem reads_stopped {start : Bool} {c : Char} {tail : List Glyph}
    (h : Reads language atLineStart first gs kind cut)
    (hhash : kind = .punctuation → first ≠ '#')
    (hstops : stopsAt kind (first :: Glyph.charsOf cut.taken) c = true) :
    Reads language start first (cut.taken ++ .char c :: tail) kind
      ⟨cut.taken, .char c :: tail⟩ := by
  cases h with
  | word hstart hraw =>
      simp only [stopsAt, Bool.and_eq_true, Bool.not_eq_true', bne_iff_ne] at hstops
      refine reads_word hstart hraw hstops.1 fun hquote => ?_
      exact absurd (eq_of_beq hquote) hstops.2
  | punctuation h₁ h₂ h₃ h₄ h₅ h₆ h₇ h₈ h₉ =>
      obtain ⟨cs, rest, hread, rfl⟩ := exists_chars_punctuation first gs
      have hcs : Glyph.charsOf (punctuation first (cs.map .char ++ rest)).taken = cs := by
        rw [hread]
        simp [Glyph.charsOf, List.flatMap_map, Glyph.chars]
      rw [hcs] at hstops
      simp only [stopsAt, Bool.and_eq_true, Bool.not_eq_true', List.any_eq_false] at hstops
      refine reads_punctuation (.punctuation h₁ h₂ h₃ h₄ h₅ h₆ h₇ h₈ h₉) (hhash rfl) ?_ ?_
      · rw [hread]
        refine punctuation_again hread fun d ds tail' heq _ hmem => ?_
        cases heq
        refine hstops.2 _ hmem (List.isPrefixOf_iff_prefix.mpr ⟨ds, ?_⟩)
        simp
      · intro hfirst
        have hcontains := hstops.1
        rw [List.contains_iff_mem.mpr hfirst] at hcontains
        cases hcontains
  | _ => cases hstops

/-- How a word, number, punctuation or closed literal is read again: with another line ending, in
front of what mirrors what stood behind it. -/
theorem reads_exact {rest : List Glyph} (h : Reads language atLineStart first gs kind cut)
    (hplain : Plain .linux cut.taken) (e : LineEnd) (atLineStart' : Bool)
    (hkind : kind ≠ .lineComment ∧ kind ≠ .blockComment ∧ kind ≠ .directive)
    (hclosed : kind = .string ∨ kind = .character →
      (scan language false first (cut.taken ++ letter)).2.rest = letter)
    (hhash : kind = .punctuation → first ≠ '#')
    (hmirrors : Mirrors 2 cut.rest rest) :
    Reads language atLineStart' first (cut.taken.map (Glyph.withEnd e) ++ rest) kind
      ⟨cut.taken.map (Glyph.withEnd e), rest⟩ := by
  cases h with
  | directive => exact absurd rfl hkind.2.2
  | lineComment => exact absurd rfl hkind.1
  | blockComment => exact absurd rfl hkind.2.1
  | word hstart hraw =>
      rw [map_withEnd_of_chars fun g hg => (isWordChar_of_mem_word g hg).imp fun _ h => h.1]
      exact reads_word hstart hraw
        (hmirrors.not_startsWith (fun _ => mayGoOn_of_isWordChar) (startsWith_word_rest gs))
        (hmirrors.startsWith fun _ => mayGoOn_of_beq (by decide))
  | number hdigit =>
      rw [map_withEnd_of_chars fun g hg => (mayGoOn_of_mem_number g hg).imp fun _ h => h.1]
      exact reads_number hdigit hmirrors
  | fraction hdigit =>
      rw [map_withEnd_of_chars fun g hg => (mayGoOn_of_mem_number g hg).imp fun _ h => h.1]
      exact reads_fraction hdigit hmirrors
  | string =>
      have hreads : Reads language atLineStart '\x22' gs .string _ := .string
      exact (reads_literal hreads hplain (.inl rfl) (hclosed (.inl rfl))).2 _ _ _ nofun
  | character =>
      have hreads : Reads language atLineStart '\x27' gs .character _ := .character
      exact (reads_literal hreads hplain (.inr rfl) (hclosed (.inr rfl))).2 _ _ _ nofun
  | @verbatim src hlang =>
      have hreads : Reads language atLineStart '@' (.char '\x22' :: src) .string _ :=
        .verbatim hlang
      refine (reads_literal hreads hplain (.inl rfl) (hclosed (.inl rfl))).2 _ _ _ fun _ => ?_
      exact hmirrors.not_startsWith (fun _ => mayGoOn_of_beq (by decide))
        (startsWith_verbatim_rest src)
  | @rawString _ _ src hstart hquote hlang hraw =>
      have hreads : Reads language atLineStart first gs .string _ :=
        .rawString hstart hquote hlang hraw
      refine (reads_literal hreads hplain (.inl rfl) (hclosed (.inl rfl))).2 _ _ _ ?_
      rintro rfl
      cases hstart
  | punctuation h₁ h₂ h₃ h₄ h₅ h₆ h₇ h₈ h₉ =>
      rw [map_withEnd_of_chars fun g hg => (mayGoOn_of_mem_punctuation g hg).imp fun _ h => h.1]
      obtain ⟨cs, behind, hread, rfl⟩ := exists_chars_punctuation first gs
      refine reads_punctuation (.punctuation h₁ h₂ h₃ h₄ h₅ h₆ h₇ h₈ h₉) (hhash rfl) ?_
        fun _ => hmirrors
      rw [hread] at hmirrors ⊢
      exact punctuation_mirror hmirrors hread

end Beautifier.Scanner
