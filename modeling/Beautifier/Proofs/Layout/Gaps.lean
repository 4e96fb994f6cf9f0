/-
What the layout writes between two tokens of a line.

The spacing depends on the token before, which the state remembers by its
position.  It is nothing only where nothing stood in the source, next to a
bracket, comma or semicolon, or in an aligned declarator (`tight_of_joinsLine`):
there the two tokens are read apart all the same, unless the first is a `*` or
`&` that goes on with the second.
-/
import Beautifier.Proofs.Layout.Pointer
import Beautifier.Proofs.Text.Tabs

namespace Beautifier

/-! ## Empty gaps -/

theorem gap_eq_empty {o : Options} (hwidth : 0 < o.indentWidth) {page : Page} {t : Token}
    {spacing : Spacing} (h : (page.gap o t spacing).toList = []) :
    spacing = .none ∨ spacing = .asWritten ∧ t.space = "" := by
  have hsource : (page.sourceGap o t).toList = [] → t.space = "" := by
    intro h
    rw [Page.sourceGap] at h
    split at h
    · rw [String.toList_ofList] at h
      rw [← String.toList_eq_nil_iff]
      by_contra hne
      exact expandTabs_ne_nil hwidth _ hne h
    · exact String.toList_eq_nil_iff.mp h
  cases spacing with
  | none => exact .inl rfl
  | one => simp [Page.gap] at h
  | asWritten => exact .inr ⟨rfl, hsource h⟩
  | atLeastOne =>
      rw [Page.gap] at h
      split at h
      · simp at h
      · next hspace =>
        rw [hsource h] at hspace
        simp at hspace

theorem Page.noTab_gap {o : Options} (htabs : o.convertTabs = true) (p : Page) (t : Token)
    (spacing : Spacing) : '\t' ∉ (p.gap o t spacing).toList := by
  have hsource : '\t' ∉ (p.sourceGap o t).toList := by
    rw [Page.sourceGap, if_pos htabs, String.toList_ofList]
    exact Column.noTab_expandTabs _ _ _
  cases spacing with
  | asWritten => exact hsource
  | none => exact List.not_mem_nil
  | one =>
      show '\t' ∉ " ".toList
      decide
  | atLeastOne =>
      rw [Page.gap]
      split
      · decide
      · exact hsource

theorem startsSolo_of_isOneOf {t : Token} {texts : List String} (h : t.isOneOf texts = true)
    (htexts : ∀ s ∈ texts, s.toList.head?.any isSolo = true) : t.startsSolo = true := by
  rw [Token.isOneOf, Bool.and_eq_true, List.contains_iff_mem] at h
  exact htexts t.text h.2

theorem startsSolo_of_is {t : Token} {text : String} (h : t.is text = true)
    (htext : text.toList.head?.any isSolo = true) : t.startsSolo = true := by
  rw [Token.is, Bool.and_eq_true] at h
  rwa [Token.startsSolo, eq_of_beq h.2]

/-- The spacing that no option forces leaves out a gap only where nothing stood in the source, or
before what closes something behind a closing brace. -/
theorem tight_of_unforced {t : Token}
    (hplace : t.kind = .word ∨ t.isOneOf [";", ",", ")", "]"] = true ∨ t.lineBreaks = 0)
    (h : Spacing.unforced t = .none ∨ Spacing.unforced t = .asWritten ∧ t.space = "") :
    (t.lineBreaks = 0 ∧ t.space = "") ∨ t.startsSolo = true := by
  rw [Spacing.unforced] at h
  split at h
  · next hzero => exact .inl ⟨hzero, (h.resolve_left nofun).2⟩
  next hbreaks =>
  rcases hplace with hword | hcloses | hzero
  · -- a word sticks to nothing
    have htight : Spacing.isTight t = false := by
      simp [Spacing.isTight, Token.isOneOf, hword]
    rw [htight] at h
    rcases h with h | ⟨h, -⟩ <;> cases h
  · exact .inr (startsSolo_of_isOneOf hcloses (by decide))
  · exact absurd hzero hbreaks

theorem stopsBefore_of_is_paren {p t : Token} (hp : p.is "(" = true) {c : Char}
    (ht : t.text.toList.head? = some c) : p.stopsBefore t = true := by
  rw [Token.is, Bool.and_eq_true, beq_iff_eq, beq_iff_eq] at hp
  simp only [Token.stopsBefore, ht, Option.any_some, Token.stopsAt, hp.1, hp.2]
  rfl

/-- Ordinary spacing leaves out a gap there, or where parentheses are not padded. -/
theorem tight_of_ordinary {o : Options} {s : State} {role : Role} {p t : Token}
    (hplace : t.kind = .word ∨ t.isOneOf [";", ",", ")", "]"] = true ∨ t.lineBreaks = 0)
    {first : Char} (hfirst : t.text.toList.head? = some first)
    (hgap : Spacing.ordinary o s role p t = .none ∨
      Spacing.ordinary o s role p t = .asWritten ∧ t.space = "") :
    (t.lineBreaks = 0 ∧ t.space = "") ∨ t.startsSolo = true ∨ p.stopsBefore t = true := by
  simp only [Spacing.ordinary] at hgap
  split at hgap
  · -- padding is never nothing
    generalize (if (o.unpadParen && _) = true then Spacing.none else _) = base at hgap
    cases base <;> simp [Spacing.padded] at hgap
  split at hgap
  · next hunpads =>
    simp only [Spacing.unpads, Bool.and_eq_true, Bool.or_eq_true] at hunpads
    rcases hunpads.2 with (⟨hopen, -⟩ | hparen) | hclose
    · exact .inr (.inl (startsSolo_of_is hopen rfl))
    · exact .inr (.inr (stopsBefore_of_is_paren hparen hfirst))
    · exact .inr (.inl (startsSolo_of_is hclose rfl))
  · exact or_assoc.mp (.inl (tight_of_unforced hplace hgap))

/-- A token that goes on with the line sticks to the token before it only where nothing stood in
the source, in front of a bracket or the like, behind a token that is read alone, or behind a `*`
or `&` that goes on with it. -/
theorem tight_of_joinsLine {o : Options} {s : State} {page : Page} {c : Cursor}
    {spacing : Spacing} {p : Token} (hbefore : c.before.head? = some p)
    (hprev : s.lastOnLine.bind c.tokenAt? = some p)
    (hpointer : s.pointerAfter ≠ none →
      p.isTrivia = true ∨ p.isOneOf ["*", "&", "&&", "\x7d"] = true)
    {first : Char} (hfirst : c.token.text.toList.head? = some first)
    (h : JoinsLine o s page c spacing)
    (hgap : spacing = .none ∨ spacing = .asWritten ∧ c.token.space = "") :
    (c.token.lineBreaks = 0 ∧ c.token.space = "") ∨ c.token.startsSolo = true ∨
      p.stopsBefore c.token = true ∨
        p.fuses c.token = true ∧ (o.alignPointer ≠ none ∨ s.pointerAfter ≠ none) := by
  cases h with
  | comment _ hzero => exact .inl ⟨hzero, (hgap.resolve_left nofun).2⟩
  | openBrace hopen => exact .inr (.inl (startsSolo_of_is hopen rfl))
  | closeBrace hclose => exact .inr (.inl (startsSolo_of_is hclose rfl))
  | @code state _ _ hplace hlast hpointer' =>
      have hplace : c.token.kind = .word ∨ c.token.isOneOf [";", ",", ")", "]"] = true ∨
          c.token.lineBreaks = 0 := by
        rcases hplace with ⟨-, hjoins⟩ | hzero
        · exact or_assoc.mp (.inl hjoins)
        · exact .inr (.inr hzero)
      rw [Cursor.spacing, hlast, hprev] at hgap
      simp only [Spacing.behind] at hgap
      split at hgap
      · exact or_assoc.mp (.inl (tight_of_unforced hplace hgap))
      next htrivia =>
      by_cases haligned : Spacing.aligned? o state (c.role state o.language.hasPointers) c.token
          = none
      · rw [haligned, Option.getD_none] at hgap
        exact (tight_of_ordinary hplace hfirst hgap).imp_right (Or.imp_right .inl)
      · rw [← hpointer'] at hpointer ⊢
        refine .inr (.inr ((stopsBefore_or_fuses_of_aligned haligned hbefore
          (Bool.eq_false_iff.mpr htrivia) hpointer hfirst).imp_right fun hfuses => ?_))
        exact ⟨hfuses, of_aligned haligned⟩

/-- The layout writes the token behind position `n` directly behind a `*` or `&` that goes on with
it. -/
def FusesAt (o : Options) (tokens : List Token) (n : Nat) : Prop :=
  ∃ p t spacing, tokens[n]? = some p ∧ tokens[n + 1]? = some t ∧ p.fuses t = true ∧
    ((cursorAt tokens (n + 1) t).plan o (stage o tokens (n + 1)).state
      (stage o tokens (n + 1)).conditionals (stage o tokens (n + 1)).page).layout
      = .sameLine spacing ∧
    (stage o tokens (n + 1)).page.gap o t spacing = ""

end Beautifier
