/-
A source is gaps and tokens in turn.

`Partition` relates a source to its tokens without a position: every glyph
lies in a gap or in a token, each token is read where the one before ends,
and its white space is read off the gap in front of it.  The tokens that
`readTokens` finds partition the source (`partition_readTokens`).
-/
import Mathlib.Data.List.Chain
import Beautifier.Token.Stream
import Beautifier.Proofs.Token.Account
import Beautifier.Proofs.Text.Ink

namespace Beautifier

def Glyph.isGap : Glyph → Bool
  | .char c => isGapChar c
  | .lineBreak _ => true

/-- Whether nothing stands between the start of a list of glyphs and the end of the line. -/
def atLineEnd : List Glyph → Bool
  | .char _ :: _ => false
  | _ => true

/-- Whether a token runs up to the end of its line. -/
def Token.endsLine (t : Token) : Bool := t.kind == .lineComment || t.kind == .directive

/-- A source cut into gaps and tokens, with the number of line breaks behind the last token. -/
inductive Partition (language : Language) : List Glyph → List Token → Nat → Prop
  | done {gap : List Glyph} : (∀ g ∈ gap, g.isGap = true) →
      Partition language gap [] (gapBreaks gap)
  | token {gap rest : List Glyph} {first : Char} {atLineStart : Bool} {cut : Cut} {t : Token}
      {ts : List Token} {trailing : Nat} :
      (∀ g ∈ gap, g.isGap = true) → isGapChar first = false →
      Scanner.Reads language atLineStart first rest t.kind cut →
      t.text = Glyph.textOf (.char first :: cut.taken) →
      t.lineBreaks = gapBreaks gap → t.space = String.ofList (gapSpace gap) →
      t.inserted = false →
      Partition language cut.rest ts trailing →
      Partition language (gap ++ .char first :: rest) (t :: ts) trailing

/-! ## Gaps -/

theorem isGap_of_mem_splitGap {source : List Glyph} :
    ∀ g ∈ (splitGap source).1, g.isGap = true := by
  fun_induction splitGap source with
  | case1 => simp
  | case2 e rest gap next hsplit ih =>
      intro g hg
      rw [hsplit] at ih
      rcases List.mem_cons.mp hg with rfl | hg
      · rfl
      · exact ih g hg
  | case3 c rest hc gap next hsplit ih =>
      intro g hg
      rw [hsplit] at ih
      rcases List.mem_cons.mp hg with rfl | hg
      · exact hc
      · exact ih g hg
  | case4 => simp

theorem splitGap_none {source : List Glyph} (h : (splitGap source).2 = none) :
    (splitGap source).1 = source := by
  fun_induction splitGap source with
  | case1 => rfl
  | case2 e rest gap next hsplit ih =>
      rw [hsplit] at ih
      exact congrArg _ (ih h)
  | case3 c rest hc gap next hsplit ih =>
      rw [hsplit] at ih
      exact congrArg _ (ih h)
  | case4 => cases h

theorem splitGap_some {source rest : List Glyph} {first : Char}
    (h : (splitGap source).2 = some (first, rest)) :
    (splitGap source).1 ++ .char first :: rest = source ∧ isGapChar first = false := by
  fun_induction splitGap source with
  | case1 => cases h
  | case2 e tail gap next hsplit ih =>
      rw [hsplit] at ih
      obtain ⟨heq, hfirst⟩ := ih h
      exact ⟨congrArg _ heq, hfirst⟩
  | case3 c tail hc gap next hsplit ih =>
      rw [hsplit] at ih
      obtain ⟨heq, hfirst⟩ := ih h
      exact ⟨congrArg _ heq, hfirst⟩
  | case4 c tail hc =>
      cases h
      exact ⟨rfl, Bool.eq_false_iff.mpr hc⟩

/-- A gap in front of a character that is no gap character is found whole. -/
theorem splitGap_append {gap rest : List Glyph} {first : Char}
    (hgap : ∀ g ∈ gap, g.isGap = true) (hfirst : isGapChar first = false) :
    splitGap (gap ++ .char first :: rest) = (gap, some (first, rest)) := by
  induction gap with
  | nil => simp [splitGap, hfirst]
  | cons g gap ih =>
      have htail := ih fun x hx => hgap x (List.mem_cons_of_mem _ hx)
      cases g with
      | lineBreak e => simp [splitGap, htail]
      | char c =>
          have hc : isGapChar c = true := hgap (.char c) List.mem_cons_self
          simp [splitGap, hc, htail]

theorem splitGap_of_isGap {gap : List Glyph} (hgap : ∀ g ∈ gap, g.isGap = true) :
    splitGap gap = (gap, none) := by
  induction gap with
  | nil => rfl
  | cons g gap ih =>
      have htail := ih fun x hx => hgap x (List.mem_cons_of_mem _ hx)
      cases g with
      | lineBreak e => simp [splitGap, htail]
      | char c =>
          have hc : isGapChar c = true := hgap (.char c) List.mem_cons_self
          simp [splitGap, hc, htail]

/-! ## Tokens -/

/-- The tokens of a source partition it, from whatever position it is read. -/
theorem partition_readTokens (language : Language) (tabWidth : Nat) (position : Position)
    (source : List Glyph) :
    Partition language source (readTokens language tabWidth position source).tokens
      (readTokens language tabWidth position source).trailingBreaks := by
  fun_induction readTokens language tabWidth position source with
  | case1 position source gap start hsplit =>
      have hdone : Partition language gap [] (gapBreaks gap) := .done isGap_of_mem_splitGap
      have heq : gap = source := splitGap_none hsplit
      rw [heq] at hdone ⊢
      exact hdone
  | case2 position source gap start first rest hsplit scanned taken token behind others ih =>
      obtain ⟨heq, hfirst⟩ := splitGap_some hsplit
      have htoken : Partition language (gap ++ .char first :: rest) (token :: others.tokens)
          others.trailingBreaks :=
        .token isGap_of_mem_splitGap hfirst (Scanner.reads_scan ..) rfl rfl rfl rfl ih
      rwa [heq] at htoken

theorem partition_tokenize (language : Language) (tabWidth : Nat) (source : String) :
    Partition language (glyphs source.toList) (tokenize language tabWidth source).tokens
      (tokenize language tabWidth source).trailingBreaks :=
  partition_readTokens ..

namespace Partition

variable {language : Language} {source : List Glyph} {ts : List Token} {trailing : Nat}

theorem not_inserted (h : Partition language source ts trailing) :
    ∀ t ∈ ts, t.inserted = false := by
  induction h with
  | done => simp
  | token _ _ _ _ _ _ hins _ ih =>
      intro t ht
      rcases List.mem_cons.mp ht with rfl | ht
      · exact hins
      · exact ih t ht

/-! ## Tokens that run up to the end of the line -/

theorem atLineEnd_lineComment (gs : List Glyph) :
    atLineEnd (Scanner.lineComment gs).rest = true := by
  fun_induction Scanner.lineComment gs with
  | case1 c rest ih => exact ih
  | case2 gs h =>
      cases gs with
      | nil => rfl
      | cons g rest =>
          cases g with
          | char c => exact absurd rfl (h c rest)
          | lineBreak e => rfl

theorem atLineEnd_directive (part : Scanner.DirectivePart) (continued : Bool) (gs : List Glyph) :
    atLineEnd (Scanner.directive part continued gs).rest = true := by
  fun_induction Scanner.directive part continued gs with
  | case6 => rfl
  | _ => first | rfl | assumption

theorem atLineEnd_of_endsLine {atLineStart : Bool} {first : Char} {rest : List Glyph} {t : Token}
    {cut : Cut} (h : Scanner.Reads language atLineStart first rest t.kind cut)
    (ht : t.endsLine = true) : atLineEnd cut.rest = true := by
  obtain ⟨kind, text, lineBreaks, space, column, inserted⟩ := t
  cases h with
  | directive => exact atLineEnd_directive ..
  | lineComment => exact atLineEnd_lineComment _
  | _ => cases ht

/-- The token behind one that runs up to the end of its line starts a line. -/
theorem isChain_lineBreaks (h : Partition language source ts trailing) :
    ts.IsChain fun t u => t.endsLine = true → 0 < u.lineBreaks := by
  induction h with
  | done => exact .nil
  | @token _ _ _ _ cut _ _ _ _ _ hreads _ _ _ _ hothers ih =>
      refine List.isChain_cons.mpr ⟨fun u hu hends => ?_, ih⟩
      have hend := atLineEnd_of_endsLine hreads hends
      generalize cut.rest = behind at hothers hend
      cases hothers with
      | done => cases hu
      | @token gap _ _ _ _ _ _ _ _ _ _ _ hbreaks _ _ _ =>
          cases hu
          rw [hbreaks]
          cases gap with
          | nil => cases hend
          | cons g gap =>
              cases g with
              | char c => cases hend
              | lineBreak e => exact Nat.succ_pos _

/-! ## The ink of a source -/

theorem mem_linesOf {gs : List Glyph} {l : List Char}
    (hl : l = (linesOf gs).1 ∨ l ∈ (linesOf gs).2) : ∀ c ∈ l, Glyph.char c ∈ gs := by
  induction gs generalizing l with
  | nil => simp_all [linesOf]
  | cons g rest ih =>
      intro c hc
      cases g with
      | lineBreak e =>
          simp only [linesOf, List.mem_cons] at hl
          rcases hl with rfl | rfl | hl
          · exact absurd hc List.not_mem_nil
          · exact List.mem_cons_of_mem _ (ih (.inl rfl) c hc)
          · exact List.mem_cons_of_mem _ (ih (.inr hl) c hc)
      | char d =>
          simp only [linesOf] at hl
          rcases hl with rfl | hl
          · rcases List.mem_cons.mp hc with rfl | hc
            · exact List.mem_cons_self
            · exact List.mem_cons_of_mem _ (ih (.inl rfl) c hc)
          · exact List.mem_cons_of_mem _ (ih (.inr hl) c hc)

theorem isGapChar_of_mem_gapSpace {gap : List Glyph} (hgap : ∀ g ∈ gap, g.isGap = true) :
    ∀ c ∈ gapSpace gap, isGapChar c = true := by
  intro c hc
  have hline : gapSpace gap = (linesOf gap).1 ∨ gapSpace gap ∈ (linesOf gap).2 := by
    rw [gapSpace, List.getLastD_eq_getLast?]
    cases hlast : (linesOf gap).2.getLast? with
    | none => exact .inl rfl
    | some l => exact .inr (List.mem_of_getLast? hlast)
  exact hgap _ (mem_linesOf hline c hc)

theorem isGapChar_of_mem_space (h : Partition language source ts trailing) :
    ∀ t ∈ ts, ∀ c ∈ t.space.toList, isGapChar c = true := by
  induction h with
  | done => simp
  | token hgap _ _ _ _ hspace _ _ ih =>
      intro t ht
      rcases List.mem_cons.mp ht with rfl | ht
      · rw [hspace, String.toList_ofList]
        exact isGapChar_of_mem_gapSpace hgap
      · exact ih t ht

theorem ink_gap {gap : List Glyph} (hgap : ∀ g ∈ gap, g.isGap = true) :
    ink (Glyph.charsOf gap) = [] := by
  apply ink_eq_nil
  intro c hc
  obtain ⟨g, hg, hc⟩ := List.mem_flatMap.mp hc
  have hgap := hgap g hg
  cases g with
  | char d =>
      rw [List.mem_singleton.mp hc]
      exact isSpace_of_isGapChar hgap
  | lineBreak e => exact isSpace_of_mem_lineEnd hc

/-- The ink of a source is the ink of its tokens, one after another. -/
theorem ink_eq (h : Partition language source ts trailing) :
    ink (Glyph.charsOf source) = ts.flatMap fun t => ink t.text.toList := by
  induction h with
  | done hgap => exact ink_gap hgap
  | @token gap rest first _ cut t ts _ hgap _ hreads htext _ _ _ _ ih =>
      have hcut := hreads.chars_eq
      rw [Cut.source, Glyph.charsOf_append] at hcut
      rw [Glyph.charsOf_append, ink_append, ink_gap hgap, Glyph.charsOf_cons, ← hcut,
        List.flatMap_cons, ← ih, htext, Glyph.textOf, String.toList_ofList, Glyph.charsOf_cons]
      simp

end Partition

end Beautifier
