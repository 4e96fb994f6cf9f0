/-
Lines with other blanks.

`Trimmed` and `Reblanked` relate a line to what becomes of it when blanks at
its end are cut off, and those at its start are changed.
-/
import Mathlib.Data.List.Forall2
import Mathlib.Data.List.TakeWhile
import Beautifier.Text.Blank
import Beautifier.Proofs.Text.Lines

namespace Beautifier

/-- The second line is the first one without some of the blanks at its end. -/
def Trimmed (l l' : List Char) : Prop :=
  ∃ blanks, (∀ c ∈ blanks, isBlank c = true) ∧ l = l' ++ blanks

/-- The second line is the first one without some of the blanks at its end, and with other
blanks at its start where `lead` allows it. -/
def Reblanked (lead : Bool) (l l' : List Char) : Prop :=
  ∃ blanks blanks' content content', (∀ c ∈ blanks, isBlank c = true) ∧
    (∀ c ∈ blanks', isBlank c = true) ∧ (lead = false → blanks = [] ∧ blanks' = []) ∧
    Trimmed content content' ∧ l = blanks ++ content ∧ l' = blanks' ++ content'

theorem Trimmed.refl (l : List Char) : Trimmed l l := ⟨[], by simp, by simp⟩

theorem Trimmed.trans {l l' l'' : List Char} (h : Trimmed l l') (h' : Trimmed l' l'') :
    Trimmed l l'' := by
  obtain ⟨blanks, hblanks, rfl⟩ := h
  obtain ⟨blanks', hblanks', rfl⟩ := h'
  refine ⟨blanks' ++ blanks, fun c hc => ?_, List.append_assoc ..⟩
  rcases List.mem_append.mp hc with hc | hc
  · exact hblanks' c hc
  · exact hblanks c hc

theorem Trimmed.subset {l l' : List Char} (h : Trimmed l l') : l' ⊆ l := by
  obtain ⟨blanks, -, rfl⟩ := h
  exact List.subset_append_left ..

theorem Trimmed.reblanked {l l' : List Char} (h : Trimmed l l') (lead : Bool) :
    Reblanked lead l l' :=
  ⟨[], [], l, l', by simp, by simp, fun _ => ⟨rfl, rfl⟩, h, rfl, rfl⟩

theorem Reblanked.mem {lead : Bool} {l l' : List Char} (h : Reblanked lead l l') {c : Char}
    (hc : c ∈ l') : c ∈ l ∨ isBlank c = true := by
  obtain ⟨blanks, blanks', content, content', -, hblanks', -, htrimmed, rfl, rfl⟩ := h
  rcases List.mem_append.mp hc with hc | hc
  · exact .inr (hblanks' c hc)
  · exact .inl (List.mem_append_right _ (htrimmed.subset hc))

theorem Reblanked.trimmed_of_false {l l' : List Char} (h : Reblanked false l l') :
    Trimmed l l' := by
  obtain ⟨blanks, blanks', content, content', -, -, hlead, htrimmed, rfl, rfl⟩ := h
  obtain ⟨rfl, rfl⟩ := hlead rfl
  exact htrimmed

theorem Reblanked.trimmed {lead : Bool} {l l' l'' : List Char} (h : Reblanked lead l l')
    (h' : Trimmed l' l'') : Reblanked lead l l'' := by
  obtain ⟨blanks, blanks', content, content', hblanks, hblanks', hlead, htrimmed, rfl, rfl⟩ := h
  obtain ⟨cut, hcut, heq⟩ := h'
  rcases List.append_eq_append_iff.mp heq with ⟨content'', rfl, rfl⟩ | ⟨more, rfl, rfl⟩
  · exact ⟨blanks, blanks', content, content'', hblanks, hblanks', hlead,
      htrimmed.trans ⟨cut, hcut, rfl⟩, rfl, rfl⟩
  · -- the cut reaches into the blanks at the start
    refine ⟨blanks, l'', content, [], hblanks, fun c hc => hblanks' c (List.mem_append_left _ hc),
      fun hfalse => ?_, htrimmed.trans ⟨content', fun c hc => hcut c (List.mem_append_right _ hc),
      rfl⟩, rfl, (List.append_nil _).symm⟩
    obtain ⟨hnil, hnil'⟩ := hlead hfalse
    exact ⟨hnil, (List.append_eq_nil_iff.mp hnil').1⟩

theorem trimRight_append {p : Char → Bool} {blanks : List Char} (h : ∀ c ∈ blanks, p c = true)
    (l : List Char) : trimRight p (l ++ blanks) = trimRight p l := by
  rw [trimRight, List.reverse_append, List.dropWhile_append_of_pos]
  · rfl
  · exact fun c hc => h c (List.mem_reverse.mp hc)

theorem trimRight_append_cons {p : Char → Bool} {c : Char} (hc : p c = false)
    (text more : List Char) :
    trimRight p (text ++ c :: more) = text ++ trimRight p (c :: more) := by
  have hkeeps : ((c :: more).reverse.dropWhile p).isEmpty = false := by
    rw [List.isEmpty_eq_false_iff, Ne, List.dropWhile_eq_nil_iff]
    intro h
    rw [h c (by simp)] at hc
    cases hc
  rw [trimRight, List.reverse_append, List.dropWhile_append, hkeeps, if_neg Bool.false_ne_true,
    List.reverse_append, List.reverse_reverse]
  rfl

theorem trimRight_concat {p : Char → Bool} {c : Char} (hc : p c = false) (text : List Char) :
    trimRight p (text ++ [c]) = text ++ [c] := by
  rw [trimRight_append_cons hc, trimRight]
  simp [hc]

theorem Trimmed.trimRight_eq {l l' : List Char} (h : Trimmed l l') :
    trimRight isBlank l = trimRight isBlank l' := by
  obtain ⟨blanks, hblanks, rfl⟩ := h
  exact trimRight_append hblanks l'

theorem Reblanked.trim_eq {lead : Bool} {l l' : List Char} (h : Reblanked lead l l') :
    trimRight isBlank (l.dropWhile isBlank) = trimRight isBlank (l'.dropWhile isBlank) := by
  obtain ⟨blanks, blanks', content, content', hblanks, hblanks', -, ⟨cut, hcut, rfl⟩, rfl, rfl⟩ := h
  rw [List.dropWhile_append_of_pos hblanks, List.dropWhile_append_of_pos hblanks',
    List.dropWhile_append]
  split
  · next hnil =>
    have hdrop : cut.dropWhile isBlank = [] := List.dropWhile_eq_nil_iff.mpr hcut
    rw [hdrop, List.isEmpty_iff.mp hnil]
  · exact trimRight_append hcut _

theorem forall₂_trimmed {lead : Bool} {ls ls' ls'' : List (List Char)}
    (h : List.Forall₂ (Reblanked lead) ls ls') (h' : List.Forall₂ Trimmed ls' ls'') :
    List.Forall₂ (Reblanked lead) ls ls'' := by
  induction h generalizing ls'' with
  | nil =>
      cases h'
      exact .nil
  | cons hl _ ih =>
      cases h' with
      | cons hl' hrest => exact .cons (hl.trimmed hl') (ih hrest)

theorem trimmed_linesOf_append {blanks : List Char} (h : ∀ c ∈ blanks, isBlank c = true)
    (gs : List Glyph) :
    Trimmed (linesOf (gs ++ blanks.map .char)).1 (linesOf gs).1 ∧
      List.Forall₂ Trimmed (linesOf (gs ++ blanks.map .char)).2 (linesOf gs).2 := by
  induction gs with
  | nil =>
      have hlines := linesOf_chars blanks []
      rw [List.append_nil] at hlines
      rw [List.nil_append, hlines]
      exact ⟨⟨blanks, h, by simp [linesOf]⟩, .nil⟩
  | cons g gs ih =>
      obtain ⟨⟨cut, hcut, hfirst⟩, hothers⟩ := ih
      cases g with
      | char c => exact ⟨⟨cut, hcut, congrArg _ hfirst⟩, hothers⟩
      | lineBreak e => exact ⟨.refl [], .cons ⟨cut, hcut, hfirst⟩ hothers⟩

end Beautifier
