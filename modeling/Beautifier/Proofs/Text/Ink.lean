/-
Ink: what is left of a text when its white space is deleted.

Formatting may move white space about and nothing else, so its laws are
stated on the ink.  Trimming, cutting into lines and indenting all keep it.
-/
import Mathlib.Data.List.TakeWhile
import Beautifier.Layout.Page

namespace Beautifier

/-- White space between tokens: the gap characters and those of the line endings. -/
def isSpace (c : Char) : Bool := isGapChar c || c == '\r' || c == '\n'

/-- The characters of a text that are not white space, in order. -/
def ink (text : List Char) : List Char := text.filter (!isSpace ·)

@[simp] theorem ink_nil : ink [] = [] := rfl

@[simp] theorem ink_append (s t : List Char) : ink (s ++ t) = ink s ++ ink t :=
  List.filter_append ..

theorem ink_eq_nil {text : List Char} (h : ∀ c ∈ text, isSpace c = true) : ink text = [] := by
  rw [ink, List.filter_eq_nil_iff]
  intro c hc
  simp [h c hc]

theorem isSpace_of_isBlank {c : Char} (h : isBlank c = true) : isSpace c = true := by
  simp [isSpace, isGapChar, h]

theorem isSpace_of_isGapChar {c : Char} (h : isGapChar c = true) : isSpace c = true := by
  simp [isSpace, h]

/-! ## Trimming -/

theorem exists_trimRight_append (p : Char → Bool) (text : List Char) :
    ∃ cut, (∀ c ∈ cut, p c = true) ∧ text = trimRight p text ++ cut := by
  refine ⟨(text.reverse.takeWhile p).reverse, ?_, ?_⟩
  · intro c hc
    exact List.mem_takeWhile_imp (List.mem_reverse.mp hc)
  · rw [trimRight, ← List.reverse_append, List.takeWhile_append_dropWhile, List.reverse_reverse]

@[simp] theorem ink_trimRight (text : List Char) : ink (trimRight isBlank text) = ink text := by
  obtain ⟨cut, hcut, heq⟩ := exists_trimRight_append isBlank text
  have hink : ink cut = [] := ink_eq_nil fun c hc => isSpace_of_isBlank (hcut c hc)
  conv => rhs; rw [heq]
  rw [ink_append, hink, List.append_nil]

@[simp] theorem ink_dropWhile (text : List Char) : ink (text.dropWhile isBlank) = ink text := by
  have hink : ink (text.takeWhile isBlank) = [] :=
    ink_eq_nil fun c hc => isSpace_of_isBlank (List.mem_takeWhile_imp hc)
  conv => rhs; rw [← List.takeWhile_append_dropWhile (p := isBlank) (l := text)]
  rw [ink_append, hink, List.nil_append]

/-! ## Lines -/

theorem isSpace_of_mem_lineEnd {e : LineEnd} {c : Char} (h : c ∈ e.chars) :
    isSpace c = true := by
  have hend : c = '\r' ∨ c = '\n' := by cases e <;> simp_all [LineEnd.chars]
  rcases hend with rfl | rfl <;> rfl

@[simp] theorem ink_lineEnd (e : LineEnd) : ink e.chars = [] :=
  ink_eq_nil fun _ => isSpace_of_mem_lineEnd

/-- Cutting a text into lines drops line endings and nothing else. -/
theorem ink_linesOf (gs : List Glyph) :
    ink (linesOf gs).1 ++ (linesOf gs).2.flatMap ink = ink (Glyph.charsOf gs) := by
  induction gs with
  | nil => rfl
  | cons g rest ih =>
      cases g with
      | char c =>
          rw [Glyph.charsOf_cons, ink_append, ← ih]
          simp [linesOf, Glyph.chars, ink, List.filter_cons]
          split <;> simp
      | lineBreak e =>
          rw [Glyph.charsOf_cons, ink_append, ← ih]
          simp [linesOf, Glyph.chars]

theorem isBlank_of_mem_indent {kind : IndentKind} {width : Nat} {i : Indent} :
    ∀ c ∈ i.chars kind width, isBlank c = true := by
  intro c hc
  simp only [Indent.chars, List.mem_append, List.mem_replicate] at hc
  rcases hc with ⟨_, rfl⟩ | ⟨_, rfl⟩ <;> rfl

@[simp] theorem ink_indent (kind : IndentKind) (width : Nat) (i : Indent) :
    ink (i.chars kind width) = [] :=
  ink_eq_nil fun c hc => isSpace_of_isBlank (isBlank_of_mem_indent c hc)

end Beautifier
