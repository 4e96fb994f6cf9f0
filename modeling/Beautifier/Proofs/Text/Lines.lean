/-
Lines put together and taken apart.

`joinLines` puts lines together with one line ending.  Where all lines of a
text end alike, the glyphs of the text, its lines and the lines put together
determine each other: `linesOf_joinLines`, `joinLines_linesOf` and
`glyphs_charsOf`.
-/
import Beautifier.Text.Glyph

namespace Beautifier

/-- No glyph is a line ending in disguise, and every line break is `e`. -/
def Plain (e : LineEnd) (gs : List Glyph) : Prop :=
  ∀ g ∈ gs, match g with
    | .char c => c ≠ '\r' ∧ c ≠ '\n'
    | .lineBreak e' => e' = e

/-- Lines put together with a line ending: the first one, and those behind a line break. -/
def joinLines (e : LineEnd) (first : List Char) (others : List (List Char)) : List Glyph :=
  first.map .char ++ others.flatMap fun l => .lineBreak e :: l.map .char

/-- The same glyph, a line break with the ending `e`. -/
def Glyph.withEnd (e : LineEnd) : Glyph → Glyph
  | char c => char c
  | lineBreak _ => lineBreak e

variable {e : LineEnd} {gs hs : List Glyph}

@[simp] theorem plain_nil : Plain e [] := fun _ h => absurd h List.not_mem_nil

theorem plain_cons {g : Glyph} : Plain e (g :: gs) ↔ Plain e [g] ∧ Plain e gs := by
  simp [Plain]

theorem plain_append : Plain e (gs ++ hs) ↔ Plain e gs ∧ Plain e hs := by
  simp only [Plain, List.mem_append]
  constructor
  · exact fun h => ⟨fun g hg => h g (.inl hg), fun g hg => h g (.inr hg)⟩
  · rintro ⟨hgs, hhs⟩ g (hg | hg)
    · exact hgs g hg
    · exact hhs g hg

theorem plain_chars {cs : List Char} :
    Plain e (cs.map .char) ↔ ∀ c ∈ cs, c ≠ '\r' ∧ c ≠ '\n' := by
  simp [Plain]

/-! ## Glyphs and their characters -/

theorem plain_glyphs {cs : List Char} (h : '\r' ∉ cs) : Plain .linux (glyphs cs) := by
  fun_induction glyphs cs with
  | case1 => exact plain_nil
  | case2 => exact absurd List.mem_cons_self h
  | case3 => exact absurd List.mem_cons_self h
  | case4 rest ih =>
      refine plain_cons.mpr ⟨?_, ih fun hr => h (List.mem_cons_of_mem _ hr)⟩
      simp [Plain]
  | case5 c rest _ hreturn hfeed ih =>
      refine plain_cons.mpr ⟨?_, ih fun hr => h (List.mem_cons_of_mem _ hr)⟩
      simpa [Plain] using ⟨hreturn, hfeed⟩

theorem glyphs_cons {c : Char} {cs : List Char} (hr : c ≠ '\r') (hn : c ≠ '\n') :
    glyphs (c :: cs) = .char c :: glyphs cs := by
  rw [glyphs]
  · rintro rest rfl
    exact absurd rfl hr
  · exact hr
  · exact hn

/-- Behind a lone carriage return no line feed follows. -/
theorem charsOf_ne_feed (h : Plain .macOld gs) (rest : List Char) :
    Glyph.charsOf gs ≠ '\n' :: rest := by
  cases gs with
  | nil =>
      intro heq
      cases heq
  | cons g gs =>
      have hg := h g List.mem_cons_self
      cases g with
      | char c =>
          intro heq
          cases heq
          exact hg.2 rfl
      | lineBreak e =>
          cases hg
          intro heq
          cases heq

/-- Glyphs whose line breaks are all alike are read back from their characters. -/
theorem glyphs_charsOf (h : Plain e gs) : glyphs (Glyph.charsOf gs) = gs := by
  induction gs with
  | nil => rfl
  | cons g gs ih =>
      obtain ⟨hg, htail⟩ := plain_cons.mp h
      have hg := hg g List.mem_cons_self
      have hread := ih htail
      rw [Glyph.charsOf_cons]
      cases g with
      | char c =>
          show glyphs (c :: Glyph.charsOf gs) = _
          rw [glyphs_cons hg.1 hg.2, hread]
      | lineBreak e' =>
          cases hg
          cases e with
          | windows => exact congrArg _ hread
          | linux => exact congrArg _ hread
          | macOld =>
              show glyphs ('\r' :: Glyph.charsOf gs) = _
              rw [glyphs, hread]
              exact charsOf_ne_feed htail

/-! ## Glyphs and their lines -/

theorem linesOf_chars (cs : List Char) (gs : List Glyph) :
    linesOf (cs.map .char ++ gs) = (cs ++ (linesOf gs).1, (linesOf gs).2) := by
  induction cs with
  | nil => rfl
  | cons c cs ih =>
      rw [List.map_cons, List.cons_append, linesOf, ih]
      rfl

theorem linesOf_joinLines (e : LineEnd) (first : List Char) (others : List (List Char)) :
    linesOf (joinLines e first others) = (first, others) := by
  induction others generalizing first with
  | nil =>
      rw [joinLines, linesOf_chars]
      simp [linesOf]
  | cons l others ih =>
      have hl := ih l
      rw [joinLines] at hl
      rw [joinLines, linesOf_chars, List.flatMap_cons, List.cons_append, linesOf, hl]
      simp

/-- Lines put together again, with another line ending. -/
theorem joinLines_linesOf (e : LineEnd) (gs : List Glyph) :
    joinLines e (linesOf gs).1 (linesOf gs).2 = gs.map (Glyph.withEnd e) := by
  induction gs with
  | nil => rfl
  | cons g gs ih =>
      cases g with
      | char c => exact congrArg _ ih
      | lineBreak e' => exact congrArg _ ih

theorem charsOf_of_line (h : (linesOf gs).2 = []) : Glyph.charsOf gs = (linesOf gs).1 := by
  induction gs with
  | nil => rfl
  | cons g gs ih =>
      cases g with
      | char c => exact congrArg (c :: ·) (ih h)
      | lineBreak e => exact absurd h (List.cons_ne_nil _ _)

/-- The last line of a text stands behind a line ending. -/
theorem exists_charsOf_eq (h : (linesOf gs).2 ≠ []) :
    ∃ front x, (x = '\r' ∨ x = '\n') ∧
      Glyph.charsOf gs = front ++ x :: (linesOf gs).2.getLastD (linesOf gs).1 := by
  induction gs with
  | nil => exact absurd rfl h
  | cons g gs ih =>
      have hone := @charsOf_of_line gs
      generalize hlines : linesOf gs = ls at ih hone
      obtain ⟨first, others⟩ := ls
      cases others with
      | cons l others =>
          obtain ⟨front, x, hx, hchars⟩ := ih (List.cons_ne_nil _ _)
          refine ⟨g.chars ++ front, x, hx, ?_⟩
          rw [Glyph.charsOf_cons, hchars, List.append_assoc]
          cases g <;> rw [linesOf, hlines] <;> rfl
      | nil =>
          cases g with
          | char c =>
              rw [linesOf, hlines] at h
              exact absurd rfl h
          | lineBreak e =>
              rw [Glyph.charsOf_cons, hone rfl, linesOf, hlines]
              cases e with
              | windows => exact ⟨['\r'], '\n', .inr rfl, rfl⟩
              | linux => exact ⟨[], '\n', .inr rfl, rfl⟩
              | macOld => exact ⟨[], '\r', .inl rfl, rfl⟩

theorem map_withEnd (h : Plain e gs) : gs.map (Glyph.withEnd e) = gs := by
  refine (List.map_congr_left fun g hg => ?_).trans (List.map_id gs)
  have hg := h g hg
  cases g with
  | char c => rfl
  | lineBreak e' =>
      cases hg
      rfl

theorem map_withEnd_of_chars (h : ∀ g ∈ gs, ∃ c, g = .char c) (e : LineEnd) :
    gs.map (Glyph.withEnd e) = gs := by
  refine (List.map_congr_left fun g hg => ?_).trans (List.map_id gs)
  obtain ⟨c, rfl⟩ := h g hg
  rfl

theorem plain_joinLines {first : List Char} {others : List (List Char)} :
    Plain e (joinLines e first others) ↔
      (∀ c ∈ first, c ≠ '\r' ∧ c ≠ '\n') ∧ ∀ l ∈ others, ∀ c ∈ l, c ≠ '\r' ∧ c ≠ '\n' := by
  rw [joinLines, plain_append, plain_chars]
  constructor
  · rintro ⟨hfirst, hothers⟩
    refine ⟨hfirst, fun l hl c hc => ?_⟩
    refine hothers (.char c) (List.mem_flatMap.mpr ⟨l, hl, ?_⟩)
    exact List.mem_cons_of_mem _ (List.mem_map_of_mem hc)
  · rintro ⟨hfirst, hothers⟩
    refine ⟨hfirst, fun g hg => ?_⟩
    obtain ⟨l, hl, hg⟩ := List.mem_flatMap.mp hg
    rcases List.mem_cons.mp hg with rfl | hg
    · rfl
    · obtain ⟨c, hc, rfl⟩ := List.mem_map.mp hg
      exact hothers l hl c hc

end Beautifier
