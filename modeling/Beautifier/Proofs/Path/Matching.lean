/-
What patterns stand for.

Each element of a pattern stands for some texts (`Stands`), and a pattern
accepts what such texts make up one behind the other (`accepts_cons`,
`accepts_iff_flatten`).  A text is refused as a pattern exactly if two stars
of it stand in front of something else than a slash (`ofString?_eq_none_iff`);
where no stars stand together each character is one element
(`elements?_append`).
-/
import Mathlib.Data.List.Forall2
import Beautifier.Path.Pattern

namespace Beautifier.Path.Pattern

variable {piece : PatternPiece} {p q : Pattern} {k : List Char → Bool} {text : List Char}

/-! ## Matching -/

/-- What an element of a pattern stands for. -/
inductive Stands : PatternPiece → List Char → Prop
  | nowhere : Stands .anyDirectories []
  | directories {d : List Char} : '\n' ∉ d → Stands .anyDirectories (d ++ ['/'])
  | run {u : List Char} : '/' ∉ u → Stands .anyRun u
  | char {c : Char} : c ≠ '\n' → Stands .anyChar [c]
  | literal (c : Char) : Stands (.literal c) [c]

theorem runThen_iff :
    runThen k text = true ↔ ∃ u v, text = u ++ v ∧ '/' ∉ u ∧ k v = true := by
  induction text with
  | nil =>
      constructor
      · exact fun h => ⟨[], [], rfl, List.not_mem_nil, h⟩
      · rintro ⟨u, v, heq, -, hk⟩
        obtain ⟨rfl, rfl⟩ := List.append_eq_nil_iff.mp heq.symm
        exact hk
  | cons c text ih =>
      rw [runThen, Bool.or_eq_true, Bool.and_eq_true, bne_iff_ne, ih]
      constructor
      · rintro (hk | ⟨hc, u, v, rfl, hu, hk⟩)
        · exact ⟨[], _, rfl, List.not_mem_nil, hk⟩
        · refine ⟨c :: u, v, rfl, ?_, hk⟩
          exact List.not_mem_cons_of_ne_of_not_mem (Ne.symm hc) hu
      · rintro ⟨u, v, heq, hu, hk⟩
        cases u with
        | nil => exact .inl (heq ▸ hk)
        | cons d u =>
            obtain ⟨rfl, rfl⟩ := List.cons.inj heq
            obtain ⟨hd, hu⟩ := List.ne_and_not_mem_of_not_mem_cons hu
            exact .inr ⟨Ne.symm hd, u, v, rfl, hu, hk⟩

theorem directoriesThen_iff :
    directoriesThen k text = true ↔ ∃ d v, text = d ++ '/' :: v ∧ '\n' ∉ d ∧ k v = true := by
  induction text with
  | nil => simp [directoriesThen]
  | cons c text ih =>
      rw [directoriesThen, Bool.and_eq_true, Bool.or_eq_true, Bool.and_eq_true, bne_iff_ne,
        beq_iff_eq, ih]
      constructor
      · rintro ⟨hc, ⟨rfl, hk⟩ | ⟨d, v, rfl, hd, hk⟩⟩
        · exact ⟨[], text, rfl, List.not_mem_nil, hk⟩
        · refine ⟨c :: d, v, rfl, ?_, hk⟩
          exact List.not_mem_cons_of_ne_of_not_mem (Ne.symm hc) hd
      · rintro ⟨d, v, heq, hd, hk⟩
        cases d with
        | nil =>
            obtain ⟨rfl, rfl⟩ := List.cons.inj heq
            exact ⟨by decide, .inl ⟨rfl, hk⟩⟩
        | cons e d =>
            obtain ⟨rfl, rfl⟩ := List.cons.inj heq
            obtain ⟨hc, hd⟩ := List.ne_and_not_mem_of_not_mem_cons hd
            exact ⟨Ne.symm hc, .inr ⟨d, v, rfl, hd, hk⟩⟩

theorem pieceThen_iff :
    pieceThen piece k text = true ↔ ∃ u v, text = u ++ v ∧ Stands piece u ∧ k v = true := by
  cases piece with
  | anyDirectories =>
      rw [pieceThen, Bool.or_eq_true, directoriesThen_iff]
      constructor
      · rintro (hk | ⟨d, v, rfl, hd, hk⟩)
        · exact ⟨[], text, rfl, .nowhere, hk⟩
        · exact ⟨d ++ ['/'], v, by simp, .directories hd, hk⟩
      · rintro ⟨u, v, rfl, hu, hk⟩
        cases hu with
        | nowhere => exact .inl hk
        | directories hd => exact .inr ⟨_, v, by simp, hd, hk⟩
  | anyRun =>
      rw [pieceThen, runThen_iff]
      constructor
      · rintro ⟨u, v, heq, hu, hk⟩
        exact ⟨u, v, heq, .run hu, hk⟩
      · rintro ⟨u, v, heq, hu, hk⟩
        cases hu with
        | run hu => exact ⟨u, v, heq, hu, hk⟩
  | anyChar =>
      constructor
      · cases text with
        | nil => exact fun h => nomatch h
        | cons c text =>
            intro h
            rw [pieceThen, Bool.and_eq_true, bne_iff_ne] at h
            exact ⟨[c], text, rfl, .char h.1, h.2⟩
      · rintro ⟨u, v, rfl, hu, hk⟩
        cases hu with
        | char hc => exact Bool.and_eq_true_iff.mpr ⟨bne_iff_ne.mpr hc, hk⟩
  | literal d =>
      constructor
      · cases text with
        | nil => exact fun h => nomatch h
        | cons c text =>
            intro h
            rw [pieceThen, Bool.and_eq_true, beq_iff_eq] at h
            exact ⟨[c], text, rfl, h.1 ▸ .literal d, h.2⟩
      · rintro ⟨u, v, rfl, hu, hk⟩
        cases hu with
        | literal => exact Bool.and_eq_true_iff.mpr ⟨beq_iff_eq.mpr rfl, hk⟩

theorem accepts_nil : accepts [] text = true ↔ text = [] := List.isEmpty_iff

theorem accepts_cons :
    accepts (piece :: p) text = true ↔
      ∃ u v, text = u ++ v ∧ Stands piece u ∧ p.accepts v = true :=
  pieceThen_iff

/-- A pattern accepts what its elements stand for, one behind the other. -/
theorem accepts_iff_flatten :
    p.accepts text = true ↔ ∃ us, List.Forall₂ Stands p us ∧ us.flatten = text := by
  induction p generalizing text with
  | nil =>
      rw [accepts_nil]
      constructor
      · rintro rfl
        exact ⟨[], .nil, rfl⟩
      · rintro ⟨us, hus, rfl⟩
        cases hus
        rfl
  | cons piece p ih =>
      rw [accepts_cons]
      constructor
      · rintro ⟨u, v, rfl, hu, hv⟩
        obtain ⟨us, hus, rfl⟩ := ih.mp hv
        exact ⟨u :: us, .cons hu hus, rfl⟩
      · rintro ⟨us, hus, rfl⟩
        cases hus with
        | cons hu hus => exact ⟨_, _, rfl, hu, ih.mpr ⟨_, hus, rfl⟩⟩

theorem accepts_literal {c : Char} :
    accepts (.literal c :: p) text = true ↔ ∃ v, text = c :: v ∧ p.accepts v = true := by
  rw [accepts_cons]
  constructor
  · rintro ⟨u, v, rfl, hu, hv⟩
    cases hu
    exact ⟨v, rfl, hv⟩
  · rintro ⟨v, rfl, hv⟩
    exact ⟨[c], v, rfl, .literal c, hv⟩

/-! ## Two stars -/

/-- Two stars stand together in front of something else than a slash. -/
def BareStars (text : List Char) : Prop :=
  ∃ front rest, text = front ++ '*' :: '*' :: rest ∧ rest.head? ≠ some '/'

theorem not_bareStars_nil : ¬BareStars [] := by
  rintro ⟨front, rest, heq, -⟩
  cases front <;> cases heq

theorem bareStars_cons {c : Char} :
    BareStars (c :: text) ↔
      (c = '*' ∧ ∃ rest, text = '*' :: rest ∧ rest.head? ≠ some '/') ∨ BareStars text := by
  constructor
  · rintro ⟨front, rest, heq, hrest⟩
    cases front with
    | nil =>
        obtain ⟨rfl, rfl⟩ := List.cons.inj heq
        exact .inl ⟨rfl, rest, rfl, hrest⟩
    | cons d front =>
        obtain ⟨rfl, rfl⟩ := List.cons.inj heq
        exact .inr ⟨front, rest, rfl, hrest⟩
  · rintro (⟨rfl, rest, rfl, hrest⟩ | ⟨front, rest, rfl, hrest⟩)
    · exact ⟨[], rest, rfl, hrest⟩
    · exact ⟨c :: front, rest, rfl, hrest⟩

theorem bareStars_cons_of_ne {c : Char} (hc : c ≠ '*') :
    BareStars (c :: text) ↔ BareStars text := by
  simp [bareStars_cons, hc]

theorem elements?_eq_none_iff : elements? text = none ↔ BareStars text := by
  fun_induction elements? text with
  | case1 => simpa using not_bareStars_nil
  | case2 rest ih => simp [bareStars_cons, ih]
  | case3 rest hrest =>
      simp only [true_iff]
      refine ⟨[], rest, rfl, ?_⟩
      intro hhead
      obtain ⟨behind, rfl⟩ := List.head?_eq_some_iff.mp hhead
      exact hrest behind rfl
  | case4 rest hslash hstar ih =>
      rw [Option.map_eq_none_iff, ih, bareStars_cons, or_iff_right]
      rintro ⟨-, behind, rfl, -⟩
      exact hstar behind rfl
  | case5 rest ih => rw [Option.map_eq_none_iff, ih, bareStars_cons_of_ne (by decide)]
  | case6 c rest _ _ hstar _ ih => rw [Option.map_eq_none_iff, ih, bareStars_cons_of_ne hstar]

theorem bareStars_append_slash (a b : List Char) :
    BareStars (a ++ '/' :: b) ↔ BareStars (a ++ ['/']) ∨ BareStars b := by
  induction a with
  | nil => simp [bareStars_cons_of_ne, not_bareStars_nil]
  | cons c a ih =>
      rw [List.cons_append, List.cons_append, bareStars_cons, bareStars_cons, ih, or_assoc]
      refine or_congr_left (and_congr_right fun _ => ?_)
      cases a with
      | nil => simp
      | cons d a => cases a <;> simp

theorem bareStars_anchored (text : List Char) : BareStars (anchored text) ↔ BareStars text := by
  have hstarted : ∀ started : List Char, BareStars started ↔ BareStars
      (if started.getLast? = some '/' then started ++ ['*', '*', '/', '*'] else started) := by
    intro started
    split
    next hlast =>
      obtain ⟨front, rfl⟩ := List.getLast?_eq_some_iff.mp hlast
      have hsuffix : ¬BareStars ['*', '*', '/', '*'] := by
        simp [bareStars_cons, not_bareStars_nil]
      rw [List.append_assoc, List.singleton_append,
        bareStars_append_slash front ['*', '*', '/', '*'], or_iff_left hsuffix]
    next => rfl
  rw [anchored, ← hstarted]
  split
  next => rfl
  next => simp [bareStars_cons]

theorem ofString?_eq_none_iff (text : String) : ofString? text = none ↔ BareStars text.toList := by
  rw [ofString?, elements?_eq_none_iff, bareStars_anchored]

/-! ## Elements of one character -/

/-- The element that a character stands for on its own. -/
def charPiece (c : Char) : PatternPiece :=
  if c = '*' then .anyRun else if c = '?' then .anyChar else .literal c

/-- No two stars stand together. -/
def StarsApart (text : List Char) : Prop := ¬['*', '*'] <:+: text

theorem StarsApart.tail {c : Char} (h : StarsApart (c :: text)) : StarsApart text :=
  fun hinfix => h (List.infix_cons hinfix)

theorem elements?_cons {c : Char} (h : c = '*' → text.head? ≠ some '*') :
    elements? (c :: text) = (elements? text).map (charPiece c :: ·) := by
  by_cases hstar : c = '*'
  · subst hstar
    have hnext : ∀ rest, text ≠ '*' :: rest := by
      rintro rest rfl
      exact h rfl rfl
    rw [elements?]
    · rfl
    · exact fun rest heq => hnext _ heq
    · exact hnext
  · by_cases hquery : c = '?'
    · subst hquery
      rfl
    · rw [elements?]
      · simp [charPiece, hstar, hquery]
      all_goals simp [hstar, hquery]

theorem elements?_append {rest : List Char} (h : StarsApart text)
    (hrest : rest.head? ≠ some '*') :
    elements? (text ++ rest) = (elements? rest).map (text.map charPiece ++ ·) := by
  induction text with
  | nil => simp
  | cons c text ih =>
      have hnext : c = '*' → (text ++ rest).head? ≠ some '*' := by
        rintro rfl
        cases text with
        | nil => exact hrest
        | cons d text =>
            intro hd
            rw [List.cons_append, List.head?_cons, Option.some.injEq] at hd
            exact h ⟨[], text, by rw [hd]; rfl⟩
      rw [List.cons_append, elements?_cons hnext, ih h.tail, Option.map_map]
      rfl

theorem elements?_of_starsApart (h : StarsApart text) :
    elements? text = some (text.map charPiece) := by
  have hnone : ([] : List Char).head? ≠ some '*' := by decide
  have helements := elements?_append h hnone
  simpa [elements?] using helements

end Beautifier.Path.Pattern
