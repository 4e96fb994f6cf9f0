/-
Comment lines of options files and exclude lists.

Each line of a file counts for itself (`significantLines_eq`), so a line that
counts for nothing can stand anywhere.  A comment that starts its line is one.
A comment behind blanks is not: the lines that start with `#` are left out
before the blanks are cut off, and what is then left of it is read as an
option or a pattern that starts with `#`.  Comments have no effect exactly
where no blanks stand in front of them (`significantLines_comment_iff`).
-/
import Mathlib.Data.List.DropRight
import Beautifier.Proofs.Text.Pieces
import Beautifier.Tool.CommandLine

namespace Beautifier

/-- White space stands at neither end of a text. -/
structure BareEnds (text : List Char) : Prop where
  first : ∀ c ∈ text.head?, isWhiteSpace c = false
  last : ∀ c ∈ text.getLast?, isWhiteSpace c = false

/-- A comment line with blanks in front of its `#`. -/
def IndentedComment (line : List Char) : Prop :=
  ∃ blanks rest, blanks ≠ [] ∧ (∀ c ∈ blanks, isWhiteSpace c = true) ∧ line = blanks ++ '#' :: rest

/-! ## Trimmed lines -/

theorem trim_eq (line : List Char) :
    trim line = (line.dropWhile isWhiteSpace).rdropWhile isWhiteSpace := rfl

theorem isWhiteSpace_of_mem_head?_dropWhile {line : List Char} {c : Char}
    (h : c ∈ (line.dropWhile isWhiteSpace).head?) : isWhiteSpace c = false := by
  have hhead := List.head?_dropWhile_not isWhiteSpace line
  rw [Option.mem_def.mp h] at hhead
  exact hhead

theorem head?_trim (line : List Char) :
    (trim line).head? = (line.dropWhile isWhiteSpace).head? := by
  rw [trim_eq]
  cases hdrop : line.dropWhile isWhiteSpace with
  | nil => rfl
  | cons c rest =>
      have hhead : c ∈ (line.dropWhile isWhiteSpace).head? := by
        rw [hdrop]
        rfl
      have hc := isWhiteSpace_of_mem_head?_dropWhile hhead
      have hne : (c :: rest).rdropWhile isWhiteSpace ≠ [] := by
        intro hnil
        have hwhite := List.rdropWhile_eq_nil_iff.mp hnil c List.mem_cons_self
        rw [hc] at hwhite
        cases hwhite
      obtain ⟨d, more, hd⟩ := List.exists_cons_of_ne_nil hne
      obtain ⟨cut, hcut⟩ := List.rdropWhile_prefix isWhiteSpace (l := c :: rest)
      rw [hd, List.cons_append] at hcut
      rw [hd, (List.cons.inj hcut).1]
      rfl

theorem bareEnds_trim (line : List Char) : BareEnds (trim line) where
  first := by
    intro c hc
    rw [head?_trim] at hc
    exact isWhiteSpace_of_mem_head?_dropWhile hc
  last := by
    intro c hc
    obtain ⟨hne, rfl⟩ := List.mem_getLast?_eq_getLast hc
    exact Bool.not_eq_true _ ▸ List.rdropWhile_last_not isWhiteSpace _ hne

/-- A trimmed line starts with a `#` if the line does so behind blanks. -/
theorem head?_trim_eq_iff {line : List Char} :
    (trim line).head? = some '#' ↔
      ∃ blanks rest, (∀ c ∈ blanks, isWhiteSpace c = true) ∧ line = blanks ++ '#' :: rest := by
  rw [head?_trim]
  constructor
  · intro h
    obtain ⟨rest, hrest⟩ := List.head?_eq_some_iff.mp h
    refine ⟨line.takeWhile isWhiteSpace, rest, ?_, ?_⟩
    · intro c hc
      exact List.mem_takeWhile_imp hc
    · rw [← hrest, List.takeWhile_append_dropWhile]
  · rintro ⟨blanks, rest, hblanks, rfl⟩
    rw [List.dropWhile_append_of_pos hblanks]
    rfl

/-! ## Lines that count -/

/-- What a line of a file counts for: nothing if it starts with `#` or holds nothing, otherwise
itself without white space at either end. -/
def significantLine? (line : List Char) : Option String :=
  if line.head? = some '#' ∨ trim line = [] then none else some (String.ofList (trim line))

theorem significantLines_eq (text : String) :
    significantLines text = (text.toList.splitOn '\n').filterMap significantLine? := by
  rw [significantLines, pieces_eq_splitOn]
  induction text.toList.splitOn '\n' with
  | nil => rfl
  | cons line lines ih =>
      rw [List.filterMap_cons, ← ih, significantLine?]
      by_cases hcomment : line.head? = some '#'
      · simp [hcomment]
      · by_cases hempty : trim line = [] <;> simp [hcomment, hempty]

theorem significantLines_insert (before after : String) {line : List Char} (hline : '\n' ∉ line) :
    significantLines (before ++ "\n" ++ String.ofList line ++ "\n" ++ after) =
      significantLines before ++ (significantLine? line).toList ++ significantLines after := by
  have htext : (before ++ "\n" ++ String.ofList line ++ "\n" ++ after).toList =
      before.toList ++ '\n' :: (line ++ '\n' :: after.toList) := by
    simp
  rw [significantLines_eq, htext, List.splitOn_append_cons_self,
    List.splitOn_append_cons_self_of_not_mem hline, List.filterMap_append, List.filterMap_cons,
    ← significantLines_eq, ← significantLines_eq]
  cases significantLine? line <;> simp

theorem significantLines_append (before after : String) :
    significantLines (before ++ "\n" ++ after) =
      significantLines before ++ significantLines after := by
  have htext : (before ++ "\n" ++ after).toList = before.toList ++ '\n' :: after.toList := by
    simp
  rw [significantLines_eq, htext, List.splitOn_append_cons_self, List.filterMap_append,
    ← significantLines_eq, ← significantLines_eq]

/-- A comment counts for nothing exactly if no blanks stand in front of it. -/
theorem significantLine?_comment_eq_none_iff {blanks rest : List Char}
    (hblanks : ∀ c ∈ blanks, isWhiteSpace c = true) :
    significantLine? (blanks ++ '#' :: rest) = none ↔ blanks = [] := by
  have hhead : (trim (blanks ++ '#' :: rest)).head? = some '#' :=
    head?_trim_eq_iff.mpr ⟨blanks, rest, hblanks, rfl⟩
  have hne : trim (blanks ++ '#' :: rest) ≠ [] := by
    intro hnil
    rw [hnil] at hhead
    cases hhead
  have hhash : isWhiteSpace '#' = false := by decide
  cases blanks with
  | nil => simp [significantLine?]
  | cons b blanks =>
      have hb : b ≠ '#' := by
        rintro rfl
        rw [hblanks '#' List.mem_cons_self] at hhash
        cases hhash
      simpa [significantLine?, hb] using hne

theorem of_mem_significantLines {text line : String} (h : line ∈ significantLines text) :
    line ≠ "" ∧ BareEnds line.toList ∧
      (line.toList.head? = some '#' → ∃ l ∈ text.toList.splitOn '\n', IndentedComment l) := by
  rw [significantLines_eq] at h
  obtain ⟨l, hl, hline⟩ := List.mem_filterMap.mp h
  rw [significantLine?] at hline
  split at hline
  · cases hline
  next hcounts =>
  rw [not_or] at hcounts
  obtain ⟨hcomment, hne⟩ := hcounts
  obtain rfl := Option.some.inj hline
  rw [String.toList_ofList]
  refine ⟨?_, bareEnds_trim l, ?_⟩
  · intro hempty
    exact hne (by simpa using hempty)
  · intro hhash
    obtain ⟨blanks, rest, hblanks, rfl⟩ := head?_trim_eq_iff.mp hhash
    refine ⟨_, hl, blanks, rest, ?_, hblanks, rfl⟩
    rintro rfl
    exact hcomment rfl

theorem exists_mem_significantLines {text : String} {line : List Char}
    (hline : line ∈ text.toList.splitOn '\n') (hcomment : IndentedComment line) :
    ∃ l ∈ significantLines text, l.toList.head? = some '#' := by
  obtain ⟨blanks, rest, hne, hblanks, rfl⟩ := hcomment
  have hsome : significantLine? (blanks ++ '#' :: rest) ≠ none :=
    mt (significantLine?_comment_eq_none_iff hblanks).mp hne
  obtain ⟨l, hl⟩ := Option.ne_none_iff_exists'.mp hsome
  refine ⟨l, ?_, ?_⟩
  · rw [significantLines_eq]
    exact List.mem_filterMap.mpr ⟨_, hline, hl⟩
  · rw [significantLine?] at hl
    split at hl
    · cases hl
    · obtain rfl := Option.some.inj hl
      rw [String.toList_ofList]
      exact head?_trim_eq_iff.mpr ⟨blanks, rest, hblanks, rfl⟩

/-- A comment line between two lines of a file leaves what is read of the file as it was exactly if
no blanks stand in front of its `#`.  What is read are lines that hold something and have no white
space at either end, and none of them starts with a `#` exactly if no comment of the file has blanks
in front of it. -/
theorem significantLines_comment_iff (text : String) :
    (∀ before blanks rest after : String, text = before ++ "\n" ++ after →
      (∀ c ∈ blanks.toList, isWhiteSpace c = true ∧ c ≠ '\n') → '\n' ∉ rest.toList →
        (significantLines (before ++ "\n" ++ (blanks ++ "#" ++ rest) ++ "\n" ++ after) =
          significantLines text ↔ blanks = "")) ∧
      (∀ line ∈ significantLines text, line ≠ "" ∧ BareEnds line.toList) ∧
      ((∀ line ∈ significantLines text, line.toList.head? ≠ some '#') ↔
        ∀ line ∈ text.toList.splitOn '\n', ¬IndentedComment line) := by
  refine ⟨?_, ?_, ?_, ?_⟩
  · rintro before blanks rest after rfl hblanks hrest
    have hline : blanks ++ "#" ++ rest = String.ofList (blanks.toList ++ '#' :: rest.toList) := by
      simp [← String.toList_inj]
    have hbreak : '\n' ∉ blanks.toList ++ '#' :: rest.toList := by
      intro h
      rcases List.mem_append.mp h with h | h
      · exact (hblanks _ h).2 rfl
      · rcases List.mem_cons.mp h with h | h
        · cases h
        · exact hrest h
    have hnone : significantLine? (blanks.toList ++ '#' :: rest.toList) = none ↔
        blanks.toList = [] :=
      significantLine?_comment_eq_none_iff fun c hc => (hblanks c hc).1
    have hempty : blanks = "" ↔ blanks.toList = [] := by
      rw [← String.toList_inj]
      rfl
    rw [hline, significantLines_insert _ _ hbreak, significantLines_append, List.append_assoc,
      List.append_cancel_left_eq, hempty, ← hnone]
    cases significantLine? (blanks.toList ++ '#' :: rest.toList) <;> simp
  · intro line hline
    obtain ⟨hne, hbare, -⟩ := of_mem_significantLines hline
    exact ⟨hne, hbare⟩
  · intro hnone line hline hcomment
    obtain ⟨l, hl, hhash⟩ := exists_mem_significantLines hline hcomment
    exact hnone l hl hhash
  · intro hnone line hline hhash
    obtain ⟨-, -, hcomment⟩ := of_mem_significantLines hline
    obtain ⟨l, hl, hindented⟩ := hcomment hhash
    exact hnone l hl hindented

/-- A comment at the start of its line, between two patterns. -/
theorem significantLines_comment_plain :
    significantLines "a.c\n# c\nb.c" = significantLines "a.c\nb.c" ∧
      ∀ line ∈ significantLines "a.c\n# c\nb.c", line.toList.head? ≠ some '#' := by
  have hblanks : ∀ c ∈ "".toList, isWhiteSpace c = true ∧ c ≠ '\n' :=
    fun c hc => absurd hc List.not_mem_nil
  have hinsert := (significantLines_comment_iff "a.c\nb.c").1 "a.c" "" " c" "b.c" rfl hblanks
    (by decide)
  have hfile := (significantLines_comment_iff "a.c\n# c\nb.c").2
  refine ⟨hinsert.mpr rfl, hfile.2.mpr ?_⟩
  have hlines : "a.c\n# c\nb.c".toList.splitOn '\n' =
      [['a', '.', 'c'], ['#', ' ', 'c'], ['b', '.', 'c']] := by decide
  rw [hlines]
  rintro line hline ⟨blanks, rest, hne, hblanks, rfl⟩
  obtain ⟨b, blanks, rfl⟩ := List.exists_cons_of_ne_nil hne
  have hb := hblanks b List.mem_cons_self
  simp only [List.cons_append, List.mem_cons, List.cons.injEq, List.not_mem_nil, or_false] at hline
  rcases hline with ⟨rfl, -⟩ | ⟨rfl, -⟩ | ⟨rfl, -⟩ <;> exact absurd hb (by decide)

/-- A comment behind two blanks is read as a pattern. -/
theorem not_significantLines_comment_indented :
    ¬∀ before blanks rest after : String,
      (∀ c ∈ blanks.toList, isWhiteSpace c = true ∧ c ≠ '\n') → '\n' ∉ rest.toList →
        significantLines (before ++ "\n" ++ (blanks ++ "#" ++ rest) ++ "\n" ++ after) =
          significantLines (before ++ "\n" ++ after) := by
  intro h
  have hblanks : ∀ c ∈ "  ".toList, isWhiteSpace c = true ∧ c ≠ '\n' := by
    intro c hc
    obtain rfl : c = ' ' := by simpa using hc
    decide
  have hsame := h "a.c" "  " " c" "b.c" hblanks (by decide)
  exact absurd hsame (by decide +kernel)

end Beautifier
