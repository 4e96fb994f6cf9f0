/-
Patterns without a slash.

A pattern without a slash matches the texts that its characters stand for,
behind any number of folders (`exists_elements`).  `*` never stands for
a slash, but `?` does: `a?b` matches `a/b` (`not_isMatch_of_lastPart`).  Each
slash in what is matched is one `?` of the pattern (`count_flatten`), so that
no more parts at the end of a path count than one more than there are such
`?`; and neither the first nor the last character of the pattern is one, since
no part of a path is empty (`isMatch_of_lastParts`).
-/
import Mathlib.Data.List.DropRight
import Beautifier.Proofs.Path.Globs

namespace Beautifier.Path.Pattern

variable {text rest : List Char} {p q : Pattern} {us : List (List Char)} {path : String}

/-! ## The elements of a pattern without a slash -/

theorem starsApart_of_slashless (hslash : '/' ∉ text) (h : ¬BareStars text) : StarsApart text := by
  rintro ⟨front, rest, rfl⟩
  refine h ⟨front, rest, by simp, ?_⟩
  intro hhead
  obtain ⟨behind, rfl⟩ := List.head?_eq_some_iff.mp hhead
  exact hslash (by simp)

/-- Behind any number of folders stands what the characters of the pattern stand for; the empty
pattern matches everything. -/
theorem exists_elements (hslash : '/' ∉ text) (hp : elements? (anchored text) = some p) :
    ∃ q, p = .literal '/' :: .anyDirectories :: q ∧
      (q = text.map charPiece ∨ text = [] ∧ q = [.anyDirectories, .anyRun]) := by
  have hapart : StarsApart text := by
    refine starsApart_of_slashless hslash ?_
    rw [← bareStars_anchored, ← elements?_eq_none_iff, hp]
    exact Option.some_ne_none p
  rcases List.eq_nil_or_concat text with rfl | ⟨front, c, rfl⟩
  · exact ⟨_, (Option.some.inj hp).symm, .inr ⟨rfl, rfl⟩⟩
  · have hhead : (front.concat c).head? ≠ some '/' :=
      fun h => hslash (List.mem_of_mem_head? h)
    have hlast : c ≠ '/' := by
      rintro rfl
      exact hslash (by simp)
    have hanchored : anchored (front.concat c) = '/' :: '*' :: '*' :: '/' :: front.concat c := by
      rw [anchored, if_neg hhead]
      exact if_neg (by simp [List.getLast?_cons, hlast])
    rw [hanchored, elements?, elements?, elements?_of_starsApart hapart] at hp
    · exact ⟨_, (Option.some.inj hp).symm, .inl (by simp)⟩
    all_goals simp

/-! ## Slashes in what is matched -/

/-- The `?` of a pattern stand for at most so many slashes of a text, however it is matched. -/
def SlashesAtMost (n : Nat) (p : Pattern) (text : List Char) : Prop :=
  ∀ us, List.Forall₂ Stands p us → us.flatten = text → (p.zip us).count (.anyChar, ['/']) ≤ n

theorem count_of_stands {c : Char} {u : List Char} (hc : '/' ≠ c) (h : Stands (charPiece c) u) :
    u.count '/' = [(charPiece c, u)].count (.anyChar, ['/']) := by
  by_cases hstar : c = '*'
  · rw [charPiece, if_pos hstar] at h ⊢
    cases h with
    | run hu => simp [List.count_eq_zero_of_not_mem hu]
  · by_cases hquery : c = '?'
    · rw [charPiece, if_neg hstar, if_pos hquery] at h ⊢
      cases h with
      | @char d hd => by_cases hslash : d = '/' <;> simp [hslash]
    · rw [charPiece, if_neg hstar, if_neg hquery] at h ⊢
      cases h with
      | literal => simp [Ne.symm hc]

/-- The slashes in what the characters of a pattern stand for are what `?` stands for. -/
theorem count_flatten (hslash : '/' ∉ text) (h : List.Forall₂ Stands (text.map charPiece) us) :
    us.flatten.count '/' = ((text.map charPiece).zip us).count (.anyChar, ['/']) := by
  induction text generalizing us with
  | nil =>
      cases h
      rfl
  | cons c text ih =>
      obtain ⟨hc, htext⟩ := List.ne_and_not_mem_of_not_mem_cons hslash
      cases h with
      | cons hu hus =>
          rw [List.flatten_cons, List.count_append, ih htext hus, count_of_stands hc hu,
            ← List.count_append]
          rfl

/-! ## Folders in front -/

theorem splitOn_suffix {d : List Char} (h : Stands .anyDirectories d) (v : List Char) :
    v.splitOn '/' <:+ (d ++ v).splitOn '/' := by
  cases h with
  | nowhere => exact List.suffix_rfl
  | directories =>
      rw [List.append_assoc, List.singleton_append, List.splitOn_append_cons_self]
      exact List.suffix_append _ _

theorem exists_folders {v : List Char} (hrest : '\n' ∉ rest)
    (h : v.splitOn '/' <:+ rest.splitOn '/') : ∃ d, Stands .anyDirectories d ∧ rest = d ++ v := by
  obtain ⟨front, hsplit⟩ := h
  cases front with
  | nil => exact ⟨[], .nowhere, (splitOn_injective '/' hsplit).symm⟩
  | cons part front =>
      obtain ⟨d, w, rfl, -, hw⟩ := exists_of_splitOn_eq_append hsplit.symm (List.cons_ne_nil _ _)
        (List.splitOn_ne_nil _ _)
      rw [List.mem_append, not_or] at hrest
      exact ⟨d ++ ['/'], .directories hrest.1, by simp [splitOn_injective '/' hw]⟩

theorem forall₂_folders :
    List.Forall₂ Stands (.literal '/' :: .anyDirectories :: q) us ↔
      ∃ d vs, us = ['/'] :: d :: vs ∧ Stands .anyDirectories d ∧ List.Forall₂ Stands q vs := by
  constructor
  · intro h
    cases h with
    | cons hslash h =>
        cases hslash
        cases h with
        | cons hd hvs => exact ⟨_, _, rfl, hd, hvs⟩
  · rintro ⟨d, vs, rfl, hd, hvs⟩
    exact .cons (.literal '/') (.cons hd hvs)

/-! ## What the last parts of a path decide -/

theorem suffix_rtake {α : Type} {l' l : List α} {n : Nat} (h : l' <:+ l) (hlength : l'.length ≤ n) :
    l' <:+ l.rtake n := by
  rw [List.rtake_eq_reverse_take_reverse, ← List.reverse_prefix, List.reverse_reverse,
    List.prefix_take_iff]
  exact ⟨List.reverse_prefix.mpr h, by simpa using hlength⟩

theorem rtake_suffix {α : Type} (l : List α) (n : Nat) : l.rtake n <:+ l := List.drop_suffix _ _

/-- What is matched in one text is matched at the end of another one with the same last parts. -/
theorem accepts_of_lastParts {n : Nat} {a b : List Char} (hslash : '/' ∉ text)
    (hq : q = text.map charPiece) (hp : p = .literal '/' :: .anyDirectories :: q)
    (ha : p.accepts ('/' :: a) = true) (hcount : SlashesAtMost n p ('/' :: a)) (hb : '\n' ∉ b)
    (hlast : (a.splitOn '/').rtake (n + 1) = (b.splitOn '/').rtake (n + 1)) :
    p.accepts ('/' :: b) = true := by
  subst hp
  obtain ⟨us, hus, hflatten⟩ := accepts_iff_flatten.mp ha
  have hslashes := hcount us hus hflatten
  obtain ⟨d, vs, rfl, hd, hvs⟩ := forall₂_folders.mp hus
  have ha : a = d ++ vs.flatten := by simpa using hflatten.symm
  have hvs' := hq ▸ hvs
  have hlength : (vs.flatten.splitOn '/').length ≤ n + 1 := by
    rw [length_splitOn, count_flatten hslash hvs', ← hq]
    simpa [List.count_cons] using hslashes
  have hsuffix : vs.flatten.splitOn '/' <:+ b.splitOn '/' := by
    have hin := suffix_rtake (ha ▸ splitOn_suffix hd vs.flatten) hlength
    rw [hlast] at hin
    exact hin.trans (rtake_suffix _ _)
  obtain ⟨e, he, rfl⟩ := exists_folders hb hsuffix
  refine accepts_iff_flatten.mpr ⟨['/'] :: e :: vs, forall₂_folders.mpr ⟨e, vs, rfl, he, hvs⟩, ?_⟩
  simp

/-! ## How many slashes `?` stands for -/

theorem count_inner {α : Type} [BEq α] [LawfulBEq α] {z : α} {l : List α} (hhead : l.head? ≠ some z)
    (hlast : l.getLast? ≠ some z) : l.count z = l.tail.dropLast.count z := by
  cases l with
  | nil => rfl
  | cons a l =>
      have ha : a ≠ z := fun heq => hhead (congrArg some heq)
      rw [List.count_cons_of_ne ha, List.tail_cons]
      rcases List.eq_nil_or_concat l with rfl | ⟨front, b, rfl⟩
      · rfl
      · rw [List.concat_eq_append] at hlast ⊢
        rw [← List.cons_append, List.getLast?_concat] at hlast
        have hb : b ≠ z := fun heq => hlast (congrArg some heq)
        rw [List.count_append, List.count_cons_of_ne hb, List.count_nil, List.dropLast_concat,
          Nat.add_zero]

theorem count_anyChar (text : List Char) :
    (text.map charPiece).count .anyChar = text.count '?' := by
  rw [List.count, List.countP_map, List.count]
  refine List.countP_congr ?_
  intro c _
  by_cases hstar : c = '*' <;> by_cases hquery : c = '?' <;> simp_all [charPiece]

/-- No part of a text beside a slash is empty. -/
def NoEmptyPart (rest : List Char) : Prop :=
  ∀ a b, rest = a ++ '/' :: b → [] ∉ a.splitOn '/' ∧ [] ∉ b.splitOn '/'

theorem noEmptyPart_normal (hrest : rest.splitOn '/' =
    if normalParts path = [] then [[]] else (normalParts path).map String.toList) :
    NoEmptyPart rest := by
  rintro a b rfl
  rw [List.splitOn_append_cons_self] at hrest
  split at hrest
  next =>
    have hlength := congrArg List.length hrest
    rw [List.length_append, length_splitOn, length_splitOn, List.length_singleton] at hlength
    omega
  next =>
    have hempty : [] ∉ a.splitOn '/' ++ b.splitOn '/' := by
      rw [hrest]
      intro hmem
      obtain ⟨name, hname, hnil⟩ := List.mem_map.mp hmem
      exact ((canonical_normalParts path).plain name hname).1 (String.toList_eq_nil_iff.mp hnil)
    rw [List.mem_append, not_or] at hempty
    exact hempty

/-- What the characters of a pattern stand for behind folders neither starts nor ends with a
slash. -/
theorem ends_ne_slash {d : List Char} {vs : List (List Char)} (hd : Stands .anyDirectories d)
    (hempty : NoEmptyPart (d ++ vs.flatten)) :
    vs.head? ≠ some ['/'] ∧ vs.getLast? ≠ some ['/'] := by
  constructor
  · intro hhead
    obtain ⟨vs, rfl⟩ := List.head?_eq_some_iff.mp hhead
    obtain ⟨hfront, -⟩ := hempty d vs.flatten (by simp)
    cases hd with
    | nowhere => exact hfront (by decide)
    | directories =>
        rw [List.splitOn_append_cons_self] at hfront
        exact hfront (List.mem_append_right _ (by decide))
  · intro hlast
    obtain ⟨vs, rfl⟩ := List.getLast?_eq_some_iff.mp hlast
    obtain ⟨-, hbehind⟩ := hempty (d ++ vs.flatten) [] (by simp)
    exact hbehind (by decide)

/-- Only the inner `?` of a pattern can stand for slashes of a path. -/
theorem slashesAtMost_inner (hp : p = .literal '/' :: .anyDirectories :: q)
    (hq : q = text.map charPiece ∨ text = [] ∧ q = [.anyDirectories, .anyRun])
    (hempty : NoEmptyPart rest) :
    SlashesAtMost (text.tail.dropLast.count '?') p ('/' :: rest) := by
  subst hp
  intro us hus hflatten
  obtain ⟨d, vs, rfl, hd, hvs⟩ := forall₂_folders.mp hus
  have hrest : rest = d ++ vs.flatten := by simpa using hflatten.symm
  obtain ⟨hhead, hlast⟩ := ends_ne_slash hd (hrest ▸ hempty)
  have hlength := hvs.length_eq
  have hfst : (q.zip vs).map Prod.fst = q := List.map_fst_zip hlength.le
  have hsnd : (q.zip vs).map Prod.snd = vs := List.map_snd_zip hlength.ge
  have hinner : (q.zip vs).count (.anyChar, ['/'])
      = (q.zip vs).tail.dropLast.count (.anyChar, ['/']) := by
    refine count_inner ?_ ?_
    · intro h
      refine hhead ?_
      rw [← hsnd, List.head?_map, h, Option.map_some]
    · intro h
      refine hlast ?_
      rw [← hsnd, List.getLast?_map, h, Option.map_some]
  calc (((PatternPiece.literal '/') :: .anyDirectories :: q).zip (['/'] :: d :: vs)).count
        (.anyChar, ['/'])
      = (q.zip vs).tail.dropLast.count (.anyChar, ['/']) := by
        rw [← hinner]
        simp
    _ ≤ ((q.zip vs).tail.dropLast.map Prod.fst).count .anyChar :=
        List.count_le_count_map (f := Prod.fst) (x := (PatternPiece.anyChar, ['/']))
    _ = q.tail.dropLast.count .anyChar := by rw [List.map_dropLast, List.map_tail, hfst]
    _ = text.tail.dropLast.count '?' := by
        rcases hq with rfl | ⟨rfl, rfl⟩
        · rw [← List.map_tail, ← List.map_dropLast, count_anyChar]
        · rfl

/-! ## The main result -/

theorem accepts_of_empty (hrest : '\n' ∉ rest) :
    accepts [.literal '/', .anyDirectories, .anyDirectories, .anyRun] ('/' :: rest) = true := by
  obtain ⟨front, last, hsplit⟩ : ∃ front last, rest.splitOn '/' = front ++ [last] := by
    rw [← pieces_eq_splitOn]
    exact exists_pieces _ _
  have hlast : '/' ∉ last := not_mem_of_mem_splitOn (hsplit ▸ List.mem_concat_self)
  have hsuffix : last.splitOn '/' <:+ rest.splitOn '/' := by
    rw [List.splitOn_eq_singleton hlast, hsplit]
    exact List.suffix_append _ _
  obtain ⟨d, hd, rfl⟩ := exists_folders hrest hsuffix
  refine accepts_iff_flatten.mpr ⟨[['/'], d, [], last], ?_, by simp⟩
  exact .cons (.literal '/') (.cons hd (.cons .nowhere (.cons (.run hlast) .nil)))

theorem rtake_succ_eq_nil {α : Type} {l : List α} {n : Nat} (h : l.rtake (n + 1) = []) :
    l = [] := by
  rcases List.eq_nil_or_concat l with rfl | ⟨front, a, rfl⟩
  · rfl
  · rw [List.concat_eq_append, List.rtake_concat_succ] at h
    exact absurd h (by simp)

theorem map_rtake {α β : Type} (f : α → β) (l : List α) (n : Nat) :
    (l.map f).rtake n = (l.rtake n).map f := by
  rw [List.rtake, List.rtake, List.map_drop, List.length_map]

theorem rtake_written {xs ys : List String} {n : Nat} (h : xs.rtake (n + 1) = ys.rtake (n + 1)) :
    (if xs = [] then [[]] else xs.map String.toList).rtake (n + 1) =
      (if ys = [] then [[]] else ys.map String.toList).rtake (n + 1) := by
  by_cases hxs : xs = []
  · subst hxs
    rw [rtake_succ_eq_nil (h.symm.trans (List.rtake_nil _))]
  · have hys : ys ≠ [] := by
      rintro rfl
      exact hxs (rtake_succ_eq_nil (h.trans (List.rtake_nil _)))
    rw [if_neg hxs, if_neg hys, map_rtake, map_rtake, h]

/-- A pattern without a slash of whose `?` at most `n` stand for a slash is about the last `n + 1`
parts of a relative path.  Those are never more than one more than there are `?` in the pattern
between its first and its last character. -/
theorem isMatch_of_lastParts {text : String} {p : Pattern} (hslash : '/' ∉ text.toList)
    (hp : ofString? text = some p) :
    (∀ n x y, isRooted x = false → isRooted y = false →
      '\n' ∉ (normal x).toList → '\n' ∉ (normal y).toList →
      (normalParts x).rtake (n + 1) = (normalParts y).rtake (n + 1) →
      SlashesAtMost n p (normal x).toList → SlashesAtMost n p (normal y).toList →
      p.isMatch x = p.isMatch y) ∧
    ∀ x, isRooted x = false →
      SlashesAtMost (text.toList.tail.dropLast.count '?') p (normal x).toList := by
  obtain ⟨q, hq, helements⟩ := exists_elements hslash hp
  constructor
  · intro n x y hx hy hxfeed hyfeed hlast hxcount hycount
    obtain ⟨a, ha, hxparts⟩ := exists_normal_eq hx
    obtain ⟨b, hb, hyparts⟩ := exists_normal_eq hy
    rw [ha] at hxfeed hxcount
    rw [hb] at hyfeed hycount
    rw [isMatch, isMatch, ha, hb]
    have hparts : (a.splitOn '/').rtake (n + 1) = (b.splitOn '/').rtake (n + 1) := by
      rw [hxparts, hyparts]
      exact rtake_written hlast
    rcases helements with helements | ⟨-, rfl⟩
    · refine Bool.eq_iff_iff.mpr ⟨fun h => ?_, fun h => ?_⟩
      · exact accepts_of_lastParts hslash helements hq h hxcount
          (List.not_mem_of_not_mem_cons hyfeed) hparts
      · exact accepts_of_lastParts hslash helements hq h hycount
          (List.not_mem_of_not_mem_cons hxfeed) hparts.symm
    · rw [hq, accepts_of_empty (List.not_mem_of_not_mem_cons hxfeed),
        accepts_of_empty (List.not_mem_of_not_mem_cons hyfeed)]
  · intro x hx
    obtain ⟨rest, hrest, hparts⟩ := exists_normal_eq hx
    rw [hrest]
    exact slashesAtMost_inner hq helements (noEmptyPart_normal hparts)

/-- A `?` that stands for a slash, and one that ends the pattern and cannot. -/
theorem isMatch_of_lastParts_across :
    ∃ p, '/' ∉ "a?b*.?".toList ∧ ofString? "a?b*.?" = some p ∧
      isRooted "x/y/a/b1.c" = false ∧ isRooted "z/a/b1.c" = false ∧
      '\n' ∉ (normal "x/y/a/b1.c").toList ∧ '\n' ∉ (normal "z/a/b1.c").toList ∧
      (normalParts "x/y/a/b1.c").rtake 2 = (normalParts "z/a/b1.c").rtake 2 ∧
      SlashesAtMost 1 p (normal "x/y/a/b1.c").toList ∧
      SlashesAtMost 1 p (normal "z/a/b1.c").toList ∧
      p.isMatch "x/y/a/b1.c" = p.isMatch "z/a/b1.c" ∧ p.isMatch "z/a/b1.c" = true := by
  let p : Pattern := [.literal '/', .anyDirectories, .literal 'a', .anyChar, .literal 'b', .anyRun,
    .literal '.', .anyChar]
  have hslash : '/' ∉ "a?b*.?".toList := by decide
  have hp : ofString? "a?b*.?" = some p := by decide
  obtain ⟨hmatch, hinner⟩ := isMatch_of_lastParts hslash hp
  have hx : isRooted "x/y/a/b1.c" = false := by decide
  have hy : isRooted "z/a/b1.c" = false := by decide
  have hxfeed : '\n' ∉ (normal "x/y/a/b1.c").toList := by decide
  have hyfeed : '\n' ∉ (normal "z/a/b1.c").toList := by decide
  have hlast : (normalParts "x/y/a/b1.c").rtake 2 = (normalParts "z/a/b1.c").rtake 2 := by decide
  have hcount : "a?b*.?".toList.tail.dropLast.count '?' = 1 := by decide
  have hxcount := hcount ▸ hinner _ hx
  have hycount := hcount ▸ hinner _ hy
  exact ⟨p, hslash, hp, hx, hy, hxfeed, hyfeed, hlast, hxcount, hycount,
    hmatch 1 _ _ hx hy hxfeed hyfeed hlast hxcount hycount, by decide +kernel⟩

/-- The last part of a path alone does not decide: `?` stands for the slash of `a/b`. -/
theorem not_isMatch_of_lastPart :
    ¬∀ (text : String) (p : Pattern), '/' ∉ text.toList → ofString? text = some p →
      ∀ x y : String, isRooted x = false → isRooted y = false →
        normal x = "/" ++ x → normal y = "/" ++ y → '\n' ∉ x.toList → '\n' ∉ y.toList →
        (normalParts x).getLast? = (normalParts y).getLast? → p.isMatch x = p.isMatch y := by
  intro h
  have hread : ofString? "a?b" =
      some [.literal '/', .anyDirectories, .literal 'a', .anyChar, .literal 'b'] := by decide
  have hsame := h "a?b" _ (by decide) hread "a/b" "b" (by decide) (by decide) (by decide)
    (by decide) (by decide) (by decide) (by decide)
  exact absurd hsame (by decide +kernel)

end Beautifier.Path.Pattern
