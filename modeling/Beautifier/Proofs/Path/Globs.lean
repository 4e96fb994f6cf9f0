/-
Patterns part by part.

A pattern without `?` in which two stars are always a whole part matches a
path as a list of parts matches a list of parts (`Globs`): two stars match
any number of parts, and any other part one, in which `*` stands for any run
of characters and everything else for itself.

The pattern is read as the elements of its parts with slashes between them
(`accepts_iff_globs`, by induction on the parts), and neither a run nor a
character of a part can be a slash, so that the slashes of pattern and path
meet.  Its regular expression finds the same paths (`finds_iff_globs`).
-/
import Beautifier.Proofs.Path.RegularExpression
import Beautifier.Proofs.Path.Canonical

namespace Beautifier.Path.Pattern

variable {part text : List Char} {parts texts : List (List Char)} {p q : Pattern}

/-! ## Matching by parts -/

/-- `*` stands for any run of characters, and any other character for itself. -/
inductive Wild : List Char → List Char → Prop
  | nil : Wild [] []
  | star {part text : List Char} (run : List Char) :
      Wild part text → Wild ('*' :: part) (run ++ text)
  | char {c : Char} {part text : List Char} :
      c ≠ '*' → Wild part text → Wild (c :: part) (c :: text)

/-- Two stars match any number of parts, any other part exactly one. -/
inductive Globs : List (List Char) → List (List Char) → Prop
  | nil : Globs [] []
  | stars {parts texts : List (List Char)} (skipped : List (List Char)) :
      Globs parts texts → Globs (['*', '*'] :: parts) (skipped ++ texts)
  | part {part text : List Char} {parts texts : List (List Char)} :
      part ≠ ['*', '*'] → Wild part text → Globs parts texts → Globs (part :: parts) (text :: texts)

/-- The parts of a text between slashes, behind the slash that it starts with. -/
def slashParts (text : List Char) : List (List Char) := text.tail.splitOn '/'

/-- A part of a pattern in which two stars are all, and without `?`. -/
structure IsPart (part : List Char) : Prop where
  slashless : '/' ∉ part
  noQuery : '?' ∉ part
  whole : ['*', '*'] <:+: part → part = ['*', '*']

/-! ## One part -/

theorem accepts_append :
    (p ++ q).accepts text = true ↔
      ∃ u v, text = u ++ v ∧ p.accepts u = true ∧ q.accepts v = true := by
  induction p generalizing text with
  | nil =>
      constructor
      · exact fun h => ⟨[], text, rfl, rfl, h⟩
      · rintro ⟨u, v, rfl, hu, hv⟩
        rw [accepts_nil.mp hu]
        exact hv
  | cons piece p ih =>
      rw [List.cons_append, accepts_cons]
      constructor
      · rintro ⟨u, v, rfl, hu, hv⟩
        obtain ⟨v, w, rfl, hv, hw⟩ := ih.mp hv
        exact ⟨u ++ v, w, by simp, accepts_cons.mpr ⟨u, v, rfl, hu, hv⟩, hw⟩
      · rintro ⟨u, w, rfl, hu, hw⟩
        obtain ⟨u, v, rfl, hu, hv⟩ := accepts_cons.mp hu
        exact ⟨u, v ++ w, by simp, hu, ih.mpr ⟨v, w, rfl, hv, hw⟩⟩

/-- The elements of a part stand for the texts that match it and have no slash. -/
theorem accepts_charPieces (hslash : '/' ∉ part) (hquery : '?' ∉ part) :
    accepts (part.map charPiece) text = true ↔ '/' ∉ text ∧ Wild part text := by
  induction part generalizing text with
  | nil =>
      rw [List.map_nil, accepts_nil]
      constructor
      · rintro rfl
        exact ⟨List.not_mem_nil, .nil⟩
      · rintro ⟨-, h⟩
        cases h
        rfl
  | cons c part ih =>
      obtain ⟨hc, hpart⟩ := List.ne_and_not_mem_of_not_mem_cons hslash
      obtain ⟨hnot, hrest⟩ := List.ne_and_not_mem_of_not_mem_cons hquery
      have ih : ∀ text, accepts (part.map charPiece) text = true ↔ '/' ∉ text ∧ Wild part text :=
        fun _ => ih hpart hrest
      by_cases hstar : c = '*'
      · subst hstar
        rw [List.map_cons, charPiece, if_pos rfl, accepts_cons]
        constructor
        · rintro ⟨u, v, rfl, hu, hv⟩
          cases hu with
          | run hu =>
              obtain ⟨hslashless, hwild⟩ := (ih v).mp hv
              exact ⟨List.not_mem_append hu hslashless, .star u hwild⟩
        · rintro ⟨hslashless, hwild⟩
          cases hwild with
          | star run hwild =>
              rw [List.mem_append, not_or] at hslashless
              exact ⟨run, _, rfl, .run hslashless.1, (ih _).mpr ⟨hslashless.2, hwild⟩⟩
          | char hc _ => exact absurd rfl hc
      · rw [List.map_cons, charPiece, if_neg hstar, if_neg (Ne.symm hnot), accepts_literal]
        constructor
        · rintro ⟨v, rfl, hv⟩
          obtain ⟨hslashless, hwild⟩ := (ih v).mp hv
          exact ⟨List.not_mem_cons_of_ne_of_not_mem hc hslashless, .char hstar hwild⟩
        · rintro ⟨hslashless, hwild⟩
          cases hwild with
          | star => exact absurd rfl hstar
          | char _ hwild =>
              have hrest := List.not_mem_of_not_mem_cons hslashless
              exact ⟨_, rfl, (ih _).mpr ⟨hrest, hwild⟩⟩

theorem IsPart.starsApart (h : IsPart part) (hstars : part ≠ ['*', '*']) : StarsApart part :=
  fun hinfix => hstars (h.whole hinfix)

theorem elements?_part_slash (h : IsPart part) (hstars : part ≠ ['*', '*']) (rest : List Char) :
    elements? (part ++ '/' :: rest) =
      (elements? rest).map fun q => part.map charPiece ++ .literal '/' :: q := by
  rw [elements?_append (h.starsApart hstars) (by simp), elements?_cons (by simp), Option.map_map]
  rfl

/-! ## All parts -/

theorem accepts_anyDirectories :
    accepts (.anyDirectories :: q) text = true ↔
      q.accepts text = true ∨ ∃ d v, text = d ++ '/' :: v ∧ '\n' ∉ d ∧ q.accepts v = true := by
  rw [accepts_cons]
  constructor
  · rintro ⟨u, v, rfl, hu, hv⟩
    cases hu with
    | nowhere => exact .inl hv
    | directories hd => exact .inr ⟨_, v, by simp, hd, hv⟩
  · rintro (h | ⟨d, v, rfl, hd, hv⟩)
    · exact ⟨[], text, rfl, .nowhere, h⟩
    · exact ⟨d ++ ['/'], v, by simp, .directories hd, hv⟩

theorem globs_stars :
    Globs (['*', '*'] :: parts) texts ↔
      ∃ skipped rest, texts = skipped ++ rest ∧ Globs parts rest := by
  constructor
  · intro h
    cases h with
    | stars skipped h => exact ⟨skipped, _, rfl, h⟩
    | part hne => exact absurd rfl hne
  · rintro ⟨skipped, rest, rfl, h⟩
    exact .stars skipped h

theorem globs_part (hstars : part ≠ ['*', '*']) :
    Globs (part :: parts) texts ↔
      ∃ text rest, texts = text :: rest ∧ Wild part text ∧ Globs parts rest := by
  constructor
  · intro h
    cases h with
    | stars => exact absurd rfl hstars
    | part _ hwild h => exact ⟨_, _, rfl, hwild, h⟩
  · rintro ⟨text, rest, rfl, hwild, h⟩
    exact .part hstars hwild h

/-- A pattern matches as some parts do, which do not match nothing at all. -/
structure ByParts (p : Pattern) (parts : List (List Char)) : Prop where
  ne_nil : ∀ {texts : List (List Char)}, Globs parts texts → texts ≠ []
  accepts_iff : ∀ {text : List Char}, '\n' ∉ text →
    (p.accepts text = true ↔ Globs parts (text.splitOn '/'))

theorem byParts_last (h : IsPart part) (hstars : part ≠ ['*', '*']) :
    ByParts (part.map charPiece) [part] := by
  refine ⟨?_, ?_⟩
  · intro texts hglobs
    obtain ⟨text, rest, rfl, -, -⟩ := (globs_part hstars).mp hglobs
    exact List.cons_ne_nil _ _
  · intro text _
    rw [accepts_charPieces h.slashless h.noQuery, globs_part hstars]
    constructor
    · rintro ⟨hslashless, hwild⟩
      exact ⟨text, [], List.splitOn_eq_singleton hslashless, hwild, .nil⟩
    · rintro ⟨piece, rest, hsplit, hwild, hrest⟩
      cases hrest
      obtain ⟨rfl, hslashless⟩ := of_splitOn_eq_singleton hsplit
      exact ⟨hslashless, hwild⟩

theorem ByParts.stars (h : ByParts p parts) :
    ByParts (.anyDirectories :: p) (['*', '*'] :: parts) := by
  refine ⟨?_, ?_⟩
  · intro texts hglobs
    obtain ⟨skipped, rest, rfl, hrest⟩ := globs_stars.mp hglobs
    exact List.append_ne_nil_of_right_ne_nil _ (h.ne_nil hrest)
  · intro text htext
    rw [accepts_anyDirectories, globs_stars]
    constructor
    · rintro (haccepts | ⟨d, v, rfl, -, haccepts⟩)
      · exact ⟨[], _, rfl, (h.accepts_iff htext).mp haccepts⟩
      · have hv : '\n' ∉ v := fun hmem => htext (by simp [hmem])
        rw [List.splitOn_append_cons_self]
        exact ⟨_, _, rfl, (h.accepts_iff hv).mp haccepts⟩
    · rintro ⟨skipped, rest, hsplit, hglobs⟩
      cases skipped with
      | nil => exact .inl ((h.accepts_iff htext).mpr (hsplit ▸ hglobs))
      | cons piece skipped =>
          obtain ⟨d, v, rfl, -, rfl⟩ :=
            exists_of_splitOn_eq_append hsplit (List.cons_ne_nil _ _) (h.ne_nil hglobs)
          rw [List.mem_append, List.mem_cons, not_or, not_or] at htext
          exact .inr ⟨d, v, rfl, htext.1, (h.accepts_iff htext.2.2).mpr hglobs⟩

theorem ByParts.slash (h : ByParts p parts) (hpart : IsPart part) (hstars : part ≠ ['*', '*']) :
    ByParts (part.map charPiece ++ .literal '/' :: p) (part :: parts) := by
  refine ⟨?_, ?_⟩
  · intro texts hglobs
    obtain ⟨text, rest, rfl, -, -⟩ := (globs_part hstars).mp hglobs
    exact List.cons_ne_nil _ _
  · intro text htext
    rw [accepts_append, globs_part hstars]
    constructor
    · rintro ⟨u, w, rfl, hu, hw⟩
      obtain ⟨v, rfl, hv⟩ := accepts_literal.mp hw
      obtain ⟨hslashless, hwild⟩ := (accepts_charPieces hpart.slashless hpart.noQuery).mp hu
      have hfeed : '\n' ∉ v := fun hmem => htext (by simp [hmem])
      exact ⟨u, _, List.splitOn_append_cons_self_of_not_mem hslashless v, hwild,
        (h.accepts_iff hfeed).mp hv⟩
    · rintro ⟨piece, rest, hsplit, hwild, hglobs⟩
      have hsplit : text.splitOn '/' = [piece] ++ rest := hsplit
      obtain ⟨u, v, rfl, hu, rfl⟩ :=
        exists_of_splitOn_eq_append hsplit (List.cons_ne_nil _ _) (h.ne_nil hglobs)
      obtain ⟨rfl, hslashless⟩ := of_splitOn_eq_singleton hu
      have hfeed : '\n' ∉ v := fun hmem => htext (by simp [hmem])
      exact ⟨u, _, rfl, (accepts_charPieces hpart.slashless hpart.noQuery).mpr ⟨hslashless, hwild⟩,
        accepts_literal.mpr ⟨v, rfl, (h.accepts_iff hfeed).mpr hglobs⟩⟩

/-- What is read from parts with slashes between them matches as they do. -/
theorem byParts_of_elements? (hparts : ∀ part ∈ parts, IsPart part) (hne : parts ≠ [])
    (hp : elements? (['/'].intercalate parts) = some p) : ByParts p parts := by
  induction parts generalizing p with
  | nil => exact absurd rfl hne
  | cons part parts ih =>
      obtain ⟨hpart, hrest⟩ := List.forall_mem_cons.mp hparts
      by_cases hlast : parts = []
      · subst hlast
        rw [List.intercalate_singleton] at hp
        have hstars : part ≠ ['*', '*'] := by
          rintro rfl
          exact nomatch hp
        rw [elements?_of_starsApart (hpart.starsApart hstars), Option.some.injEq] at hp
        subst hp
        exact byParts_last hpart hstars
      · rw [List.intercalate_cons_of_ne_nil hlast, List.append_assoc, List.singleton_append] at hp
        by_cases hstars : part = ['*', '*']
        · subst hstars
          obtain ⟨q, hq, rfl⟩ := Option.map_eq_some_iff.mp hp
          exact (ih hrest hlast hq).stars
        · rw [elements?_part_slash hpart hstars] at hp
          obtain ⟨q, hq, rfl⟩ := Option.map_eq_some_iff.mp hp
          exact (ih hrest hlast hq).slash hpart hstars

/-! ## The parts of a pattern -/

theorem exists_started (text : List Char) :
    ∃ body,
      (if text.head? = some '/' then text else '/' :: '*' :: '*' :: '/' :: text) = '/' :: body ∧
      ∀ part ∈ body.splitOn '/', part ∈ text.splitOn '/' ∨ part = ['*', '*'] := by
  split
  next hhead =>
    obtain ⟨body, rfl⟩ := List.head?_eq_some_iff.mp hhead
    refine ⟨body, rfl, ?_⟩
    intro part hpart
    rw [← List.nil_append ('/' :: body), List.splitOn_append_cons_self]
    exact .inl (List.mem_append_right _ hpart)
  next =>
    refine ⟨'*' :: '*' :: '/' :: text, rfl, ?_⟩
    intro part hpart
    have hsplit : ('*' :: '*' :: '/' :: text).splitOn '/' = ['*', '*'] :: text.splitOn '/' :=
      List.splitOn_append_cons_self_of_not_mem (by decide : '/' ∉ ['*', '*']) text
    rw [hsplit, List.mem_cons] at hpart
    exact hpart.symm

/-- The parts of an anchored pattern are parts of the pattern, or the ones that anchor it. -/
theorem exists_anchored (text : List Char) :
    ∃ body, anchored text = '/' :: body ∧
      ∀ part ∈ body.splitOn '/', part ∈ text.splitOn '/' ∨ part = ['*', '*'] ∨ part = ['*'] := by
  obtain ⟨body, hstarted, hparts⟩ := exists_started text
  have hsuffix : ['*', '*', '/', '*'].splitOn '/' = [['*', '*'], ['*']] := by decide
  rw [anchored, hstarted]
  split
  next hlast =>
    refine ⟨body ++ ['*', '*', '/', '*'], rfl, ?_⟩
    rcases List.eq_nil_or_concat body with rfl | ⟨front, c, rfl⟩
    · intro part hpart
      rw [List.nil_append, hsuffix, List.mem_cons, List.mem_singleton] at hpart
      exact .inr hpart
    · -- the slash at the end of the pattern parts it from what is put behind it
      rw [List.concat_eq_append, ← List.cons_append, List.getLast?_concat,
        Option.some.injEq] at hlast
      subst hlast
      intro part hpart
      rw [List.concat_eq_append, List.append_assoc, List.singleton_append,
        List.splitOn_append_cons_self, hsuffix, List.mem_append, List.mem_cons,
        List.mem_singleton] at hpart
      rw [List.concat_eq_append, List.splitOn_append_cons_self] at hparts
      rcases hpart with hpart | hpart
      · exact (hparts part (List.mem_append_left _ hpart)).imp_right .inl
      · exact .inr hpart
  next =>
    refine ⟨body, rfl, ?_⟩
    intro part hpart
    exact (hparts part hpart).imp_right .inl

/-! ## The parts of a path -/

theorem exists_normal_eq {path : String} (h : isRooted path = false) :
    ∃ rest, (normal path).toList = '/' :: rest ∧
      rest.splitOn '/' =
        if normalParts path = [] then [[]] else (normalParts path).map String.toList := by
  have hslash : "/".toList = ['/'] := by decide
  refine ⟨['/'].intercalate ((normalParts path).map String.toList), ?_, ?_⟩
  · rw [normal, h, if_neg (by decide), String.toList_append, String.toList_intercalate, hslash,
      List.singleton_append]
  · split
    next hnone =>
      rw [hnone]
      rfl
    next hsome =>
      refine List.splitOn_intercalate _ ?_ (by simpa using hsome)
      intro part hpart
      obtain ⟨name, hname, rfl⟩ := List.mem_map.mp hpart
      exact ((canonical_normalParts path).plain name hname).2.2

/-! ## The main result -/

/-- Where all parts of a pattern are fit, the anchored pattern matches by its parts. -/
theorem accepts_iff_globs {body : List Char} (hbody : anchored text = '/' :: body)
    (hparts : ∀ part ∈ body.splitOn '/', IsPart part) (hp : elements? (anchored text) = some p)
    {rest : List Char} (hrest : '\n' ∉ rest) :
    p.accepts ('/' :: rest) = true ↔ Globs (body.splitOn '/') (rest.splitOn '/') := by
  rw [hbody, elements?_cons fun h => absurd h (by decide)] at hp
  obtain ⟨q, hq, rfl⟩ := Option.map_eq_some_iff.mp hp
  have hbyParts : ByParts q (body.splitOn '/') := by
    refine byParts_of_elements? hparts (List.splitOn_ne_nil _ _) ?_
    rw [List.intercalate_splitOn]
    exact hq
  have hslash : charPiece '/' = .literal '/' := rfl
  rw [hslash, accepts_literal, ← hbyParts.accepts_iff hrest]
  constructor
  · rintro ⟨v, heq, hv⟩
    obtain ⟨-, rfl⟩ := List.cons.inj heq
    exact hv
  · exact fun h => ⟨rest, rfl, h⟩

/-- A text is refused as a pattern exactly if two stars of it stand in front of something else than
a slash.  A pattern without `?` in which two stars are always a whole part finds a relative path
exactly if its parts, once it is anchored, match the parts of the path in order.  The parts are
those between slashes behind the first one; only a path of which nothing is left, whose normal form
is the slash alone, has an empty part. -/
theorem finds_iff_globs (text : String) :
    (ofString? text = none ↔ BareStars text.toList) ∧
    ∀ p, ofString? text = some p → '?' ∉ text.toList →
      (∀ part ∈ text.toList.splitOn '/', ['*', '*'] <:+: part → part = ['*', '*']) →
      ∃ r, Regex.ofString? p.regex = some r ∧
        ∀ path, isRooted path = false → '\n' ∉ (normal path).toList →
          (p.isMatch path = true ↔ r.Finds (normal path).toList) ∧
          (r.Finds (normal path).toList ↔
            Globs (slashParts (anchored text.toList)) (slashParts (normal path).toList)) ∧
          slashParts (normal path).toList =
            if normalParts path = [] then [[]] else (normalParts path).map String.toList := by
  refine ⟨ofString?_eq_none_iff text, ?_⟩
  intro p hp hquery hwhole
  obtain ⟨r, hr, hfinds⟩ := Regex.exists_ofString?_regex p
  refine ⟨r, hr, ?_⟩
  intro path hrelative hfeed
  obtain ⟨rest, hrest, hnames⟩ := exists_normal_eq hrelative
  rw [hrest] at hfeed
  obtain ⟨body, hbody, hmem⟩ := exists_anchored text.toList
  have hparts : ∀ part ∈ body.splitOn '/', IsPart part := by
    intro part hpart
    rcases hmem part hpart with hpart | rfl | rfl
    · refine ⟨not_mem_of_mem_splitOn hpart, fun hin => hquery ?_, hwhole part hpart⟩
      rw [← pieces_eq_splitOn] at hpart
      exact mem_of_mem_pieces hpart hin
    · exact ⟨by decide, by decide, fun _ => rfl⟩
    · exact ⟨by decide, by decide, by decide⟩
  refine ⟨(hfinds _).symm, ?_, hrest ▸ hnames⟩
  rw [hfinds, hrest, hbody]
  exact accepts_iff_globs hbody hparts hp (List.not_mem_of_not_mem_cons hfeed)

/-- Two stars between two parts, one of which has characters with a meaning of their own in a
regular expression. -/
theorem finds_iff_globs_plus :
    ∃ p, p.regex = "^/(?:.*/)?c\\+\\+/(?:.*/)?[^/]*[.]h$" ∧ ofString? "c++/**/*.h" = some p ∧
      '?' ∉ "c++/**/*.h".toList ∧
      (∀ part ∈ "c++/**/*.h".toList.splitOn '/', ['*', '*'] <:+: part → part = ['*', '*']) ∧
      isRooted "c++/./a/b/x.h" = false ∧ '\n' ∉ (normal "c++/./a/b/x.h").toList ∧
      Globs (slashParts (anchored "c++/**/*.h".toList))
        (slashParts (normal "c++/./a/b/x.h").toList) := by
  let p : Pattern := [.literal '/', .anyDirectories, .literal 'c', .literal '+', .literal '+',
    .literal '/', .anyDirectories, .anyRun, .literal '.', .literal 'h']
  have hread : ofString? "c++/**/*.h" = some p := by decide
  have hwhole : ∀ part ∈ "c++/**/*.h".toList.splitOn '/',
      ['*', '*'] <:+: part → part = ['*', '*'] := by
    decide +kernel
  obtain ⟨r, -, hpaths⟩ := (finds_iff_globs "c++/**/*.h").2 p hread (by decide) hwhole
  obtain ⟨hmatch, hglobs, -⟩ := hpaths "c++/./a/b/x.h" (by decide) (by decide)
  have hfinds := hmatch.mp (by decide +kernel)
  exact ⟨p, by decide, hread, by decide, hwhole, by decide, by decide, hglobs.mp hfinds⟩

end Beautifier.Path.Pattern
