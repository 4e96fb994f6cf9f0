/-
Normal forms of paths.

What is left of the parts of a path is ordinary names, and in front of them
`..` as often as a relative path leads out of the folder it starts from
(`Canonical`).  Each part keeps this (`Canonical.descend`), so that all parts
of a path do (`canonical_normalParts`).

A part that is empty or `.`, and a name with `..` behind it, change nothing
in the middle of a path.  A file has one normal form however its path is
spelt in these ways, and patterns and rules see nothing else
(`normal_canonical`).
-/
import Beautifier.Proofs.Text.Pieces
import Beautifier.Rules.Rule

namespace Beautifier.Path

/-! ## The shape of a normal form -/

/-- The parts of a normal form. -/
structure Canonical (rooted : Bool) (parts : List String) : Prop where
  plain : ∀ part ∈ parts, part ≠ "" ∧ part ≠ "." ∧ '/' ∉ part.toList
  /-- `..` stands in front, and only in a relative path. -/
  leading : ∃ ups names, parts = List.replicate ups ".." ++ names ∧ ".." ∉ names ∧
    (rooted = true → ups = 0)

variable {rooted : Bool} {kept : List String} {part : String}

theorem canonical_nil : Canonical rooted [] :=
  ⟨fun _ h => absurd h List.not_mem_nil, 0, [], rfl, List.not_mem_nil, fun _ => rfl⟩

theorem Canonical.name (h : Canonical rooted kept.reverse)
    (hpart : part ≠ "" ∧ part ≠ "." ∧ '/' ∉ part.toList) (hup : part ≠ "..") :
    Canonical rooted (part :: kept).reverse := by
  obtain ⟨ups, names, hkept, hnames, hrooted⟩ := h.leading
  rw [List.reverse_cons]
  refine ⟨?_, ups, names ++ [part], ?_, ?_, hrooted⟩
  · intro p hp
    rcases List.mem_append.mp hp with hp | hp
    · exact h.plain p hp
    · exact List.mem_singleton.mp hp ▸ hpart
  · rw [hkept, List.append_assoc]
  · intro hmem
    rcases List.mem_append.mp hmem with hmem | hmem
    · exact hnames hmem
    · exact hup (List.mem_singleton.mp hmem).symm

/-- Behind a name `..` takes it away; the other parts stand as they did. -/
theorem Canonical.outer {last : String} {outer : List String}
    (h : Canonical rooted (last :: outer).reverse) (hlast : last ≠ "..") :
    Canonical rooted outer.reverse := by
  obtain ⟨ups, names, hkept, hnames, hrooted⟩ := h.leading
  rw [List.reverse_cons] at hkept
  have houter : ∀ p ∈ outer.reverse, p ∈ (last :: outer).reverse := by
    intro p hp
    exact List.mem_reverse.mpr (List.mem_cons_of_mem _ (List.mem_reverse.mp hp))
  refine ⟨fun p hp => h.plain p (houter p hp), ?_⟩
  rcases List.eq_nil_or_concat names with rfl | ⟨names, name, rfl⟩
  · -- all that is kept is `..`, the last part too
    rw [List.append_nil] at hkept
    have hmem : last ∈ List.replicate ups ".." := hkept ▸ List.mem_concat_self
    exact absurd (List.eq_of_mem_replicate hmem) hlast
  · rw [List.concat_eq_append, ← List.append_assoc] at hkept
    obtain ⟨hsplit, -⟩ := List.append_inj' hkept rfl
    refine ⟨ups, names, hsplit, fun hmem => hnames ?_, hrooted⟩
    exact List.concat_eq_append ▸ List.mem_append_left _ hmem

theorem Canonical.up {outer : List String} (h : Canonical false (".." :: outer).reverse) :
    Canonical false (".." :: ".." :: outer).reverse := by
  obtain ⟨ups, names, hkept, hnames, -⟩ := h.leading
  rw [List.reverse_cons (a := "..")]
  refine ⟨?_, ups + 1, [], ?_, List.not_mem_nil, fun hrooted => absurd hrooted (by decide)⟩
  · intro p hp
    rcases List.mem_append.mp hp with hp | hp
    · exact h.plain p hp
    · exact List.mem_singleton.mp hp ▸ by decide
  · rcases List.eq_nil_or_concat names with rfl | ⟨names, name, rfl⟩
    · rw [hkept, List.append_nil, List.append_nil, List.replicate_succ']
    · rw [List.reverse_cons, List.concat_eq_append, ← List.append_assoc] at hkept
      obtain ⟨-, hlast⟩ := List.append_inj' hkept rfl
      refine absurd ?_ hnames
      rw [List.concat_eq_append, ← hlast]
      exact List.mem_concat_self

theorem Canonical.descend (h : Canonical rooted kept.reverse)
    (hpart : part ≠ "" ∧ part ≠ "." ∧ '/' ∉ part.toList) :
    Canonical rooted (descend rooted kept part).reverse := by
  by_cases hup : part = ".."
  · subst hup
    cases kept with
    | nil =>
        cases rooted with
        | true => exact canonical_nil
        | false =>
            refine ⟨?_, 1, [], rfl, List.not_mem_nil, fun h => absurd h (by decide)⟩
            intro p hp
            exact List.mem_singleton.mp hp ▸ by decide
    | cons last outer =>
        by_cases hlast : last = ".."
        · subst hlast
          cases rooted with
          | true => exact h
          | false => exact h.up
        · have hdescend : Path.descend rooted (last :: outer) ".." = outer := by
            simp [Path.descend, hlast]
          rw [hdescend]
          exact h.outer hlast
  · have hdescend : Path.descend rooted kept part = part :: kept := by
      simp [Path.descend, hup]
    rw [hdescend]
    exact h.name hpart hup

theorem plain_of_mem_components {path : String} (h : part ∈ components path) :
    part ≠ "" ∧ part ≠ "." ∧ '/' ∉ part.toList := by
  obtain ⟨hpiece, hplain⟩ := List.mem_filter.mp h
  obtain ⟨piece, hmem, rfl⟩ := List.mem_map.mp hpiece
  simp only [Bool.and_eq_true, bne_iff_ne] at hplain
  refine ⟨hplain.1, hplain.2, ?_⟩
  intro hslash
  rw [String.toList_ofList] at hslash
  exact absurd (of_mem_pieces hmem hslash).2 (by decide)

theorem canonical_foldl {parts : List String}
    (hparts : ∀ part ∈ parts, part ≠ "" ∧ part ≠ "." ∧ '/' ∉ part.toList)
    (h : Canonical rooted kept.reverse) :
    Canonical rooted (parts.foldl (descend rooted) kept).reverse := by
  induction parts generalizing kept with
  | nil => exact h
  | cons part parts ih =>
      obtain ⟨hpart, hparts⟩ := List.forall_mem_cons.mp hparts
      exact ih hparts (h.descend hpart)

theorem canonical_normalParts (path : String) : Canonical (isRooted path) (normalParts path) :=
  canonical_foldl (fun _ h => plain_of_mem_components h) canonical_nil

/-! ## The text of a normal form -/

theorem head?_intercalate_ne {parts : List String}
    (hparts : ∀ part ∈ parts, part ≠ "" ∧ part ≠ "." ∧ '/' ∉ part.toList) :
    ("/".intercalate parts).toList.head? ≠ some '/' := by
  cases parts with
  | nil => exact fun h => absurd h (by decide)
  | cons part parts =>
      obtain ⟨hempty, -, hslash⟩ := hparts part List.mem_cons_self
      cases hchars : part.toList with
      | nil => exact absurd (String.toList_eq_nil_iff.mp hchars) hempty
      | cons c chars =>
          have hhead : ("/".intercalate (part :: parts)).toList.head? = some c := by
            cases parts with
            | nil => rw [String.intercalate_singleton, hchars, List.head?_cons]
            | cons next parts =>
                rw [String.intercalate_cons_cons]
                simp [hchars]
          rw [hhead]
          rintro ⟨⟩
          exact hslash (hchars ▸ List.mem_cons_self)

theorem doubled_slash_iff (path : String) :
    ['/', '/'] <+: (normal path).toList ↔ isRooted path = true := by
  cases hrooted : isRooted path with
  | true =>
      refine iff_of_true ?_ rfl
      rw [normal, hrooted, if_pos rfl, String.toList_append]
      exact List.prefix_append _ _
  | false =>
      refine iff_of_false ?_ (by decide)
      rw [normal, hrooted, if_neg (by decide), String.toList_append]
      intro hprefix
      obtain ⟨rest, hrest⟩ := hprefix
      have hbehind : '/' :: rest = ("/".intercalate (normalParts path)).toList := by
        simpa using congrArg List.tail hrest
      refine head?_intercalate_ne (canonical_normalParts path).plain ?_
      rw [← hbehind, List.head?_cons]

/-! ## Spellings of one path -/

/-- The name of a file or folder. -/
structure IsName (name : String) : Prop where
  ne_empty : name ≠ ""
  ne_here : name ≠ "."
  ne_up : name ≠ ".."
  slashless : '/' ∉ name.toList

theorem components_append (a b : String) :
    components (a ++ "/" ++ b) = components a ++ components b := by
  have hchars : (a ++ "/" ++ b).toList = a.toList ++ '/' :: b.toList := by simp
  have hpieces : pieces (· == '/') (a.toList ++ '/' :: b.toList) =
      pieces (· == '/') a.toList ++ pieces (· == '/') b.toList :=
    pieces_append_sep _ _ (by decide)
  simp only [components, hchars, hpieces, List.map_append, List.filter_append]

theorem components_of_slashless {text : String} (h : '/' ∉ text.toList) :
    components text = [text].filter fun part => part != "" && part != "." := by
  have hpieces : pieces (· == '/') text.toList = [text.toList] := by
    refine pieces_of_forall_not ?_
    intro c hc
    exact beq_eq_false_iff_ne.mpr fun heq => h (heq ▸ hc)
  rw [components, hpieces, List.map_singleton, String.ofList_toList]

theorem components_up : components ".." = [".."] := by
  rw [components_of_slashless (by decide)]
  rfl

theorem IsName.components_eq {name : String} (h : IsName name) : components name = [name] := by
  rw [components_of_slashless h.slashless]
  simp [h.ne_empty, h.ne_here]

theorem isRooted_append {a : String} (h : a ≠ "") (b : String) :
    isRooted (a ++ b) = isRooted a := by
  cases ha : a.toList with
  | nil => exact absurd (String.toList_eq_nil_iff.mp ha) h
  | cons c chars => simp [isRooted, ha]

/-- Where a path starts and what is left of its parts is all that its normal form shows. -/
theorem normal_eq_of_foldl {a b : String} (hrooted : isRooted a = isRooted b)
    (hparts : (components a).foldl (descend (isRooted a)) [] =
      (components b).foldl (descend (isRooted a)) []) : normal a = normal b := by
  rw [normal, normal, normalParts, normalParts, ← hrooted, hparts]

theorem descend_name_up {name : String} (h : IsName name) :
    descend rooted (descend rooted kept name) ".." = kept := by
  simp [descend, h.ne_up]

theorem normal_behind_up {folder : String} (hfolder : folder ≠ "") {name : String}
    (hname : IsName name) (rest : String) :
    normal (folder ++ "/" ++ name ++ "/../" ++ rest) = normal (folder ++ "/" ++ rest) := by
  have hspelt : folder ++ "/" ++ name ++ "/../" ++ rest
      = folder ++ "/" ++ (name ++ "/" ++ (".." ++ "/" ++ rest)) := by
    simp [← String.toList_inj]
  rw [hspelt]
  refine normal_eq_of_foldl ?_ ?_
  · simp only [String.append_assoc, isRooted_append hfolder]
  · simp only [components_append, hname.components_eq, components_up, List.foldl_append,
      List.foldl_cons, List.foldl_nil, descend_name_up hname]

/-- A part without a meaning may stand in a path or not. -/
theorem normal_between {folder : String} (hfolder : folder ≠ "") {part : String}
    (hpart : components part = []) (rest : String) :
    normal (folder ++ "/" ++ (part ++ "/" ++ rest)) = normal (folder ++ "/" ++ rest) := by
  refine normal_eq_of_foldl ?_ ?_
  · simp only [String.append_assoc, isRooted_append hfolder]
  · rw [components_append, components_append, components_append, hpart, List.nil_append]

/-- The path of `rest` below a folder, with a detour through a folder `name` in it, with a step
that stays in the folder, and with a doubled slash. -/
def respellings (folder name rest : String) : List String :=
  [folder ++ "/" ++ name ++ "/../" ++ rest, folder ++ "/./" ++ rest, folder ++ "//" ++ rest]

theorem normal_of_mem_respellings {folder name rest spelling : String} (hfolder : folder ≠ "")
    (hname : IsName name) (h : spelling ∈ respellings folder name rest) :
    normal spelling = normal (folder ++ "/" ++ rest) := by
  simp only [respellings, List.mem_cons, List.not_mem_nil, or_false] at h
  rcases h with rfl | rfl | rfl
  · exact normal_behind_up hfolder hname rest
  · have hspelt : folder ++ "/./" ++ rest = folder ++ "/" ++ ("." ++ "/" ++ rest) := by
      simp [← String.toList_inj]
    rw [hspelt]
    exact normal_between hfolder (components_of_slashless (by decide)) rest
  · have hspelt : folder ++ "//" ++ rest = folder ++ "/" ++ ("" ++ "/" ++ rest) := by
      simp [← String.toList_inj]
    rw [hspelt]
    exact normal_between hfolder (components_of_slashless (by decide)) rest

/-! ## The main result -/

/-- A normal form is a slash, a second one exactly if the path is absolute, and plain parts with
slashes between them, of which `..` is only in front of a relative path.  Respellings of a path
have its normal form, are matched by the same patterns and formatted under the same rule. -/
theorem normal_canonical (path : String) :
    (∃ parts, Canonical (isRooted path) parts ∧
      normal path = (if isRooted path then "//" else "/") ++ "/".intercalate parts) ∧
    (['/', '/'] <+: (normal path).toList ↔ isRooted path = true) ∧
    ∀ name rest : String, path ≠ "" → IsName name → ∀ spelling ∈ respellings path name rest,
      normal spelling = normal (path ++ "/" ++ rest) ∧
      (∀ ps, Pattern.anyMatch ps spelling = Pattern.anyMatch ps (path ++ "/" ++ rest)) ∧
      ∀ rules : Rules, rules.select spelling = rules.select (path ++ "/" ++ rest) := by
  refine ⟨⟨_, canonical_normalParts path, rfl⟩, doubled_slash_iff path, ?_⟩
  intro name rest hpath hname spelling hspelling
  have hnormal := normal_of_mem_respellings hpath hname hspelling
  have hmatch : ∀ ps, Pattern.anyMatch ps spelling = Pattern.anyMatch ps (path ++ "/" ++ rest) := by
    intro ps
    simp only [Pattern.anyMatch, Pattern.isMatch, hnormal]
  refine ⟨hnormal, hmatch, ?_⟩
  intro rules
  simp only [Rules.select, Rule.covers, hmatch]

/-- A detour below a folder outside, in front of two steps up. -/
theorem normal_canonical_outside :
    "../a" ≠ "" ∧ IsName "b" ∧ "../a/b/../../../c.h" ∈ respellings "../a" "b" "../../c.h" ∧
      normal "../a/b/../../../c.h" = normal "../a/../../c.h" ∧
      normal "../a/../../c.h" = "/../../c.h" := by
  have hname : IsName "b" := ⟨by decide, by decide, by decide, by decide⟩
  have hspelling : "../a/b/../../../c.h" ∈ respellings "../a" "b" "../../c.h" := by decide
  have hnormal := (normal_canonical "../a").2.2 "b" "../../c.h" (by decide) hname _ hspelling
  exact ⟨by decide, hname, hspelling, hnormal.1, by decide⟩

end Beautifier.Path
