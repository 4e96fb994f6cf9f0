/-
The rule that a path is formatted under.

The rules of a text are its entries filled up, in their order, the one named
`DEFAULT` in front of all others (`filled_ofEntries`).  A path is formatted
under the last other rule that includes it (`isSelected_select`).  Only the
order of the other entries counts, so that `DEFAULT` may stand anywhere
(`ofEntries_moved`), and a rule behind all others takes the paths that it
includes and no other ones (`select_append`).  `select_rules` puts this
together for the files of a command line.
-/
import Mathlib.Data.List.Induction
import Mathlib.Data.List.Nodup
import Beautifier.Proofs.Rules.Entry
import Beautifier.Tool.Selection

namespace Beautifier

namespace Rules

variable {lib : RulesLibrary} {entries : List (String × Node)} {rules : Rules} {base : Rule}

/-! ## What entries stand for -/

/-- The value of the default entry; one that is missing says nothing. -/
def defaultValue (entries : List (String × Node)) : Node :=
  (entries.lookup Rule.defaultName).getD .null

def otherEntries (entries : List (String × Node)) : List (String × Node) :=
  entries.filter (·.1 != Rule.defaultName)

/-- Rules are entries filled up: the default one from the built-in rule, and the others, in their
order, from the default one. -/
structure Filled (entries : List (String × Node)) (rules : Rules) : Prop where
  base : Rule.builtin.FilledFrom Rule.defaultName (defaultValue entries) rules.base
  others : List.Forall₂ (fun entry r => rules.base.FilledFrom entry.1 entry.2 r)
    (otherEntries entries) rules.others

theorem find?_eq_lookup (entries : List (String × Node)) (name : String) :
    (entries.find? (·.1 == name)).map (·.2) = entries.lookup name := by
  induction entries with
  | nil => rfl
  | cons entry entries ih =>
      rw [List.find?_cons, List.lookup_cons, Bool.beq_comm]
      cases name == entry.1
      · exact ih
      · rfl

/-- Rules depend on the value of the default entry and on the other entries alone. -/
theorem ofEntries_eq (lib : RulesLibrary) (entries : List (String × Node)) :
    ofEntries lib entries =
      match Rule.ofNode lib .builtin Rule.defaultName (defaultValue entries) with
      | .error e => .error e
      | .ok base => (deriveAll lib base (otherEntries entries)).map (⟨base, ·⟩) := by
  rw [ofEntries, defaultValue, ← find?_eq_lookup, otherEntries]
  cases entries.find? (·.1 == Rule.defaultName) <;> rfl

theorem deriveAll_cons {name : String} {value : Node} {others : List Rule}
    (h : deriveAll lib base ((name, value) :: entries) = .ok others) :
    ∃ r rest, Rule.ofNode lib base name value = .ok r ∧ deriveAll lib base entries = .ok rest ∧
      others = r :: rest := by
  rw [deriveAll] at h
  split at h
  next => cases h
  next r hr =>
    obtain ⟨rest, hrest, rfl⟩ := of_map_eq_ok h
    exact ⟨r, rest, hr, hrest, rfl⟩

theorem forall₂_deriveAll {others : List Rule} (h : deriveAll lib base entries = .ok others) :
    List.Forall₂ (fun entry r => Rule.ofNode lib base entry.1 entry.2 = .ok r) entries others := by
  induction entries generalizing others with
  | nil =>
      cases h
      exact .nil
  | cons entry entries ih =>
      obtain ⟨r, rest, hr, hrest, rfl⟩ := deriveAll_cons h
      exact .cons hr (ih hrest)

theorem of_ofEntries (h : ofEntries lib entries = .ok rules) :
    Rule.ofNode lib .builtin Rule.defaultName (defaultValue entries) = .ok rules.base ∧
      deriveAll lib rules.base (otherEntries entries) = .ok rules.others := by
  rw [ofEntries_eq] at h
  split at h
  next => cases h
  next base hbase =>
    obtain ⟨others, hothers, rfl⟩ := of_map_eq_ok h
    exact ⟨hbase, hothers⟩

theorem filled_ofEntries (hlib : lib.ReadsEntries) (h : ofEntries lib entries = .ok rules) :
    rules.Filled entries := by
  obtain ⟨hbase, hothers⟩ := of_ofEntries h
  refine ⟨Rule.filledFrom_of_ofNode hlib hbase, ?_⟩
  exact (forall₂_deriveAll hothers).imp fun _ _ => Rule.filledFrom_of_ofNode hlib

/-! ## Distinct names -/

/-- Where no name is repeated, entries are taken as they are. -/
theorem mergeRepeated_of_nodup (h : (entries.map (·.1)).Nodup) :
    mergeRepeated entries = entries := by
  induction entries using List.reverseRecOn with
  | nil => rfl
  | append_singleton front entry ih =>
      obtain ⟨name, value⟩ := entry
      rw [List.map_append, List.nodup_append] at h
      obtain ⟨hfront, -, hne⟩ := h
      have hmerged : mergeRepeated front = front := ih hfront
      have hnew : ¬front.any (·.1 == name) = true := by
        intro hany
        obtain ⟨other, hother, hsame⟩ := List.any_eq_true.mp hany
        exact hne _ (List.mem_map_of_mem hother) _ (List.mem_singleton.mpr rfl)
          (beq_iff_eq.mp hsame)
      rw [mergeRepeated, List.foldl_append, ← mergeRepeated, hmerged]
      exact if_neg hnew

theorem read_eq {text : String} (hread : lib.entries text = some entries)
    (hdistinct : (entries.map (·.1)).Nodup) : Rules.readWith lib text = ofEntries lib entries := by
  rw [Rules.readWith, hread]
  exact congrArg (ofEntries lib) (mergeRepeated_of_nodup hdistinct)

/-! ## The rule of a path -/

end Rules

def Rule.Includes (r : Rule) (path : String) : Prop := ∃ p ∈ r.includes, p.isMatch path = true

theorem Rule.covers_iff {r : Rule} {path : String} : r.covers path = true ↔ r.Includes path :=
  List.any_eq_true

namespace Rules

variable {entries : List (String × Node)} {rules : Rules} {base : Rule} {path : String}

/-- A rule is the last other one that includes a path, or the default one if none does. -/
inductive IsSelected (rules : Rules) (path : String) : Rule → Prop
  | other {r : Rule} {front behind : List Rule} :
      rules.others = front ++ r :: behind → r.Includes path →
      (∀ later ∈ behind, ¬later.Includes path) → IsSelected rules path r
  | base : (∀ r ∈ rules.others, ¬r.Includes path) → IsSelected rules path rules.base

theorem isSelected_select (rules : Rules) (path : String) :
    rules.IsSelected path (rules.select path) := by
  rw [select]
  cases hfind : rules.others.reverse.find? (·.covers path) with
  | none =>
      refine .base ?_
      intro r hr hincludes
      exact List.find?_eq_none.mp hfind r (List.mem_reverse.mpr hr) (Rule.covers_iff.mpr hincludes)
  | some r =>
      obtain ⟨hcovers, behind, front, hsplit, hbehind⟩ := List.find?_eq_some_iff_append.mp hfind
      have hothers : rules.others = front.reverse ++ r :: behind.reverse := by
        rw [← List.reverse_reverse rules.others, hsplit]
        simp
      refine .other hothers (Rule.covers_iff.mp hcovers) ?_
      intro later hlater hincludes
      have hnot := hbehind later (List.mem_reverse.mp hlater)
      rw [Rule.covers_iff.mpr hincludes] at hnot
      exact absurd hnot (by decide)

theorem IsSelected.mem {r : Rule} (h : rules.IsSelected path r) :
    r = rules.base ∨ r ∈ rules.others := by
  cases h with
  | other hothers => exact .inr (hothers ▸ by simp)
  | base => exact .inl rfl

/-! ## Other places for entries -/

/-- Entries with the default one in another place. -/
inductive DefaultMoved : List (String × Node) → List (String × Node) → Prop
  | intro {value : Node} {front behind front' behind' : List (String × Node)} :
      front ++ behind = front' ++ behind' →
      DefaultMoved (front ++ (Rule.defaultName, value) :: behind)
        (front' ++ (Rule.defaultName, value) :: behind')

theorem otherEntries_around (value : Node) (front behind : List (String × Node)) :
    otherEntries (front ++ (Rule.defaultName, value) :: behind)
      = otherEntries (front ++ behind) := by
  simp [otherEntries, List.filter_append]

theorem defaultValue_around {value : Node} {front behind : List (String × Node)}
    (h : Rule.defaultName ∉ (front ++ behind).map (·.1)) :
    defaultValue (front ++ (Rule.defaultName, value) :: behind) = value := by
  have hfront : front.lookup Rule.defaultName = none := by
    refine List.lookup_eq_none_iff.mpr ?_
    intro entry hentry
    have hname : Rule.defaultName ≠ entry.1 := fun heq =>
      h (List.mem_map.mpr ⟨entry, List.mem_append_left _ hentry, heq.symm⟩)
    simpa using hname
  rw [defaultValue, List.lookup_append, hfront, List.lookup_cons_self]
  rfl

theorem DefaultMoved.perm {entries' : List (String × Node)} (h : DefaultMoved entries entries') :
    entries.Perm entries' := by
  cases h with
  | intro hsame =>
      refine List.perm_middle.trans ?_
      rw [hsame]
      exact List.perm_middle.symm

/-- The default rule may stand anywhere. -/
theorem ofEntries_moved {entries' : List (String × Node)} (h : DefaultMoved entries entries')
    (hdistinct : (entries.map (·.1)).Nodup) : ofEntries lib entries' = ofEntries lib entries := by
  cases h with
  | @intro value front behind front' behind' hsame =>
      have hnew : Rule.defaultName ∉ (front ++ behind).map (·.1) := by
        rw [List.map_append, List.map_cons] at hdistinct
        rw [List.map_append]
        exact (List.nodup_cons.mp (List.nodup_middle.mp hdistinct)).1
      rw [ofEntries_eq, ofEntries_eq, otherEntries_around, otherEntries_around,
        defaultValue_around hnew, defaultValue_around (hsame ▸ hnew), hsame]

/-- A rule behind all others. -/
theorem select_append (rules : Rules) (r : Rule) (path : String) :
    (r.Includes path → (⟨rules.base, rules.others ++ [r]⟩ : Rules).select path = r) ∧
      (¬r.Includes path →
        (⟨rules.base, rules.others ++ [r]⟩ : Rules).select path = rules.select path) := by
  rw [select, select, List.reverse_append, List.reverse_singleton, List.singleton_append,
    List.find?_cons]
  constructor
  · intro h
    rw [Rule.covers_iff.mpr h]
    rfl
  · intro h
    rw [Bool.eq_false_iff.mpr (mt Rule.covers_iff.mp h)]

/-! ## One more rule -/

theorem deriveAll_append {others : List Rule} {more : List (String × Node)} {all : List Rule}
    (h : deriveAll lib base entries = .ok others)
    (hall : deriveAll lib base (entries ++ more) = .ok all) :
    ∃ rest, deriveAll lib base more = .ok rest ∧ all = others ++ rest := by
  induction entries generalizing others all with
  | nil =>
      cases h
      exact ⟨all, hall, rfl⟩
  | cons entry entries ih =>
      obtain ⟨r, rest, hr, hrest, rfl⟩ := deriveAll_cons h
      obtain ⟨r', rest', hr', hrest', rfl⟩ := deriveAll_cons hall
      cases hr.symm.trans hr'
      obtain ⟨behind, hbehind, rfl⟩ := ih hrest hrest'
      exact ⟨behind, hbehind, rfl⟩

/-- An entry behind all others makes one more rule of the same default one. -/
theorem ofEntries_append {name : String} {value : Node} {rules' : Rules}
    (hname : name ≠ Rule.defaultName) (h : ofEntries lib entries = .ok rules)
    (h' : ofEntries lib (entries ++ [(name, value)]) = .ok rules') :
    ∃ r, Rule.ofNode lib rules.base name value = .ok r ∧
      rules' = ⟨rules.base, rules.others ++ [r]⟩ := by
  obtain ⟨base', others'⟩ := rules'
  obtain ⟨hbase, hothers⟩ := of_ofEntries h
  obtain ⟨hbase', hothers'⟩ := of_ofEntries h'
  have hdefault : defaultValue (entries ++ [(name, value)]) = defaultValue entries := by
    have hmiss : [(name, value)].lookup Rule.defaultName = none := by
      simpa using Ne.symm hname
    rw [defaultValue, List.lookup_append, hmiss, Option.or_none]
    rfl
  have hmore : otherEntries (entries ++ [(name, value)])
      = otherEntries entries ++ [(name, value)] := by
    simp [otherEntries, List.filter_append, hname]
  rw [hdefault] at hbase'
  cases hbase.symm.trans hbase'
  rw [hmore] at hothers'
  obtain ⟨rest, hrest, hall⟩ := deriveAll_append hothers hothers'
  obtain ⟨r, nothing, hr, hnothing, rfl⟩ := deriveAll_cons hrest
  cases hnothing
  exact ⟨r, hr, congrArg (Rules.mk rules.base) hall⟩

theorem Filled.names (h : rules.Filled entries) :
    (otherEntries entries).map (·.1) = rules.others.map (·.name) := by
  rw [← List.forall₂_eq_eq_eq, List.forall₂_map_left_iff, List.forall₂_map_right_iff]
  exact h.others.imp fun _ _ hfilled => hfilled.name_eq.symm

/-- The rule of a path has the name of an entry, or the default one. -/
theorem Filled.name_select (h : rules.Filled entries) (path : String) :
    (rules.select path).name = Rule.defaultName ∨
      (rules.select path).name ∈ entries.map (·.1) := by
  rcases (isSelected_select rules path).mem with hbase | hother
  · exact .inl (hbase ▸ h.base.name_eq)
  · have hname := List.mem_map_of_mem (f := Rule.name) hother
    rw [← h.names] at hname
    exact .inr (List.map_subset _ (List.filter_subset_self _) hname)

/-- A rule with a name of its own behind all others is chosen exactly for the paths that it
includes. -/
theorem Filled.select_append_ne_iff (h : rules.Filled entries) {r : Rule}
    (hname : r.name ≠ Rule.defaultName) (hnew : r.name ∉ entries.map (·.1)) (path : String) :
    (⟨rules.base, rules.others ++ [r]⟩ : Rules).select path ≠ rules.select path ↔
      r.Includes path := by
  obtain ⟨htaken, hkept⟩ := select_append rules r path
  constructor
  · intro hne
    by_contra hnot
    exact hne (hkept hnot)
  · intro hincludes hsame
    rw [htaken hincludes] at hsame
    rcases h.name_select path with hdefault | hentry
    · exact hname (hsame ▸ hdefault)
    · exact hnew (hsame ▸ hentry)

/-! ## The files of a command line -/

/-- The files whose rule says to check, in their order, each under the options of its rule. -/
theorem select_eq_of_rules {t : FileTree} {i : Invocation} {source text : String}
    (hrules : i.tool.rules = some source) (htext : t.readText source = .ok text)
    (hload : Rules.readWith lib text = .ok rules) :
    FileItem.select lib t i =
      .ok ((i.files.filter fun file => (rules.select file).check).map fun file =>
        ⟨file, (rules.select file).options⟩) := by
  have hread : FileItem.readRules lib t source = .ok rules := by
    simp only [FileItem.readRules, htext, hload]
  have hitems : FileItem.ofRules rules i.files =
      (i.files.filter fun file => (rules.select file).check).map fun file =>
        ⟨file, (rules.select file).options⟩ := by
    induction i.files with
    | nil => rfl
    | cons file files ih =>
        rw [FileItem.ofRules, List.filterMap_cons, ← FileItem.ofRules, ih, List.filter_cons]
        cases hcheck : (rules.select file).check <;> simp [hcheck]
  simp only [FileItem.select, hrules, hread, Except.map, hitems]

/-- The rules of a text with distinct names, read with any library that reads entries, are its
entries filled up, the default one from the built-in rule and the others from the default one.  A
path is formatted under the last of the others that includes it, or else under the default one,
wherever the entry of that one stands; a rule put behind all others takes exactly the paths that it
includes.  The files of a command line that are formatted are those whose rule says to check, in
their order, each under the options of its rule. -/
theorem select_rules (hlib : lib.ReadsEntries) {text : String}
    (hread : lib.entries text = some entries) (hdistinct : (entries.map (·.1)).Nodup)
    (hload : Rules.readWith lib text = .ok rules) :
    (Rule.builtin.options = "" ∧ Rule.builtin.check = true ∧
      Path.Pattern.ofStrings ["*"] = .ok Rule.builtin.includes) ∧
    rules.Filled entries ∧
    (∀ path, rules.IsSelected path (rules.select path)) ∧
    (∀ text' entries', lib.entries text' = some entries' → DefaultMoved entries entries' →
      Rules.readWith lib text' = .ok rules) ∧
    (∀ text' name value rules', lib.entries text' = some (entries ++ [(name, value)]) →
      name ≠ Rule.defaultName → name ∉ entries.map (·.1) → Rules.readWith lib text' = .ok rules' →
      ∃ r, rules.base.FilledFrom name value r ∧ ∀ path,
        (r.Includes path → rules'.select path = r) ∧
        (rules'.select path ≠ rules.select path ↔ r.Includes path)) ∧
    ∀ (t : FileTree) (i : Invocation) (source : String), i.tool.rules = some source →
      t.readText source = .ok text →
      FileItem.select lib t i =
        .ok ((i.files.filter fun file => (rules.select file).check).map fun file =>
          ⟨file, (rules.select file).options⟩) := by
  have hentries : ofEntries lib entries = .ok rules := (read_eq hread hdistinct).symm.trans hload
  have hfilled := filled_ofEntries hlib hentries
  refine ⟨⟨rfl, rfl, Rule.builtin_includes⟩, hfilled, isSelected_select rules, ?_, ?_, ?_⟩
  · intro text' entries' hread' hmoved
    have hdistinct' : (entries'.map (·.1)).Nodup := (hmoved.perm.map _).nodup hdistinct
    rw [read_eq hread' hdistinct', ofEntries_moved hmoved hdistinct, hentries]
  · intro text' name value rules' hread' hname hnew hload'
    have hdistinct' : ((entries ++ [(name, value)]).map (·.1)).Nodup := by
      rw [List.map_append]
      exact List.nodup_append.mpr ⟨hdistinct, List.nodup_singleton _, by
        intro other hother last hlast hsame
        rw [hsame, List.mem_singleton.mp hlast] at hother
        exact hnew hother⟩
    have hentries' := (read_eq hread' hdistinct').symm.trans hload'
    obtain ⟨r, hr, rfl⟩ := ofEntries_append hname hentries hentries'
    have hr := Rule.filledFrom_of_ofNode hlib hr
    refine ⟨r, hr, ?_⟩
    intro path
    refine ⟨(select_append rules r path).1, ?_⟩
    exact hfilled.select_append_ne_iff (hr.name_eq ▸ hname) (hr.name_eq ▸ hnew) path
  · intro t i source hrules htext
    exact select_eq_of_rules hrules htext hload

/-- The default rule stands between two others, and the last one says not to check. -/
theorem select_rules_between :
    let text := "code:\n  include: ['*.c']\nDEFAULT:\n  options: -s4\n"
      ++ "lib:\n  check: false\n  include: [lib/]\n"
    let t : FileTree := ⟨[("rules", Utf8.encode text)], []⟩
    let i : Invocation :=
      ⟨{ ToolOptions.none with rules := some "rules" }, [], [], ["lib/a.c", "a.h", "a.c"]⟩
    ∃ entries rules, Document.read? text = some entries ∧ (entries.map (·.1)).Nodup ∧
      Rules.read text = .ok rules ∧ rules.Filled entries ∧
      rules.IsSelected "lib/a.c" (rules.select "lib/a.c") ∧
      (rules.select "lib/a.c").name = "lib" ∧ (rules.select "a.c").name = "code" ∧
      (rules.select "a.h").name = "DEFAULT" ∧
      FileItem.select .standard t i = .ok [⟨"a.h", "-s4"⟩, ⟨"a.c", "-s4"⟩] := by
  intro text t i
  let every : Path.Pattern := [.literal '/', .anyDirectories, .anyRun]
  let code : Rule := ⟨"code", "-s4", true, [every ++ [.literal '.', .literal 'c']]⟩
  let lib : Rule := ⟨"lib", "-s4", false, [[.literal '/', .anyDirectories, .literal 'l',
    .literal 'i', .literal 'b', .literal '/', .anyDirectories, .anyRun]]⟩
  let rules : Rules := ⟨⟨"DEFAULT", "-s4", true, [every]⟩, [code, lib]⟩
  have hnames : (Document.read? text).map (·.map (·.1)) = some ["code", "DEFAULT", "lib"] := by
    decide +kernel
  obtain ⟨entries, hread, hkeys⟩ := Option.map_eq_some_iff.mp hnames
  have hdistinct : (entries.map (·.1)).Nodup := hkeys ▸ by decide
  have hload : Rules.read text = .ok rules := by decide +kernel
  have htext : t.readText "rules" = .ok text := by decide +kernel
  obtain ⟨-, hfilled, hselected, -, -, hitems⟩ :=
    select_rules RulesLibrary.readsEntries_standard hread hdistinct hload
  refine ⟨entries, rules, hread, hdistinct, hload, hfilled, hselected _, ?_, ?_, ?_, ?_⟩
  · decide +kernel
  · decide +kernel
  · decide +kernel
  · rw [hitems t i "rules" rfl htext]
    decide +kernel

end Rules

end Beautifier
