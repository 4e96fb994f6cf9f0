/-
What the entry of a rule says.

The value of an entry gives values to the keys of a rule (`Node.given?`): a
mapping those that stand under them, and a list of three in their order; a
null gives none.  A library reads entries if what it reads under a key is the
value that is given (`RulesLibrary.ReadsEntries`).  Then a rule has what its
entry gives and all else from the rule it is made of (`filledFrom_of_ofNode`).

The reader defined here does so, whatever else an entry gives and in whatever
order, since one key is set without regard to the others (`SetUnder`).
-/
import Mathlib.Data.List.Forall2
import Beautifier.Rules.Entry

namespace Beautifier

/-! ## Values given to keys -/

namespace Node

/-- Whether a value is the text of a key. -/
def isKey (key : String) (k : Node) : Bool :=
  match k.untagged with
  | .text s => s == key
  | _ => false

/-- The value under a key of a rule. -/
def under? (key : String) (value : Node) : Option Node :=
  match value.untagged with
  | .mapping entries => (entries.find? fun entry => entry.1.isKey key).map (·.2)
  | .list [options, check, includes] =>
      [("options", options), ("check", check), ("include", includes)].lookup key
  | _ => none

/-- A value, unless it is null. -/
def given : Node → Option Node
  | .null => none
  | value => some value

/-- The value that a key of a rule is given. -/
def given? (key : String) (value : Node) : Option Node := (value.under? key).bind given

def IsText (value : Node) (text : String) : Prop := value.untagged = .text text

def IsBool (value : Node) (b : Bool) : Prop := value.untagged = .bool b

def IsTexts (value : Node) (texts : List String) : Prop :=
  (∃ items, value.untagged = .list items ∧ List.Forall₂ IsText items texts) ∨
    (value.untagged = .null ∧ texts = [])

theorem given_cases (value : Node) :
    (value = .null ∧ value.given = none) ∨ (value ≠ .null ∧ value.given = some value) := by
  cases value with
  | null => exact .inl ⟨rfl, rfl⟩
  | _ =>
      refine .inr ⟨?_, rfl⟩
      intro h
      cases h

end Node

namespace RuleEntry

variable {e e' : RuleEntry} {value : Node}

/-- What is read of an entry is what its value gives. -/
structure Says (e : RuleEntry) (value : Node) : Prop where
  options : Option.Rel Node.IsText (value.given? "options") e.options
  check : Option.Rel Node.IsBool (value.given? "check") e.check
  includes : Option.Rel Node.IsTexts (value.given? "include") e.includes

/-! ## One key -/

theorem texts?_spec {items : List Node} {texts : List String} (h : texts? items = some texts) :
    List.Forall₂ Node.IsText items texts := by
  induction items generalizing texts with
  | nil =>
      cases h
      exact .nil
  | cons item items ih =>
      rw [texts?] at h
      split at h
      next s hs =>
        obtain ⟨rest, hrest, rfl⟩ := Option.map_eq_some_iff.mp h
        exact .cons hs (ih hrest)
      next => cases h

theorem setOptions?_spec (h : e.setOptions? value = some e') :
    Option.Rel Node.IsText value.given e'.options ∧ e' = { e with options := e'.options } := by
  rcases value.given_cases with ⟨rfl, hgiven⟩ | ⟨hnull, hgiven⟩
  · cases h
    exact ⟨.none, rfl⟩
  · rw [setOptions?] at h
    · rw [hgiven]
      split at h
      next s htext =>
        cases h
        exact ⟨.some htext, rfl⟩
      next => cases h
    · exact hnull

theorem setCheck?_spec (h : e.setCheck? value = some e') :
    Option.Rel Node.IsBool value.given e'.check ∧ e' = { e with check := e'.check } := by
  rcases value.given_cases with ⟨rfl, hgiven⟩ | ⟨hnull, hgiven⟩
  · cases h
    exact ⟨.none, rfl⟩
  · rw [setCheck?] at h
    · rw [hgiven]
      split at h
      next b hbool =>
        cases h
        exact ⟨.some hbool, rfl⟩
      next => cases h
    · exact hnull

theorem setIncludes?_spec (h : e.setIncludes? value = some e') :
    Option.Rel Node.IsTexts value.given e'.includes ∧ e' = { e with includes := e'.includes } := by
  rcases value.given_cases with ⟨rfl, hgiven⟩ | ⟨hnull, hgiven⟩
  · cases h
    exact ⟨.none, rfl⟩
  · rw [setIncludes?] at h
    · rw [hgiven]
      split at h
      next items hlist =>
        obtain ⟨texts, htexts, rfl⟩ := Option.map_eq_some_iff.mp h
        exact ⟨.some (.inl ⟨items, hlist, texts?_spec htexts⟩), rfl⟩
      next hnone =>
        cases h
        exact ⟨.some (.inr ⟨hnone, rfl⟩), rfl⟩
      next => cases h
    · exact hnull

/-! ## All keys -/

theorem set?_cases {kv : String × Node} (h : e.set? kv = some e') :
    (kv.1 = "options" ∧ e.setOptions? kv.2 = some e') ∨
      (kv.1 = "check" ∧ e.setCheck? kv.2 = some e') ∨
      (kv.1 = "include" ∧ e.setIncludes? kv.2 = some e') := by
  unfold set? at h
  split at h
  · exact .inl ⟨rfl, h⟩
  · exact .inr (.inl ⟨rfl, h⟩)
  · exact .inr (.inr ⟨rfl, h⟩)
  · cases h

/-- A part of an entry that is set under one key, and left as it is under every other one. -/
structure SetUnder {α : Type} (key : String) (reads : Node → α → Prop)
    (part : RuleEntry → Option α) : Prop where
  set : ∀ {e e' : RuleEntry} {kv : String × Node}, e.set? kv = some e' → kv.1 = key →
    Option.Rel reads kv.2.given (part e')
  keep : ∀ {e e' : RuleEntry} {kv : String × Node}, e.set? kv = some e' → kv.1 ≠ key →
    part e' = part e
  unset : part empty = none

theorem setUnder_options : SetUnder "options" Node.IsText (·.options) := by
  refine ⟨?_, ?_, rfl⟩
  · intro e e' kv h hkey
    rcases set?_cases h with ⟨-, h⟩ | ⟨hkey', -⟩ | ⟨hkey', -⟩
    · exact (setOptions?_spec h).1
    · exact absurd (hkey.symm.trans hkey') (by decide)
    · exact absurd (hkey.symm.trans hkey') (by decide)
  · intro e e' kv h hkey
    rcases set?_cases h with ⟨hkey', -⟩ | ⟨-, h⟩ | ⟨-, h⟩
    · exact absurd hkey' hkey
    · rw [(setCheck?_spec h).2]
    · rw [(setIncludes?_spec h).2]

theorem setUnder_check : SetUnder "check" Node.IsBool (·.check) := by
  refine ⟨?_, ?_, rfl⟩
  · intro e e' kv h hkey
    rcases set?_cases h with ⟨hkey', -⟩ | ⟨-, h⟩ | ⟨hkey', -⟩
    · exact absurd (hkey.symm.trans hkey') (by decide)
    · exact (setCheck?_spec h).1
    · exact absurd (hkey.symm.trans hkey') (by decide)
  · intro e e' kv h hkey
    rcases set?_cases h with ⟨-, h⟩ | ⟨hkey', -⟩ | ⟨-, h⟩
    · rw [(setOptions?_spec h).2]
    · exact absurd hkey' hkey
    · rw [(setIncludes?_spec h).2]

theorem setUnder_includes : SetUnder "include" Node.IsTexts (·.includes) := by
  refine ⟨?_, ?_, rfl⟩
  · intro e e' kv h hkey
    rcases set?_cases h with ⟨hkey', -⟩ | ⟨hkey', -⟩ | ⟨-, h⟩
    · exact absurd (hkey.symm.trans hkey') (by decide)
    · exact absurd (hkey.symm.trans hkey') (by decide)
    · exact (setIncludes?_spec h).1
  · intro e e' kv h hkey
    rcases set?_cases h with ⟨-, h⟩ | ⟨-, h⟩ | ⟨hkey', -⟩
    · rw [(setOptions?_spec h).2]
    · rw [(setCheck?_spec h).2]
    · exact absurd hkey' hkey

variable {α : Type} {key : String} {reads : Node → α → Prop} {part : RuleEntry → Option α}

/-- Under a key that is not among the ones set, a part stays as it is. -/
theorem SetUnder.keepAll (hpart : SetUnder key reads part) {entries : List (String × Node)}
    (hkey : key ∉ entries.map (·.1)) (h : e.setAll? entries = some e') : part e' = part e := by
  induction entries generalizing e with
  | nil =>
      cases h
      rfl
  | cons kv entries ih =>
      obtain ⟨e₁, hset, hrest⟩ := Option.bind_eq_some_iff.mp h
      rw [List.map_cons] at hkey
      obtain ⟨hne, hkey⟩ := List.ne_and_not_mem_of_not_mem_cons hkey
      exact (ih hkey hrest).trans (hpart.keep hset (Ne.symm hne))

/-- Where no key is repeated, a part is what stands under its key. -/
theorem SetUnder.setAll (hpart : SetUnder key reads part) {entries : List (String × Node)}
    (hkeys : (entries.map (·.1)).Nodup) (hunset : part e = none)
    (h : e.setAll? entries = some e') :
    Option.Rel reads ((entries.lookup key).bind Node.given) (part e') := by
  induction entries generalizing e with
  | nil =>
      cases h
      rw [hunset]
      exact .none
  | cons kv entries ih =>
      obtain ⟨e₁, hset, hrest⟩ := Option.bind_eq_some_iff.mp h
      obtain ⟨hfirst, hkeys⟩ := List.nodup_cons.mp hkeys
      by_cases hkey : kv.1 = key
      · have hlookup : (kv :: entries).lookup key = some kv.2 := by
          rw [List.lookup_cons, beq_iff_eq.mpr hkey.symm]
        rw [hlookup, hpart.keepAll (hkey ▸ hfirst) hrest]
        exact hpart.set hset hkey
      · have hlookup : (kv :: entries).lookup key = entries.lookup key := by
          rw [List.lookup_cons, beq_eq_false_iff_ne.mpr (Ne.symm hkey)]
        rw [hlookup]
        exact ih hkeys ((hpart.keep hset hkey).trans hunset) hrest

theorem lookup_named? {entries : List (Node × Node)} {named : List (String × Node)}
    (h : named? entries = some named) :
    named.lookup key = (entries.find? fun entry => entry.1.isKey key).map (·.2) := by
  induction entries generalizing named with
  | nil =>
      cases h
      rfl
  | cons entry entries ih =>
      obtain ⟨k, v⟩ := entry
      rw [named?] at h
      split at h
      next s hs =>
        obtain ⟨rest, hrest, rfl⟩ := Option.map_eq_some_iff.mp h
        have hkey : k.isKey key = (key == s) := by
          rw [Node.isKey, hs]
          exact Bool.beq_comm
        rw [List.lookup_cons, List.find?_cons, ih hrest, hkey]
        cases key == s <;> rfl
      next => cases h

theorem SetUnder.ofMapping (hpart : SetUnder key reads part) {entries : List (Node × Node)}
    (hvalue : value.untagged = .mapping entries) (h : ofMapping? entries = some e) :
    Option.Rel reads (value.given? key) (part e) := by
  obtain ⟨named, hnamed, h⟩ := Option.bind_eq_some_iff.mp h
  split at h
  next hkeys =>
    have hgiven : value.given? key = (named.lookup key).bind Node.given := by
      rw [Node.given?, Node.under?, hvalue, lookup_named? hnamed]
    rw [hgiven]
    exact hpart.setAll hkeys hpart.unset h
  next => cases h

theorem says_of_isNull (h : value.isNull = true) : empty.Says value := by
  have hnone : ∀ key, value.given? key = none := by
    intro key
    rw [Node.isNull] at h
    split at h
    next hnull => rw [Node.given?, Node.under?, hnull]; rfl
    next => cases h
  exact ⟨hnone _ ▸ .none, hnone _ ▸ .none, hnone _ ▸ .none⟩

theorem says_of_ofNode? (h : ofNode? value = some e) : e.Says value := by
  rw [ofNode?] at h
  split at h
  next entries hvalue =>
    exact ⟨setUnder_options.ofMapping hvalue h, setUnder_check.ofMapping hvalue h,
      setUnder_includes.ofMapping hvalue h⟩
  next options check includes hvalue =>
    obtain ⟨e₂, h, hincludes⟩ := Option.bind_eq_some_iff.mp h
    obtain ⟨e₁, hoptions, hcheck⟩ := Option.bind_eq_some_iff.mp h
    have hgiven : ∀ key, value.given? key =
        ([("options", options), ("check", check), ("include", includes)].lookup key).bind
          Node.given := by
      intro key
      rw [Node.given?, Node.under?, hvalue]
    obtain ⟨hoptions, hset₁⟩ := setOptions?_spec hoptions
    obtain ⟨hcheck, hset₂⟩ := setCheck?_spec hcheck
    obtain ⟨hincludes, hset₃⟩ := setIncludes?_spec hincludes
    refine ⟨?_, ?_, ?_⟩
    · rw [hgiven, hset₃, hset₂]
      exact hoptions
    · rw [hgiven, hset₃]
      exact hcheck
    · rw [hgiven]
      exact hincludes
  next hvalue =>
    cases h
    exact says_of_isNull (by rw [Node.isNull, hvalue])
  next => cases h

end RuleEntry

/-- What the library reads of an entry is what its value gives: under each key of a rule the value
of the type of that key, and nothing where nothing or null is given. -/
def RulesLibrary.ReadsEntries (lib : RulesLibrary) : Prop :=
  ∀ value e, lib.entry value = some e → e.Says value

theorem RulesLibrary.readsEntries_standard : standard.ReadsEntries :=
  fun _ _ => RuleEntry.says_of_ofNode?

/-! ## A whole rule -/

theorem of_map_eq_ok {ε α β : Type} {f : α → β} {x : Except ε α} {y : β} (h : x.map f = .ok y) :
    ∃ a, x = .ok a ∧ f a = y := by
  cases x with
  | error e => cases h
  | ok a =>
      cases h
      exact ⟨a, rfl, rfl⟩

namespace Rule

/-- A rule has what the value of its entry gives, and all else from the rule it is made of. -/
structure FilledFrom (base : Rule) (name : String) (value : Node) (r : Rule) : Prop where
  name_eq : r.name = name
  /-- The options. -/
  options_of_missing : value.given? "options" = none → r.options = base.options
  options_of_given : ∀ {v}, value.given? "options" = some v → v.IsText r.options
  /-- Whether to check. -/
  check_of_missing : value.given? "check" = none → r.check = base.check
  check_of_given : ∀ {v}, value.given? "check" = some v → v.IsBool r.check
  /-- The patterns. -/
  includes_of_missing : value.given? "include" = none → r.includes = base.includes
  includes_of_given : ∀ {v}, value.given? "include" = some v → ∃ texts, v.IsTexts texts ∧
    List.Forall₂ (fun text p => Path.Pattern.ofString? text = some p) texts r.includes

theorem forall₂_ofStrings {texts : List String} {ps : List Path.Pattern}
    (h : Path.Pattern.ofStrings texts = .ok ps) :
    List.Forall₂ (fun text p => Path.Pattern.ofString? text = some p) texts ps := by
  induction texts generalizing ps with
  | nil =>
      cases h
      exact .nil
  | cons text texts ih =>
      rw [Path.Pattern.ofStrings] at h
      split at h
      next => cases h
      next p hp =>
        obtain ⟨rest, hrest, rfl⟩ := of_map_eq_ok h
        exact .cons hp (ih hrest)

/-- What is read, filled up with a default, is the default where nothing is given. -/
theorem getD_of_rel {α : Type} {reads : Node → α → Prop} {given : Option Node} {x : Option α}
    (h : Option.Rel reads given x) (base : α) :
    (given = none → x.getD base = base) ∧ ∀ {v}, given = some v → reads v (x.getD base) := by
  cases h with
  | none =>
      refine ⟨fun _ => rfl, ?_⟩
      rintro v ⟨⟩
  | some hreads =>
      constructor
      · rintro ⟨⟩
      · rintro v ⟨⟩
        exact hreads

theorem filledFrom_of_ofNode {lib : RulesLibrary} (hlib : lib.ReadsEntries) {base r : Rule}
    {name : String} {value : Node} (h : ofNode lib base name value = .ok r) :
    base.FilledFrom name value r := by
  rw [ofNode] at h
  split at h
  next e he =>
    have hsays : e.Says value := by
      split at he
      next hnull =>
        cases he
        exact RuleEntry.says_of_isNull hnull
      next => exact hlib value e he
    obtain ⟨hoptions, hcheck, hincludes⟩ := hsays
    obtain ⟨hbase, hown⟩ := getD_of_rel hoptions base.options
    obtain ⟨hbaseCheck, hownCheck⟩ := getD_of_rel hcheck base.check
    rw [derive] at h
    split at h
    next hnone =>
      cases h
      rw [hnone] at hincludes
      refine ⟨rfl, hbase, hown, hbaseCheck, hownCheck, fun _ => rfl, ?_⟩
      intro v hv
      rw [hv] at hincludes
      cases hincludes
    next texts htexts =>
      split at h
      next ps hps =>
        cases h
        rw [htexts] at hincludes
        refine ⟨rfl, hbase, hown, hbaseCheck, hownCheck, ?_, ?_⟩
        · intro hmissing
          rw [hmissing] at hincludes
          cases hincludes
        · intro v hv
          rw [hv] at hincludes
          cases hincludes with
          | some hreads => exact ⟨texts, hreads, forall₂_ofStrings hps⟩
      next => cases h
  next => cases h

end Rule

end Beautifier
