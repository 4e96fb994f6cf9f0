/-
What an options text means.

A text is accepted if each of its directives is valid on its own, and a
directive is valid if each of its single options is in the table.  What the
accepted text asks for is then said of the single options, without a fold:
a flag is on if one of them turns it on, and every other field is as the
last of them that sets it says (`parseOptions_means`).  The order of options
counts only between two that set the same field, and a repetition not at
all (`Rearranged`).

The plan: the settings of the single options in order are the settings of
the directives (`parseOptions_ok_iff`); one fold over them is then looked
at a field at a time (`LastSets`).
-/
import Mathlib.Data.List.Induction
import Beautifier.Proofs.Options.Joined
import Beautifier.Proofs.Options.Table

namespace Beautifier

/-! ## Directives and single options -/

def singleOptions : List Char → List SingleOption
  | '-' :: '-' :: text => [.long text]
  | '-' :: group =>
      if group.isEmpty then [.broken group]
      else
        match shortOptions? group with
        | some options => options.map .short
        | none => [.broken group]
  | text => [.long text]

def optionsOf (text : String) : List SingleOption := (directives text).flatMap singleOptions

/-- Each single option of a directive is in the table. -/
def ValidDirective (directive : List Char) : Prop :=
  ∀ option ∈ singleOptions directive, ∃ ss, option.Means ss

/-- The text that a directive is reported by: a long option without its dashes, any other as it is
written. -/
def reportOf : List Char → String
  | '-' :: '-' :: text => String.ofList text
  | directive => String.ofList directive

theorem allSettings?_eq_some_iff {readings : List (Option (List Setting))} {ss : List Setting} :
    allSettings? readings = some ss ↔
      (∀ reading ∈ readings, reading.isSome) ∧ ss = readings.flatMap (·.getD []) := by
  induction readings generalizing ss with
  | nil =>
      rw [allSettings?, Option.some.injEq, List.flatMap_nil, eq_comm]
      exact (and_iff_right (List.forall_mem_nil _)).symm
  | cons reading readings ih =>
      cases reading with
      | none => simp [allSettings?]
      | some first =>
          simp only [allSettings?, Option.map_eq_some_iff, ih, List.forall_mem_cons,
            Option.isSome_some, true_and, List.flatMap_cons, Option.getD_some]
          constructor
          · rintro ⟨rest, ⟨hall, rfl⟩, rfl⟩
            exact ⟨hall, rfl⟩
          · rintro ⟨hall, rfl⟩
            exact ⟨_, ⟨hall, rfl⟩, rfl⟩

theorem allSettings?_singleton (reading : Option (List Setting)) :
    allSettings? [reading] = reading := by
  cases reading with
  | none => rfl
  | some ss => exact congrArg some (List.append_nil ss)

def directiveSettings? (directive : List Char) : Option (List Setting) :=
  allSettings? ((singleOptions directive).map SingleOption.settings?)

theorem directiveSettings?_long (text : List Char) :
    directiveSettings? ('-' :: '-' :: text) = readLong? text :=
  allSettings?_singleton _

section Group

variable {group : List Char}

theorem reportOf_group (hgroup : ∀ text, group ≠ '-' :: text) :
    reportOf ('-' :: group) = String.ofList ('-' :: group) := by
  unfold reportOf
  split
  · next text heq => exact absurd (List.cons.inj heq).2 (hgroup text)
  · rfl

theorem singleOptions_group (hgroup : ∀ text, group ≠ '-' :: text) :
    singleOptions ('-' :: group) =
      if group.isEmpty then [.broken group]
      else
        match shortOptions? group with
        | some options => options.map .short
        | none => [.broken group] := by
  unfold singleOptions
  split
  · next text heq => exact absurd (List.cons.inj heq).2 (hgroup text)
  · next group' _ heq =>
    obtain rfl := (List.cons.inj heq).2
    rfl
  · next hdash => exact absurd rfl (hdash group)

theorem directiveSettings?_group (hgroup : ∀ text, group ≠ '-' :: text) :
    directiveSettings? ('-' :: group) = readShort? group := by
  rw [directiveSettings?, singleOptions_group hgroup, readShort?]
  cases group.isEmpty with
  | true => rfl
  | false =>
      cases shortOptions? group with
      | none => rfl
      | some options => exact congrArg allSettings? (List.map_map ..)

end Group

section Bare

variable {directive : List Char}

theorem reportOf_bare (hbare : ∀ text, directive ≠ '-' :: text) :
    reportOf directive = String.ofList directive := by
  unfold reportOf
  split
  · next text => exact absurd rfl (hbare _)
  · rfl

theorem singleOptions_bare (hbare : ∀ text, directive ≠ '-' :: text) :
    singleOptions directive = [.long directive] := by
  unfold singleOptions
  split
  · next text => exact absurd rfl (hbare _)
  · next group _ => exact absurd rfl (hbare _)
  · rfl

theorem directiveSettings?_bare (hbare : ∀ text, directive ≠ '-' :: text) :
    directiveSettings? directive = readLong? directive := by
  rw [directiveSettings?, singleOptions_bare hbare]
  exact allSettings?_singleton _

end Bare

/-- What is read of a directive is what is read of its single options. -/
theorem readDirective_eq (directive : List Char) :
    readDirective directive =
      (directiveSettings? directive).elim (.error (reportOf directive)) .ok := by
  unfold readDirective
  split
  · next text =>
    rw [directiveSettings?_long]
    cases readLong? text <;> rfl
  · next group hgroup =>
    rw [directiveSettings?_group hgroup, reportOf_group hgroup]
    cases readShort? group <;> rfl
  · next _ hbare =>
    rw [directiveSettings?_bare hbare, reportOf_bare hbare]
    cases readLong? directive <;> rfl

theorem validDirective_iff {directive : List Char} :
    ValidDirective directive ↔ (directiveSettings? directive).isSome := by
  rw [Option.isSome_iff_exists]
  constructor
  · intro hvalid
    refine ⟨_, allSettings?_eq_some_iff.mpr ⟨fun reading hreading => ?_, rfl⟩⟩
    obtain ⟨option, hoption, rfl⟩ := List.mem_map.mp hreading
    obtain ⟨ss, hss⟩ := hvalid option hoption
    rw [SingleOption.means_iff.mp hss, Option.isSome_some]
  · rintro ⟨ss, hss⟩ option hoption
    obtain ⟨hall, -⟩ := allSettings?_eq_some_iff.mp hss
    obtain ⟨ts, hts⟩ := Option.isSome_iff_exists.mp (hall _ (List.mem_map_of_mem hoption))
    exact ⟨ts, SingleOption.means_iff.mpr hts⟩

instance (directive : List Char) : Decidable (ValidDirective directive) :=
  decidable_of_iff _ validDirective_iff.symm

/-! ## Acceptance -/

theorem rejectedOf_eq (text : String) :
    rejectedOf text = ((directives text).filter (¬ValidDirective ·)).map reportOf := by
  rw [rejectedOf, rejections, List.filterMap_map]
  induction directives text with
  | nil => rfl
  | cons directive rest ih =>
      by_cases hvalid : ValidDirective directive
      · obtain ⟨ss, hss⟩ := Option.isSome_iff_exists.mp (validDirective_iff.mp hvalid)
        have hread : readDirective directive = .ok ss := by
          rw [readDirective_eq, hss, Option.elim_some]
        rw [List.filter_cons_of_neg (by simpa using hvalid), ← ih]
        exact List.filterMap_cons_none (by rw [Function.comp_apply, hread])
      · have hnone := Option.not_isSome_iff_eq_none.mp (mt validDirective_iff.mpr hvalid)
        have hread : readDirective directive = .error (reportOf directive) := by
          rw [readDirective_eq, hnone, Option.elim_none]
        rw [List.filter_cons_of_pos (by simpa using hvalid), List.map_cons, ← ih]
        exact List.filterMap_cons_some (by rw [Function.comp_apply, hread])

theorem exists_parseOptions_error_iff {text : String} :
    (∃ e, parseOptions text = .error e) ↔ ∃ d ∈ directives text, ¬ValidDirective d := by
  have hok : (∃ o, parseOptions text = .ok o) ↔ ∀ d ∈ directives text, ValidDirective d := by
    rw [exists_parseOptions_iff, rejectedOf_eq, List.map_eq_nil_iff, List.filter_eq_nil_iff]
    simp
  have hnot : (∃ d ∈ directives text, ¬ValidDirective d) ↔ ¬∃ o, parseOptions text = .ok o := by
    rw [hok]
    push Not
    rfl
  rw [hnot]
  cases parseOptions text with
  | ok o => simp
  | error e => simp

namespace SingleOption

/-- What an option sets, nothing if it is not in the table. -/
def settings (option : SingleOption) : List Setting := option.settings?.getD []

def Sets (option : SingleOption) (s : Setting) : Prop := ∃ ss, option.Means ss ∧ s ∈ ss

def TurnsOn (option : SingleOption) (f : Flag) : Prop := ∃ s, option.Sets s ∧ s.TurnsOn f

theorem sets_iff {option : SingleOption} {s : Setting} : option.Sets s ↔ s ∈ option.settings := by
  unfold Sets settings
  simp only [means_iff]
  cases option.settings? with
  | none => simp
  | some ss => simp

end SingleOption

theorem parseOptions_ok_iff_directives {text : String} {o : Options} :
    parseOptions text = .ok o ↔
      ∃ ss, allSettings? ((directives text).map directiveSettings?) = some ss ∧
        o = ss.foldl Options.apply .default := by
  have haccepted : rejectedOf text = [] ↔
      ∀ reading ∈ (directives text).map directiveSettings?, reading.isSome := by
    rw [rejectedOf_eq, List.map_eq_nil_iff, List.filter_eq_nil_iff, List.forall_mem_map]
    simp only [decide_eq_true_eq, not_not, validDirective_iff]
  have hsettings : ∀ hall : ∀ reading ∈ (directives text).map directiveSettings?, reading.isSome,
      settingsOf text = ((directives text).map directiveSettings?).flatMap (·.getD []) := by
    intro hall
    rw [settingsOf, settings, List.flatMap_map, List.flatMap_map]
    refine List.flatMap_congr fun directive hdirective => ?_
    obtain ⟨ss, hss⟩ := Option.isSome_iff_exists.mp (hall _ (List.mem_map_of_mem hdirective))
    rw [readDirective_eq, hss, Option.elim_some, Option.getD_some]
  rw [parseOptions_eq_ok_iff, haccepted]
  constructor
  · rintro ⟨hall, rfl⟩
    exact ⟨_, allSettings?_eq_some_iff.mpr ⟨hall, hsettings hall⟩, rfl⟩
  · rintro ⟨ss, hss, rfl⟩
    obtain ⟨hall, rfl⟩ := allSettings?_eq_some_iff.mp hss
    exact ⟨hall, congrArg _ (hsettings hall).symm⟩

/-- An accepted text sets what its single options set, one after another. -/
theorem parseOptions_ok_iff {text : String} {o : Options} :
    parseOptions text = .ok o ↔
      (∀ option ∈ optionsOf text, ∃ ss, option.Means ss) ∧
        o = ((optionsOf text).flatMap SingleOption.settings).foldl Options.apply .default := by
  have hvalid : (∀ reading ∈ (directives text).map directiveSettings?, reading.isSome) ↔
      ∀ option ∈ optionsOf text, ∃ ss, option.Means ss := by
    rw [optionsOf, List.forall_mem_map, List.forall_mem_flatMap]
    simp only [← validDirective_iff]
    rfl
  have hsettings : ∀ hall : ∀ reading ∈ (directives text).map directiveSettings?, reading.isSome,
      ((directives text).map directiveSettings?).flatMap (·.getD []) =
        (optionsOf text).flatMap SingleOption.settings := by
    intro hall
    rw [optionsOf, List.flatMap_map, List.flatMap_assoc]
    refine List.flatMap_congr fun directive hdirective => ?_
    obtain ⟨ss, hss⟩ := Option.isSome_iff_exists.mp (hall _ (List.mem_map_of_mem hdirective))
    rw [hss, Option.getD_some, (allSettings?_eq_some_iff.mp hss).2, List.flatMap_map]
    rfl
  rw [parseOptions_ok_iff_directives, ← hvalid]
  constructor
  · rintro ⟨ss, hss, rfl⟩
    obtain ⟨hall, rfl⟩ := allSettings?_eq_some_iff.mp hss
    exact ⟨hall, congrArg _ (hsettings hall)⟩
  · rintro ⟨hall, rfl⟩
    exact ⟨_, allSettings?_eq_some_iff.mpr ⟨hall, rfl⟩, congrArg _ (hsettings hall).symm⟩

/-! ## The last that sets a field -/

/-- A value is what the last element of a list that sets one sets, or the value at the start if
none does. -/
def LastSets {α γ : Type} (sets : α → γ → Prop) (start : γ) (l : List α) (v : γ) : Prop :=
  (∀ a ∈ l, ∀ w, ¬sets a w) ∧ v = start ∨
    ∃ front a behind, l = front ++ a :: behind ∧ sets a v ∧ ∀ b ∈ behind, ∀ w, ¬sets b w

section LastSets

variable {α γ : Type} {sets : α → γ → Prop} {start v w : γ} {l : List α} {a : α}

theorem lastSets_nil : LastSets sets start [] v ↔ v = start := by
  simp [LastSets]

theorem lastSets_concat :
    LastSets sets start (l ++ [a]) v ↔
      sets a v ∨ (∀ w, ¬sets a w) ∧ LastSets sets start l v := by
  constructor
  · rintro (⟨hnone, rfl⟩ | ⟨front, b, behind, heq, hset, hbehind⟩)
    · refine .inr ⟨hnone a (by simp), .inl ⟨fun b hb => hnone b ?_, rfl⟩⟩
      exact List.mem_append_left _ hb
    · cases behind using List.reverseRecOn with
      | nil =>
          obtain ⟨-, rfl⟩ := List.append_singleton_inj.mp heq
          exact .inl hset
      | append_singleton behind c =>
          rw [← List.cons_append, ← List.append_assoc] at heq
          obtain ⟨rfl, rfl⟩ := List.append_singleton_inj.mp heq
          refine .inr ⟨hbehind a (by simp), .inr ⟨front, b, behind, rfl, hset, fun d hd => ?_⟩⟩
          exact hbehind d (List.mem_append_left _ hd)
  · rintro (hset | ⟨hnone, ⟨hall, rfl⟩ | ⟨front, b, behind, rfl, hset, hbehind⟩⟩)
    · exact .inr ⟨l, a, [], rfl, hset, by simp⟩
    · refine .inl ⟨fun b hb => ?_, rfl⟩
      rcases List.mem_append.mp hb with hb | hb
      · exact hall b hb
      · rw [List.mem_singleton.mp hb]
        exact hnone
    · refine .inr ⟨front, b, behind ++ [a], by simp, hset, fun c hc => ?_⟩
      rcases List.mem_append.mp hc with hc | hc
      · exact hbehind c hc
      · rw [List.mem_singleton.mp hc]
        exact hnone

theorem LastSets.unique (hsets : ∀ a v w, sets a v → sets a w → v = w)
    (hv : LastSets sets start l v) (hw : LastSets sets start l w) : v = w := by
  induction l using List.reverseRecOn with
  | nil => exact (lastSets_nil.mp hv).trans (lastSets_nil.mp hw).symm
  | append_singleton l a ih =>
      rcases lastSets_concat.mp hv with ha | ⟨hnone, hv'⟩
      · rcases lastSets_concat.mp hw with ha' | ⟨hnone, -⟩
        · exact hsets a v w ha ha'
        · exact absurd ha (hnone v)
      · rcases lastSets_concat.mp hw with ha' | ⟨-, hw'⟩
        · exact absurd ha' (hnone w)
        · exact ih hv' hw'

end LastSets

/-- A field of the options that some settings set and the others leave alone. -/
structure Setting.Field {γ : Type} (get : Options → γ) (sets : Setting → γ → Prop) : Prop where
  set : ∀ (o : Options) s v, sets s v → get (o.apply s) = v
  keep : ∀ (o : Options) s, (∀ v, ¬sets s v) → get (o.apply s) = get o

section Field

variable {γ : Type} {get : Options → γ} {sets : Setting → γ → Prop}

theorem Setting.Field.foldl (h : Setting.Field get sets) (o : Options) (ss : List Setting) :
    (∀ s ∈ ss, ∀ v, ¬sets s v) ∧ get (ss.foldl Options.apply o) = get o ∨
      ∃ s ∈ ss, sets s (get (ss.foldl Options.apply o)) := by
  induction ss using List.reverseRecOn with
  | nil => exact .inl ⟨by simp, rfl⟩
  | append_singleton ss s ih =>
      rw [List.foldl_append]
      by_cases hs : ∃ v, sets s v
      · obtain ⟨v, hv⟩ := hs
        refine .inr ⟨s, by simp, ?_⟩
        rw [List.foldl_cons, List.foldl_nil, h.set _ s v hv]
        exact hv
      · have hkeep := h.keep (ss.foldl Options.apply o) s (not_exists.mp hs)
        rw [List.foldl_cons, List.foldl_nil, hkeep]
        rcases ih with ⟨hall, heq⟩ | ⟨t, ht, hset⟩
        · refine .inl ⟨fun t ht => ?_, heq⟩
          rcases List.mem_append.mp ht with ht | ht
          · exact hall t ht
          · rw [List.mem_singleton.mp ht]
            exact not_exists.mp hs
        · exact .inr ⟨t, List.mem_append_left _ ht, hset⟩

/-- A field behind a list of options is as the last of them that sets it says. -/
theorem Setting.Field.lastSets (h : Setting.Field get sets) (o : Options)
    (options : List SingleOption) :
    LastSets (fun option v => ∃ s, option.Sets s ∧ sets s v) (get o) options
      (get ((options.flatMap SingleOption.settings).foldl Options.apply o)) := by
  induction options using List.reverseRecOn with
  | nil => exact lastSets_nil.mpr rfl
  | append_singleton options option ih =>
      rw [List.flatMap_append, List.foldl_append, List.flatMap_singleton, lastSets_concat]
      simp only [SingleOption.sets_iff] at ih ⊢
      rcases h.foldl ((options.flatMap SingleOption.settings).foldl Options.apply o)
        option.settings with ⟨hnone, heq⟩ | ⟨s, hs, hset⟩
      · refine .inr ⟨?_, ?_⟩
        · rintro v ⟨s, hs, hset⟩
          exact hnone s hs v hset
        · rw [heq]
          exact ih
      · exact .inl ⟨s, hs, hset⟩

end Field

/-! ## What is asked for -/

/-- The options that a list of single options asks for. -/
structure Options.AskedBy (o : Options) (options : List SingleOption) : Prop where
  flag : ∀ f, o.isOn f ↔ ∃ option ∈ options, option.TurnsOn f
  style : LastSets (fun option v => option.Sets (.style v)) default.style options o.style
  indent : LastSets (fun option v => option.Sets (.indent v.1 v.2))
    (default.indentKind, default.indentWidth) options (o.indentKind, o.indentWidth)
  alignPointer : LastSets (fun option v => ∃ a, v = some a ∧ option.Sets (.alignPointer a))
    default.alignPointer options o.alignPointer
  lineEnd : LastSets (fun option v => ∃ e, v = some e ∧ option.Sets (.lineEnd e))
    default.lineEnd options o.lineEnd
  language : LastSets (fun option v => option.Sets (.language v)) default.language options
    o.language

theorem isOn_apply (o : Options) (s : Setting) (f : Flag) :
    (o.apply s).isOn f ↔ o.isOn f ∨ s.TurnsOn f := by
  have hkeep : ∀ o' : Options, (∀ f, o'.isOn f = o.isOn f) → (∀ f, ¬s.TurnsOn f) →
      (o'.isOn f ↔ o.isOn f ∨ s.TurnsOn f) := by
    intro o' ho' hs
    rw [ho', or_iff_left (hs f)]
  have hturn : ∀ (o' : Options) (g : Flag), (∀ f, o'.isOn f = o.isOn f) →
      (s.TurnsOn f ↔ g = f) → ((o'.turnOn g).isOn f ↔ o.isOn f ∨ s.TurnsOn f) := by
    intro o' g ho' hs
    rw [Options.isOn_turnOn, ho', hs, Bool.or_eq_true, decide_eq_true_iff, or_comm]
  cases s with
  | turnOn g =>
      refine hturn o g (fun _ => rfl) ⟨?_, ?_⟩
      · rintro ⟨⟩
        rfl
      · rintro rfl
        exact .flag g
  | style v =>
      have hstyle : ∀ f, ({ o with style := v } : Options).isOn f = o.isOn f := by
        intro f
        cases f <;> rfl
      cases v with
      | oneTrueBrace =>
          refine hturn _ .addBraces hstyle ⟨?_, ?_⟩
          · rintro ⟨⟩
            rfl
          · rintro rfl
            exact .oneTrueBrace
      | google =>
          refine hturn _ .indentModifiers hstyle ⟨?_, ?_⟩
          · rintro ⟨⟩
            rfl
          · rintro rfl
            exact .google
      | _ => exact hkeep _ hstyle (by rintro f ⟨⟩)
  | _ => exact hkeep _ (fun f => by cases f <;> rfl) (by rintro f ⟨⟩)

theorem isOn_foldl (o : Options) (ss : List Setting) (f : Flag) :
    (ss.foldl Options.apply o).isOn f ↔ o.isOn f ∨ ∃ s ∈ ss, s.TurnsOn f := by
  induction ss generalizing o with
  | nil => simp
  | cons s ss ih =>
      rw [List.foldl_cons, ih, isOn_apply, or_assoc, List.exists_mem_cons_iff]

theorem Setting.Field.style : Setting.Field Options.style fun s v => s = .style v where
  set := by
    rintro o _ v rfl
    cases v <;> rfl
  keep := by
    intro o s hs
    cases s with
    | style v => exact absurd rfl (hs v)
    | turnOn f => cases f <;> rfl
    | _ => rfl

theorem Setting.Field.indent :
    Setting.Field (fun o => (o.indentKind, o.indentWidth)) fun s v => s = .indent v.1 v.2 where
  set := by
    rintro o _ v rfl
    rfl
  keep := by
    intro o s hs
    cases s with
    | indent kind width => exact absurd rfl (hs (kind, width))
    | style v => cases v <;> rfl
    | turnOn f => cases f <;> rfl
    | _ => rfl

theorem Setting.Field.alignPointer :
    Setting.Field Options.alignPointer fun s v => ∃ a, v = some a ∧ s = .alignPointer a where
  set := by
    rintro o _ _ ⟨a, rfl, rfl⟩
    rfl
  keep := by
    intro o s hs
    cases s with
    | alignPointer a => exact absurd ⟨a, rfl, rfl⟩ (hs (some a))
    | style v => cases v <;> rfl
    | turnOn f => cases f <;> rfl
    | _ => rfl

theorem Setting.Field.lineEnd :
    Setting.Field Options.lineEnd fun s v => ∃ e, v = some e ∧ s = .lineEnd e where
  set := by
    rintro o _ _ ⟨e, rfl, rfl⟩
    rfl
  keep := by
    intro o s hs
    cases s with
    | lineEnd e => exact absurd ⟨e, rfl, rfl⟩ (hs (some e))
    | style v => cases v <;> rfl
    | turnOn f => cases f <;> rfl
    | _ => rfl

theorem Setting.Field.language : Setting.Field Options.language fun s v => s = .language v where
  set := by
    rintro o _ v rfl
    rfl
  keep := by
    intro o s hs
    cases s with
    | language v => exact absurd rfl (hs v)
    | style v => cases v <;> rfl
    | turnOn f => cases f <;> rfl
    | _ => rfl

theorem askedBy_foldl (options : List SingleOption) :
    ((options.flatMap SingleOption.settings).foldl Options.apply .default).AskedBy options where
  flag := by
    intro f
    rw [isOn_foldl]
    have hdefault : Options.default.isOn f = false := by
      cases f <;> rfl
    simp only [hdefault, Bool.false_eq_true, false_or, List.mem_flatMap, SingleOption.TurnsOn,
      SingleOption.sets_iff]
    constructor
    · rintro ⟨s, ⟨option, hoption, hs⟩, hf⟩
      exact ⟨option, hoption, s, hs, hf⟩
    · rintro ⟨option, hoption, s, hs, hf⟩
      exact ⟨s, ⟨option, hoption, hs⟩, hf⟩
  style := by simpa using Setting.Field.style.lastSets .default options
  indent := by simpa using Setting.Field.indent.lastSets .default options
  alignPointer := by simpa [and_comm] using Setting.Field.alignPointer.lastSets .default options
  lineEnd := by simpa [and_comm] using Setting.Field.lineEnd.lastSets .default options
  language := by simpa using Setting.Field.language.lastSets .default options

/-- Options are known by their flags and the other fields. -/
theorem Options.eq_of_isOn_eq {o o' : Options} (hlanguage : o.language = o'.language)
    (hstyle : o.style = o'.style) (hkind : o.indentKind = o'.indentKind)
    (hwidth : o.indentWidth = o'.indentWidth) (halign : o.alignPointer = o'.alignPointer)
    (hlineEnd : o.lineEnd = o'.lineEnd) (hflag : ∀ f, o.isOn f = o'.isOn f) : o = o' := by
  cases o
  cases o'
  rw [mk.injEq]
  exact ⟨hlanguage, hstyle, hkind, hwidth, hflag .indentClasses, hflag .indentModifiers,
    hflag .indentSwitches, hflag .indentCases, hflag .indentNamespaces, hflag .attachNamespaces,
    hflag .attachClasses, hflag .breakClosingBraces, hflag .breakBlocks, hflag .deleteEmptyLines,
    hflag .padOper, hflag .padComma, hflag .padParenOut, hflag .padParenIn, hflag .padHeader,
    hflag .unpadParen, hflag .addBraces, hflag .keepOneLineBlocks, hflag .keepOneLineStatements,
    hflag .convertTabs, halign, hlineEnd⟩

theorem SingleOption.Means.eq_singleton_or {option : SingleOption} {ss : List Setting}
    (h : option.Means ss) :
    (∃ s, ss = [s]) ∨ ss = [.turnOn .padParenOut, .turnOn .padParenIn] := by
  cases h with
  | longParens => exact .inr rfl
  | shortParens => exact .inr rfl
  | _ => exact .inl ⟨_, rfl⟩

/-- Two settings of one option are the same or turn on the two sides of a parenthesis. -/
theorem SingleOption.Sets.eq_or {option : SingleOption} {s t : Setting} (hs : option.Sets s)
    (ht : option.Sets t) : s = t ∨ (∃ f, s = .turnOn f) ∧ ∃ f, t = .turnOn f := by
  obtain ⟨ss, hmeans, hs⟩ := hs
  obtain ⟨ts, hmeans', ht⟩ := ht
  obtain rfl : ss = ts :=
    Option.some.inj ((means_iff.mp hmeans).symm.trans (means_iff.mp hmeans'))
  rcases hmeans.eq_singleton_or with ⟨u, rfl⟩ | rfl
  · exact .inl ((List.mem_singleton.mp hs).trans (List.mem_singleton.mp ht).symm)
  · have hturnOn : ∀ u ∈ [Setting.turnOn .padParenOut, .turnOn .padParenIn],
        ∃ f, u = Setting.turnOn f := by simp
    exact .inr ⟨hturnOn s hs, hturnOn t ht⟩

/-- A list of options asks for one thing only. -/
theorem Options.AskedBy.unique {o o' : Options} {options : List SingleOption}
    (h : o.AskedBy options) (h' : o'.AskedBy options) : o = o' := by
  have hflag : ∀ f, o.isOn f = o'.isOn f := by
    intro f
    rw [Bool.eq_iff_iff, h.flag, h'.flag]
  have hstyle : o.style = o'.style := by
    refine h.style.unique (fun option v w hv hw => ?_) h'.style
    simpa using SingleOption.Sets.eq_or hv hw
  have hindent : (o.indentKind, o.indentWidth) = (o'.indentKind, o'.indentWidth) := by
    refine h.indent.unique (fun option v w hv hw => ?_) h'.indent
    simpa [Prod.ext_iff] using SingleOption.Sets.eq_or hv hw
  have halign : o.alignPointer = o'.alignPointer := by
    refine h.alignPointer.unique ?_ h'.alignPointer
    rintro option _ _ ⟨a, rfl, ha⟩ ⟨b, rfl, hb⟩
    simpa using SingleOption.Sets.eq_or ha hb
  have hlineEnd : o.lineEnd = o'.lineEnd := by
    refine h.lineEnd.unique ?_ h'.lineEnd
    rintro option _ _ ⟨a, rfl, ha⟩ ⟨b, rfl, hb⟩
    simpa using SingleOption.Sets.eq_or ha hb
  have hlanguage : o.language = o'.language := by
    refine h.language.unique (fun option v w hv hw => ?_) h'.language
    simpa using SingleOption.Sets.eq_or hv hw
  obtain ⟨hkind, hwidth⟩ := Prod.mk.inj hindent
  exact eq_of_isOn_eq hlanguage hstyle hkind hwidth halign hlineEnd hflag

/-! ## The order of options -/

inductive OptionField where
  | style
  | indent
  | alignPointer
  | lineEnd
  | language
  | flag (f : Flag)
deriving DecidableEq

def Setting.field : Setting → OptionField
  | .style _ => .style
  | .indent _ _ => .indent
  | .alignPointer _ => .alignPointer
  | .lineEnd _ => .lineEnd
  | .language _ => .language
  | .turnOn f => .flag f

/-- Two options set no field in common. -/
def SingleOption.Apart (a b : SingleOption) : Prop :=
  ∀ s t, a.Sets s → b.Sets t → s.field ≠ t.field

/-- A list of options is another one with options that set different fields reordered and with
options repeated or left out where they are repeated. -/
inductive Rearranged : List SingleOption → List SingleOption → Prop
  | refl (l) : Rearranged l l
  | symm {l l'} (h : Rearranged l l') : Rearranged l' l
  | trans {l l' l''} (h : Rearranged l l') (h' : Rearranged l' l'') : Rearranged l l''
  | swap (front behind) {a b} (h : a.Apart b) :
      Rearranged (front ++ a :: b :: behind) (front ++ b :: a :: behind)
  | again (front behind a) : Rearranged (front ++ a :: behind) (front ++ a :: a :: behind)

section LastSets

variable {γ : Type} {start v : γ}

theorem lastSets_append_congr {α : Type} {sets : α → γ → Prop} {l l' : List α}
    (h : ∀ v, LastSets sets start l v ↔ LastSets sets start l' v) (behind : List α) (v : γ) :
    LastSets sets start (l ++ behind) v ↔ LastSets sets start (l' ++ behind) v := by
  induction behind using List.reverseRecOn with
  | nil => rw [List.append_nil, List.append_nil, h]
  | append_singleton behind a ih =>
      rw [← List.append_assoc, ← List.append_assoc, lastSets_concat, lastSets_concat, ih]

/-- What sets a value last does not change where two options that set different fields change
places or one is repeated. -/
theorem Rearranged.lastSets_iff {sets : SingleOption → γ → Prop} {l l' : List SingleOption}
    (hsets : ∀ a b : SingleOption, a.Apart b → ∀ v w, sets a v → ¬sets b w)
    (h : Rearranged l l') : LastSets sets start l v ↔ LastSets sets start l' v := by
  induction h generalizing v with
  | refl l => rfl
  | symm _ ih => exact ih.symm
  | trans _ _ ih ih' => exact ih.trans ih'
  | @swap front behind a b hapart =>
      have happend : ∀ x y, front ++ x :: y :: behind = (front ++ [x] ++ [y]) ++ behind := by
        simp
      rw [happend, happend]
      refine lastSets_append_congr (fun v => ?_) behind v
      rw [lastSets_concat, lastSets_concat, lastSets_concat, lastSets_concat]
      have hnot := hsets a b hapart
      constructor
      · rintro (hb | ⟨hb, ha | ⟨ha, hfront⟩⟩)
        · exact .inr ⟨fun w hw => hnot w v hw hb, .inl hb⟩
        · exact .inl ha
        · exact .inr ⟨ha, .inr ⟨hb, hfront⟩⟩
      · rintro (ha | ⟨ha, hb | ⟨hb, hfront⟩⟩)
        · exact .inr ⟨fun w => hnot v w ha, .inl ha⟩
        · exact .inl hb
        · exact .inr ⟨hb, .inr ⟨ha, hfront⟩⟩
  | again front behind a =>
      have hone : front ++ a :: behind = (front ++ [a]) ++ behind := by
        simp
      have htwo : front ++ a :: a :: behind = (front ++ [a] ++ [a]) ++ behind := by
        simp
      rw [hone, htwo]
      refine lastSets_append_congr (fun v => ?_) behind v
      rw [lastSets_concat, lastSets_concat, lastSets_concat]
      constructor
      · rintro (ha | ⟨hnone, hfront⟩)
        · exact .inl ha
        · exact .inr ⟨hnone, .inr ⟨hnone, hfront⟩⟩
      · rintro (ha | ⟨-, h⟩)
        · exact .inl ha
        · exact h

end LastSets

theorem Rearranged.mem_iff {l l' : List SingleOption} (h : Rearranged l l') (a : SingleOption) :
    a ∈ l ↔ a ∈ l' := by
  induction h with
  | refl l => rfl
  | symm _ ih => exact ih.symm
  | trans _ _ ih ih' => exact ih.trans ih'
  | swap front behind hapart =>
      simp only [List.mem_append, List.mem_cons]
      tauto
  | again front behind b =>
      simp only [List.mem_append, List.mem_cons]
      tauto

theorem Rearranged.askedBy_iff {l l' : List SingleOption} (h : Rearranged l l') {o : Options} :
    o.AskedBy l ↔ o.AskedBy l' := by
  have hforth : ∀ {l l' : List SingleOption}, Rearranged l l' → o.AskedBy l → o.AskedBy l' := by
    intro l l' h ho
    refine ⟨fun f => ?_, ?_, ?_, ?_, ?_, ?_⟩
    · simpa only [h.mem_iff] using ho.flag f
    · refine (h.lastSets_iff fun a b hapart v w hv hw => ?_).mp ho.style
      exact hapart _ _ hv hw rfl
    · refine (h.lastSets_iff fun a b hapart v w hv hw => ?_).mp ho.indent
      exact hapart _ _ hv hw rfl
    · refine (h.lastSets_iff ?_).mp ho.alignPointer
      rintro a b hapart _ _ ⟨x, -, hx⟩ ⟨y, -, hy⟩
      exact hapart _ _ hx hy rfl
    · refine (h.lastSets_iff ?_).mp ho.lineEnd
      rintro a b hapart _ _ ⟨x, -, hx⟩ ⟨y, -, hy⟩
      exact hapart _ _ hx hy rfl
    · refine (h.lastSets_iff fun a b hapart v w hv hw => ?_).mp ho.language
      exact hapart _ _ hv hw rfl
  exact ⟨hforth h, hforth h.symm⟩

/-! ## The meaning of a text -/

/-- A text is accepted with the options that its single options ask for, if all of them are in the
table. -/
theorem parseOptions_ok_iff_askedBy {text : String} {o : Options} :
    parseOptions text = .ok o ↔
      (∀ option ∈ optionsOf text, ∃ ss, option.Means ss) ∧ o.AskedBy (optionsOf text) := by
  rw [parseOptions_ok_iff]
  refine and_congr_right fun _ => ?_
  constructor
  · rintro rfl
    exact askedBy_foldl _
  · intro ho
    exact ho.unique (askedBy_foldl _)

/-- What an options text means.  It is refused if one of its directives is not valid on its own, and
then with the list of those directives in order.  Otherwise each flag is on if a single option turns
it on, the other fields are as the last single option that sets them says, and the width of a level
is in bounds; there is one such record of options.  A text whose single options are the same but for
the order of those that set different fields, and but for repetitions, asks for the same. -/
theorem parseOptions_means (text : String) :
    ((∃ e, parseOptions text = .error e) ↔ ∃ d ∈ directives text, ¬ValidDirective d) ∧
      (∀ e, parseOptions text = .error e →
        e.rejected = ((directives text).filter (¬ValidDirective ·)).map reportOf) ∧
      (∀ o, parseOptions text = .ok o ↔
        (∀ d ∈ directives text, ValidDirective d) ∧ o.AskedBy (optionsOf text)) ∧
      (∀ o, parseOptions text = .ok o → 2 ≤ o.indentWidth ∧ o.indentWidth ≤ 20) ∧
      ∀ text', Rearranged (optionsOf text) (optionsOf text') →
        ∀ o, parseOptions text = .ok o ↔ parseOptions text' = .ok o := by
  refine ⟨exists_parseOptions_error_iff, ?_, ?_, ?_, ?_⟩
  · intro e he
    rw [← rejectedOf_eq, (parseOptions_eq_error_iff.mp he).1]
  · intro o
    rw [parseOptions_ok_iff_askedBy, optionsOf, List.forall_mem_flatMap]
    rfl
  · intro o ho
    exact indentWidth_parseOptions ho
  · intro text' hsame o
    rw [parseOptions_ok_iff_askedBy, parseOptions_ok_iff_askedBy, hsame.askedBy_iff]
    simp only [hsame.mem_iff]

/-- A preset and the flag that it implies set different fields. -/
theorem parseOptions_means_google :
    (∃ o, parseOptions "--style=google -xG" = .ok o) ∧
      ∀ o, parseOptions "--style=google -xG" = .ok o ↔
        parseOptions "-xG -xG,style=google" = .ok o := by
  have hfirst : optionsOf "--style=google -xG" =
      [.long "style=google".toList, .short ⟨true, 'G', none⟩] := by decide +kernel
  have hsecond : optionsOf "-xG -xG,style=google" =
      [.short ⟨true, 'G', none⟩, .short ⟨true, 'G', none⟩, .long "style=google".toList] := by
    decide +kernel
  have hstyle : (SingleOption.long "style=google".toList).settings = [.style .google] := by
    decide +kernel
  have hflag : (SingleOption.short ⟨true, 'G', none⟩).settings = [.turnOn .indentModifiers] := by
    decide +kernel
  have hapart : (SingleOption.long "style=google".toList).Apart (.short ⟨true, 'G', none⟩) := by
    intro s t hs ht
    rw [SingleOption.sets_iff, hstyle, List.mem_singleton] at hs
    rw [SingleOption.sets_iff, hflag, List.mem_singleton] at ht
    rw [hs, ht]
    decide
  have hsame : Rearranged (optionsOf "--style=google -xG") (optionsOf "-xG -xG,style=google") := by
    rw [hfirst, hsecond]
    exact (Rearranged.swap [] [] hapart).trans (.again [] [_] _)
  have haccepted : rejectedOf "--style=google -xG" = [] := by decide +kernel
  refine ⟨exists_parseOptions_iff.mpr haccepted, fun o => ?_⟩
  exact (parseOptions_means _).2.2.2.2 _ hsame o

end Beautifier
