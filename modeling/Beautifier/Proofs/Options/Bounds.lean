/-
The bounds of the indentation.

An indentation that an options text asks for is refused unless its width lies
in bounds, whichever spelling asks for it.  So every text that is accepted
leaves the width in bounds (`indentWidth_parseOptions`).
-/
import Beautifier.Options.Directive

namespace Beautifier

def WidthInBounds (width : Nat) : Prop := minIndentWidth ≤ width ∧ width ≤ maxIndentWidth

/-- A setting that asks for no width out of bounds. -/
def Setting.InBounds : Setting → Prop
  | .indent _ width => WidthInBounds width
  | _ => True

namespace Setting

theorem inBounds_indent? {kind : IndentKind} {width : Nat} {s : Setting}
    (h : indent? kind width = some s) : s.InBounds := by
  unfold indent? at h
  split at h
  · next hwidth =>
    cases h
    exact hwidth
  · cases h

theorem inBounds_padParens : ∀ s ∈ padParens, s.InBounds := by
  intro s hs
  simp only [padParens, List.mem_cons, List.not_mem_nil, or_false] at hs
  rcases hs with rfl | rfl <;> trivial

end Setting

theorem inBounds_map {α : Type} {setting : α → Setting} {read : Option α} {ss : List Setting}
    (h : read.map (fun a => [setting a]) = some ss) (hsetting : ∀ a, (setting a).InBounds) :
    ∀ s ∈ ss, s.InBounds := by
  obtain ⟨a, -, rfl⟩ := Option.map_eq_some_iff.mp h
  intro s hs
  rw [List.mem_singleton.mp hs]
  exact hsetting a

theorem inBounds_flag {p : Flag → Bool} {ss : List Setting}
    (h : (Flag.all.find? p).map (fun f => [Setting.turnOn f]) = some ss) :
    ∀ s ∈ ss, s.InBounds :=
  inBounds_map h fun _ => trivial

/-! ## Long options -/

theorem inBounds_longIndent? {value : List Char} {s : Setting} (h : longIndent? value = some s) :
    s.InBounds := by
  simp only [longIndent?, Option.bind_eq_some_iff] at h
  obtain ⟨kind, -, width, -, h⟩ := h
  exact Setting.inBounds_indent? h

theorem inBounds_longWithValue? {name : String} {value : List Char} {s : Setting}
    (h : longWithValue? name value = some s) : s.InBounds := by
  unfold longWithValue? at h
  split at h
  · obtain ⟨style, -, rfl⟩ := Option.map_eq_some_iff.mp h
    trivial
  · exact inBounds_longIndent? h
  · split at h <;> cases h <;> trivial
  · split at h <;> cases h <;> trivial
  · split at h <;> cases h <;> trivial
  · cases h

theorem inBounds_readLong? {option : List Char} {ss : List Setting}
    (h : readLong? option = some ss) : ∀ s ∈ ss, s.InBounds := by
  unfold readLong? at h
  split at h
  · obtain ⟨s, hs, rfl⟩ := Option.map_eq_some_iff.mp h
    intro u hu
    rw [List.mem_singleton.mp hu]
    exact inBounds_longWithValue? hs
  · unfold longWithoutValue? at h
    split at h
    · cases h
      exact Setting.inBounds_padParens
    · exact inBounds_flag h

/-! ## Short options -/

theorem inBounds_shortFlag? {option : ShortOption} {ss : List Setting}
    (h : option.flag? = some ss) : ∀ s ∈ ss, s.InBounds := by
  unfold ShortOption.flag? at h
  split at h
  · cases h
  · exact inBounds_flag h

theorem inBounds_shortIndent? {option : ShortOption} {kind : IndentKind} {ss : List Setting}
    (h : option.indent? kind = some ss) : ∀ s ∈ ss, s.InBounds := by
  obtain ⟨s, hs, rfl⟩ := Option.map_eq_some_iff.mp h
  intro u hu
  rw [List.mem_singleton.mp hu]
  exact Setting.inBounds_indent? hs

theorem inBounds_read? {option : ShortOption} {ss : List Setting} (h : option.read? = some ss) :
    ∀ s ∈ ss, s.InBounds := by
  unfold ShortOption.read? at h
  split at h
  · exact inBounds_shortFlag? h
  split at h
  · exact inBounds_map h fun _ => trivial
  split at h
  · exact inBounds_shortIndent? h
  split at h
  · exact inBounds_shortIndent? h
  split at h
  · exact inBounds_shortIndent? h
  split at h
  · exact inBounds_map h fun _ => trivial
  split at h
  · exact inBounds_map h fun _ => trivial
  split at h
  · split at h
    · cases h
    · cases h
      exact Setting.inBounds_padParens
  · exact inBounds_shortFlag? h

theorem inBounds_allSettings? {readings : List (Option (List Setting))} {ss : List Setting}
    (hall : ∀ r ∈ readings, ∀ ts, r = some ts → ∀ s ∈ ts, s.InBounds)
    (h : allSettings? readings = some ss) : ∀ s ∈ ss, s.InBounds := by
  induction readings generalizing ss with
  | nil =>
      cases h
      simp
  | cons r readings ih =>
      cases r with
      | none => cases h
      | some ts =>
          obtain ⟨rest, hrest, rfl⟩ := Option.map_eq_some_iff.mp h
          intro s hs
          rcases List.mem_append.mp hs with hs | hs
          · exact hall _ List.mem_cons_self ts rfl s hs
          · exact ih (fun r hr => hall r (List.mem_cons_of_mem _ hr)) hrest s hs

theorem inBounds_readShort? {group : List Char} {ss : List Setting}
    (h : readShort? group = some ss) : ∀ s ∈ ss, s.InBounds := by
  unfold readShort? at h
  split at h
  · cases h
  · obtain ⟨options, -, hall⟩ := Option.bind_eq_some_iff.mp h
    refine inBounds_allSettings? (fun r hr ts hts => ?_) hall
    obtain ⟨option, -, rfl⟩ := List.mem_map.mp hr
    exact inBounds_read? hts

/-! ## All options -/

theorem inBounds_readDirective {directive : List Char} {ss : List Setting}
    (h : readDirective directive = .ok ss) : ∀ s ∈ ss, s.InBounds := by
  unfold readDirective at h
  split at h
  · split at h
    · next hlong =>
      cases h
      exact inBounds_readLong? hlong
    · cases h
  · split at h
    · next hshort =>
      cases h
      exact inBounds_readShort? hshort
    · cases h
  · split at h
    · next hlong =>
      cases h
      exact inBounds_readLong? hlong
    · cases h

theorem indentWidth_apply {o : Options} {s : Setting} (ho : WidthInBounds o.indentWidth)
    (hs : s.InBounds) : WidthInBounds (o.apply s).indentWidth := by
  cases s with
  | indent kind width => exact hs
  | style style => cases style <;> exact ho
  | turnOn f => cases f <;> exact ho
  | _ => exact ho

theorem indentWidth_foldl {o : Options} {ss : List Setting} (ho : WidthInBounds o.indentWidth)
    (hs : ∀ s ∈ ss, s.InBounds) : WidthInBounds (ss.foldl Options.apply o).indentWidth := by
  induction ss generalizing o with
  | nil => exact ho
  | cons s ss ih =>
      exact ih (indentWidth_apply ho (hs s List.mem_cons_self))
        fun u hu => hs u (List.mem_cons_of_mem _ hu)

/-- The width of a level is in bounds whatever options are accepted. -/
theorem indentWidth_parseOptions {text : String} {o : Options} (h : parseOptions text = .ok o) :
    WidthInBounds o.indentWidth := by
  unfold parseOptions at h
  dsimp only at h
  split at h
  · cases h
    refine indentWidth_foldl ⟨by decide, by decide⟩ fun s hs => ?_
    obtain ⟨reading, hreading, hs⟩ := List.mem_flatMap.mp hs
    obtain ⟨directive, -, rfl⟩ := List.mem_map.mp hreading
    cases hread : readDirective directive with
    | ok ss =>
        rw [hread] at hs
        exact inBounds_readDirective hread s hs
    | error e =>
        rw [hread] at hs
        cases hs
  · cases h

end Beautifier
