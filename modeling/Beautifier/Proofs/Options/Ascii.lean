/-
The characters of options.

Every name and every letter of the table is ASCII, and so is every numeral.
A directive that is valid is made of these and of the signs between them, so a
character beyond ASCII makes it invalid wherever it stands
(`ValidDirective.isAscii`).
-/
import Beautifier.Proofs.Options.Meaning

namespace Beautifier

def IsAscii (text : List Char) : Prop := ∀ c ∈ text, c.toNat < 0x80

instance (text : List Char) : Decidable (IsAscii text) := text.decidableBAll _

variable {a b text : List Char} {c : Char}

@[simp] theorem isAscii_cons : IsAscii (c :: text) ↔ c.toNat < 0x80 ∧ IsAscii text :=
  List.forall_mem_cons

@[simp] theorem isAscii_append : IsAscii (a ++ b) ↔ IsAscii a ∧ IsAscii b :=
  List.forall_mem_append

/-! ## Numbers -/

theorem isAscii_of_isDigit (h : ∀ c ∈ text, c.isDigit) : IsAscii text := by
  intro c hc
  have hbounds : 48 ≤ c.toNat ∧ c.toNat ≤ 57 := by
    simpa [Char.isDigit, UInt32.le_iff_toNat_le] using h c hc
  omega

theorem isAscii_of_readNumeral? {n : Nat} (h : readNumeral? text = some n) : IsAscii text := by
  have hdigits : ∀ digits : List Char,
      (if digits.isEmpty || !digits.all Char.isDigit then none else decimal? longNumbers digits) =
        some n → IsAscii digits := by
    intro digits h
    split at h
    · cases h
    · next hall =>
      rw [Bool.or_eq_true, not_or, Bool.not_eq_true', Bool.not_eq_false, List.all_eq_true] at hall
      exact isAscii_of_isDigit hall.2
  unfold readNumeral? at h
  dsimp only at h
  split at h
  · exact isAscii_cons.mpr ⟨by decide, hdigits _ h⟩
  · exact hdigits _ h

theorem isAscii_of_takeNumber (h : IsAscii (takeNumber text).2) : IsAscii text := by
  have hcut : text.takeWhile Char.isDigit ++ (takeNumber text).2 = text :=
    List.takeWhile_append_dropWhile
  rw [← hcut]
  exact isAscii_append.mpr ⟨isAscii_of_isDigit fun c hc => List.mem_takeWhile_imp hc, h⟩

/-! ## Single options -/

theorem BraceStyle.isAscii_of_ofName? {name : String} {s : BraceStyle}
    (h : ofName? name = some s) : IsAscii name.toList := by
  unfold ofName? at h
  split at h <;> first | decide | cases h

namespace SingleOption

theorem Means.isAscii {ss : List Setting} (h : Means (.long text) ss) : IsAscii text := by
  cases h with
  | longFlag f => cases f <;> decide
  | longParens => decide
  | longStyle hname =>
      exact isAscii_append.mpr ⟨by decide, isAscii_cons.mpr
        ⟨by decide, BraceStyle.isAscii_of_ofName? hname⟩⟩
  | longIndent kind => cases kind <;> decide
  | longIndentWidth kind hnumeral hwidth =>
      have hkind : IsAscii kind.longName.toList := by cases kind <;> decide
      exact isAscii_append.mpr ⟨by decide, isAscii_cons.mpr ⟨by decide, isAscii_append.mpr
        ⟨hkind, isAscii_cons.mpr ⟨by decide, isAscii_of_readNumeral? hnumeral⟩⟩⟩⟩
  | longPointer a => cases a <;> decide
  | longLineEnd e => cases e <;> decide
  | longLanguage l => cases l <;> decide

theorem Means.letter_lt {option : ShortOption} {ss : List Setting} (h : Means (.short option) ss) :
    option.letter.toNat < 0x80 := by
  cases h with
  | shortFlag f => cases f <;> decide
  | shortParens => decide
  | shortStyle => exact (by decide : 'A'.toNat < 0x80)
  | shortIndent kind =>
      have hkind : kind.letter.toNat < 0x80 := by cases kind <;> decide
      exact hkind
  | shortPointer => exact (by decide : 'k'.toNat < 0x80)
  | shortLineEnd => exact (by decide : 'z'.toNat < 0x80)

end SingleOption

/-! ## Directives -/

/-- A group is made of its letters, of numbers and of the `x` in front of letters. -/
theorem isAscii_of_shortOptions? {group : List Char} {options : List ShortOption}
    (h : shortOptions? group = some options)
    (hletters : ∀ option ∈ options, option.letter.toNat < 0x80) : IsAscii group := by
  fun_induction shortOptions? group generalizing options with
  | case1 => exact nofun
  | case2 => cases h
  | case3 letter rest ih =>
      obtain ⟨number, -, h⟩ := Option.bind_eq_some_iff.mp h
      obtain ⟨others, hothers, rfl⟩ := Option.map_eq_some_iff.mp h
      rw [List.forall_mem_cons] at hletters
      have hrest := isAscii_of_takeNumber (ih hothers hletters.2)
      exact isAscii_cons.mpr ⟨by decide, isAscii_cons.mpr ⟨hletters.1, hrest⟩⟩
  | case4 letter rest _ _ ih =>
      obtain ⟨number, -, h⟩ := Option.bind_eq_some_iff.mp h
      obtain ⟨others, hothers, rfl⟩ := Option.map_eq_some_iff.mp h
      rw [List.forall_mem_cons] at hletters
      have hrest := isAscii_of_takeNumber (ih hothers hletters.2)
      exact isAscii_cons.mpr ⟨hletters.1, hrest⟩

theorem ValidDirective.isAscii {directive : List Char} (h : ValidDirective directive) :
    IsAscii directive := by
  unfold ValidDirective singleOptions at h
  split at h
  · next text =>
    obtain ⟨ss, hss⟩ := h _ List.mem_cons_self
    exact isAscii_cons.mpr ⟨by decide, isAscii_cons.mpr ⟨by decide, hss.isAscii⟩⟩
  · next group hgroup =>
    refine isAscii_cons.mpr ⟨by decide, ?_⟩
    split at h
    · obtain ⟨ss, hss⟩ := h _ List.mem_cons_self
      cases hss
    split at h
    · next options hoptions =>
      refine isAscii_of_shortOptions? hoptions fun option hoption => ?_
      obtain ⟨ss, hss⟩ := h _ (List.mem_map_of_mem hoption)
      exact hss.letter_lt
    · obtain ⟨ss, hss⟩ := h _ List.mem_cons_self
      cases hss
  · obtain ⟨ss, hss⟩ := h _ List.mem_cons_self
    exact hss.isAscii

end Beautifier
