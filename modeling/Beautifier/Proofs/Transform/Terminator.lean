/-
No NUL where none was.

A NUL ends the text for those who read a buffer as one, so a formatted text
could be cut short, and a report lost, by one that formatting or reading put
in.  None is put in: the output is made of what the source holds, of white
space and of braces (`mem_of_mem_format`), a report of what the options hold
(`nul_not_mem_message`), and a NUL in UTF-8 is one byte and no part of
another character.
-/
import Beautifier.Proofs.Options.Meaning
import Beautifier.Proofs.Layout.Conservation

namespace Beautifier

/-! ## Bytes -/

theorem untilNul_eq {bytes : List UInt8} (h : 0 ∉ bytes) : untilNul bytes = bytes := by
  refine List.takeWhile_eq_self_iff.mpr fun b hb => bne_iff_ne.mpr ?_
  rintro rfl
  exact h hb

theorem untilNul_append_nul {bytes : List UInt8} (h : 0 ∉ bytes) :
    untilNul (bytes ++ [0]) = bytes := by
  have hfront := untilNul_eq h
  rw [untilNul] at hfront ⊢
  rw [List.takeWhile_append, hfront, if_pos rfl]
  exact List.append_nil bytes

namespace Utf8

open String (utf8EncodeChar)

theorem zero_mem_utf8EncodeChar_iff {c : Char} : 0 ∈ utf8EncodeChar c ↔ c = '\x00' := by
  have hzero : ∀ n < 256, 0 = UInt8.ofNat n ↔ n = 0 := by
    intro n hn
    rw [← UInt8.toNat_inj, toNat_byte hn, UInt8.toNat_zero, eq_comm]
  have hc := toNat_lt c
  have hnul : c = '\x00' ↔ c.toNat = 0 := by
    rw [← Char.toNat_inj]
    rfl
  rw [utf8EncodeChar_eq, hnul]
  split
  · rw [List.mem_singleton, hzero _ (by omega)]
  split
  · simp only [List.mem_cons, List.not_mem_nil, or_false]
    rw [hzero _ (by omega), hzero _ (by omega)]
    omega
  split
  · simp only [List.mem_cons, List.not_mem_nil, or_false]
    rw [hzero _ (by omega), hzero _ (by omega), hzero _ (by omega)]
    omega
  · simp only [List.mem_cons, List.not_mem_nil, or_false]
    rw [hzero _ (by omega), hzero _ (by omega), hzero _ (by omega), hzero _ (by omega)]
    omega

theorem zero_mem_encode_iff {text : String} : 0 ∈ encode text ↔ '\x00' ∈ text.toList := by
  rw [encode_eq, List.mem_flatMap]
  simp only [zero_mem_utf8EncodeChar_iff, exists_eq_right]

theorem exists_of_mem_pieces {p : Piece} {bytes : List UInt8} (h : p ∈ pieces bytes) :
    ∃ b rest, b :: rest <:+ bytes ∧ p = piece b rest := by
  induction hn : bytes.length using Nat.strongRecOn generalizing bytes with
  | ind n ih =>
      cases bytes with
      | nil => cases h
      | cons b rest =>
          rw [pieces_cons, List.mem_cons] at h
          rcases h with rfl | h
          · exact ⟨b, rest, List.suffix_rfl, rfl⟩
          · have hshort : (rest.drop ((piece b rest).width - 1)).length < n := by
              rw [← hn, List.length_drop, List.length_cons]
              omega
            obtain ⟨b', rest', hsuffix, hp⟩ := ih _ hshort h rfl
            refine ⟨b', rest', (hsuffix.trans (List.drop_suffix _ _)).trans ?_, hp⟩
            exact List.suffix_cons b rest

/-- A NUL is read where a byte is one. -/
theorem zero_mem_of_nul_mem_decodeLossy {bytes : List UInt8}
    (h : '\x00' ∈ (decodeLossy bytes).toList) : 0 ∈ bytes := by
  rw [decodeLossy, String.toList_ofList] at h
  obtain ⟨p, hp, hnul⟩ := List.mem_map.mp h
  obtain ⟨b, rest, hsuffix, rfl⟩ := exists_of_mem_pieces hp
  cases hpiece : piece b rest with
  | broken width =>
      rw [hpiece] at hnul
      cases hnul
  | scalar c width =>
      rw [hpiece] at hnul
      obtain ⟨more, hbytes, -⟩ := piece_eq_scalar_iff.mp hpiece
      refine hsuffix.subset ?_
      rw [hbytes]
      exact List.mem_append_left _ (zero_mem_utf8EncodeChar_iff.mpr hnul)

end Utf8

/-! ## The output -/

theorem mem_ink_iff {c : Char} {text : List Char} (hc : isSpace c = false) :
    c ∈ ink text ↔ c ∈ text := by
  rw [ink, List.mem_filter, hc]
  exact and_iff_left rfl

/-- What stands in the output and is no white space stands in the source or is a brace put in. -/
theorem mem_of_mem_format {o : Options} {source : String} {c : Char} (hc : isSpace c = false)
    (h : c ∈ (format o source).toList) : c ∈ source.toList ∨ c = '\x7b' ∨ c = '\x7d' := by
  have hpart := partition_tokenize o.language o.indentWidth source
  have hspace : ∀ t ∈ (tokenize o.language o.indentWidth source).tokens, t.HasSpace :=
    fun t ht c hc => isSpace_of_isGapChar (hpart.isGapChar_of_mem_space t ht c hc)
  have hsource : ∀ t ∈ (tokenize o.language o.indentWidth source).tokens,
      c ∈ ink t.text.toList → c ∈ source.toList := by
    intro t ht hct
    rw [← mem_ink_iff hc, ← chars_glyphs source.toList, hpart.ink_eq]
    exact List.mem_flatMap.mpr ⟨t, ht, hct⟩
  have hlaid : ∀ t ∈ tokensToLayOut o (tokenize o.language o.indentWidth source),
      c ∈ ink t.text.toList → c ∈ source.toList ∨ c = '\x7b' ∨ c = '\x7d' :=
    forall_mem_tokensToLayOut o (fun t ht hct => .inl (hsource t ht hct))
      (fun hct => .inr (.inl (List.mem_singleton.mp hct)))
      (fun hct => .inr (.inr (List.mem_singleton.mp hct)))
  rw [← mem_ink_iff hc, format, Page.ink_render, ink_layOut o (hasSpace_tokensToLayOut o hspace)]
    at h
  obtain ⟨t, ht, hct⟩ := List.mem_flatMap.mp h
  exact hlaid t ht hct

theorem nul_not_mem_format {source : String} (h : '\x00' ∉ source.toList) (o : Options) :
    '\x00' ∉ (format o source).toList := by
  intro hnul
  rcases mem_of_mem_format (by decide) hnul with hnul | hnul | hnul
  · exact h hnul
  · exact absurd hnul (by decide)
  · exact absurd hnul (by decide)

/-! ## The reports -/

theorem mem_of_mem_directives {text : String} {directive : List Char} {c : Char}
    (hdirective : directive ∈ directives text) (hc : c ∈ directive) : c ∈ text.toList := by
  rw [directives_eq] at hdirective
  obtain ⟨line, hline, hdirective⟩ := List.mem_flatMap.mp hdirective
  refine mem_of_mem_pieces hline ((List.takeWhile_prefix (· != '#')).subset ?_)
  exact mem_of_mem_pieces (List.mem_filter.mp hdirective).1 hc

theorem mem_of_mem_reportOf {directive : List Char} {c : Char}
    (h : c ∈ (reportOf directive).toList) : c ∈ directive := by
  unfold reportOf at h
  split at h
  · rw [String.toList_ofList] at h
    exact List.mem_cons_of_mem _ (List.mem_cons_of_mem _ h)
  · rwa [String.toList_ofList] at h

theorem nul_not_mem_message_options {text : String} {e : OptionsError}
    (h : parseOptions text = .error e) (htext : '\x00' ∉ text.toList) :
    '\x00' ∉ e.message.toList := by
  have hrejected : ∀ r ∈ e.rejected, '\x00' ∉ r.toList := by
    intro r hr hnul
    rw [← (parseOptions_eq_error_iff.mp h).1, rejectedOf_eq] at hr
    obtain ⟨directive, hdirective, rfl⟩ := List.mem_map.mp hr
    exact htext (mem_of_mem_directives (List.mem_filter.mp hdirective).1 (mem_of_mem_reportOf hnul))
  have hfold : ∀ (rejected : List String) (front : String), '\x00' ∉ front.toList →
      (∀ r ∈ rejected, '\x00' ∉ r.toList) →
      '\x00' ∉ (rejected.foldl (fun text r => text ++ "\n\t" ++ r) front).toList := by
    intro rejected
    induction rejected with
    | nil => exact fun front hfront _ => hfront
    | cons r rest ih =>
        intro front hfront hall
        rw [List.forall_mem_cons] at hall
        refine ih _ ?_ hall.2
        rw [String.toList_append, String.toList_append, List.mem_append, List.mem_append, not_or,
          not_or]
        exact ⟨⟨hfront, by decide⟩, hall.1⟩
  exact hfold e.rejected _ (by decide +kernel) hrejected

theorem nul_not_mem_message_input (offset : Nat) :
    '\x00' ∉ (Failure.input offset).message.toList := by
  have hdigits : '\x00' ∉ (toString offset).toList := by
    intro h
    rw [Nat.toString_eq_repr, Nat.toList_repr] at h
    exact absurd (Nat.isDigit_of_mem_toDigits (by decide) (by decide) h) (by decide)
  have hfront : '\x00' ∉ "Source input is not valid UTF-8 (byte offset ".toList := by
    decide +kernel
  have hbehind : '\x00' ∉ ").".toList := by
    decide +kernel
  show '\x00' ∉ ("Source input is not valid UTF-8 (byte offset " ++ toString offset ++ ").").toList
  rw [String.toList_append, String.toList_append, List.mem_append, List.mem_append, not_or, not_or]
  exact ⟨⟨hfront, hdigits⟩, hbehind⟩

/-- The report of a failure holds no NUL if the options hold none. -/
theorem nul_not_mem_message {source options : List UInt8} {f : Failure}
    (h : formatBytes source options = .error f) (hoptions : 0 ∉ options) :
    '\x00' ∉ f.message.toList := by
  unfold formatBytes at h
  split at h
  · cases h
    exact nul_not_mem_message_input _
  · split at h
    · next e he =>
      cases h
      exact nul_not_mem_message_options he fun hnul =>
        hoptions (Utf8.zero_mem_of_nul_mem_decodeLossy hnul)
    · cases h

end Beautifier
