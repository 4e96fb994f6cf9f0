/-
Option bytes that are no text.

Lenient reading puts U+FFFD in the place of bytes that are no UTF-8.  Outside
of comments that character is part of a directive (`exists_directive`), since
it separates nothing, and no directive with it is valid, since valid ones are
ASCII.  So such options are refused, and the report names the directives that
hold the character among the others that are not valid
(`transform_of_replacement`).
-/
import Beautifier.Proofs.Options.Ascii

namespace Beautifier

/-- No comment is open behind a text: its lines end behind each of its `#`. -/
def OutsideComment (front : List Char) : Prop := ∀ a b, front = a ++ '#' :: b → '\n' ∈ b

variable {p : Char → Bool} {front mid back : List Char} {c : Char}

/-! ## The piece around a part of a text -/

theorem exists_piece_behind (hmid : ∀ c ∈ mid, p c = false) (back : List Char) :
    ∃ b, b <+: back ∧ mid ++ b ∈ pieces p (mid ++ back) := by
  induction back generalizing mid with
  | nil =>
      refine ⟨[], List.prefix_rfl, ?_⟩
      rw [List.append_nil, pieces_of_forall_not hmid]
      exact List.mem_cons_self
  | cons d back ih =>
      cases hd : p d with
      | true =>
          refine ⟨[], List.nil_prefix, ?_⟩
          rw [List.append_nil, pieces_append_sep mid back hd, pieces_of_forall_not hmid]
          exact List.mem_cons_self
      | false =>
          have hmid' : ∀ c ∈ mid ++ [d], p c = false :=
            List.forall_mem_append.mpr ⟨hmid, by simpa using hd⟩
          obtain ⟨b, hb, hpiece⟩ := ih hmid'
          rw [List.append_assoc, List.append_assoc] at hpiece
          exact ⟨d :: b, (List.prefix_cons_inj d).mpr hb, hpiece⟩

theorem exists_piece (hmid : ∀ c ∈ mid, p c = false) (front back : List Char) :
    ∃ a b, a <:+ front ∧ b <+: back ∧ a ++ (mid ++ b) ∈ pieces p (front ++ (mid ++ back)) := by
  induction front using List.reverseRecOn generalizing mid with
  | nil =>
      obtain ⟨b, hb, hpiece⟩ := exists_piece_behind hmid back
      exact ⟨[], b, List.suffix_rfl, hb, hpiece⟩
  | append_singleton front d ih =>
      rw [List.append_assoc, List.singleton_append]
      cases hd : p d with
      | true =>
          obtain ⟨b, hb, hpiece⟩ := exists_piece_behind hmid back
          refine ⟨[], b, List.nil_suffix, hb, ?_⟩
          rw [pieces_append_sep front _ hd]
          exact List.mem_append_right _ hpiece
      | false =>
          have hmid' : ∀ c ∈ d :: mid, p c = false := List.forall_mem_cons.mpr ⟨hd, hmid⟩
          obtain ⟨a, b, ha, hb, hpiece⟩ := ih hmid'
          refine ⟨a ++ [d], b, (List.suffix_append_inj_of_length_eq rfl).mpr ⟨ha, rfl⟩, hb, ?_⟩
          rw [List.append_assoc, List.singleton_append]
          exact hpiece

/-! ## Directives -/

/-- A character that stands in no comment and separates nothing is part of a directive. -/
theorem exists_directive {text : String} (htext : text.toList = front ++ c :: back)
    (hfront : OutsideComment front) (hspace : isWhiteSpace c = false) (hcomma : c ≠ ',')
    (hhash : c ≠ '#') :
    ∃ a b, a <:+ front ∧ b <+: back ∧ a ++ c :: b ∈ directives text := by
  have hline : ∀ d ∈ [c], (d == '\n') = false := by
    intro d hd
    rw [List.mem_singleton.mp hd, beq_eq_false_iff_ne]
    rintro rfl
    exact absurd hspace (by decide)
  have hsep : ∀ d ∈ [c], (isWhiteSpace d || d == ',') = false := by
    intro d hd
    rw [List.mem_singleton.mp hd, hspace, Bool.false_or, beq_eq_false_iff_ne]
    exact hcomma
  -- First the line, then the part of it in front of a comment, then the directive.
  obtain ⟨left, right, hleft, hright, hpiece⟩ := exists_piece hline front back
  have hopen : ∀ d ∈ left, d != '#' := by
    intro d hd
    rw [bne_iff_ne]
    rintro rfl
    obtain ⟨u, v, rfl⟩ := List.append_of_mem hd
    obtain ⟨w, rfl⟩ := hleft
    have hnewline : '\n' ∈ v := hfront (w ++ u) v (List.append_assoc ..).symm
    have hmem : '\n' ∈ u ++ '#' :: v ++ ([c] ++ right) := by simp [hnewline]
    simpa using (of_mem_pieces hpiece hmem).2
  obtain ⟨a, b, ha, hb, hdirective⟩ := exists_piece hsep left (right.takeWhile (· != '#'))
  refine ⟨a, b, ha.trans hleft, hb.trans ((List.takeWhile_prefix _).trans hright), ?_⟩
  have hcut : (left ++ ([c] ++ right)).takeWhile (· != '#') =
      left ++ ([c] ++ right.takeWhile (· != '#')) := by
    have hc : (c != '#') = true := bne_iff_ne.mpr hhash
    rw [List.takeWhile_append_of_pos hopen, List.singleton_append]
    simp only [List.takeWhile_cons_of_pos, hc, List.singleton_append]
  rw [directives_eq, List.mem_flatMap]
  refine ⟨_, htext ▸ hpiece, ?_⟩
  rw [lineDirectives, hcut]
  exact List.mem_filter.mpr ⟨hdirective, by simp⟩

theorem not_validDirective_of_replacement {directive : List Char}
    (h : Utf8.replacement ∈ directive) : ¬ValidDirective directive :=
  fun hvalid => absurd (hvalid.isAscii _ h) (by decide)

theorem readDirective_of_replacement {directive : List Char} (h : Utf8.replacement ∈ directive) :
    readDirective directive = .error (reportOf directive) := by
  have hnone := Option.not_isSome_iff_eq_none.mp
    (mt validDirective_iff.mpr (not_validDirective_of_replacement h))
  rw [readDirective_eq, hnone, Option.elim_none]

theorem mem_reportOf {directive : List Char} (hc : c ≠ '-') (h : c ∈ directive) :
    c ∈ (reportOf directive).toList := by
  unfold reportOf
  split
  · rw [String.toList_ofList]
    simpa [hc] using h
  · rwa [String.toList_ofList]

/-! ## Options that are refused -/

/-- Option bytes that leave U+FFFD outside of comments are refused: there is no output and one
report, which lists the directives with U+FFFD among all that are not valid, in order.  The
character is part of such a directive, and no directive with it means anything. -/
theorem transform_of_replacement {source options : List UInt8} (hsource : Utf8.Valid source)
    (hmark : (Utf8.decodeLossy options).toList = front ++ Utf8.replacement :: back)
    (hfront : OutsideComment front) (allocator : Allocator) :
    (∃ rejected : List String,
        transform source options allocator = ⟨none,
          [⟨130, "\n\t".intercalate ("Invalid Artistic Style options:" :: rejected)⟩], []⟩ ∧
        rejected = ((directives (Utf8.decodeLossy options)).filter
          fun d => Utf8.replacement ∈ d ∨ ¬ValidDirective d).map reportOf) ∧
      (∃ a b, a <:+ front ∧ b <+: back ∧
        a ++ Utf8.replacement :: b ∈ directives (Utf8.decodeLossy options)) ∧
      ∀ directive, Utf8.replacement ∈ directive →
        readDirective directive = .error (reportOf directive) ∧
          Utf8.replacement ∈ (reportOf directive).toList := by
  obtain ⟨a, b, ha, hb, hdirective⟩ :=
    exists_directive hmark hfront (by decide) (by decide) (by decide)
  have hrejected : rejectedOf (Utf8.decodeLossy options) =
      ((directives (Utf8.decodeLossy options)).filter
        fun d => Utf8.replacement ∈ d ∨ ¬ValidDirective d).map reportOf := by
    rw [rejectedOf_eq]
    refine congrArg _ (List.filter_congr fun d _ => decide_eq_decide.mpr ?_)
    exact ⟨.inr, fun h => h.elim not_validDirective_of_replacement id⟩
  refine ⟨⟨_, ?_, rfl⟩, ⟨a, b, ha, hb, hdirective⟩, fun d hd => ?_⟩
  · refine (Answers.eq_transform (.options hsource hrejected fun hnil => ?_)).symm
    have hheld : Utf8.replacement ∈ a ++ Utf8.replacement :: b :=
      List.mem_append_right _ List.mem_cons_self
    have hnone := List.filter_eq_nil_iff.mp (List.map_eq_nil_iff.mp hnil) _ hdirective
    exact hnone (decide_eq_true (Or.inl hheld))
  · exact ⟨readDirective_of_replacement hd, mem_reportOf (by decide) hd⟩

/-- A byte that is no UTF-8, behind an option and in front of another one that is not valid. -/
theorem transform_of_replacement_pad_oper :
    transform (Utf8.encode "a=b;") (Utf8.encode "--pad-oper" ++ 0xFF :: Utf8.encode ",--indent")
        .exact =
      ⟨none, [⟨130, "Invalid Artistic Style options:\n\tpad-oper\uFFFD\n\tindent"⟩], []⟩ := by
  have hmark : (Utf8.decodeLossy
      (Utf8.encode "--pad-oper" ++ 0xFF :: Utf8.encode ",--indent")).toList =
        "--pad-oper".toList ++ Utf8.replacement :: ",--indent".toList := by decide +kernel
  have hfront : OutsideComment "--pad-oper".toList := by
    intro a b h
    have hmem : '#' ∈ "--pad-oper".toList := by
      rw [h]
      simp
    exact absurd hmem (by decide)
  obtain ⟨⟨rejected, htransform, hrejected⟩, -⟩ :=
    transform_of_replacement ⟨"a=b;", rfl⟩ hmark hfront .exact
  have hdirectives : directives (Utf8.decodeLossy
      (Utf8.encode "--pad-oper" ++ 0xFF :: Utf8.encode ",--indent")) =
        ["--pad-oper\uFFFD".toList, "--indent".toList] := by decide +kernel
  have hindent : ¬ValidDirective "--indent".toList := by
    rw [validDirective_iff]
    decide
  have hall : ∀ d ∈ ["--pad-oper\uFFFD".toList, "--indent".toList],
      Utf8.replacement ∈ d ∨ ¬ValidDirective d := by
    rw [List.forall_mem_cons, List.forall_mem_singleton]
    exact ⟨.inl (by decide), .inr hindent⟩
  rw [hdirectives, List.filter_eq_self.mpr fun d hd => decide_eq_true (hall d hd)] at hrejected
  rw [htransform, hrejected]
  rfl

end Beautifier
