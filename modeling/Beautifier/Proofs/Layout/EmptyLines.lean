/-
Empty lines in functions.

With empty lines deleted, each token is asked whether some block that is open
around it is the body of a function, and no empty line is put above it if there
is one (`blankLines_eq_zero_of_layout`).  A closing brace is asked once its own
block is no longer open.  So in the body of a function all empty lines go but
those directly above its closing brace, and these go too if the function lies in
another one (`no_empty_lines_iff`).
-/
import Beautifier.Proofs.Layout.BraceStack
import Beautifier.Proofs.Layout.Preservation
import Beautifier.Proofs.Layout.Spots

namespace Beautifier

/-- Some of the blocks is the body of a function. -/
def anyFunction (braces : List OpenBrace) : Bool := braces.any (·.kind == .function)

/-- The blocks around a token: a closing brace stands outside the block that it closes. -/
def Cursor.blocksAround (c : Cursor) (s : State) : List OpenBrace :=
  if c.token.is "\x7d" then s.braces.tail else s.braces

section
variable {o : Options} {c : Cursor} {s : State} {cs : List Conditional} {page : Page}

/-! ## One token -/

theorem Cursor.blankLines_eq_zero (hdelete : o.deleteEmptyLines = true)
    (hblocks : o.breakBlocks = false) (hpage : page.isEmpty = false) (starts afterDo : Bool)
    (h : c.token.lineBreaks ≤ 1 ∨ anyFunction s.braces = true) :
    c.blankLines o s page starts afterDo = 0 := by
  have hkept : (if o.deleteEmptyLines && s.inFunction then 0 else c.token.lineBreaks - 1) = 0 := by
    split
    · rfl
    · next hno =>
      refine Nat.sub_eq_zero_of_le (h.resolve_right fun hfunction => hno ?_)
      rw [hdelete, State.inFunction]
      exact hfunction
  simp only [blankLines, hpage, hblocks, hkept, Bool.false_and, Bool.false_eq_true, if_false,
    ite_self]

/-- In a function no empty line is put above a token, nor above one that stands directly below the
token before. -/
theorem blankLines_eq_zero_of_layout (hdelete : o.deleteEmptyLines = true)
    (hblocks : o.breakBlocks = false) (hpage : page.isEmpty = false)
    (h : c.token.lineBreaks ≤ 1 ∨ anyFunction (c.blocksAround s) = true) {indent : Indent}
    {blankLines : Nat} (hlayout : (c.plan o s cs page).layout = .newLine indent blankLines) :
    blankLines = 0 := by
  have hzero : ∀ s', s'.braces = c.blocksAround s → ∀ starts afterDo,
      c.blankLines o s' page starts afterDo = 0 := fun s' hs' starts afterDo =>
    Cursor.blankLines_eq_zero hdelete hblocks hpage starts afterDo (hs' ▸ h)
  have hnew : ∀ {cond : Prop} [Decidable cond] {i : Indent} {spacing : Spacing} {k : Nat},
      (if cond then Layout.newLine i k else .sameLine spacing) = .newLine indent blankLines →
        k = 0 → blankLines = 0 := fun h hk => (Layout.eq_of_ite_newLine h).2 ▸ hk
  have hother : c.token.is "\x7d" = false → s.braces = c.blocksAround s := fun hclose => by
    rw [Cursor.blocksAround, hclose]
    rfl
  by_cases hkind : c.token.kind = .directive
  · have hclose : c.token.is "\x7d" = false := by simp [Token.is, hkind]
    rw [Cursor.plan, hkind] at hlayout
    exact (Layout.newLine.inj hlayout).2 ▸ hzero s (hother hclose) false false
  rcases c.plan_cases o s cs page hkind with
    ⟨htrivia, hplan⟩ | ⟨-, ⟨hopen, hplan⟩ | ⟨-, hclose, hplan⟩ | ⟨-, hclose, hplan⟩⟩
  · have hclose : c.token.is "\x7d" = false := by
      cases hcases : c.token.kind <;> simp_all [Token.is, Token.isTrivia]
    rw [hplan, Plan.comment] at hlayout
    exact hnew hlayout (hzero s (hother hclose) false false)
  · have hclose : c.token.is "\x7d" = false := by simp_all [Token.is]
    rw [hplan, Plan.openBrace] at hlayout
    refine hnew hlayout ?_
    split
    · rfl
    · exact hzero s (hother hclose) false false
  · rw [hplan, Plan.closeBrace] at hlayout
    cases hbraces : s.braces with
    | nil =>
        rw [hbraces] at hlayout
        refine hnew hlayout (hzero _ ?_ false false)
        rw [Cursor.blocksAround, hclose, if_pos rfl, hbraces]
        rfl
    | cons b outer =>
        rw [hbraces] at hlayout
        refine hnew hlayout (hzero _ ?_ false false)
        rw [Cursor.blocksAround, hclose, if_pos rfl, hbraces]
        rfl
  · rw [hplan, Plan.code] at hlayout
    refine hnew hlayout (hzero _ ?_ _ _)
    exact hother hclose

/-- Outside of functions a closing brace keeps the empty lines above it. -/
theorem layout_closeBrace_of_lineBreaks (hpage : page.isEmpty = false)
    (hinserted : c.token.inserted = false) (hclose : c.token.is "\x7d" = true)
    (hbreaks : 1 < c.token.lineBreaks) (hblocks : o.breakBlocks = false) {b : OpenBrace}
    {outer : List OpenBrace} (hbraces : s.braces = b :: outer)
    (hfunction : anyFunction outer = false) :
    ∃ indent, (c.plan o s cs page).layout = .newLine indent (c.token.lineBreaks - 1) := by
  have hlines : ∀ s' : State, s'.braces = outer →
      c.blankLines o s' page false false = c.token.lineBreaks - 1 := by
    intro s' hs'
    have hno : s'.inFunction = false := by
      rw [State.inFunction, hs']
      exact hfunction
    simp only [Cursor.blankLines, hinserted, hpage, hblocks, hno, Bool.and_false, Bool.false_and,
      Bool.false_eq_true, if_false]
  have hcloses : ∀ s', Plan.closesLine c s' page b = true := by
    intro s'
    rw [Plan.closesLine, hpage, Bool.false_or]
    split
    · exact decide_eq_true (by omega)
    · rfl
  rw [Cursor.plan_closeBrace hclose, Plan.closeBrace, hbraces]
  dsimp only
  rw [hcloses, if_pos rfl, hlines _ rfl]
  exact ⟨_, rfl⟩

end

/-! ## All tokens -/

theorem Matching.mem_tail_openAt {tokens : List Token} {n i j : Nat}
    (hclosers : (closers tokens)[i]?.join = some j) (hin : i < n) (hnj : n < j) {t : Token}
    (hget : tokens[n]? = some t) (hclose : t.is "\x7d" = true) :
    i ∈ (openAt tokens n).tail := by
  have hnext := mem_openAt_of_closers hclosers (Nat.lt_succ_of_lt hin) hnj
  have hopen := not_opens_of_closes hclose
  rwa [openAt_succ hget, if_neg (Bool.eq_false_iff.mp hopen), if_pos hclose] at hnext

theorem Matching.closes_of_closers {tokens : List Token} {i j : Nat} {u : Token}
    (h : (Matching.closers tokens)[i]?.join = some j) (hget : tokens[j]? = some u) :
    u.is "\x7d" = true := by
  obtain ⟨u', hget', hclose⟩ := Matching.is_of_closers h
  rw [hget] at hget'
  cases hget'
  exact hclose

/-- A line of the output lies inside a token of several lines, below the first of them. -/
def InsideToken (o : Options) (tokens : List Token) (a : Nat) : Prop :=
  ∃ n t, tokens[n]? = some t ∧ (spotAt o tokens n t).line < a ∧
    a ≤ (spotAt o tokens n t).line + t.lines.2.length

section
variable {o : Options} {tokens : List Token} {i j n : Nat} {t u : Token} {b : OpenBrace}

/-- The blocks around a token are those of the braces around it. -/
theorem Unconditional.blocksAround_stage (h : Unconditional tokens) (hn : n ≤ tokens.length) :
    ((cursorAt tokens n t).blocksAround (stage o tokens n).state).map some
      = (if t.is "\x7d" then (Matching.openAt tokens n).tail else Matching.openAt tokens n).map
          (blockAt? o tokens) := by
  have hbraces := h.braces_stage (o := o) n hn
  show (if t.is "\x7d" then _ else _ : List OpenBrace).map some = _
  split
  · rw [List.map_tail, hbraces, List.map_tail]
  · exact hbraces

/-- Between the braces of a function no empty line is put above a token, but for the closing
brace. -/
theorem Unconditional.blankLines_eq_zero (h : Unconditional tokens)
    (hdelete : o.deleteEmptyLines = true) (hblocks : o.breakBlocks = false)
    (hclosers : (Matching.closers tokens)[i]?.join = some j) (hb : blockAt? o tokens i = some b)
    (hfunction : b.kind = .function) (hin : i < n) (hnj : n < j) (hget : tokens[n]? = some t)
    {indent : Indent} {blankLines : Nat}
    (hlayout : (planAt o tokens n t).layout = .newLine indent blankLines) : blankLines = 0 := by
  have hn := (List.getElem?_eq_some_iff.mp hget).1
  obtain ⟨k, rfl⟩ := Nat.exists_eq_add_of_lt hin
  refine blankLines_eq_zero_of_layout hdelete hblocks
    (isEmpty_stage o tokens (Nat.lt_of_succ_lt hn)) (.inr ?_) hlayout
  have hmem : some b ∈ ((cursorAt tokens (i + k + 1) t).blocksAround
      (stage o tokens (i + k + 1)).state).map some := by
    rw [h.blocksAround_stage hn.le, ← hb]
    refine List.mem_map_of_mem ?_
    split
    · next hclose => exact Matching.mem_tail_openAt hclosers hin hnj hget hclose
    · exact Matching.mem_openAt_of_closers hclosers hin hnj.le
  obtain ⟨b', hb', heq⟩ := List.mem_map.mp hmem
  cases heq
  exact List.any_eq_true.mpr ⟨b, hb', beq_iff_eq.mpr hfunction⟩

/-- A brace that is open around another one, whose block is the body of a function. -/
def InOuterFunction (o : Options) (tokens : List Token) (i j : Nat) : Prop :=
  ∃ k ∈ Matching.openAt tokens j, k ≠ i ∧ ∃ b, blockAt? o tokens k = some b ∧ b.kind = .function

theorem Unconditional.anyFunction_iff (h : Unconditional tokens)
    (hclosers : (Matching.closers tokens)[i]?.join = some j) (hget : tokens[j]? = some t)
    (hclose : t.is "\x7d" = true) :
    anyFunction ((cursorAt tokens j t).blocksAround (stage o tokens j).state) = true ↔
      InOuterFunction o tokens i j := by
  have hj := (List.getElem?_eq_some_iff.mp hget).1
  obtain ⟨outer, houter⟩ := List.head?_eq_some_iff.mp (Matching.head_openAt_of_closers hclosers)
  have hsorted := Matching.pairwise_openAt tokens j
  have hblocks := h.blocksAround_stage (o := o) (t := t) hj.le
  rw [houter] at hsorted
  rw [hclose, if_pos rfl, houter, List.tail_cons] at hblocks
  have hmem : ∀ f, f ∈ (cursorAt tokens j t).blocksAround (stage o tokens j).state ↔
      ∃ k ∈ outer, blockAt? o tokens k = some f := by
    intro f
    rw [← List.mem_map (f := blockAt? o tokens), ← hblocks, List.mem_map]
    exact ⟨fun hf => ⟨f, hf, rfl⟩, fun ⟨f', hf', heq⟩ => Option.some.inj heq ▸ hf'⟩
  rw [anyFunction, List.any_eq_true]
  constructor
  · rintro ⟨f, hf, hfunction⟩
    obtain ⟨k, hk, hblock⟩ := (hmem f).mp hf
    have hlt := List.rel_of_pairwise_cons hsorted hk
    exact ⟨k, houter ▸ List.mem_cons_of_mem i hk, Nat.ne_of_lt hlt, f, hblock,
      beq_iff_eq.mp hfunction⟩
  · rintro ⟨k, hk, hne, f, hblock, hfunction⟩
    rw [houter] at hk
    exact ⟨f, (hmem f).mpr ⟨k, (List.mem_cons.mp hk).resolve_left hne, hblock⟩,
      beq_iff_eq.mpr hfunction⟩

/-- No empty line is put above the closing brace of a function that lies in another one, nor above
one that stands directly below the token before. -/
theorem Unconditional.blankLines_eq_zero_closeBrace (h : Unconditional tokens)
    (hdelete : o.deleteEmptyLines = true) (hblocks : o.breakBlocks = false)
    (hclosers : (Matching.closers tokens)[i]?.join = some j) (hget : tokens[j]? = some t)
    (hcase : t.lineBreaks ≤ 1 ∨ InOuterFunction o tokens i j) {indent : Indent} {blankLines : Nat}
    (hlayout : (planAt o tokens j t).layout = .newLine indent blankLines) : blankLines = 0 := by
  obtain ⟨k, rfl⟩ := Nat.exists_eq_add_of_lt (Matching.lt_of_closers hclosers)
  have hclose := Matching.closes_of_closers hclosers hget
  have hpage := isEmpty_stage o tokens
    (Nat.lt_of_succ_lt (List.getElem?_eq_some_iff.mp hget).1)
  exact blankLines_eq_zero_of_layout hdelete hblocks hpage
    (hcase.imp_right (h.anyFunction_iff (o := o) hclosers hget hclose).mpr) hlayout

/-- A function that lies in no other one keeps the empty lines above its closing brace. -/
theorem Unconditional.layout_of_not_inOuterFunction (h : Unconditional tokens)
    (hblocks : o.breakBlocks = false) (hclosers : (Matching.closers tokens)[i]?.join = some j)
    (hget : tokens[j]? = some t) (hinserted : t.inserted = false) (hbreaks : 1 < t.lineBreaks)
    (hb : blockAt? o tokens i = some b) (houter : ¬InOuterFunction o tokens i j) :
    ∃ indent, (planAt o tokens j t).layout = .newLine indent (t.lineBreaks - 1) := by
  obtain ⟨k, rfl⟩ := Nat.exists_eq_add_of_lt (Matching.lt_of_closers hclosers)
  have hpage := isEmpty_stage o tokens
    (Nat.lt_of_succ_lt (List.getElem?_eq_some_iff.mp hget).1)
  have hclose := Matching.closes_of_closers hclosers hget
  obtain ⟨outer, hbraces⟩ := List.head?_eq_some_iff.mp
    ((h.head_braces_stage (o := o) hclosers).1.trans hb)
  refine layout_closeBrace_of_lineBreaks (c := cursorAt tokens (i + k + 1) t) hpage hinserted
    hclose hbreaks hblocks hbraces ?_
  rw [← h.anyFunction_iff (o := o) hclosers hget hclose, Bool.not_eq_true, Cursor.blocksAround]
    at houter
  rw [← houter]
  show _ = anyFunction (if t.is "\x7d" then _ else _)
  rw [hclose, if_pos rfl, hbraces]
  rfl

theorem line_spotAt_le (hget : tokens[i]? = some t) (hu : tokens[n]? = some u) (hin : i ≤ n) :
    (spotAt o tokens i t).line ≤ (spotAt o tokens n u).line := by
  rcases Nat.eq_or_lt_of_le hin with rfl | hlt
  · rw [hget] at hu
    cases hu
    exact Nat.le_refl _
  · exact (Nat.le_add_right _ _).trans (line_le_spotAt hlt hget u)

theorem not_insideToken (hget : tokens[n]? = some t) {a : Nat}
    (ha : (stage o tokens n).page.lines.length ≤ a) (hlt : a < (spotAt o tokens n t).line) :
    ¬InsideToken o tokens a := by
  rintro ⟨k, v, hv, hfirst, hlast⟩
  rcases Nat.lt_or_ge k n with hkn | hnk
  · have hbehind := length_stage_succ (o := o) hv
    have hle := length_stage_le (m := k + 1) o tokens hkn
    omega
  · have hle := line_spotAt_le (o := o) hget hv hnk
    omega

end

/-! ## The output -/

section
variable {o : Options} {source : String} {i j n a : Nat} {t u : Token}

theorem outputLines_spotAt_ne_nil :
    let tokens := tokensToLayOut o (tokenize o.language o.indentWidth source)
    tokens[n]? = some t → (outputLines o source)[(spotAt o tokens n t).line]? ≠ some [] := by
  intro tokens hget hnil
  obtain ⟨t', more, hget', hspot, hline⟩ := writtenAt_spotAt o source hget
  obtain ⟨c, rest, hfirst, hink⟩ := Token.StartsInInk.exists_firstLine
    (starts_tokensToLayOut o o.language o.indentWidth source t' (List.mem_of_getElem? hget'))
  obtain ⟨more', htrim⟩ := trimRight_cons (isBlank_eq_false hink) rest
  rw [hfirst, htrim] at hline
  have hempty := Option.some.inj (hline.symm.trans hnil)
  simp at hempty

/-- An empty line between two tokens lies inside a token, or was put above one. -/
theorem exists_blankLines_of_empty :
    let tokens := tokensToLayOut o (tokenize o.language o.indentWidth source)
    tokens[i]? = some t → tokens[j]? = some u → (spotAt o tokens i t).line < a →
    a < (spotAt o tokens j u).line → (outputLines o source)[a]? = some [] →
      InsideToken o tokens a ∨ ∃ n v indent blankLines, i < n ∧ n ≤ j ∧ tokens[n]? = some v ∧
        (planAt o tokens n v).layout = .newLine indent blankLines ∧ 0 < blankLines := by
  intro tokens ht hu hia haj hempty
  obtain ⟨k, v, hik, hv, hle, hnext⟩ := exists_last_le (o := o) ht hia.le
  have hkj : k < j := by
    refine Nat.lt_of_not_le fun hjk => ?_
    have hge := line_spotAt_le (o := o) hu hv hjk
    omega
  have hne : (spotAt o tokens k v).line ≠ a := by
    rintro rfl
    exact outputLines_spotAt_ne_nil hv hempty
  by_cases hreach : a ≤ (spotAt o tokens k v).line + v.lines.2.length
  · exact .inl ⟨k, v, hv, Nat.lt_of_le_of_ne hle hne, hreach⟩
  · have hk : k + 1 < tokens.length :=
      Nat.lt_of_le_of_lt hkj (List.getElem?_eq_some_iff.mp hu).1
    have hw : tokens[k + 1]? = some tokens[k + 1] := List.getElem?_eq_getElem hk
    have hlow := hnext _ hw
    have hbehind := length_stage_succ (o := o) hv
    cases hlayout : (planAt o tokens (k + 1) tokens[k + 1]).layout with
    | sameLine spacing =>
        rw [spotAt_of_sameLine hlayout, Page.spot, hbehind] at hlow
        dsimp only at hlow
        omega
    | newLine indent blankLines =>
        refine .inr ⟨k + 1, _, indent, blankLines, by omega, hkj, hw, hlayout, ?_⟩
        rw [spotAt_of_newLine hlayout, hbehind] at hlow
        dsimp only at hlow
        omega

/-- An empty line that is put above a token is a line of the output, and lies inside no token. -/
theorem exists_empty_of_blankLines {indent : Indent} {blankLines : Nat} :
    let tokens := tokensToLayOut o (tokenize o.language o.indentWidth source)
    tokens[i]? = some t → tokens[j]? = some u → i < j →
    (planAt o tokens j u).layout = .newLine indent blankLines → 0 < blankLines →
      ∃ a, (spotAt o tokens i t).line < a ∧ a < (spotAt o tokens j u).line ∧
        (outputLines o source)[a]? = some [] ∧ ¬InsideToken o tokens a := by
  intro tokens ht hu hij hlayout hpos
  have hspot := congrArg Spot.line (spotAt_of_newLine hlayout)
  have hlow : (stage o tokens j).page.lines.length < (spotAt o tokens j u).line := by
    rw [hspot]
    exact Nat.lt_add_of_pos_right hpos
  have hbehind := length_stage_succ (o := o) ht
  have hle := length_stage_le o tokens (show i + 1 ≤ j from hij)
  exact ⟨_, by omega, hlow,
    outputLines_of_line? (line?_of_blankLines hu hlayout (Nat.le_refl _) hlow),
    not_insideToken hu (Nat.le_refl _) hlow⟩

theorem inserted_eq_false (o : Options) (source : String) :
    ∀ t ∈ tokensToLayOut o (tokenize o.language o.indentWidth source), 1 < t.lineBreaks →
      t.inserted = false :=
  forall_mem_tokensToLayOut o
    (fun t ht _ => (partition_tokenize o.language o.indentWidth source).not_inserted t ht)
    (fun h => absurd h (by decide)) (fun h => absurd h (by decide))

end

/-- Which functions are left without empty lines.  With empty lines deleted and no blocks broken,
the lines of the output between the braces of a function are empty only inside tokens of several
lines, exactly if the closing brace has no empty line above it in the source or the function lies
in another one.  Otherwise the empty lines above the closing brace are left. -/
theorem no_empty_lines_iff (o : Options) (source : String) (hdelete : o.deleteEmptyLines = true)
    (hblocks : o.breakBlocks = false) :
    let tokens := tokensToLayOut o (tokenize o.language o.indentWidth source)
    Unconditional tokens → ∀ i j t u b, (Matching.closers tokens)[i]?.join = some j →
      tokens[i]? = some t → tokens[j]? = some u → blockAt? o tokens i = some b →
      b.kind = .function →
        ((∀ a, (spotAt o tokens i t).line < a → a < (spotAt o tokens j u).line →
            (outputLines o source)[a]? = some [] → InsideToken o tokens a) ↔
          u.lineBreaks ≤ 1 ∨ InOuterFunction o tokens i j) := by
  intro tokens hunconditional i j t u b hclosers ht hu hb hfunction
  have hij := Matching.lt_of_closers hclosers
  constructor
  · intro hnone
    by_contra hno
    obtain ⟨hbreaks, houter⟩ := not_or.mp hno
    have hinserted := inserted_eq_false o source u (List.mem_of_getElem? hu) (by omega)
    obtain ⟨indent, hlayout⟩ := hunconditional.layout_of_not_inOuterFunction hblocks hclosers hu
      hinserted (Nat.lt_of_not_le hbreaks) hb houter
    obtain ⟨a, hia, haj, hempty, hinside⟩ :=
      exists_empty_of_blankLines ht hu hij hlayout (by omega)
    exact hinside (hnone a hia haj hempty)
  · intro hcase a hia haj hempty
    refine (exists_blankLines_of_empty ht hu hia haj hempty).resolve_right ?_
    rintro ⟨n, v, indent, blankLines, hin, hnj, hv, hlayout, hpos⟩
    have hzero : blankLines = 0 := by
      rcases Nat.eq_or_lt_of_le hnj with rfl | hlt
      · rw [hu] at hv
        cases hv
        exact hunconditional.blankLines_eq_zero_closeBrace hdelete hblocks hclosers hu hcase hlayout
      · exact hunconditional.blankLines_eq_zero hdelete hblocks hclosers hb hfunction hin hlt hv
          hlayout
    omega

/-- The function of a class that is declared in a function: the empty line above its closing brace
goes. -/
theorem no_empty_lines_nested :
    let o := { Options.default with deleteEmptyLines := true }
    let source := "void f() \x7b\nstruct S \x7b\nvoid g() \x7b\na;\n\n\x7d\n\x7d;\n\x7d\n"
    let tokens := tokensToLayOut o (tokenize o.language o.indentWidth source)
    let opening : Token := ⟨.punctuation, "\x7b", 0, " ", 9, false⟩
    let closing : Token := ⟨.punctuation, "\x7d", 2, "", 0, false⟩
    o.deleteEmptyLines = true ∧ o.breakBlocks = false ∧ Unconditional tokens ∧
      (Matching.closers tokens)[12]?.join = some 15 ∧ tokens[12]? = some opening ∧
      tokens[15]? = some closing ∧
      (blockAt? o tokens 12).map OpenBrace.kind = some .function ∧
      ∀ a, (spotAt o tokens 12 opening).line < a → a < (spotAt o tokens 15 closing).line →
        (outputLines o source)[a]? = some [] → InsideToken o tokens a := by
  intro o source tokens opening closing
  have htokens : tokens
      = [⟨.word, "void", 0, "", 0, false⟩, ⟨.word, "f", 0, " ", 5, false⟩,
          ⟨.punctuation, "(", 0, "", 6, false⟩, ⟨.punctuation, ")", 0, "", 7, false⟩,
          ⟨.punctuation, "\x7b", 0, " ", 9, false⟩, ⟨.word, "struct", 1, "", 0, false⟩,
          ⟨.word, "S", 0, " ", 7, false⟩, ⟨.punctuation, "\x7b", 0, " ", 9, false⟩,
          ⟨.word, "void", 1, "", 0, false⟩, ⟨.word, "g", 0, " ", 5, false⟩,
          ⟨.punctuation, "(", 0, "", 6, false⟩, ⟨.punctuation, ")", 0, "", 7, false⟩,
          ⟨.punctuation, "\x7b", 0, " ", 9, false⟩, ⟨.word, "a", 1, "", 0, false⟩,
          ⟨.punctuation, ";", 0, "", 1, false⟩, ⟨.punctuation, "\x7d", 2, "", 0, false⟩,
          ⟨.punctuation, "\x7d", 1, "", 0, false⟩, ⟨.punctuation, ";", 0, "", 1, false⟩,
          ⟨.punctuation, "\x7d", 1, "", 0, false⟩] := by
    show (tokenize .c 4
      "void f() \x7b\nstruct S \x7b\nvoid g() \x7b\na;\n\n\x7d\n\x7d;\n\x7d\n").tokens = _
    decide +kernel
  have hunconditional : Unconditional tokens := by
    rw [htokens, Unconditional]
    decide
  have hclosers : (Matching.closers tokens)[12]?.join = some 15 := by
    rw [htokens]
    decide
  have hopening : tokens[12]? = some opening := by
    rw [htokens]
    rfl
  have hclosing : tokens[15]? = some closing := by
    rw [htokens]
    rfl
  have hinner : (blockAt? o tokens 12).map OpenBrace.kind = some .function := by
    rw [htokens]
    decide +kernel
  have houter : (blockAt? o tokens 4).map OpenBrace.kind = some .function := by
    rw [htokens]
    decide +kernel
  have hopen : 4 ∈ Matching.openAt tokens 15 := by
    rw [htokens]
    decide
  obtain ⟨b, hb, hkind⟩ := Option.map_eq_some_iff.mp hinner
  obtain ⟨b', hb', hkind'⟩ := Option.map_eq_some_iff.mp houter
  exact ⟨rfl, rfl, hunconditional, hclosers, hopening, hclosing, hinner,
    (no_empty_lines_iff o source rfl rfl hunconditional 12 15 opening closing b hclosers hopening
      hclosing hb hkind).mpr (.inr ⟨4, hopen, by decide, b', hb', hkind'⟩)⟩

/-- The empty line above the closing brace of a function that lies in no other one is left. -/
theorem not_no_empty_lines :
    let o := { Options.default with deleteEmptyLines := true }
    let source := "void f()\n\x7b\n    a();\n\n\x7d\n"
    let tokens := tokensToLayOut o (tokenize o.language o.indentWidth source)
    let opening : Token := ⟨.punctuation, "\x7b", 1, "", 0, false⟩
    let closing : Token := ⟨.punctuation, "\x7d", 2, "", 0, false⟩
    Unconditional tokens ∧ (Matching.closers tokens)[4]?.join = some 9 ∧
      tokens[4]? = some opening ∧ tokens[9]? = some closing ∧
      (blockAt? o tokens 4).map OpenBrace.kind = some .function ∧
      ¬∀ a, (spotAt o tokens 4 opening).line < a → a < (spotAt o tokens 9 closing).line →
        (outputLines o source)[a]? = some [] → InsideToken o tokens a := by
  intro o source tokens opening closing
  have htokens : tokens
      = [⟨.word, "void", 0, "", 0, false⟩, ⟨.word, "f", 0, " ", 5, false⟩,
          ⟨.punctuation, "(", 0, "", 6, false⟩, ⟨.punctuation, ")", 0, "", 7, false⟩,
          ⟨.punctuation, "\x7b", 1, "", 0, false⟩, ⟨.word, "a", 1, "    ", 4, false⟩,
          ⟨.punctuation, "(", 0, "", 5, false⟩, ⟨.punctuation, ")", 0, "", 6, false⟩,
          ⟨.punctuation, ";", 0, "", 7, false⟩, ⟨.punctuation, "\x7d", 2, "", 0, false⟩] := by
    show (tokenize .c 4 "void f()\n\x7b\n    a();\n\n\x7d\n").tokens = _
    decide +kernel
  have hclosing : tokens[9]? = some closing := by
    rw [htokens]
    rfl
  have hlength : (stage o tokens 9).page.lines.length = 3 := by
    rw [htokens]
    decide +kernel
  have hspot : (spotAt o tokens 9 closing).line = 4 := by
    rw [htokens]
    decide +kernel
  have hspot' : (spotAt o tokens 4 opening).line = 1 := by
    rw [htokens]
    decide +kernel
  have hlayout : (planAt o tokens 9 closing).layout = .newLine .zero 1 := by
    rw [htokens]
    decide +kernel
  have hempty : (outputLines o source)[3]? = some [] :=
    outputLines_of_line? (line?_of_blankLines hclosing hlayout (Nat.le_of_eq hlength)
      (by rw [hspot]; decide))
  refine ⟨by rw [htokens, Unconditional]; decide, by rw [htokens]; decide, by rw [htokens]; rfl,
    hclosing, by rw [htokens]; decide +kernel, fun hnone => ?_⟩
  have hinside := hnone 3 (by rw [hspot']; decide) (by rw [hspot]; decide) hempty
  exact not_insideToken hclosing (Nat.le_of_eq hlength) (by rw [hspot]; decide) hinside

end Beautifier
