/-
Where the bodies of headers lie.

Positions are counted in one list of tokens.  A body starts behind its header
and ends at or behind its start.  Two headers are either one behind the other,
body start included, or the second stands in the condition of the first, and
then its body starts first (`start_lt_of_inCondition`).
-/
import Mathlib.Data.List.Basic
import Beautifier.Layout.BraceInsertion

namespace Beautifier.BraceInsertion

variable {tokens : List Token}

/-- The body of the header at a position, if it is to be put in braces: the positions of its
first and its last token. -/
def bodyAt? (tokens : List Token) (i : Nat) : Option (Nat × Nat) :=
  tokens[i]?.bind fun t =>
    (bodyStart? (i + 1) t (tokens.drop (i + 1))).bind fun (start, body) =>
      (bodyEnd? start body).map fun last => (start, last)

/-- Some header whose body is to be put in braces stands in the condition of another one. -/
def HeaderInCondition (tokens : List Token) : Prop :=
  ∃ i j b c, bodyAt? tokens i = some b ∧ bodyAt? tokens j = some c ∧ i < j ∧ j < b.1

theorem drop_eq_cons {i : Nat} {t : Token} {rest : List Token}
    (h : tokens.drop i = t :: rest) : tokens[i]? = some t ∧ tokens.drop (i + 1) = rest := by
  constructor
  · rw [← List.head?_drop, h, List.head?_cons]
  · rw [← List.tail_drop, h, List.tail_cons]

theorem bodies_eq_filterMap (ts : List Token) :
    ∀ i, tokens.drop i = ts →
      bodies i ts = (List.range' i ts.length).filterMap (bodyAt? tokens) := by
  induction ts with
  | nil => exact fun _ _ => rfl
  | cons t ts ih =>
      intro i hdrop
      obtain ⟨hget, hrest⟩ := drop_eq_cons hdrop
      have hbody : bodyAt? tokens i = (bodyStart? (i + 1) t ts).bind fun (start, body) =>
          (bodyEnd? start body).map fun last => (start, last) := by
        rw [bodyAt?, hget, Option.bind_some, hrest]
      rw [bodies, ih (i + 1) hrest, ← hbody, List.length_cons, List.range'_succ,
        List.filterMap_cons]
      cases bodyAt? tokens i <;> rfl

theorem bodies_eq (tokens : List Token) :
    bodies 0 tokens = (List.range tokens.length).filterMap (bodyAt? tokens) := by
  rw [bodies_eq_filterMap tokens 0 (List.drop_zero ..), List.range_eq_range']

/-! ## Seeking code -/

theorem of_seekCode {p s : Nat} {ts body : List Token} (hts : tokens.drop p = ts)
    (h : seekCode p ts = some (s, body)) :
    p ≤ s ∧ body = tokens.drop s ∧ (∃ t, tokens[s]? = some t ∧ t.isTrivia = false) ∧
      ∀ k t, p ≤ k → k < s → tokens[k]? = some t → t.isTrivia = true := by
  induction ts generalizing p with
  | nil => cases h
  | cons t ts ih =>
      obtain ⟨hget, hrest⟩ := drop_eq_cons hts
      rw [seekCode] at h
      split at h
      · next htrivia =>
        obtain ⟨hle, hbody, hcode, hskip⟩ := ih hrest h
        refine ⟨Nat.le_of_succ_le hle, hbody, hcode, fun k u hpk hks hu => ?_⟩
        rcases Nat.eq_or_lt_of_le hpk with rfl | hpk
        · rw [hget] at hu
          cases hu
          exact htrivia
        · exact hskip k u hpk hks hu
      · next hcode =>
        cases h
        refine ⟨Nat.le_refl _, hts.symm, ⟨t, hget, Bool.eq_false_iff.mpr hcode⟩, ?_⟩
        intro k u hpk hks
        omega

theorem seekCode_le {p q s : Nat} {ts body : List Token} {t : Token} (hts : tokens.drop p = ts)
    (h : seekCode p ts = some (s, body)) (hpq : p ≤ q) (hq : tokens[q]? = some t)
    (ht : t.isTrivia = false) : s ≤ q := by
  apply Nat.le_of_not_lt
  intro hlt
  have htrivia := (of_seekCode hts h).2.2.2 q t hpq hlt hq
  rw [ht] at htrivia
  cases htrivia

/-! ## Matching parentheses -/

theorem lt_of_behindParen {p d s : Nat} {ts rest : List Token}
    (h : behindParen p d ts = some (s, rest)) : p < s := by
  induction ts generalizing p d with
  | nil => cases h
  | cons t ts ih =>
      rw [behindParen] at h
      split at h
      · exact Nat.lt_of_succ_lt (ih h)
      split at h
      · split at h
        · cases h
          exact Nat.lt_succ_self p
        · exact Nat.lt_of_succ_lt (ih h)
      · exact Nat.lt_of_succ_lt (ih h)

/-- The token in front of what stands behind a parenthesis closes it. -/
theorem of_behindParen {p d s : Nat} {ts rest : List Token} (hts : tokens.drop p = ts)
    (h : behindParen p d ts = some (s, rest)) :
    rest = tokens.drop s ∧ ∃ t, tokens[s - 1]? = some t ∧ t.is ")" = true := by
  induction ts generalizing p d with
  | nil => cases h
  | cons t ts ih =>
      obtain ⟨hget, hrest⟩ := drop_eq_cons hts
      rw [behindParen] at h
      split at h
      · exact ih hrest h
      split at h
      · next hclose =>
        split at h
        · cases h
          exact ⟨hrest.symm, t, hget, hclose⟩
        · exact ih hrest h
      · exact ih hrest h

theorem behindParen_lt {p d d' s s' : Nat} {ts rest rest' : List Token} (hd' : 1 ≤ d')
    (hlt : d' < d) (h : behindParen p d ts = some (s, rest))
    (h' : behindParen p d' ts = some (s', rest')) : s' < s := by
  induction ts generalizing p d d' with
  | nil => cases h
  | cons t ts ih =>
      rw [behindParen] at h h'
      split at h
      · next hopen =>
        rw [if_pos hopen] at h'
        exact ih (by omega) (by omega) h h'
      · next hopen =>
        rw [if_neg hopen] at h'
        split at h
        · next hclose =>
          rw [if_pos hclose] at h'
          rw [if_neg (by omega)] at h
          split at h'
          · cases h'
            exact lt_of_behindParen h
          · exact ih (by omega) (by omega) h h'
        · next hclose =>
          rw [if_neg hclose] at h'
          exact ih hd' hlt h h'

/-- From a token inside a parenthesis on, the same parenthesis closes, with some number of
parentheses open. -/
theorem behindParen_from {p s k d : Nat} {rest : List Token} (hpk : p ≤ k) (hks : k < s)
    (hd : 1 ≤ d) (h : behindParen p d (tokens.drop p) = some (s, rest)) :
    ∃ d', 1 ≤ d' ∧ behindParen k d' (tokens.drop k) = some (s, rest) := by
  induction hpk with
  | refl => exact ⟨d, hd, h⟩
  | @step k hpk ih =>
      obtain ⟨d, hd, h⟩ := ih (Nat.lt_of_succ_lt hks)
      cases hts : tokens.drop k with
      | nil =>
          rw [hts] at h
          cases h
      | cons t ts =>
          have hrest := (drop_eq_cons hts).2
          rw [hts, behindParen, ← hrest] at h
          split at h
          · exact ⟨d + 1, by omega, h⟩
          split at h
          · split at h
            · cases h
              omega
            · exact ⟨d - 1, by omega, h⟩
          · exact ⟨d, hd, h⟩

theorem behindParen_open {p d : Nat} {t : Token} (hget : tokens[p]? = some t)
    (ht : t.is "(" = true) :
    behindParen p d (tokens.drop p) = behindParen (p + 1) (d + 1) (tokens.drop (p + 1)) := by
  have hlt : p < tokens.length := (List.getElem?_eq_some_iff.mp hget).1
  rw [List.drop_eq_getElem_cons hlt, behindParen]
  rw [List.getElem?_eq_getElem hlt] at hget
  rw [Option.some.inj hget, if_pos ht]

/-! ## Headers and their bodies -/

/-- A header's body starts at the next code token, or at the one behind its condition, whose
parentheses stand at `p` and in front of `q`. -/
theorem of_bodyStart? {i s : Nat} {t : Token} {body : List Token}
    (h : bodyStart? (i + 1) t (tokens.drop (i + 1)) = some (s, body)) :
    t.kind = .word ∧ body = tokens.drop s ∧
      (seekCode (i + 1) (tokens.drop (i + 1)) = some (s, body) ∨
        ∃ p q open', seekCode (i + 1) (tokens.drop (i + 1)) = some (p, tokens.drop p) ∧
          tokens[p]? = some open' ∧ open'.is "(" = true ∧
          behindParen p 0 (tokens.drop p) = some (q, tokens.drop q) ∧
          seekCode q (tokens.drop q) = some (s, body)) := by
  unfold bodyStart? at h
  split at h
  · cases h
  next hword =>
  have hword : t.kind = .word := by simpa using hword
  by_cases hheader : bracedHeaders.contains t.text
  · rw [if_pos hheader] at h
    obtain ⟨⟨p, inside⟩, hp, h⟩ := Option.bind_eq_some_iff.mp h
    have hinside : inside = tokens.drop p := (of_seekCode rfl hp).2.1
    subst hinside
    dsimp only at h
    split at h
    · next hopen =>
      obtain ⟨⟨q, rest⟩, hq, h⟩ := Option.bind_eq_some_iff.mp h
      have hrest : rest = tokens.drop q := (of_behindParen rfl hq).1
      subst hrest
      obtain ⟨u, hu, hopen⟩ := (Option.any_eq_true _ _).mp hopen
      rw [List.head?_drop] at hu
      exact ⟨hword, (of_seekCode rfl h).2.1, .inr ⟨p, q, u, hp, hu, hopen, hq, h⟩⟩
    · cases h
  · rw [if_neg hheader] at h
    split at h
    · have hs := (Option.filter_eq_some_iff.mp h).1
      exact ⟨hword, (of_seekCode rfl hs).2.1, .inl hs⟩
    · cases h

theorem of_bodyAt? {i : Nat} {b : Nat × Nat} (h : bodyAt? tokens i = some b) :
    ∃ t body, tokens[i]? = some t ∧
      bodyStart? (i + 1) t (tokens.drop (i + 1)) = some (b.1, body) ∧
      bodyEnd? b.1 body = some b.2 := by
  obtain ⟨t, hget, h⟩ := Option.bind_eq_some_iff.mp h
  obtain ⟨⟨start, body⟩, hstart, h⟩ := Option.bind_eq_some_iff.mp h
  obtain ⟨last, hlast, rfl⟩ := Option.map_eq_some_iff.mp h
  exact ⟨t, body, hget, hstart, hlast⟩

theorem not_isTrivia_of_word {t : Token} (h : t.kind = .word) : t.isTrivia = false := by
  rw [Token.isTrivia, h]

theorem not_isTrivia_of_is {t : Token} {text : String} (h : t.is text = true) :
    t.isTrivia = false := by
  have hkind : t.kind = .punctuation := by simp_all [Token.is]
  rw [Token.isTrivia, hkind]

theorem lt_start {i : Nat} {b : Nat × Nat} (h : bodyAt? tokens i = some b) : i < b.1 := by
  obtain ⟨t, body, -, hstart, -⟩ := of_bodyAt? h
  obtain ⟨-, -, hs | ⟨p, q, open', hp, -, -, hq, hs⟩⟩ := of_bodyStart? hstart
  · exact (of_seekCode rfl hs).1
  · have h1 := (of_seekCode rfl hp).1
    have h2 := lt_of_behindParen hq
    have h3 := (of_seekCode rfl hs).1
    omega

theorem start_lt_of_inCondition {i j : Nat} {b c : Nat × Nat} (hb : bodyAt? tokens i = some b)
    (hc : bodyAt? tokens j = some c) (hij : i < j) (hjb : j < b.1) : c.1 < b.1 := by
  obtain ⟨t, body, -, hstart, -⟩ := of_bodyAt? hb
  obtain ⟨u, body', hu, hstart', -⟩ := of_bodyAt? hc
  obtain ⟨-, -, hb⟩ := of_bodyStart? hstart
  obtain ⟨hword, -, hc⟩ := of_bodyStart? hstart'
  have hcode : u.isTrivia = false := not_isTrivia_of_word hword
  rcases hb with hs | ⟨p, q, open', hp, hopen, hparen, hq, hs⟩
  · -- nothing but trivia lies between a plain header and its body
    exact absurd (seekCode_le rfl hs hij hu hcode) (Nat.not_le_of_lt hjb)
  · obtain ⟨-, close, hclose, hparen'⟩ := of_behindParen rfl hq
    have hclosecode := not_isTrivia_of_is hparen'
    have hpq := lt_of_behindParen hq
    have hqb := (of_seekCode rfl hs).1
    have hpj : p < j := by
      have hle := seekCode_le rfl hp hij hu hcode
      apply Nat.lt_of_le_of_ne hle
      rintro rfl
      simp_all [Token.is]
    have hjq : j < q - 1 := by
      have hlt : j < q := by
        apply Nat.lt_of_not_le
        intro hqj
        exact absurd (seekCode_le rfl hs hqj hu hcode) (Nat.not_le_of_lt hjb)
      apply Nat.lt_of_le_of_ne (Nat.le_sub_one_of_lt hlt)
      rintro rfl
      simp_all [Token.is]
    rcases hc with hs' | ⟨p', q', open'', hp', hopen', hparen'', hq', hs'⟩
    · have hle := seekCode_le rfl hs' hjq hclose hclosecode
      omega
    · have hp'q : p' < q - 1 := by
        have hle := seekCode_le rfl hp' hjq hclose hclosecode
        apply Nat.lt_of_le_of_ne hle
        rintro rfl
        simp_all [Token.is]
      -- both conditions are read from the inner parenthesis on, the outer one deeper
      rw [behindParen_open hopen hparen] at hq
      have hjp' := (of_seekCode rfl hp').1
      obtain ⟨d, hd, hfrom⟩ := behindParen_from (k := p') (by omega) (by omega) (by omega) hq
      rw [behindParen_open hopen' hparen''] at hfrom hq'
      have hlt := behindParen_lt (Nat.le_refl 1) (by omega) hfrom hq'
      have hle := seekCode_le rfl hs' (by omega) hclose hclosecode
      omega

theorem start_ne {i j : Nat} {b c : Nat × Nat} (hb : bodyAt? tokens i = some b)
    (hc : bodyAt? tokens j = some c) (hij : i < j) : b.1 ≠ c.1 := by
  rcases Nat.lt_or_ge j b.1 with hjb | hbj
  · exact (Nat.ne_of_lt (start_lt_of_inCondition hb hc hij hjb)).symm
  · exact Nat.ne_of_lt (Nat.lt_of_le_of_lt hbj (lt_start hc))

/-- The bodies start in the order of their headers unless a header stands in the condition of
another one. -/
theorem starts_ascend_iff (tokens : List Token) :
    ((bodies 0 tokens).map (·.1)).Pairwise (· ≤ ·) ↔ ¬HeaderInCondition tokens := by
  rw [bodies_eq, List.pairwise_map, List.pairwise_filterMap]
  constructor
  · rintro h ⟨i, j, b, c, hb, hc, hij, hjb⟩
    have hj : j < tokens.length := by
      obtain ⟨t, -, hget, -⟩ := of_bodyAt? hc
      exact (List.getElem?_eq_some_iff.mp hget).1
    have hle := List.pairwise_iff_getElem.mp h i j (by simp; omega) (by simpa using hj) hij
    simp only [List.getElem_range] at hle
    exact absurd (hle b hb c hc) (Nat.not_le_of_lt (start_lt_of_inCondition hb hc hij hjb))
  · intro h
    refine List.pairwise_lt_range.imp fun {i j} hij b hb c hc => ?_
    apply Nat.le_of_lt
    apply Nat.lt_of_le_of_lt _ (lt_start hc)
    apply Nat.le_of_not_lt
    exact fun hjb => h ⟨i, j, b, c, hb, hc, hij, hjb⟩

theorem nodup_starts (tokens : List Token) : ((bodies 0 tokens).map (·.1)).Nodup := by
  rw [bodies_eq, List.Nodup, List.pairwise_map, List.pairwise_filterMap]
  exact List.pairwise_lt_range.imp fun {i j} hij b hb c hc => start_ne hb hc hij

/-! ## The ends of bodies -/

theorem of_statementEnd {p d s : Nat} {ts rest : List Token} (hts : tokens.drop p = ts)
    (h : statementEnd p d ts = some (s, rest)) :
    p ≤ s ∧ s < tokens.length ∧ rest = tokens.drop (s + 1) := by
  induction ts generalizing p d with
  | nil => cases h
  | cons t ts ih =>
      obtain ⟨hget, hrest⟩ := drop_eq_cons hts
      rw [statementEnd] at h
      split at h
      · cases h
        exact ⟨Nat.le_refl _, (List.getElem?_eq_some_iff.mp hget).1, hrest.symm⟩
      split at h
      · cases h
      · obtain ⟨hle, hlt, hrest⟩ := ih hrest h
        exact ⟨Nat.le_of_succ_le hle, hlt, hrest⟩

theorem is_semicolon_of_statementEnd {p d s : Nat} {ts rest : List Token}
    (hts : tokens.drop p = ts) (h : statementEnd p d ts = some (s, rest)) :
    ∃ t, tokens[s]? = some t ∧ t.is ";" = true := by
  induction ts generalizing p d with
  | nil => cases h
  | cons t ts ih =>
      obtain ⟨hget, hrest⟩ := drop_eq_cons hts
      rw [statementEnd] at h
      split at h
      · next hsemi =>
        cases h
        exact ⟨t, hget, (Bool.and_eq_true_iff.mp hsemi).2⟩
      split at h
      · cases h
      · exact ih hrest h

/-- The last token of a body is its semicolon, or a line comment behind it. -/
theorem last_of_bodyAt? {i : Nat} {b : Nat × Nat} (h : bodyAt? tokens i = some b) :
    ∃ t, tokens[b.2]? = some t ∧ (t.is ";" = true ∨ t.kind = .lineComment) := by
  obtain ⟨t, body, -, hstart, hend⟩ := of_bodyAt? h
  obtain ⟨-, hbody, -⟩ := of_bodyStart? hstart
  rw [bodyEnd?] at hend
  split at hend
  · cases hend
  obtain ⟨⟨semicolon, rest⟩, hsemi, hlast⟩ := Option.map_eq_some_iff.mp hend
  obtain ⟨-, -, hrest⟩ := of_statementEnd hbody.symm hsemi
  rw [← hlast]
  simp only []
  split
  · next hcomment =>
    obtain ⟨u, hu, hkind⟩ := (Option.any_eq_true _ _).mp hcomment
    rw [hrest, List.head?_drop] at hu
    exact ⟨u, hu, .inr (beq_iff_eq.mp (Bool.and_eq_true_iff.mp hkind).1)⟩
  · obtain ⟨u, hu, hsemicolon⟩ := is_semicolon_of_statementEnd hbody.symm hsemi
    exact ⟨u, hu, .inl hsemicolon⟩

theorem start_le_last {i : Nat} {b : Nat × Nat} (h : bodyAt? tokens i = some b) :
    b.1 ≤ b.2 ∧ b.2 < tokens.length := by
  obtain ⟨t, body, -, hstart, hend⟩ := of_bodyAt? h
  obtain ⟨-, hbody, -⟩ := of_bodyStart? hstart
  rw [bodyEnd?] at hend
  split at hend
  · cases hend
  obtain ⟨⟨semicolon, rest⟩, hsemi, hlast⟩ := Option.map_eq_some_iff.mp hend
  obtain ⟨hle, hlt, hrest⟩ := of_statementEnd hbody.symm hsemi
  rw [← hlast]
  simp only []
  split
  · next hcomment =>
    obtain ⟨u, hu, -⟩ := (Option.any_eq_true _ _).mp hcomment
    rw [hrest, List.head?_drop] at hu
    exact ⟨Nat.le_succ_of_le hle, (List.getElem?_eq_some_iff.mp hu).1⟩
  · exact ⟨hle, hlt⟩

theorem mem_bodies {b : Nat × Nat} (h : b ∈ bodies 0 tokens) : b.1 ≤ b.2 ∧ b.2 < tokens.length := by
  rw [bodies_eq] at h
  obtain ⟨i, -, hi⟩ := List.mem_filterMap.mp h
  exact start_le_last hi

end Beautifier.BraceInsertion
