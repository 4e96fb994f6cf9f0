/-
Which bodies are whole statements.

A body in braces ends at the first semicolon outside its brackets.  Where the
body is a statement of the grammar, that is the end of the statement, or an
`else` follows that belongs to an `if` in the body (`statementEnd_cases`): the
body then stops in the middle of its statement and strays from it.
-/
import Beautifier.Proofs.Insertion.Branches

namespace Beautifier.BraceInsertion

open Grammar

variable {tokens ts rest behind : List Token} {n e : Nat} {s : Tree}

/-- A body that holds an `if` and is followed by an `else`. -/
def Strays (tokens : List Token) (b : Nat × Nat) : Prop :=
  startsElse (tokens.drop (b.2 + 1)) = true ∧
    ∃ t ∈ (tokens.drop b.1).take (b.2 + 1 - b.1), t.isWord "if" = true

/-! ## The end of a statement -/

theorem statementEnd_step {d : Nat} {t : Token} {r : Nat × List Token}
    (h : statementEnd n d (t :: ts) = some r) (ht : d = 0 → t.is ";" = false) :
    statementEnd (n + 1) (depthAfter d t) ts = some r := by
  rw [statementEnd] at h
  split at h
  · next hend =>
    simp only [Bool.and_eq_true, beq_iff_eq] at hend
    rw [ht hend.1] at hend
    cases hend.2
  split at h
  · cases h
  · exact h

theorem depthAfter_of_kind {d : Nat} {t : Token} (h : t.kind ≠ .punctuation) :
    depthAfter d t = d := by
  have hnot (texts : List String) : t.isOneOf texts = false := by
    simp [Token.isOneOf, h]
  rw [depthAfter, hnot, hnot]
  rfl

theorem depthAfter_of_is {d : Nat} {t : Token} {text : String} (h : t.is text) :
    depthAfter d t =
      if ["(", "["].contains text then d + 1
      else if [")", "]"].contains text then d - 1 else d := by
  simp only [Token.is, Bool.and_eq_true, beq_iff_eq] at h
  simp only [depthAfter, Token.isOneOf, h.1, h.2, beq_self_eq_true, Bool.true_and]

theorem is_eq_false_of_kind {t : Token} {text : String} (h : t.kind ≠ .punctuation) :
    t.is text = false := by
  simp [Token.is, h]

theorem statementEnd_word {word : Token} {r : Nat × List Token} (hword : word.kind = .word)
    (h : statementEnd n 0 (word :: ts) = some r) : statementEnd (n + 1) 0 ts = some r := by
  have hkind : word.kind ≠ .punctuation := by
    rw [hword]
    decide
  have hstep := statementEnd_step h fun _ => is_eq_false_of_kind hkind
  rwa [depthAfter_of_kind hkind] at hstep

theorem statementEnd_condition {keyword c : String} {body : List Token} {r : Nat × List Token}
    (hhead : Condition keyword ts c body) (h : statementEnd n 0 ts = some r) :
    statementEnd (n + 4) 0 body = some r := by
  cases hhead with
  | @mk header opened name closed _ hheader hopened hname hclosed =>
      have hheader : header.kind = .word := by
        simp only [Token.isWord, Bool.and_eq_true, beq_iff_eq] at hheader
        exact hheader.1
      have hname : name.kind ≠ .punctuation := by
        rw [hname.1]
        decide
      have h1 := statementEnd_word hheader h
      have h2 := statementEnd_step h1 fun _ => Bool.eq_false_iff.mpr fun hsemicolon =>
        absurd (is_unique hopened hsemicolon) (by decide)
      rw [depthAfter_of_is hopened] at h2
      have h3 := statementEnd_step h2 (by simp)
      rw [depthAfter_of_kind hname] at h3
      have h4 := statementEnd_step h3 (by simp)
      rw [depthAfter_of_is hclosed] at h4
      exact h4

/-- The tokens up to the one at `e` are those of a statement whose first token is at `n`: all of
them, or a part that ends in front of an `else` of the statement. -/
structure EndsAt (s : Tree) (n : Nat) (body behind rest : List Token) (e : Nat) : Prop where
  length : n + body.length = e + 1
  le : n ≤ e
  whole_or_part : (behind = rest ∧
      (startsElse rest = true → ∀ t ∈ body, t.isWord "if" = false)) ∨
    (startsElse behind = true ∧ (∃ t ∈ body, t.isWord "if" = true) ∧
      ∃ start, (start, e + 1) ∈ s.branches n ∧ n < start ∧ start ≤ e)

/-- A statement behind tokens that hold no `if` before an `else`. -/
theorem EndsAt.behind_front {s' : Tree} {front body : List Token} {k : Nat}
    (h : EndsAt s (n + k) body behind rest e) (hk : front.length = k)
    (hfront : startsElse rest = true → ∀ t ∈ front, t.isWord "if" = false)
    (hbranches : s'.branches n = s.branches (n + k)) :
    EndsAt s' n (front ++ body) behind rest e where
  length := by
    rw [List.length_append, hk, ← Nat.add_assoc]
    exact h.length
  le := Nat.le_trans (Nat.le_add_right ..) h.le
  whole_or_part := by
    rcases h.whole_or_part with ⟨hbehind, hnone⟩ | ⟨helse, ⟨t, ht, hif⟩, start, hmem, hlt, hle⟩
    · exact .inl ⟨hbehind, fun helse => List.forall_mem_append.mpr ⟨hfront helse, hnone helse⟩⟩
    · exact .inr ⟨helse, ⟨t, List.mem_append_right front ht, hif⟩, start, hbranches ▸ hmem,
        Nat.lt_of_le_of_lt (Nat.le_add_right ..) hlt, hle⟩

theorem EndsAt.ifElse {s' : Tree} {c : String} {header keyword : Token}
    {front body other : List Token} (h : EndsAt s (n + 4) body behind (keyword :: other) e)
    (hheader : header.isWord "if" = true) (hfront : front.length = 3)
    (hsize : behind = keyword :: other → body.length = s.size)
    (helse : keyword.isWord "else" = true) :
    EndsAt (.ifElse c s s') n (header :: front ++ body) behind rest e where
  length := by
    have := h.length
    simp only [List.length_append, List.length_cons]
    omega
  le := Nat.le_trans (Nat.le_add_right ..) h.le
  whole_or_part := by
    have hif : ∃ t ∈ header :: front ++ body, t.isWord "if" = true :=
      ⟨header, List.mem_cons_self, hheader⟩
    rcases h.whole_or_part with ⟨rfl, -⟩ | ⟨hbehind, -, start, hmem, hlt, hle⟩
    · refine .inr ⟨helse, hif, n + 4, ?_, by omega, h.le⟩
      rw [← h.length, hsize rfl]
      exact List.mem_cons_self
    · refine .inr ⟨hbehind, hif, start, ?_, by omega, hle⟩
      exact List.mem_append_left _ (List.mem_cons_of_mem _ hmem)

theorem statementEnd_cases (h : Parses .statement ts s rest)
    (hts : ∀ t ∈ ts, t.inserted = false) (hend : statementEnd n 0 ts = some (e, behind)) :
    ∃ body, ts = body ++ behind ∧ EndsAt s n body behind rest e := by
  generalize hpart : Part.statement = part at h
  induction h generalizing n with
  | @simple name semicolon rest hname hsemicolon =>
      have h1 := statementEnd_word hname.1 hend
      rw [statementEnd, if_pos (by simp [hsemicolon])] at h1
      cases h1
      exact ⟨[name, semicolon], rfl, rfl, Nat.le_succ n,
        .inl ⟨rfl, fun _ => hname.pair_isWord_eq_false hsemicolon⟩⟩
  | @label name colon ts rest s hname hcolon hbody ih =>
      have h1 := statementEnd_word hname.1 hend
      have h2 := statementEnd_step h1 fun _ => Bool.eq_false_iff.mpr fun hsemicolon =>
        absurd (is_unique hcolon hsemicolon) (by decide)
      rw [depthAfter_of_is hcolon] at h2
      obtain ⟨body, rfl, hstop⟩ : ∃ _, _ ∧ EndsAt s (n + 2) _ _ _ _ :=
        ih (fun t ht => hts t (by simp [ht])) h2 rfl
      exact ⟨[name, colon] ++ body, rfl,
        hstop.behind_front rfl (fun _ => hname.pair_isWord_eq_false hcolon) rfl⟩
  | ifThen hhead hbody hrest ih =>
      have hinside := statementEnd_condition hhead hend
      obtain ⟨header, front, rfl, -, hlength, -, -⟩ := hhead.exists_four
      obtain ⟨body, rfl, hstop⟩ := ih (fun t ht => hts t (by simp [ht])) hinside rfl
      refine ⟨header :: front ++ body, by simp, hstop.behind_front (by simp [hlength]) ?_ rfl⟩
      intro helse
      exact absurd (hrest.symm.trans helse) Bool.false_ne_true
  | @ifElse ts body₁ other rest keyword c s₁ s₂ hhead hbody₁ helse hother ih ih' =>
      have hinside := statementEnd_condition hhead hend
      obtain ⟨header, front, rfl, hheader, hlength, -, -⟩ := hhead.exists_four
      have hsource : ∀ t ∈ body₁, t.inserted = false := fun t ht => hts t (by simp [ht])
      have hsize := hbody₁.length hsource
      obtain ⟨body, rfl, hstop⟩ := ih hsource hinside rfl
      refine ⟨header :: front ++ body, by simp, hstop.ifElse hheader hlength ?_ helse⟩
      rintro rfl
      rw [List.length_append] at hsize
      exact Nat.add_right_cancel hsize
  | whileDo hhead hbody ih =>
      have hinside := statementEnd_condition hhead hend
      obtain ⟨header, front, rfl, hheader, hlength, hfront, -⟩ := hhead.exists_four
      obtain ⟨body, rfl, hstop⟩ := ih (fun t ht => hts t (by simp [ht])) hinside rfl
      refine ⟨header :: front ++ body, by simp, hstop.behind_front (by simp [hlength]) ?_ rfl⟩
      intro _
      have hwhile : header.isWord "if" = false := Bool.eq_false_iff.mpr fun hif =>
        absurd ((terminal_isWord hheader (by decide)).symm.trans
          (terminal_isWord hif (by decide))) (by decide)
      exact List.forall_mem_cons.mpr ⟨hwhile, hfront⟩
  | @block opened closed ts rest ss hopened =>
      simp only [Token.is, Bool.and_eq_true, beq_iff_eq] at hopened
      simp [statementEnd, Token.is, Token.isOneOf, hopened.1, hopened.2] at hend
  | done => cases hpart
  | next => cases hpart

end Beautifier.BraceInsertion
