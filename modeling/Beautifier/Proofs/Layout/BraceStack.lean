/-
The open braces during the layout.

Where no directive opens a conditional, the layout keeps its open braces as
the matching of braces does: one for each opening brace that is not closed
yet, the innermost first, each as it was when its token had been written
(`braces_stage`).  Closing braces that close nothing leave both as they are.
So a closing brace is written while the brace that it matches is the innermost
one (`head_braces_stage`).
-/
import Beautifier.Proofs.Layout.Closers
import Beautifier.Proofs.Layout.Conditionals
import Beautifier.Proofs.Layout.Pointer

namespace Beautifier

/-! ## Positions of open braces -/

namespace Matching

variable {tokens : List Token} {n m i j : Nat} {t : Token}

/-- The positions of the braces that are open in front of a position, the innermost first. -/
def openAt (tokens : List Token) (n : Nat) : List Nat := openBehind 0 [] (tokens.take n)

theorem openAt_succ (h : tokens[n]? = some t) :
    openAt tokens (n + 1) = if t.is "\x7b" then n :: openAt tokens n
      else if t.is "\x7d" then (openAt tokens n).tail else openAt tokens n := by
  have hn : n ≤ tokens.length := Nat.le_of_lt (List.getElem?_eq_some_iff.mp h).1
  rw [openAt, List.take_add_one, h, Option.toList_some, openBehind_append, List.length_take,
    Nat.min_eq_left hn, Nat.zero_add]
  rfl

theorem openAt_succ_of_none (h : tokens[n]? = none) :
    openAt tokens (n + 1) = openAt tokens n := by
  have hlength : tokens.length ≤ n := List.getElem?_eq_none_iff.mp h
  rw [openAt, openAt, List.take_of_length_le hlength,
    List.take_of_length_le (Nat.le_succ_of_le hlength)]

theorem lt_of_mem_openAt (h : i ∈ openAt tokens n) : i < n := by
  have hlt := openBehind_lt (fun p hp => absurd hp List.not_mem_nil) i h
  rw [List.length_take] at hlt
  omega

theorem mem_openAt_of_succ (h : i ∈ openAt tokens (n + 1)) : i ∈ openAt tokens n ∨ i = n := by
  cases hget : tokens[n]? with
  | none => exact .inl (openAt_succ_of_none hget ▸ h)
  | some t =>
      rw [openAt_succ hget] at h
      split at h
      · exact (List.mem_cons.mp h).symm
      · split at h
        · exact .inl (List.mem_of_mem_tail h)
        · exact .inl h

theorem is_of_mem_openAt (h : i ∈ openAt tokens n) :
    ∃ t, tokens[i]? = some t ∧ t.is "\x7b" = true := by
  induction n with
  | zero => exact absurd h List.not_mem_nil
  | succ n ih =>
      rcases mem_openAt_of_succ h with hmem | rfl
      · exact ih hmem
      · cases hget : tokens[i]? with
        | none =>
            have hlt := openBehind_lt (fun p hp => absurd hp List.not_mem_nil) i h
            rw [List.length_take] at hlt
            have hlength := List.getElem?_eq_none_iff.mp hget
            omega
        | some t =>
            refine ⟨t, rfl, ?_⟩
            by_contra hopen
            rw [openAt_succ hget, if_neg hopen] at h
            have hmem : i ∈ openAt tokens i := by
              split at h
              · exact List.mem_of_mem_tail h
              · exact h
            exact absurd (lt_of_mem_openAt hmem) (Nat.lt_irrefl i)

theorem snd_of_mem_pairs {position : Nat} {opened : List Nat} {ts : List Token}
    (h : (n, m) ∈ pairs position opened ts) : position ≤ m ∧ m < position + ts.length := by
  obtain ⟨k, u, rfl, hu, -⟩ := is_of_mem_pairs h
  have hk := (List.getElem?_eq_some_iff.mp hu).1
  omega

theorem not_opens_of_closes (h : t.is "\x7d" = true) : t.is "\x7b" = false := by
  simp_all [Token.is]

/-- The pairs of a list in front of a closing brace, at it, and behind it. -/
theorem pairs_split (h : tokens[j]? = some t) (hclose : t.is "\x7d" = true) :
    pairs 0 [] tokens = pairs 0 [] (tokens.take j) ++ match openAt tokens j with
      | [] => pairs (j + 1) [] (tokens.drop (j + 1))
      | start :: outer => (start, j) :: pairs (j + 1) outer (tokens.drop (j + 1)) := by
  have hopen := not_opens_of_closes hclose
  obtain ⟨hj, ht⟩ := List.getElem?_eq_some_iff.mp h
  have hlength : 0 + (tokens.take j).length = j := by rw [List.length_take]; omega
  conv => lhs; rw [← List.take_append_drop j tokens, List.drop_eq_getElem_cons hj, ht]
  rw [pairs_append, hlength, pairs.eq_def j]
  simp only [hopen, hclose, Bool.false_eq_true, if_false, if_true]
  rfl

/-- In front of a closing brace, the innermost open brace is the one that it matches. -/
theorem head_openAt_of_closers (h : (closers tokens)[i]?.join = some j) :
    (openAt tokens j).head? = some i := by
  obtain ⟨u, hu, hclose⟩ := is_of_closers h
  have hmem := mem_pairs_of_closers h
  have hlate : ∀ opened, (i, j) ∉ pairs (j + 1) opened (tokens.drop (j + 1)) := fun opened hlater =>
    absurd (snd_of_mem_pairs hlater).1 (Nat.not_succ_le_self j)
  rw [pairs_split hu hclose] at hmem
  rcases List.mem_append.mp hmem with hfront | hbehind
  · have hlt := (snd_of_mem_pairs hfront).2
    rw [List.length_take] at hlt
    omega
  · cases hopened : openAt tokens j with
    | nil =>
        rw [hopened] at hbehind
        exact absurd hbehind (hlate _)
    | cons start outer =>
        rw [hopened] at hbehind
        rcases List.mem_cons.mp hbehind with heq | hlater
        · cases heq
          rfl
        · exact absurd hlater (hlate _)

theorem pairwise_openAt (tokens : List Token) (n : Nat) : (openAt tokens n).Pairwise (· > ·) := by
  induction n with
  | zero => exact .nil
  | succ n ih =>
      cases hget : tokens[n]? with
      | none => rwa [openAt_succ_of_none hget]
      | some t =>
          rw [openAt_succ hget]
          split
          · exact .cons (fun i hi => lt_of_mem_openAt hi) ih
          · split
            · exact ih.sublist (List.tail_sublist _)
            · exact ih

theorem exists_innermost (h : i ∈ openAt tokens n) :
    ∃ k outer, openAt tokens n = k :: outer ∧ i ≤ k ∧ k < n := by
  obtain ⟨k, outer, hk⟩ := List.exists_cons_of_ne_nil (List.ne_nil_of_mem h)
  have hsorted := pairwise_openAt tokens n
  refine ⟨k, outer, hk, ?_, lt_of_mem_openAt (hk ▸ List.mem_cons_self)⟩
  rw [hk] at h hsorted
  rcases List.mem_cons.mp h with rfl | h
  · exact Nat.le_refl i
  · exact Nat.le_of_lt (List.rel_of_pairwise_cons hsorted h)

/-- A closing brace matches the innermost open brace. -/
theorem closers_of_head_openAt (h : tokens[j]? = some t) (hclose : t.is "\x7d" = true)
    (hhead : (openAt tokens j).head? = some i) : (closers tokens)[i]?.join = some j := by
  obtain ⟨outer, houter⟩ := List.head?_eq_some_iff.mp hhead
  have hij : i < j := lt_of_mem_openAt (houter ▸ List.mem_cons_self)
  have hj : j < tokens.length := (List.getElem?_eq_some_iff.mp h).1
  have hsorted := pairwise_openAt tokens j
  rw [houter] at hsorted
  have hlater : ∀ q ∈ pairs (j + 1) outer (tokens.drop (j + 1)), (q.1 == i) = false := by
    intro q hq
    rw [beq_eq_false_iff_ne]
    rintro rfl
    rcases fst_of_mem_pairs hq with hmem | hle
    · exact absurd (List.rel_of_pairwise_cons hsorted hmem) (Nat.lt_irrefl _)
    · omega
  have hnone : (pairs (j + 1) outer (tokens.drop (j + 1))).reverse.find? (·.1 == i) = none := by
    rw [List.find?_eq_none]
    intro q hq
    rw [hlater q (List.mem_reverse.mp hq)]
    exact Bool.false_ne_true
  rw [closers_eq_find (Nat.lt_trans hij hj), pairs_split h hclose, houter]
  simp only [List.reverse_append, List.reverse_cons, List.append_assoc, List.find?_append, hnone]
  simp

theorem mem_openAt_of_closers (h : (closers tokens)[i]?.join = some j) (hin : i < n) (hnj : n ≤ j) :
    i ∈ openAt tokens n := by
  induction hk : j - n generalizing n with
  | zero =>
      rw [Nat.le_antisymm hnj (Nat.sub_eq_zero_iff_le.mp hk)]
      exact List.mem_of_head? (head_openAt_of_closers h)
  | succ k ih =>
      have hnext : i ∈ openAt tokens (n + 1) := ih (by omega) (by omega) (by omega)
      rcases mem_openAt_of_succ hnext with hmem | rfl
      · exact hmem
      · exact absurd hin (Nat.lt_irrefl _)

end Matching

/-! ## One step -/

theorem State.settleCode_keeps (s : State) (c : Cursor) (o : Options) (layout : Layout)
    (lineIndent : Indent) (starts : Bool) (role : Role) :
    (s.settleCode c o layout lineIndent starts role).braces = s.braces ∧
      (s.settleCode c o layout lineIndent starts role).afterClose = s.afterClose := by
  obtain ⟨stmt, forceBreak, heq⟩ :=
    ((if starts then s.beginStatement c layout lineIndent else s).owesSpacing c o role).afterCode_eq
      c o lineIndent
  rw [settleCode, heq]
  cases starts <;> exact ⟨rfl, rfl⟩

section
variable {o : Options} {r : Progress} {c : Cursor}

theorem braces_step_openBrace (h : c.token.is "\x7b" = true) :
    ∃ outer, (r.step o c).state.braces = State.openedBrace o (Plan.opening c o r.state)
      (r.step o c).page.currentIndent outer :: r.state.braces := by
  rw [Progress.step, Cursor.plan_openBrace h]
  exact ⟨_, congrArg (_ :: ·) (State.braces_placed ..)⟩

theorem braces_step_closeBrace (h : c.token.is "\x7d" = true) :
    (r.step o c).state.braces = r.state.braces.tail := by
  rw [Progress.step, Cursor.plan_closeBrace h, Plan.closeBrace]
  cases r.state.braces with
  | nil => exact State.braces_placed ..
  | cons b outer =>
      have hkept : ∀ s : State, (s.settleClose c o b).braces = s.braces := by
        intro s
        rw [State.settleClose]
        split <;> rfl
      exact (hkept _).trans (State.braces_placed ..)

theorem braces_step_other (hkind : c.token.kind ≠ .directive) (hopen : c.token.is "\x7b" = false)
    (hclose : c.token.is "\x7d" = false) : (r.step o c).state.braces = r.state.braces := by
  rcases c.plan_cases o r.state r.conditionals r.page hkind with
    ⟨-, hplan⟩ | ⟨-, ⟨hopen', -⟩ | ⟨-, hclose', -⟩ | ⟨-, -, hplan⟩⟩
  · rw [Progress.step, hplan]
    exact State.braces_placed ..
  · rw [hopen] at hopen'
    cases hopen'
  · rw [hclose] at hclose'
    cases hclose'
  · rw [Progress.step, hplan]
    refine (State.settleCode_keeps ..).1.trans ?_
    exact State.braces_placed ..

end

/-! ## All tokens -/

/-- No directive opens a conditional. -/
def Unconditional (tokens : List Token) : Prop := ∀ t ∈ tokens, t.opensConditional = false

/-- The block that the opening brace at a position opens. -/
def blockAt? (o : Options) (tokens : List Token) (i : Nat) : Option OpenBrace :=
  (stage o tokens (i + 1)).state.braces.head?

section
variable {o : Options} {tokens : List Token} {n i j : Nat} {t : Token}

/-- A directive is no more than a line. -/
theorem Unconditional.stage_directive (h : Unconditional tokens) (hget : tokens[n]? = some t)
    (hkind : t.kind = .directive) :
    (stage o tokens (n + 1)).state = (stage o tokens n).state.behindDirective n := by
  have hn : n ≤ tokens.length := Nat.le_of_lt (List.getElem?_eq_some_iff.mp hget).1
  have hnone : (stage o tokens n).conditionals = [] := by
    refine conditionals_eq_nil (fun k hgroup => ?_) hn
    obtain ⟨u, hu, hopens⟩ := hgroup.opens
    rw [h u (List.mem_of_getElem? hu)] at hopens
    cases hopens
  have hopens := h t (List.mem_of_getElem? hget)
  rw [(Beautifier.stage_directive hget hkind).1, hnone]
  congr 1
  cases hbranch : t.startsBranch with
  | true => rw [branch_startsBranch _ _ hbranch]
  | false =>
      cases hends : t.endsConditional with
      | true => rw [branch_ends _ _ hends]
      | false => rw [branch_other _ _ hkind hopens hbranch hends]

theorem State.braces_behindDirective (s : State) (n : Nat) :
    (s.behindDirective n).braces = s.braces := by
  rw [behindDirective, amendParen]
  split <;> rfl

/-- The layout has the blocks open whose braces are, each as it was opened. -/
theorem Unconditional.braces_stage (h : Unconditional tokens) : ∀ n ≤ tokens.length,
    (stage o tokens n).state.braces.map some
      = (Matching.openAt tokens n).map (blockAt? o tokens) := by
  intro n
  induction n with
  | zero => exact fun _ => rfl
  | succ n ih =>
      intro hn
      have hget : tokens[n]? = some tokens[n] := List.getElem?_eq_getElem hn
      have hopened := ih (Nat.le_of_succ_le hn)
      generalize tokens[n] = t at hget
      have hstep := stage_succ (o := o) hget
      rw [Matching.openAt_succ hget]
      by_cases hkind : t.kind = .directive
      · have hbrace : ∀ text, t.is text = false := fun text => by simp [Token.is, hkind]
        rw [h.stage_directive hget hkind, State.braces_behindDirective, hbrace, hbrace]
        exact hopened
      cases hopen : t.is "\x7b" with
      | true =>
          obtain ⟨outer, hbraces⟩ :=
            braces_step_openBrace (o := o) (r := stage o tokens n) (c := cursorAt tokens n t) hopen
          rw [← hstep] at hbraces
          rw [hbraces, List.map_cons, hopened, if_pos rfl, List.map_cons, blockAt?, hbraces]
          rfl
      | false =>
          cases hclose : t.is "\x7d" with
          | true =>
              rw [hstep, braces_step_closeBrace (c := cursorAt tokens n t) hclose, List.map_tail,
                hopened, if_neg Bool.false_ne_true, if_pos rfl, List.map_tail]
          | false =>
              rw [hstep, braces_step_other (c := cursorAt tokens n t) hkind hopen hclose, hopened,
                if_neg Bool.false_ne_true, if_neg Bool.false_ne_true]

theorem Unconditional.mem_braces_stage (h : Unconditional tokens) (hn : n ≤ tokens.length)
    (hopen : i ∈ Matching.openAt tokens n) {b : OpenBrace} (hb : blockAt? o tokens i = some b) :
    b ∈ (stage o tokens n).state.braces := by
  have hmem : blockAt? o tokens i ∈ (stage o tokens n).state.braces.map some := by
    rw [h.braces_stage n hn]
    exact List.mem_map_of_mem hopen
  obtain ⟨b', hb', heq⟩ := List.mem_map.mp hmem
  rw [hb] at heq
  cases heq
  exact hb'

theorem Unconditional.head_braces_of_openAt (h : Unconditional tokens) (hn : n ≤ tokens.length)
    {outer : List Nat} (hopen : Matching.openAt tokens n = i :: outer) :
    (stage o tokens n).state.braces.head? = blockAt? o tokens i ∧
      (blockAt? o tokens i).isSome = true := by
  have hhead := congrArg List.head? (h.braces_stage (o := o) n hn)
  rw [List.head?_map, hopen, List.map_cons, List.head?_cons] at hhead
  cases hfirst : (stage o tokens n).state.braces.head? with
  | none =>
      rw [hfirst] at hhead
      cases hhead
  | some b =>
      rw [hfirst, Option.map_some, Option.some.injEq] at hhead
      rw [← hhead]
      exact ⟨rfl, rfl⟩

/-- A closing brace closes the block that was opened by the brace that it matches. -/
theorem Unconditional.head_braces_stage (h : Unconditional tokens)
    (hclosers : (Matching.closers tokens)[i]?.join = some j) :
    (stage o tokens j).state.braces.head? = blockAt? o tokens i ∧
      (blockAt? o tokens i).isSome = true := by
  obtain ⟨u, hu, -⟩ := Matching.is_of_closers hclosers
  obtain ⟨outer, houter⟩ := List.head?_eq_some_iff.mp (Matching.head_openAt_of_closers hclosers)
  exact h.head_braces_of_openAt (Nat.le_of_lt (List.getElem?_eq_some_iff.mp hu).1) houter

end

end Beautifier
