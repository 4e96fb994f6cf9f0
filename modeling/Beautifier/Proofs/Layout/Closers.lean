/-
Positions of closing braces.

What `closers` gives for an opening brace is one of the pairs that were found
(`mem_pairs_of_closers`): the position of a closing brace, and one behind the
opening brace.  The pairs of a list are those of its front and those of the
rest, which starts with the braces that the front leaves open (`pairs_append`).
-/
import Beautifier.Layout.Matching

namespace Beautifier.Matching

variable {tokens : List Token} {n m : Nat}

theorem is_of_mem_pairs {position : Nat} {opened : List Nat} {ts : List Token}
    (h : (n, m) ∈ pairs position opened ts) :
    ∃ k u, m = position + k ∧ ts[k]? = some u ∧ u.is "\x7d" = true := by
  fun_induction pairs position opened ts with
  | case1 => cases h
  | case2 position opened t rest _ ih =>
      obtain ⟨k, u, rfl, hu, hclose⟩ := ih h
      exact ⟨k + 1, u, by omega, hu, hclose⟩
  | case3 position t rest _ _ ih =>
      obtain ⟨k, u, rfl, hu, hclose⟩ := ih h
      exact ⟨k + 1, u, by omega, hu, hclose⟩
  | case4 position t rest _ hclose start outer ih =>
      rcases List.mem_cons.mp h with heq | h
      · cases heq
        exact ⟨0, t, rfl, rfl, hclose⟩
      · obtain ⟨k, u, rfl, hu, hclose⟩ := ih h
        exact ⟨k + 1, u, by omega, hu, hclose⟩
  | case5 position opened t rest _ _ ih =>
      obtain ⟨k, u, rfl, hu, hclose⟩ := ih h
      exact ⟨k + 1, u, by omega, hu, hclose⟩

theorem lt_of_mem_pairs {position : Nat} {opened : List Nat} {ts : List Token}
    (hopened : ∀ k ∈ opened, k < position) (h : (n, m) ∈ pairs position opened ts) : n < m := by
  fun_induction pairs position opened ts with
  | case1 => cases h
  | case2 position opened t rest _ ih =>
      refine ih (fun k hk => ?_) h
      rcases List.mem_cons.mp hk with rfl | hk
      · exact Nat.lt_succ_self k
      · exact Nat.lt_succ_of_lt (hopened k hk)
  | case3 position t rest _ _ ih => exact ih (by simp) h
  | case4 position t rest _ _ start outer ih =>
      rcases List.mem_cons.mp h with heq | h
      · cases heq
        exact hopened n List.mem_cons_self
      · exact ih (fun k hk => Nat.lt_succ_of_lt (hopened k (List.mem_cons_of_mem _ hk))) h
  | case5 position opened t rest _ _ ih =>
      exact ih (fun k hk => Nat.lt_succ_of_lt (hopened k hk)) h

theorem mem_pairs_of_closers (h : (closers tokens)[n]?.join = some m) :
    (n, m) ∈ pairs 0 [] tokens := by
  have hfold : ∀ (ps : List (Nat × Nat)) (a : Array (Option Nat)),
      (ps.foldl (fun a p => a.setIfInBounds p.1 (some p.2)) a)[n]?.join = some m →
        a[n]?.join = some m ∨ (n, m) ∈ ps := by
    intro ps
    induction ps with
    | nil => exact fun _ h => .inl h
    | cons p ps ih =>
        intro a h
        rcases ih _ h with h | h
        · rw [Array.getElem?_setIfInBounds] at h
          split at h
          · next heq =>
            split at h
            · cases h
              exact .inr (heq ▸ List.mem_cons_self)
            · cases h
          · exact .inl h
        · exact .inr (List.mem_cons_of_mem _ h)
  rcases hfold _ _ h with h | h
  · rw [Array.getElem?_replicate] at h
    split at h <;> cases h
  · exact h

theorem size_closers (tokens : List Token) : (closers tokens).size = tokens.length := by
  have hfold : ∀ (ps : List (Nat × Nat)) (a : Array (Option Nat)),
      (ps.foldl (fun a p => a.setIfInBounds p.1 (some p.2)) a).size = a.size := by
    intro ps
    induction ps with
    | nil => exact fun _ => rfl
    | cons p ps ih =>
        intro a
        rw [List.foldl_cons, ih, Array.size_setIfInBounds]
  rw [closers, hfold, Array.size_replicate]

/-- The position that is kept for an opening brace is that of a closing brace. -/
theorem is_of_closers (h : (closers tokens)[n]?.join = some m) :
    ∃ u, tokens[m]? = some u ∧ u.is "\x7d" = true := by
  obtain ⟨k, u, rfl, hu, hclose⟩ := is_of_mem_pairs (mem_pairs_of_closers h)
  exact ⟨u, by rwa [Nat.zero_add], hclose⟩

theorem lt_of_closers (h : (closers tokens)[n]?.join = some m) : n < m :=
  lt_of_mem_pairs (by simp) (mem_pairs_of_closers h)

/-! ## A list in two parts -/

/-- The positions of the braces that are open behind a list. -/
def openBehind (position : Nat) (opened : List Nat) : List Token → List Nat
  | [] => opened
  | t :: rest =>
      if t.is "\x7b" then openBehind (position + 1) (position :: opened) rest
      else if t.is "\x7d" then openBehind (position + 1) opened.tail rest
      else openBehind (position + 1) opened rest

theorem pairs_append (position : Nat) (opened : List Nat) (front rest : List Token) :
    pairs position opened (front ++ rest) = pairs position opened front
      ++ pairs (position + front.length) (openBehind position opened front) rest := by
  induction front generalizing position opened with
  | nil => rfl
  | cons t front ih =>
      have hlength : position + (t :: front).length = position + 1 + front.length := by
        rw [List.length_cons]
        omega
      rw [List.cons_append, pairs.eq_def, pairs.eq_def position opened (t :: front), openBehind,
        hlength]
      dsimp only
      split
      · exact ih _ _
      · split
        · cases opened with
          | nil => exact ih _ _
          | cons start outer => exact congrArg ((start, position) :: ·) (ih _ _)
        · exact ih _ _

theorem openBehind_append (position : Nat) (opened : List Nat) (front rest : List Token) :
    openBehind position opened (front ++ rest)
      = openBehind (position + front.length) (openBehind position opened front) rest := by
  induction front generalizing position opened with
  | nil => rfl
  | cons t front ih =>
      have hlength : position + (t :: front).length = position + 1 + front.length := by
        rw [List.length_cons]
        omega
      rw [List.cons_append, openBehind, openBehind, hlength]
      split
      · exact ih _ _
      · split <;> exact ih _ _

theorem openBehind_of_braceless {ts : List Token} (position : Nat) (opened : List Nat)
    (h : ∀ t ∈ ts, t.is "\x7b" = false ∧ t.is "\x7d" = false) :
    openBehind position opened ts = opened := by
  induction ts generalizing position with
  | nil => rfl
  | cons t rest ih =>
      obtain ⟨⟨hopen, hclose⟩, hrest⟩ := List.forall_mem_cons.mp h
      rw [openBehind, if_neg (Bool.eq_false_iff.mp hopen), if_neg (Bool.eq_false_iff.mp hclose)]
      exact ih _ hrest

theorem openBehind_lt {position : Nat} {opened : List Nat} {ts : List Token}
    (hopened : ∀ p ∈ opened, p < position) :
    ∀ p ∈ openBehind position opened ts, p < position + ts.length := by
  induction ts generalizing position opened with
  | nil => exact hopened
  | cons t rest ih =>
      have hlength : position + (t :: rest).length = position + 1 + rest.length := by
        rw [List.length_cons]
        omega
      have hnext : ∀ p ∈ opened, p < position + 1 := fun p hp => Nat.lt_succ_of_lt (hopened p hp)
      rw [openBehind, hlength]
      split
      · exact ih (List.forall_mem_cons.mpr ⟨Nat.lt_succ_self position, hnext⟩)
      · split
        · exact ih fun p hp => hnext p (List.mem_of_mem_tail hp)
        · exact ih hnext

theorem fst_of_mem_pairs {position : Nat} {opened : List Nat} {ts : List Token} {p : Nat × Nat}
    (h : p ∈ pairs position opened ts) : p.1 ∈ opened ∨ position ≤ p.1 := by
  fun_induction pairs position opened ts with
  | case1 => cases h
  | case2 position opened t rest _ ih =>
      rcases ih h with hmem | hle
      · rcases List.mem_cons.mp hmem with heq | hmem
        · exact .inr (Nat.le_of_eq heq.symm)
        · exact .inl hmem
      · exact .inr (Nat.le_of_succ_le hle)
  | case3 position t rest _ _ ih =>
      rcases ih h with hmem | hle
      · exact .inl hmem
      · exact .inr (Nat.le_of_succ_le hle)
  | case4 position t rest _ _ start outer ih =>
      rcases List.mem_cons.mp h with rfl | h
      · exact .inl List.mem_cons_self
      · rcases ih h with hmem | hle
        · exact .inl (List.mem_cons_of_mem _ hmem)
        · exact .inr (Nat.le_of_succ_le hle)
  | case5 position opened t rest _ _ ih =>
      rcases ih h with hmem | hle
      · exact .inl hmem
      · exact .inr (Nat.le_of_succ_le hle)

/-- The table has for an opening brace what the last of its pairs says. -/
theorem closers_eq_find (hn : n < tokens.length) :
    (closers tokens)[n]?.join = ((pairs 0 [] tokens).reverse.find? (·.1 == n)).map (·.2) := by
  have hfold : ∀ (ps : List (Nat × Nat)) (a : Array (Option Nat)), n < a.size →
      (ps.foldl (fun a p => a.setIfInBounds p.1 (some p.2)) a)[n]?.join
        = ((ps.reverse.find? (·.1 == n)).map (·.2)).or a[n]?.join := by
    intro ps
    induction ps with
    | nil => exact fun _ _ => rfl
    | cons p ps ih =>
        intro a ha
        rw [List.foldl_cons, ih _ (by simpa using ha), List.reverse_cons, List.find?_append,
          Array.getElem?_setIfInBounds]
        cases (ps.reverse.find? (·.1 == n)) with
        | some q => rfl
        | none =>
            by_cases heq : p.1 = n
            · simp [heq, ha]
            · simp [heq]
  rw [closers, hfold _ _ (by simpa using hn), Array.getElem?_replicate, if_pos hn]
  exact Option.or_none

end Beautifier.Matching
