/-
What looking back finds behind a common stretch of tokens.

Two lists of tokens may differ in a stretch and go on alike behind it
(`Rejoins`).  A token behind that stretch looks back over the tokens before
it: to the code token before, to the start of its statement, to an open
bracket.  As long as none of these lies in the stretch or before it
(`Statement.Rooted`), it finds the same in both lists.
-/
import Beautifier.Proofs.Layout.Moved
import Beautifier.Proofs.Safety.Checked

namespace Beautifier

/-! ## Lists that go on alike -/

/-- Two lists of tokens that are the same up to the position `i`, and again from `k` in the one and
`k'` in the other, behind a comment or a directive. -/
structure Rejoins (i k k' : Nat) (tokens tokens' : List Token) : Prop where
  front : tokens'.take (i + 1) = tokens.take (i + 1)
  tail : tokens'.drop k' = tokens.drop k
  lt : i + 1 < k
  lt' : i + 1 < k'
  turn : ∃ u, tokens[k - 1]? = some u ∧ u.isTrivia = true
  turn' : ∃ u, tokens'[k' - 1]? = some u ∧ u.isTrivia = true

/-- Where a position of the one list lies in the other; that before `k` goes with those behind. -/
def shifted (k k' p : Nat) : Nat := if p + 1 < k then p else p + k' - k

/-- A position at which both lists have the same token. -/
def Kept (i k p : Nat) : Prop := p ≤ i ∨ k ≤ p

/-- A code token stands at a position from `k` on and before `n`. -/
structure CodeAt (tokens : List Token) (k n p : Nat) : Prop where
  le : k ≤ p
  lt : p < n
  code : ∃ t, tokens[p]? = some t ∧ t.isTrivia = false

/-- Some code token stands from `k` on and before `n`. -/
def CodeBetween (tokens : List Token) (k n : Nat) : Prop := ∃ p, CodeAt tokens k n p

variable {tokens tokens' : List Token} {i k k' m n p : Nat} {t : Token}

theorem CodeAt.mono (h : CodeAt tokens k m p) (hmn : m ≤ n) : CodeAt tokens k n p :=
  ⟨h.le, Nat.lt_of_lt_of_le h.lt hmn, h.code⟩

theorem CodeBetween.mono (h : CodeBetween tokens k m) (hmn : m ≤ n) : CodeBetween tokens k n := by
  obtain ⟨p, hp⟩ := h
  exact ⟨p, hp.mono hmn⟩

theorem shifted_of_lt (h : p + 1 < k) : shifted k k' p = p := if_pos h

theorem shifted_of_le (h : k ≤ p) : shifted k k' p = p - k + k' := by
  rw [shifted, if_neg (Nat.not_lt.mpr (Nat.le_succ_of_le h))]
  omega

theorem shifted_pred (h : 0 < k) : shifted k k' (k - 1) = k' - 1 := by
  rw [shifted, if_neg (by omega)]
  omega

theorem shifted_succ (h : k ≤ p) : shifted k k' (p + 1) = shifted k k' p + 1 := by
  rw [shifted_of_le h, shifted_of_le (Nat.le_succ_of_le h)]
  omega

theorem le_shifted (h : k ≤ p) : k' ≤ shifted k k' p := by
  rw [shifted_of_le h]
  exact Nat.le_add_left _ _

/-! ### Code in front of a list -/

section

variable {X Y : List Token} {u w : Token}

theorem firstCode_append (h : ∃ u ∈ X, u.isTrivia = false) : firstCode (X ++ Y) = firstCode X := by
  obtain ⟨u, hu, hcode⟩ := h
  have hsome : (firstCode X).isSome = true := by
    rw [firstCode, List.find?_isSome]
    exact ⟨u, hu, by simp [hcode]⟩
  rw [firstCode, List.find?_append]
  exact Option.or_of_isSome hsome

theorem afterCode_append (h : ∃ u ∈ X, u.isTrivia = false) :
    afterCode (X ++ Y) = afterCode X ++ Y := by
  obtain ⟨u, hu, hcode⟩ := h
  induction X with
  | nil => cases hu
  | cons t rest ih =>
      rw [List.cons_append, afterCode, afterCode]
      split
      · next htrivia =>
          rcases List.mem_cons.mp hu with rfl | hu
          · rw [hcode] at htrivia
            cases htrivia
          · exact ih hu
      · rfl

theorem mem_afterCode (hw : firstCode X = some w) (hu : u ∈ X) (hcode : u.isTrivia = false)
    (hne : u ≠ w) : u ∈ afterCode X := by
  induction X with
  | nil => cases hu
  | cons t rest ih =>
      rw [afterCode]
      rw [firstCode, List.find?_cons] at hw
      cases htrivia : t.isTrivia with
      | true =>
          rw [htrivia] at hw
          rcases List.mem_cons.mp hu with rfl | hu
          · rw [hcode] at htrivia
            cases htrivia
          · exact ih hw hu
      | false =>
          rw [htrivia] at hw
          cases hw
          rcases List.mem_cons.mp hu with rfl | hu
          · exact absurd rfl hne
          · exact hu

end

namespace Rejoins

variable (h : Rejoins i k k' tokens tokens')
include h

/-! ### Positions -/

theorem kept_shifted_eq_iff (hp : Kept i k p) (hn : k ≤ n) :
    shifted k k' p = shifted k k' n ↔ p = n := by
  have hlt := h.lt
  have hlt' := h.lt'
  simp only [Kept, shifted] at *
  split <;> split <;> omega

theorem kept_shifted_lt_iff (hp : Kept i k p) (hn : k ≤ n) :
    shifted k k' p < shifted k k' n ↔ p < n := by
  have hlt := h.lt
  have hlt' := h.lt'
  simp only [Kept, shifted] at *
  split <;> split <;> omega

theorem getElem?_shifted (hp : Kept i k p) : tokens'[shifted k k' p]? = tokens[p]? := by
  rcases hp with hp | hp
  · have hlt : p < i + 1 := Nat.lt_succ_of_le hp
    rw [shifted_of_lt (Nat.lt_of_le_of_lt (Nat.succ_le_succ hp) h.lt),
      ← List.getElem?_take_of_lt hlt, h.front, List.getElem?_take_of_lt hlt]
  · rw [shifted_of_le hp, Nat.add_comm, ← List.getElem?_drop, h.tail, List.getElem?_drop,
      Nat.add_sub_cancel' hp]

theorem take_shifted (hp : k ≤ p) :
    tokens'.take (shifted k k' p) = tokens'.take k' ++ (tokens.drop k).take (p - k) := by
  rw [shifted_of_le hp, Nat.add_comm, List.take_add, h.tail]

theorem drop_shifted (hp : k ≤ p) : tokens'.drop (shifted k k' p) = tokens.drop p := by
  rw [shifted_of_le hp, Nat.add_comm, ← List.drop_drop, h.tail, List.drop_drop,
    Nat.add_sub_cancel' hp]

omit h in
theorem take_of_le (hp : k ≤ p) :
    tokens.take p = tokens.take k ++ (tokens.drop k).take (p - k) := by
  rw [← List.take_add, Nat.add_sub_cancel' hp]

omit h in
theorem mem_take_drop (hcode : CodeAt tokens k n p) {u : Token} (hu : tokens[p]? = some u) :
    u ∈ (tokens.drop k).take (n - k) := by
  have hlt : p - k < n - k := Nat.sub_lt_sub_right hcode.le hcode.lt
  rw [List.mem_iff_getElem?]
  refine ⟨p - k, ?_⟩
  rw [List.getElem?_take_of_lt hlt, List.getElem?_drop, Nat.add_sub_cancel' hcode.le]
  exact hu

omit h in
theorem exists_mem_reverse (hcode : CodeBetween tokens k n) :
    ∃ u ∈ ((tokens.drop k).take (n - k)).reverse, u.isTrivia = false := by
  obtain ⟨p, hp⟩ := hcode
  obtain ⟨u, hu, htrivia⟩ := hp.code
  exact ⟨u, List.mem_reverse.mpr (mem_take_drop hp hu), htrivia⟩

theorem firstCode_take (hn : k ≤ n) (hcode : CodeBetween tokens k n) :
    firstCode (tokens'.take (shifted k k' n)).reverse = firstCode (tokens.take n).reverse := by
  have hsome := exists_mem_reverse hcode
  rw [h.take_shifted hn, take_of_le hn, List.reverse_append, List.reverse_append,
    firstCode_append hsome, firstCode_append hsome]

/-! ### Cursors -/

section

variable (hget : tokens[n]? = some t) (hn : k ≤ n)
include hget hn

theorem getElem?_shifted_eq : tokens'[shifted k k' n]? = some t := by
  rw [h.getElem?_shifted (.inr hn), hget]

omit hget in
theorem ahead_cursorAt (t : Token) :
    (cursorAt tokens' (shifted k k' n) t).ahead = (cursorAt tokens n t).ahead := by
  have hafter : tokens'.drop (shifted k k' n + 1) = tokens.drop (n + 1) := by
    rw [← shifted_succ hn, h.drop_shifted (Nat.le_succ_of_le hn)]
  rw [cursorAt, cursorAt, Cursor.ahead, Cursor.ahead, hafter]

theorem since_shifted (hp : k ≤ p) :
    (cursorAt tokens' (shifted k k' n) t).since (shifted k k' p)
      = (cursorAt tokens n t).since p := by
  have hget' := h.getElem?_shifted_eq hget hn
  have hmin : min (shifted k k' p) (shifted k k' n) = shifted k k' (min p n) := by
    rw [shifted_of_le hp, shifted_of_le hn, shifted_of_le (Nat.le_min.mpr ⟨hp, hn⟩)]
    omega
  have hmin_le : k ≤ min p n := Nat.le_min.mpr ⟨hp, hn⟩
  have hdrop : (tokens'.take (shifted k k' n)).drop (shifted k k' (min p n))
      = (tokens.take n).drop (min p n) := by
    rw [List.drop_take, List.drop_take, h.drop_shifted hmin_le, shifted_of_le hn,
      shifted_of_le hmin_le]
    congr 1
    omega
  rw [since_min_cursorAt hget, since_min_cursorAt hget', hmin, hdrop]

theorem tokenAt?_shifted (hp : Kept i k p) :
    (cursorAt tokens' (shifted k k' n) t).tokenAt? (shifted k k' p)
      = (cursorAt tokens n t).tokenAt? p := by
  have hget' := h.getElem?_shifted_eq hget hn
  by_cases hlt : p < n
  · rw [tokenAt?_cursorAt hget hlt,
      tokenAt?_cursorAt hget' ((h.kept_shifted_lt_iff hp hn).mpr hlt), h.getElem?_shifted hp]
  · have hlt' : ¬shifted k k' p < shifted k k' n := by rwa [h.kept_shifted_lt_iff hp hn]
    exact (if_neg hlt').trans (if_neg hlt).symm

omit hget in
theorem prevCode_cursorAt (hcode : CodeBetween tokens k n) :
    (cursorAt tokens' (shifted k k' n) t).prevCode = (cursorAt tokens n t).prevCode :=
  h.firstCode_take hn hcode

theorem firstCode_beforePosition (hp : k ≤ p) (hlt : p < n) (hcode : CodeBetween tokens k p) :
    firstCode ((cursorAt tokens' (shifted k k' n) t).beforePosition (shifted k k' p))
      = firstCode ((cursorAt tokens n t).beforePosition p) := by
  have hlt' := (h.kept_shifted_lt_iff (.inr hp) hn).mpr hlt
  rw [beforePosition_cursorAt hget (Nat.le_of_lt hlt),
    beforePosition_cursorAt (h.getElem?_shifted_eq hget hn) (Nat.le_of_lt hlt'),
    h.firstCode_take hp hcode]

omit hget in
/-- An arrow before the code token before is found in both lists if some code that is no word
stands in what they have in common: it is the code token before, or stands before that. -/
theorem afterTrailingReturn_cursorAt (hcode : CodeAt tokens k n p)
    (hpunct : ∃ u, tokens[p]? = some u ∧ u.kind = .punctuation) :
    (cursorAt tokens' (shifted k k' n) t).afterTrailingReturn
      = (cursorAt tokens n t).afterTrailingReturn := by
  obtain ⟨u, hu, hkind⟩ := hpunct
  have hprev := h.prevCode_cursorAt (t := t) hn ⟨p, hcode⟩
  have hbefore : (cursorAt tokens n t).before
      = ((tokens.drop k).take (n - k)).reverse ++ (tokens.take k).reverse := by
    rw [← List.reverse_append, ← take_of_le hn]
    rfl
  have hbefore' : (cursorAt tokens' (shifted k k' n) t).before
      = ((tokens.drop k).take (n - k)).reverse ++ (tokens'.take k').reverse := by
    rw [← List.reverse_append, ← h.take_shifted hn]
    rfl
  have hsome := exists_mem_reverse ⟨p, hcode⟩
  rw [Cursor.afterTrailingReturn, Cursor.afterTrailingReturn, hprev, hbefore, hbefore',
    afterCode_append hsome, afterCode_append hsome]
  cases hw : firstCode ((tokens.drop k).take (n - k)).reverse with
  | none =>
      obtain ⟨v, hv, hvcode⟩ := hsome
      have hnone := List.find?_eq_none.mp hw v hv
      rw [hvcode] at hnone
      exact absurd rfl hnone
  | some w =>
      have hprevw : (cursorAt tokens n t).prevCode = some w := by
        rw [Cursor.prevCode, hbefore, firstCode_append hsome, hw]
      rw [hprevw, Option.any_some]
      cases hword : w.kind == .word with
      | false => rfl
      | true =>
          have hne : u ≠ w := by
            rintro rfl
            rw [hkind] at hword
            cases hword
          have hutrivia : u.isTrivia = false := by
            rw [Token.isTrivia, hkind]
          have hleft :=
            mem_afterCode hw (List.mem_reverse.mpr (mem_take_drop hcode hu)) hutrivia hne
          rw [firstCode_append ⟨u, hleft, hutrivia⟩, firstCode_append ⟨u, hleft, hutrivia⟩]

end

end Rejoins

end Beautifier
