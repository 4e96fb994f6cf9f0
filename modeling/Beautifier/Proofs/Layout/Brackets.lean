/-
Braces as brackets.

The closing brace of a block is found with a stack.  Which one it is can be
said without: the one behind the opening brace such that the tokens between
the two are balanced, that is, they open as many braces as they close and no
front of them closes more than it opens (`closers_eq_some_iff_encloses`).
What ties the two together is `openAt_of_keepsOpen`: as long as no front closes
more than it opens, the stack is what it was at the opening brace, and on top
of it stand the braces that were opened since and not closed.

So pairs of braces nest (`closers_nested`), and a closing brace that closes
nothing may as well be left out (`Stray.closers_past`): it finds the stack
empty, and leaves it so.
-/
import Mathlib.Data.List.Infix
import Beautifier.Proofs.Layout.BraceStack

namespace Beautifier.Matching

/-! ## Balanced lists -/

def openingBraces (ts : List Token) : Nat := ts.countP (·.is "\x7b")

def closingBraces (ts : List Token) : Nat := ts.countP (·.is "\x7d")

/-- No front of a list closes more braces than it opens, so a brace that is open in front of the
list is open throughout. -/
def KeepsOpen (ts : List Token) : Prop :=
  ∀ front, front <+: ts → closingBraces front ≤ openingBraces front

/-- The braces of a list come in pairs. -/
structure Balanced (ts : List Token) : Prop where
  even : openingBraces ts = closingBraces ts
  keepsOpen : KeepsOpen ts

/-- An opening brace at `i` and a closing one at `j` belong together as brackets do. -/
structure Encloses (tokens : List Token) (i j : Nat) : Prop where
  opens : tokens[i]?.any (·.is "\x7b") = true
  closes : tokens[j]?.any (·.is "\x7d") = true
  lt : i < j
  between : Balanced (tokensBetween tokens i j)

instance (ts : List Token) : Decidable (KeepsOpen ts) :=
  decidable_of_iff (∀ front ∈ ts.inits, closingBraces front ≤ openingBraces front) <|
    forall_congr' fun front => by rw [List.mem_inits]

instance (ts : List Token) : Decidable (Balanced ts) :=
  decidable_of_iff (openingBraces ts = closingBraces ts ∧ KeepsOpen ts)
    ⟨fun h => ⟨h.1, h.2⟩, fun h => ⟨h.even, h.keepsOpen⟩⟩

instance (tokens : List Token) (i j : Nat) : Decidable (Encloses tokens i j) :=
  decidable_of_iff (tokens[i]?.any (·.is "\x7b") = true ∧ tokens[j]?.any (·.is "\x7d") = true ∧
      i < j ∧ Balanced (tokensBetween tokens i j))
    ⟨fun h => ⟨h.1, h.2.1, h.2.2.1, h.2.2.2⟩, fun h => ⟨h.opens, h.closes, h.lt, h.between⟩⟩

variable {tokens front : List Token} {t : Token} {i j k n i' j' : Nat}

theorem openingBraces_append (front back : List Token) :
    openingBraces (front ++ back) = openingBraces front + openingBraces back := List.countP_append

theorem closingBraces_append (front back : List Token) :
    closingBraces (front ++ back) = closingBraces front + closingBraces back := List.countP_append

theorem keepsOpen_nil : KeepsOpen [] := by
  intro front hfront
  rw [List.prefix_nil.mp hfront]
  exact Nat.le_refl _

theorem keepsOpen_concat : KeepsOpen (front ++ [t]) ↔
    KeepsOpen front ∧ closingBraces (front ++ [t]) ≤ openingBraces (front ++ [t]) := by
  constructor
  · intro h
    exact ⟨fun ts hts => h ts (hts.trans (List.prefix_append _ _)), h _ (List.prefix_refl _)⟩
  · rintro ⟨hfront, hwhole⟩ ts hts
    rcases List.prefix_concat_iff.mp hts with rfl | hts
    · exact hwhole
    · exact hfront ts hts

/-! ## The stack of open braces -/

/-- The braces that are open above another one are one more, one fewer or the same behind a token;
only where there are none the token may close the other one. -/
theorem openAt_succ_above {inner outer : List Nat} (hget : tokens[n]? = some t)
    (hopened : openAt tokens n = inner ++ i :: outer) :
    (∃ inner', openAt tokens (n + 1) = inner' ++ i :: outer ∧
        inner'.length + closingBraces [t] = inner.length + openingBraces [t]) ∨
      inner = [] ∧ closingBraces [t] = openingBraces [t] + 1 ∧ openAt tokens (n + 1) = outer := by
  rw [openAt_succ hget, hopened, openingBraces, closingBraces, List.countP_singleton,
    List.countP_singleton]
  cases hclose : t.is "\x7d" with
  | true =>
      rw [not_opens_of_closes hclose]
      cases inner with
      | nil => exact .inr ⟨rfl, rfl, rfl⟩
      | cons k inner => exact .inl ⟨inner, rfl, rfl⟩
  | false =>
      cases hopen : t.is "\x7b" with
      | true => exact .inl ⟨n :: inner, rfl, rfl⟩
      | false => exact .inl ⟨inner, rfl, rfl⟩

/-- Where no front of the tokens behind an opening brace closes more than it opens, the brace is
still open, and so are those around it and as many more as were opened and not closed. -/
theorem openAt_of_keepsOpen (hget : tokens[i]? = some t) (hopen : t.is "\x7b" = true) (hin : i < n)
    (hn : n ≤ tokens.length) (h : KeepsOpen (tokensBetween tokens i n)) :
    ∃ inner, openAt tokens n = inner ++ i :: openAt tokens i ∧
      inner.length + closingBraces (tokensBetween tokens i n)
        = openingBraces (tokensBetween tokens i n) := by
  induction n, hin using Nat.le_induction with
  | base =>
      refine ⟨[], ?_, ?_⟩
      · rw [openAt_succ hget, if_pos hopen, List.nil_append]
      · rw [tokensBetween_next]
        rfl
  | succ n hin ih =>
      have hgetn : tokens[n]? = some tokens[n] := List.getElem?_eq_getElem hn
      rw [tokensBetween_succ hin hgetn, keepsOpen_concat] at h
      obtain ⟨hkeeps, hwhole⟩ := h
      obtain ⟨inner, hopened, hlength⟩ := ih (Nat.le_of_succ_le hn) hkeeps
      rw [openingBraces_append, closingBraces_append] at hwhole
      rw [tokensBetween_succ hin hgetn, openingBraces_append, closingBraces_append]
      rcases openAt_succ_above hgetn hopened with ⟨inner', hnext, hlength'⟩ | ⟨rfl, hcloses, -⟩
      · exact ⟨inner', hnext, by omega⟩
      · rw [List.length_nil] at hlength
        omega

/-- Behind an opening brace that is still open, no front closes more braces than it opens. -/
theorem keepsOpen_of_mem_openAt (hget : tokens[i]? = some t) (hopen : t.is "\x7b" = true)
    (hn : n ≤ tokens.length) (h : i ∈ openAt tokens n) : KeepsOpen (tokensBetween tokens i n) := by
  induction n with
  | zero => exact absurd h List.not_mem_nil
  | succ n ih =>
      rcases mem_openAt_of_succ h with hmem | rfl
      · have hin := lt_of_mem_openAt hmem
        have hgetn : tokens[n]? = some tokens[n] := List.getElem?_eq_getElem hn
        have hkeeps := ih (Nat.le_of_succ_le hn) hmem
        obtain ⟨inner, hopened, hlength⟩ :=
          openAt_of_keepsOpen hget hopen hin (Nat.le_of_succ_le hn) hkeeps
        rw [tokensBetween_succ hin hgetn, keepsOpen_concat, openingBraces_append,
          closingBraces_append]
        refine ⟨hkeeps, ?_⟩
        rcases openAt_succ_above hgetn hopened with ⟨inner', -, hlength'⟩ | ⟨-, -, hnext⟩
        · omega
        · rw [hnext] at h
          exact absurd (lt_of_mem_openAt h) (Nat.lt_irrefl i)
      · rw [tokensBetween_next]
        exact keepsOpen_nil

/-- An opening brace is the innermost open one exactly where the tokens behind it are balanced. -/
theorem head_openAt_iff (hget : tokens[i]? = some t) (hopen : t.is "\x7b" = true) (hin : i < n)
    (hn : n ≤ tokens.length) :
    (openAt tokens n).head? = some i ↔ Balanced (tokensBetween tokens i n) := by
  constructor
  · intro hhead
    have hkeeps := keepsOpen_of_mem_openAt hget hopen hn (List.mem_of_head? hhead)
    obtain ⟨inner, hopened, hlength⟩ := openAt_of_keepsOpen hget hopen hin hn hkeeps
    cases inner with
    | nil =>
        rw [List.length_nil, Nat.zero_add] at hlength
        exact ⟨hlength.symm, hkeeps⟩
    | cons k inner =>
        -- the braces opened since stand behind the one at `i`, so it is none of them
        have hsorted := pairwise_openAt tokens n
        rw [hopened] at hsorted hhead
        cases hhead
        have hlt :=
          List.rel_of_pairwise_cons hsorted (List.mem_append_right inner List.mem_cons_self)
        exact absurd hlt (Nat.lt_irrefl _)
  · rintro ⟨heven, hkeeps⟩
    obtain ⟨inner, hopened, hlength⟩ := openAt_of_keepsOpen hget hopen hin hn hkeeps
    obtain rfl : inner = [] := List.length_eq_zero_iff.mp (by omega)
    rw [hopened]
    rfl

/-! ## Pairs -/

/-- The table has the pairs of a closing brace and the innermost brace that is open at it. -/
theorem closers_eq_some_iff_head : (closers tokens)[i]? = some (some j) ↔
    tokens[j]?.any (·.is "\x7d") = true ∧ (openAt tokens j).head? = some i := by
  rw [← Option.join_eq_some_iff, Option.any_eq_true]
  constructor
  · exact fun h => ⟨is_of_closers h, head_openAt_of_closers h⟩
  · rintro ⟨⟨u, hu, hclose⟩, hhead⟩
    exact closers_of_head_openAt hu hclose hhead

theorem encloses_iff_head : Encloses tokens i j ↔
    tokens[j]?.any (·.is "\x7d") = true ∧ (openAt tokens j).head? = some i := by
  have hlength : tokens[j]?.any (·.is "\x7d") = true → j ≤ tokens.length := by
    intro hcloses
    obtain ⟨u, hu, -⟩ := (Option.any_eq_true _ _).mp hcloses
    exact Nat.le_of_lt (List.getElem?_eq_some_iff.mp hu).1
  constructor
  · rintro ⟨hopens, hcloses, hlt, hbetween⟩
    obtain ⟨t, hget, hopen⟩ := (Option.any_eq_true _ _).mp hopens
    exact ⟨hcloses, (head_openAt_iff hget hopen hlt (hlength hcloses)).mpr hbetween⟩
  · rintro ⟨hcloses, hhead⟩
    have hmem := List.mem_of_head? hhead
    have hlt := lt_of_mem_openAt hmem
    obtain ⟨t, hget, hopen⟩ := is_of_mem_openAt hmem
    exact ⟨(Option.any_eq_true _ _).mpr ⟨t, hget, hopen⟩, hcloses, hlt,
      (head_openAt_iff hget hopen hlt (hlength hcloses)).mp hhead⟩

theorem closers_eq_some_iff_encloses :
    (closers tokens)[i]? = some (some j) ↔ Encloses tokens i j :=
  closers_eq_some_iff_head.trans encloses_iff_head.symm

/-- A pair that starts behind the start of another one stands behind it or inside it. -/
theorem closers_nested (h : (closers tokens)[i]? = some (some j))
    (h' : (closers tokens)[i']? = some (some j')) (hlt : i < i') : j < i' ∨ j' < j := by
  by_contra hcrossing
  have hne : i' ≠ j := by
    rintro rfl
    have hopens := (closers_eq_some_iff_encloses.mp h').opens
    obtain ⟨u, hu, hclose⟩ := is_of_closers (Option.join_eq_some_iff.mpr h)
    rw [hu, Option.any_some, not_opens_of_closes hclose] at hopens
    cases hopens
  -- the second brace is still open where the first one is the innermost
  have hmem : i' ∈ openAt tokens j :=
    mem_openAt_of_closers (Option.join_eq_some_iff.mpr h') (by omega) (by omega)
  obtain ⟨outer, houter⟩ := List.head?_eq_some_iff.mp (closers_eq_some_iff_head.mp h).2
  have hsorted := pairwise_openAt tokens j
  rw [houter] at hmem hsorted
  rcases List.mem_cons.mp hmem with rfl | hmem
  · exact Nat.lt_irrefl _ hlt
  · exact Nat.lt_asymm hlt (List.rel_of_pairwise_cons hsorted hmem)

theorem closers_injective (h : (closers tokens)[i]? = some (some j))
    (h' : (closers tokens)[i']? = some (some j)) : i = i' := by
  have hhead := (closers_eq_some_iff_head.mp h).2
  rw [(closers_eq_some_iff_head.mp h').2] at hhead
  exact (Option.some.inj hhead).symm

/-! ## Braces that close nothing -/

/-- A closing brace that belongs to no opening one. -/
structure Stray (tokens : List Token) (k : Nat) : Prop where
  closes : tokens[k]?.any (·.is "\x7d") = true
  unmatched : ∀ i : Nat, (closers tokens)[i]? ≠ some (some k)

/-- Where a token stands that is at `i` once the one at `k` is left out. -/
def past (k i : Nat) : Nat := if i < k then i else i + 1

theorem past_of_lt (h : i < k) : past k i = i := if_pos h

theorem past_of_le (h : k ≤ i) : past k i = i + 1 := if_neg (Nat.not_lt.mpr h)

theorem past_injective (k : Nat) : Function.Injective (past k) := by
  intro i j h
  unfold past at h
  split at h <;> split at h <;> omega

theorem getElem?_past (tokens : List Token) (k i : Nat) :
    tokens[past k i]? = (tokens.eraseIdx k)[i]? := by
  rw [List.getElem?_eraseIdx, past]
  split <;> rfl

namespace Stray

theorem openAt_eq_nil (h : Stray tokens k) : openAt tokens k = [] := by
  rw [← List.head?_eq_none_iff, Option.eq_none_iff_forall_ne_some]
  exact fun i hhead => h.unmatched i (closers_eq_some_iff_head.mpr ⟨h.closes, hhead⟩)

/-- The same braces are open at every token without a stray closing brace. -/
theorem openAt_past (h : Stray tokens k) (n : Nat) :
    openAt tokens (past k n) = (openAt (tokens.eraseIdx k) n).map (past k) := by
  have hfront : ∀ {n}, n ≤ k → openAt (tokens.eraseIdx k) n = openAt tokens n := by
    intro n hn
    rw [openAt, List.take_eraseIdx_eq_take_of_le _ _ _ hn, openAt]
  rcases Nat.lt_or_ge n k with hn | hn
  · have hpast : ∀ i ∈ openAt tokens n, past k i = i := fun i hi =>
      past_of_lt (Nat.lt_trans (lt_of_mem_openAt hi) hn)
    rw [hfront (Nat.le_of_lt hn), past_of_lt hn, List.map_congr_left hpast, List.map_id']
  · induction n, hn using Nat.le_induction with
    | base =>
        obtain ⟨u, hu, hclose⟩ := (Option.any_eq_true _ _).mp h.closes
        rw [past_of_le (Nat.le_refl k), openAt_succ hu, not_opens_of_closes hclose, hclose,
          hfront (Nat.le_refl k), h.openAt_eq_nil]
        rfl
    | succ n hn ih =>
        have hsame := getElem?_past tokens k n
        have hnext : past k (n + 1) = past k n + 1 := by
          rw [past_of_le hn, past_of_le (Nat.le_succ_of_le hn)]
        rw [hnext]
        cases hget : (tokens.eraseIdx k)[n]? with
        | none => rw [openAt_succ_of_none hget, openAt_succ_of_none (hsame.trans hget), ih]
        | some t =>
            rw [openAt_succ hget, openAt_succ (hsame.trans hget), ih]
            split
            · rfl
            · split
              · rw [List.map_tail]
              · rfl

/-- The pairs are the same without a stray closing brace. -/
theorem closers_past (h : Stray tokens k) :
    (closers (tokens.eraseIdx k))[i]? = some (some j) ↔
      (closers tokens)[past k i]? = some (some (past k j)) := by
  rw [closers_eq_some_iff_head, closers_eq_some_iff_head, getElem?_past, h.openAt_past,
    List.head?_map, ← Option.map_some, (Option.map_injective (past_injective k)).eq_iff]

end Stray

/-- The table of closing braces is bracket matching: it has a place for every token, and at an
opening brace the closing brace with which it encloses balanced tokens.  So pairs nest without
crossing, no closing brace is in two of them, and one that is in none disturbs none: without it
the pairs are the same. -/
theorem braces_matched (tokens : List Token) :
    (closers tokens).size = tokens.length ∧
    (∀ i j : Nat, (closers tokens)[i]? = some (some j) ↔ Encloses tokens i j) ∧
    (∀ i j i' j' : Nat, (closers tokens)[i]? = some (some j) →
      (closers tokens)[i']? = some (some j') → i < i' → j < i' ∨ j' < j) ∧
    (∀ i i' j : Nat, (closers tokens)[i]? = some (some j) →
      (closers tokens)[i']? = some (some j) → i = i') ∧
    ∀ k, Stray tokens k → ∀ i j : Nat, (closers (tokens.eraseIdx k))[i]? = some (some j) ↔
      (closers tokens)[past k i]? = some (some (past k j)) := by
  refine ⟨size_closers tokens, ?_, ?_, ?_, ?_⟩
  · exact fun i j => closers_eq_some_iff_encloses
  · exact fun i j i' j' h h' hlt => closers_nested h h' hlt
  · exact fun i i' j h h' => closers_injective h h'
  · exact fun k hstray i j => hstray.closers_past

theorem braces_matched_stray :
    let tokens := ["\x7b", "\x7b", "\x7d", "\x7d", "\x7d", "\x7b", "\x7d"].map fun text =>
      (⟨.punctuation, text, 0, " ", 0, false⟩ : Token)
    (closers tokens)[0]? = some (some 3) ∧ (closers tokens)[1]? = some (some 2) ∧
      Stray tokens 4 ∧ (closers tokens)[5]? = some (some 6) ∧
      (closers (tokens.eraseIdx 4))[4]? = some (some 5) := by
  intro tokens
  obtain ⟨-, hpairs, -, -, hleftOut⟩ := braces_matched tokens
  have hlast : (closers tokens)[5]? = some (some 6) := (hpairs 5 6).mpr (by decide)
  have hstray : Stray tokens 4 := by
    refine ⟨by decide, fun i h => ?_⟩
    have hencloses := (hpairs i 4).mp h
    exact absurd hencloses ((by decide : ∀ i < 4, ¬Encloses tokens i 4) i hencloses.lt)
  exact ⟨(hpairs 0 3).mpr (by decide), (hpairs 1 2).mpr (by decide), hstray, hlast,
    (hleftOut 4 hstray 4 5).mpr hlast⟩

end Beautifier.Matching
