/-
Putting the bodies of headers in braces.

`weave` says where the braces belong: each body has an opening brace directly
in front of its first token and a closing brace directly behind its last.
What is put in instead comes from two queues that are merged with the tokens
in one pass (`insertAt`), and a queue is read to its end only if it is sorted.

The closing braces are sorted first.  The opening braces stay in the order of
their headers, which is that of their positions unless a header stands in the
condition of another one.  So the braces lie where they belong exactly if none
does (`wraps_insertBraces_iff`).
-/
import Mathlib.Data.List.Sort
import Beautifier.Token.Stream
import Beautifier.Proofs.Insertion.Bodies
import Beautifier.Proofs.Token.Partition

namespace Beautifier.BraceInsertion

/-- The tokens with an opening brace in front of each position of `starts` and a closing brace
behind each position of `ends`. -/
def weave (starts ends : List Nat) (position : Nat) : List Token → List Token
  | [] => []
  | t :: rest =>
      List.replicate (starts.count position) openingBrace
        ++ t :: (List.replicate (ends.count position) closingBrace
          ++ weave starts ends (position + 1) rest)

/-- A list of tokens with the bodies of its headers in braces. -/
structure Wraps (tokens out : List Token) : Prop where
  /-- Without the inserted tokens the list is what it was. -/
  erased : out.filter (!·.inserted) = tokens
  /-- The inserted tokens are the braces around the bodies. -/
  wrapped : out = weave ((bodies 0 tokens).map (·.1)) ((bodies 0 tokens).map (·.2)) 0 tokens
  /-- No two bodies share an opening brace. -/
  apart : ((bodies 0 tokens).map (·.1)).Nodup
  /-- No front of the list closes more than it opens. -/
  nested : ∀ front, front <+: out → front.count closingBrace ≤ front.count openingBrace
  balanced : out.count closingBrace = out.count openingBrace

variable {tokens ts : List Token} {opens closes starts ends : List Nat} {n : Nat}

theorem ne_openingBrace {t : Token} (h : t.inserted = false) : t ≠ openingBrace := by
  rintro rfl
  cases h

theorem ne_closingBrace {t : Token} (h : t.inserted = false) : t ≠ closingBrace := by
  rintro rfl
  cases h

theorem openingBrace_ne_closingBrace : openingBrace ≠ closingBrace := by
  decide

/-! ## Erasing -/

/-- Whatever the queues hold, the tokens stay and keep their order. -/
theorem filter_insertAt (h : ∀ t ∈ ts, t.inserted = false) :
    (insertAt n opens closes ts).filter (!·.inserted) = ts := by
  induction ts generalizing n opens closes with
  | nil => rfl
  | cons t ts ih =>
      have ht : (!t.inserted) = true := by rw [h t List.mem_cons_self]; rfl
      have hput : ∀ (ps : List Nat) (b : Token), b.inserted = true →
          (ps.map fun _ => b).filter (!·.inserted) = [] := by
        intro ps b hb
        rw [List.filter_eq_nil_iff]
        intro u hu
        obtain ⟨_, _, rfl⟩ := List.mem_map.mp hu
        simp [hb]
      simp only [insertAt, List.filter_append, List.filter_cons, ht, if_true]
      rw [hput _ openingBrace rfl, hput _ closingBrace rfl,
        ih fun u hu => h u (List.mem_cons_of_mem _ hu)]
      rfl

/-! ## Sorted queues -/

theorem exists_front (hsorted : opens.Pairwise (· ≤ ·)) (hge : ∀ p ∈ opens, n ≤ p) :
    ∃ later, opens = List.replicate (opens.count n) n ++ later ∧
      later.Pairwise (· ≤ ·) ∧ ∀ p ∈ later, n + 1 ≤ p := by
  induction opens with
  | nil => exact ⟨[], rfl, .nil, by simp⟩
  | cons p opens ih =>
      obtain ⟨hle, htail⟩ := List.pairwise_cons.mp hsorted
      rcases Nat.eq_or_lt_of_le (hge p List.mem_cons_self) with rfl | hlt
      · obtain ⟨later, heq, hlater, hgt⟩ := ih htail hle
        refine ⟨later, ?_, hlater, hgt⟩
        rw [List.count_cons_self, List.replicate_succ, List.cons_append, ← heq]
      · have hgt : ∀ q ∈ p :: opens, n + 1 ≤ q := by
          intro q hq
          rcases List.mem_cons.mp hq with rfl | hq
          · exact hlt
          · exact Nat.le_trans hlt (hle q hq)
        refine ⟨p :: opens, ?_, hsorted, hgt⟩
        have hzero : (p :: opens).count n = 0 := by
          rw [List.count_eq_zero]
          intro hmem
          exact absurd (hgt n hmem) (Nat.not_succ_le_self n)
        rw [hzero, List.replicate_zero, List.nil_append]

theorem takeWhile_front {later : List Nat} (k : Nat) (hgt : ∀ p ∈ later, n + 1 ≤ p) :
    (List.replicate k n ++ later).takeWhile (· == n) = List.replicate k n ∧
      (List.replicate k n ++ later).dropWhile (· == n) = later := by
  have hfront : ∀ p ∈ List.replicate k n, (p == n) = true := by
    intro p hp
    rw [(List.mem_replicate.mp hp).2, beq_self_eq_true]
  rw [List.takeWhile_append_of_pos hfront, List.dropWhile_append_of_pos hfront]
  cases later with
  | nil => simp
  | cons p later =>
      have hne : (p == n) = false := by
        have := hgt p List.mem_cons_self
        simp only [beq_eq_false_iff_ne]
        omega
      simp [hne]

/-- Sorted queues put each brace where it belongs. -/
theorem insertAt_eq_weave (hopens : opens.Pairwise (· ≤ ·)) (hcloses : closes.Pairwise (· ≤ ·))
    (ho : ∀ p ∈ opens, n ≤ p) (hc : ∀ p ∈ closes, n ≤ p)
    (hstarts : ∀ p, n ≤ p → starts.count p = opens.count p)
    (hends : ∀ p, n ≤ p → ends.count p = closes.count p) :
    insertAt n opens closes ts = weave starts ends n ts := by
  induction ts generalizing n opens closes with
  | nil => rfl
  | cons t ts ih =>
      obtain ⟨opens', hoeq, hopens', ho'⟩ := exists_front hopens ho
      obtain ⟨closes', hceq, hcloses', hc'⟩ := exists_front hcloses hc
      obtain ⟨hotake, hodrop⟩ := takeWhile_front (opens.count n) ho'
      obtain ⟨hctake, hcdrop⟩ := takeWhile_front (closes.count n) hc'
      rw [← hoeq] at hotake hodrop
      rw [← hceq] at hctake hcdrop
      -- behind the position the fronts of the queues count for nothing
      have hlater : ∀ (queue later : List Nat), queue = List.replicate (queue.count n) n ++ later →
          ∀ p, n + 1 ≤ p → queue.count p = later.count p := by
        intro queue later heq p hp
        have hne : (n == p) = false := by simp only [beq_eq_false_iff_ne]; omega
        rw [heq, List.count_append, List.count_replicate, hne]
        simp
      have htail : insertAt (n + 1) opens' closes' ts = weave starts ends (n + 1) ts := by
        apply ih hopens' hcloses' ho' hc'
        · intro p hp
          rw [hstarts p (Nat.le_of_succ_le hp), hlater opens opens' hoeq p hp]
        · intro p hp
          rw [hends p (Nat.le_of_succ_le hp), hlater closes closes' hceq p hp]
      simp only [insertAt, weave]
      rw [hotake, hodrop, hctake, hcdrop, htail, hstarts n (Nat.le_refl n),
        hends n (Nat.le_refl n), List.map_replicate, List.map_replicate, List.append_assoc]
      rfl

/-! ## Counting braces -/

theorem countP_le_eq (ps : List Nat) (n : Nat) :
    ps.countP (n ≤ ·) = ps.count n + ps.countP (n + 1 ≤ ·) := by
  induction ps with
  | nil => rfl
  | cons p ps ih =>
      rw [List.countP_cons, List.countP_cons, List.count_cons, ih]
      simp only [decide_eq_true_eq, beq_iff_eq]
      split <;> split <;> split <;> omega

theorem countP_le_eq_zero {ps : List Nat} (h : ∀ p ∈ ps, p < n) : ps.countP (n ≤ ·) = 0 := by
  rw [List.countP_eq_zero]
  intro p hp
  have := h p hp
  simp only [decide_eq_true_eq]
  omega

theorem countP_zero_le (ps : List Nat) : ps.countP (0 ≤ ·) = ps.length := by
  rw [List.countP_eq_length]
  intro p _
  exact decide_eq_true (Nat.zero_le p)

theorem count_weave_opening (hts : ∀ t ∈ ts, t.inserted = false)
    (hrange : ∀ p ∈ starts, p < n + ts.length) :
    (weave starts ends n ts).count openingBrace = starts.countP (n ≤ ·) := by
  induction ts generalizing n with
  | nil => exact (countP_le_eq_zero hrange).symm
  | cons t ts ih =>
      have ht := ne_openingBrace (hts t List.mem_cons_self)
      have htail := ih (n := n + 1) (fun u hu => hts u (List.mem_cons_of_mem _ hu))
        (by simpa [Nat.add_assoc, Nat.add_comm 1] using hrange)
      rw [countP_le_eq, ← htail, weave, List.count_append, List.count_replicate_self,
        List.count_cons_of_ne ht, List.count_append, List.count_replicate,
        if_neg (by decide), Nat.zero_add]

theorem count_weave_closing (hts : ∀ t ∈ ts, t.inserted = false)
    (hrange : ∀ p ∈ ends, p < n + ts.length) :
    (weave starts ends n ts).count closingBrace = ends.countP (n ≤ ·) := by
  induction ts generalizing n with
  | nil => exact (countP_le_eq_zero hrange).symm
  | cons t ts ih =>
      have ht := ne_closingBrace (hts t List.mem_cons_self)
      have htail := ih (n := n + 1) (fun u hu => hts u (List.mem_cons_of_mem _ hu))
        (by simpa [Nat.add_assoc, Nat.add_comm 1] using hrange)
      rw [countP_le_eq, ← htail, weave, List.count_append, List.count_replicate,
        if_neg (by decide), Nat.zero_add, List.count_cons_of_ne ht, List.count_append,
        List.count_replicate_self]

/-- The pass never puts in more opening braces than the queue holds, and it puts in all of them
only if the queue is sorted. -/
theorem count_insertAt (hts : ∀ t ∈ ts, t.inserted = false) :
    (insertAt n opens closes ts).count openingBrace ≤ opens.length ∧
      ((insertAt n opens closes ts).count openingBrace = opens.length →
        opens.Pairwise (· ≤ ·) ∧ ∀ p ∈ opens, n ≤ p) := by
  induction ts generalizing n opens closes with
  | nil =>
      refine ⟨Nat.zero_le _, fun h => ?_⟩
      rw [List.length_eq_zero_iff.mp h.symm]
      exact ⟨.nil, by simp⟩
  | cons t ts ih =>
      have ht := ne_openingBrace (hts t List.mem_cons_self)
      have htail : ∀ u ∈ ts, u.inserted = false := fun u hu => hts u (List.mem_cons_of_mem _ hu)
      obtain ⟨hle, hall⟩ : _ ∧ _ := @ih (opens.dropWhile (· == n)) (closes.dropWhile (· == n))
        (n + 1) htail
      have hcut := List.takeWhile_append_dropWhile (p := (· == n)) (l := opens)
      have hfront : ∀ p ∈ opens.takeWhile (· == n), p = n := by
        intro p hp
        exact eq_of_beq (List.mem_takeWhile_imp (p := (· == n)) hp)
      have hcount : (insertAt n opens closes (t :: ts)).count openingBrace
          = (opens.takeWhile (· == n)).length
            + (insertAt (n + 1) (opens.dropWhile (· == n)) (closes.dropWhile (· == n)) ts).count
                openingBrace := by
        simp only [insertAt, List.map_const', List.count_append, List.count_replicate_self]
        rw [List.count_cons_of_ne ht, List.count_replicate, if_neg (by decide), Nat.add_zero]
      have hlength : opens.length
          = (opens.takeWhile (· == n)).length + (opens.dropWhile (· == n)).length := by
        rw [← List.length_append, hcut]
      refine ⟨by omega, fun h => ?_⟩
      obtain ⟨hsorted, hge⟩ := hall (by omega)
      rw [← hcut]
      constructor
      · refine List.pairwise_append.mpr ⟨?_, hsorted, fun p hp q hq => ?_⟩
        · refine List.Pairwise.imp_of_mem (R := fun _ _ => True) (fun hp hq _ => ?_)
            (List.pairwise_of_forall fun _ _ => trivial)
          rw [hfront _ hp, hfront _ hq]
        · rw [hfront p hp]
          exact Nat.le_of_succ_le (hge q hq)
      · intro p hp
        rcases List.mem_append.mp hp with hp | hp
        · rw [hfront p hp]
        · exact Nat.le_of_succ_le (hge p hp)

/-! ## Balance -/

/-- No front of a list closes more than it opens when `due` braces are open before it. -/
def Nested (due : Nat) (out : List Token) : Prop :=
  ∀ front, front <+: out → front.count closingBrace ≤ front.count openingBrace + due

theorem Nested.nil (due : Nat) : Nested due [] := by
  intro front h
  rw [List.prefix_nil.mp h]
  exact Nat.zero_le _

theorem Nested.cons_of_ne {due : Nat} {t : Token} {out : List Token} (h : Nested due out)
    (hopen : t ≠ openingBrace) (hclose : t ≠ closingBrace) : Nested due (t :: out) := by
  intro front hfront
  rcases List.prefix_cons_iff.mp hfront with rfl | ⟨front, rfl, hrest⟩
  · exact Nat.zero_le _
  · rw [List.count_cons_of_ne hclose, List.count_cons_of_ne hopen]
    exact h front hrest

theorem Nested.replicate_opening {due : Nat} {out : List Token} (k : Nat)
    (h : Nested (due + k) out) : Nested due (List.replicate k openingBrace ++ out) := by
  induction k generalizing due with
  | zero => exact h
  | succ k ih =>
      intro front hfront
      rw [List.replicate_succ, List.cons_append] at hfront
      rcases List.prefix_cons_iff.mp hfront with rfl | ⟨front, rfl, hrest⟩
      · exact Nat.zero_le _
      · have hout : Nested (due + 1 + k) out := by rwa [Nat.add_right_comm]
        have hle := ih hout front hrest
        rw [List.count_cons_self, List.count_cons_of_ne openingBrace_ne_closingBrace]
        omega

theorem Nested.replicate_closing {due : Nat} {out : List Token} (k : Nat)
    (h : Nested due out) : Nested (due + k) (List.replicate k closingBrace ++ out) := by
  induction k with
  | zero => exact h
  | succ k ih =>
      intro front hfront
      rw [List.replicate_succ, List.cons_append] at hfront
      rcases List.prefix_cons_iff.mp hfront with rfl | ⟨front, rfl, hrest⟩
      · exact Nat.zero_le _
      · have hle := ih front hrest
        rw [List.count_cons_self, List.count_cons_of_ne openingBrace_ne_closingBrace.symm]
        omega

/-- The number of bodies that have started before a position and not ended. -/
def due (found : List (Nat × Nat)) (n : Nat) : Nat := found.countP fun b => b.1 < n && n ≤ b.2

theorem due_add_count {found : List (Nat × Nat)} (h : ∀ b ∈ found, b.1 ≤ b.2) (n : Nat) :
    due found n + (found.map (·.1)).count n
      = due found (n + 1) + (found.map (·.2)).count n := by
  induction found with
  | nil => rfl
  | cons b found ih =>
      have hb := h b List.mem_cons_self
      have htail := ih fun c hc => h c (List.mem_cons_of_mem _ hc)
      simp only [due, List.countP_cons, List.map_cons, List.count_cons, Bool.and_eq_true,
        decide_eq_true_eq, beq_iff_eq] at htail ⊢
      split <;> split <;> split <;> split <;> omega

theorem nested_weave {found : List (Nat × Nat)} (hts : ∀ t ∈ ts, t.inserted = false)
    (h : ∀ b ∈ found, b.1 ≤ b.2) :
    Nested (due found n) (weave (found.map (·.1)) (found.map (·.2)) n ts) := by
  induction ts generalizing n with
  | nil => exact .nil _
  | cons t ts ih =>
      have ht := hts t List.mem_cons_self
      have htail := ih (n := n + 1) fun u hu => hts u (List.mem_cons_of_mem _ hu)
      rw [weave]
      apply Nested.replicate_opening
      apply Nested.cons_of_ne _ (ne_openingBrace ht) (ne_closingBrace ht)
      rw [due_add_count h]
      exact htail.replicate_closing _

/-! ## The braces around the bodies -/

theorem wraps_of_eq_weave (hts : ∀ t ∈ tokens, t.inserted = false)
    (h : insertBraces tokens
      = weave ((bodies 0 tokens).map (·.1)) ((bodies 0 tokens).map (·.2)) 0 tokens) :
    Wraps tokens (insertBraces tokens) where
  erased := filter_insertAt hts
  wrapped := h
  apart := nodup_starts tokens
  nested := by
    have hzero : due (bodies 0 tokens) 0 = 0 := by simp [due]
    have hle : ∀ b ∈ bodies 0 tokens, b.1 ≤ b.2 := fun b hb => (mem_bodies hb).1
    have hnested := nested_weave (n := 0) hts hle
    rwa [hzero, ← h] at hnested
  balanced := by
    rw [h, count_weave_opening hts, count_weave_closing hts, countP_zero_le, countP_zero_le,
      List.length_map, List.length_map]
    · intro p hp
      obtain ⟨b, hb, rfl⟩ := List.mem_map.mp hp
      have := mem_bodies hb
      omega
    · intro p hp
      obtain ⟨b, hb, rfl⟩ := List.mem_map.mp hp
      have := mem_bodies hb
      omega

/-- The braces that are put in, with the ends of the bodies in their order. -/
theorem insertBraces_eq_of_perm {ends : List Nat}
    (hends : ((bodies 0 tokens).map (·.2)).Perm ends) (hsorted : ends.Pairwise (· ≤ ·)) :
    insertBraces tokens = insertAt 0 ((bodies 0 tokens).map (·.1)) ends tokens := by
  have hperm := (List.mergeSort_perm ((bodies 0 tokens).map (·.2)) (· ≤ ·)).trans hends
  rw [insertBraces, hperm.eq_of_pairwise' (List.pairwise_mergeSort' (· ≤ ·) _) hsorted]

theorem insertBraces_eq_weave_iff (hts : ∀ t ∈ tokens, t.inserted = false) :
    insertBraces tokens
        = weave ((bodies 0 tokens).map (·.1)) ((bodies 0 tokens).map (·.2)) 0 tokens ↔
      ¬HeaderInCondition tokens := by
  rw [← starts_ascend_iff]
  constructor
  · intro h
    suffices hcount : (insertBraces tokens).count openingBrace
        = ((bodies 0 tokens).map (·.1)).length from ((count_insertAt hts).2 hcount).1
    rw [h, count_weave_opening hts, countP_zero_le]
    intro p hp
    obtain ⟨b, hb, rfl⟩ := List.mem_map.mp hp
    have := mem_bodies hb
    omega
  · intro h
    apply insertAt_eq_weave h
    · exact List.pairwise_mergeSort' (· ≤ ·) _
    · exact fun _ _ => Nat.zero_le _
    · exact fun _ _ => Nat.zero_le _
    · exact fun _ _ => rfl
    · exact fun p _ => ((List.mergeSort_perm _ _).count_eq p).symm

/-- In the tokens of a source the inserted tokens never disturb the others, and they are the
braces around the bodies of the headers exactly if no header with a body to wrap stands in the
condition of another one. -/
theorem wraps_insertBraces_iff (language : Language) (tabWidth : Nat) (source : String) :
    let tokens := (tokenize language tabWidth source).tokens
    (insertBraces tokens).filter (!·.inserted) = tokens ∧
      (Wraps tokens (insertBraces tokens) ↔ ¬HeaderInCondition tokens) := by
  intro tokens
  have hts : ∀ t ∈ tokens, t.inserted = false :=
    (partition_tokenize language tabWidth source).not_inserted
  refine ⟨filter_insertAt hts, ?_⟩
  rw [← insertBraces_eq_weave_iff hts]
  exact ⟨Wraps.wrapped, wraps_of_eq_weave hts⟩

/-- A header in a lambda in a condition: its opening brace waits behind that of the outer body
and is lost, and its closing brace is put in all the same. -/
theorem not_wraps_header_in_lambda :
    ¬Wraps (tokenize .c 4 "if (f([] \x7b if (a) b; \x7d)) c;\n").tokens
      (insertBraces (tokenize .c 4 "if (f([] \x7b if (a) b; \x7d)) c;\n").tokens) := by
  intro h
  have hends : ((bodies 0 (tokenize .c 4 "if (f([] \x7b if (a) b; \x7d)) c;\n").tokens).map
      (·.2)).Perm [12, 17] := by decide +kernel
  have hcounts : (insertBraces (tokenize .c 4 "if (f([] \x7b if (a) b; \x7d)) c;\n").tokens).count
        closingBrace = 2 ∧
      (insertBraces (tokenize .c 4 "if (f([] \x7b if (a) b; \x7d)) c;\n").tokens).count
        openingBrace = 1 := by
    rw [insertBraces_eq_of_perm hends (by decide)]
    decide +kernel
  have hbalanced := h.balanced
  rw [hcounts.1, hcounts.2] at hbalanced
  cases hbalanced

end Beautifier.BraceInsertion
