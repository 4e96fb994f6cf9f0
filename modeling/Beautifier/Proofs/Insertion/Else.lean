/-
What braces around bodies do to an `else`.

Between an `if` and its `else` as many inserted braces open as close, however
the tokens are read.  A body that strays ends between them and starts before
the `if`: it closes a brace there that is not opened there.  So the tokens with
braces are read as the statement they were exactly if no body strays
(`parses_insertBraces_iff`).
-/
import Beautifier.Proofs.Insertion.Reading

namespace Beautifier.BraceInsertion

open Grammar

variable {tokens ts front back : List Token} {starts ends : List Nat} {n e : Nat} {s : Tree}

/-! ## Counting braces in a part -/

/-- The number of positions in a range. -/
def between (ps : List Nat) (first behind : Nat) : Nat :=
  ps.countP fun p => first ≤ p && p < behind

theorem between_self (ps : List Nat) : between ps n n = 0 := by
  rw [between, List.countP_eq_zero]
  intro p _
  simp only [Bool.and_eq_true, decide_eq_true_eq]
  omega

theorem between_succ (ps : List Nat) {behind : Nat} (h : n < behind) :
    between ps n behind = ps.count n + between ps (n + 1) behind := by
  induction ps with
  | nil => rfl
  | cons p ps ih =>
      simp only [between, List.countP_cons, List.count_cons] at ih ⊢
      rw [ih]
      simp only [Bool.and_eq_true, decide_eq_true_eq, beq_iff_eq]
      split <;> split <;> split <;> omega

theorem between_add (ps : List Nat) {middle behind : Nat} (h : n ≤ middle) (h' : middle ≤ behind) :
    between ps n behind = between ps n middle + between ps middle behind := by
  induction ps with
  | nil => rfl
  | cons p ps ih =>
      simp only [between, List.countP_cons] at ih ⊢
      rw [ih]
      simp only [Bool.and_eq_true, decide_eq_true_eq]
      split <;> split <;> split <;> omega

theorem countP_opens_replicate (k : Nat) :
    (List.replicate k openingBrace).countP opens = k ∧
      (List.replicate k openingBrace).countP closes = 0 ∧
      own (List.replicate k openingBrace) = 0 := by
  simp [List.countP_replicate, own, opens, closes, openingBrace, Token.insertedPunctuation,
    Token.is]

theorem countP_closes_replicate (k : Nat) :
    (List.replicate k closingBrace).countP opens = 0 ∧
      (List.replicate k closingBrace).countP closes = k ∧
      own (List.replicate k closingBrace) = 0 := by
  simp [List.countP_replicate, own, opens, closes, closingBrace, Token.insertedPunctuation,
    Token.is]

/-- The braces in the front of a list with braces put in: all that open before the last token of
the front, perhaps some that open behind it, and those that close up to it, perhaps without some
that close behind it. -/
structure Cut (starts ends : List Nat) (n : Nat) (front back : List Token) : Prop where
  opens_ge : between starts n (n + own front) ≤ front.countP opens
  opens_le : front.countP opens ≤ between starts n (n + own front + 1)
  closes_le : front.countP closes ≤ between ends n (n + own front)
  closes_eq : ∀ t, back.head? = some t → t.inserted = false →
    front.countP closes = between ends n (n + own front)

theorem cut_openings {k : Nat} {t : Token} {us : List Token}
    (h : List.replicate (starts.count n) openingBrace = List.replicate k openingBrace ++ us) :
    Cut starts ends n (List.replicate k openingBrace) (us ++ t :: back) := by
  obtain ⟨hlength, -, -⟩ := List.replicate_eq_append_iff.mp h
  rw [List.length_replicate] at hlength
  obtain ⟨hopens, hcloses, hown⟩ := countP_opens_replicate k
  have hcount := between_succ starts (Nat.lt_succ_self n)
  constructor
  · rw [hown, Nat.add_zero, between_self]
    exact Nat.zero_le _
  · rw [hopens, hown, Nat.add_zero, hcount]
    omega
  · rw [hcloses]
    exact Nat.zero_le _
  · intro _ _ _
    rw [hcloses, hown, Nat.add_zero, between_self]

theorem countP_opens_cons {t : Token} (h : t.inserted = false) :
    (t :: ts).countP opens = ts.countP opens :=
  List.countP_cons_of_neg (by rw [opens, h]; exact Bool.false_ne_true)

theorem countP_closes_cons {t : Token} (h : t.inserted = false) :
    (t :: ts).countP closes = ts.countP closes :=
  List.countP_cons_of_neg (by rw [closes, h]; exact Bool.false_ne_true)

theorem cut_closings {k : Nat} {t : Token} {us : List Token} (ht : t.inserted = false)
    (h : List.replicate (ends.count n) closingBrace = List.replicate k closingBrace ++ us) :
    Cut starts ends n
      (List.replicate (starts.count n) openingBrace ++ t :: List.replicate k closingBrace)
      (us ++ back) := by
  obtain ⟨hlength, -, hus⟩ := List.replicate_eq_append_iff.mp h
  rw [List.length_replicate] at hlength
  obtain ⟨hopens, hcloses, hown⟩ := countP_opens_replicate (starts.count n)
  obtain ⟨hopens', hcloses', hown'⟩ := countP_closes_replicate k
  have hstarts := between_succ starts (Nat.lt_succ_self n)
  have hends := between_succ ends (Nat.lt_succ_self n)
  rw [between_self] at hstarts hends
  have hall : own (List.replicate (starts.count n) openingBrace ++
      t :: List.replicate k closingBrace) = 1 := by
    rw [own_append, own_cons ht, hown, hown']
  constructor
  · rw [hall, List.countP_append, countP_opens_cons ht, hopens, hopens', hstarts]
  · rw [hall, List.countP_append, countP_opens_cons ht, hopens, hopens',
      between_add starts (Nat.le_succ n) (by omega), hstarts]
    exact Nat.le_add_right ..
  · rw [hall, List.countP_append, countP_closes_cons ht, hcloses, hcloses', hends]
    omega
  · intro u hu huinserted
    cases us with
    | nil =>
        rw [hall, List.countP_append, countP_closes_cons ht, hcloses, hcloses', hends]
        rw [List.length_nil] at hlength
        omega
    | cons c us =>
        cases hu
        rw [List.length_cons, List.replicate_succ] at hus
        rw [(List.cons.inj hus).1] at huinserted
        cases huinserted

/-- All braces at `n`, and a front of what follows. -/
theorem Cut.cons {t : Token} (ht : t.inserted = false) (h : Cut starts ends (n + 1) front back) :
    Cut starts ends n (List.replicate (starts.count n) openingBrace ++
      t :: (List.replicate (ends.count n) closingBrace ++ front)) back := by
  obtain ⟨hopens, hcloses, hown⟩ := countP_opens_replicate (starts.count n)
  obtain ⟨hopens', hcloses', hown'⟩ := countP_closes_replicate (ends.count n)
  have hpos : n + (own front + 1) = n + 1 + own front := by omega
  have hstarts := between_succ starts (show n < n + 1 + own front by omega)
  have hstarts' := between_succ starts (show n < n + 1 + own front + 1 by omega)
  have hends := between_succ ends (show n < n + 1 + own front by omega)
  obtain ⟨hge, hle, hcle, hceq⟩ := h
  constructor
  all_goals
    simp only [own_append, own_cons ht, List.countP_append, countP_opens_cons ht,
      countP_closes_cons ht, hopens, hcloses, hown, hopens', hcloses', hown', Nat.zero_add, hpos]
  · omega
  · omega
  · omega
  · intro u hu hinserted
    rw [hceq u hu hinserted, hends]

theorem Cut.nil : Cut starts ends n [] back where
  opens_ge := Nat.le_of_eq (between_self starts)
  opens_le := Nat.zero_le _
  closes_le := Nat.zero_le _
  closes_eq := fun _ _ _ => (between_self ends).symm

theorem cut_weave (hts : ∀ t ∈ ts, t.inserted = false)
    (h : weave starts ends n ts = front ++ back) : Cut starts ends n front back := by
  induction ts generalizing n front with
  | nil =>
      obtain ⟨rfl, -⟩ := List.append_eq_nil_iff.mp h.symm
      exact .nil
  | cons t ts ih =>
      obtain ⟨ht, hts⟩ := List.forall_mem_cons.mp hts
      rw [weave] at h
      rcases List.append_eq_append_iff.mp h with ⟨others, rfl, hothers⟩ | ⟨us, hus, rfl⟩
      · rcases List.cons_eq_append_iff.mp hothers with ⟨rfl, rfl⟩ | ⟨others, rfl, hbehind⟩
        · have hnone : List.replicate (starts.count n) openingBrace
              = List.replicate (starts.count n) openingBrace ++ [] := (List.append_nil _).symm
          rw [List.append_nil]
          exact cut_openings hnone
        rcases List.append_eq_append_iff.mp hbehind with ⟨front, rfl, hfront⟩ | ⟨us, hus, rfl⟩
        · exact (ih hts hfront).cons ht
        · obtain ⟨-, hreplicate, -⟩ := List.replicate_eq_append_iff.mp hus
          rw [hreplicate] at hus ⊢
          exact cut_closings ht hus
      · obtain ⟨-, hreplicate, -⟩ := List.replicate_eq_append_iff.mp hus
        rw [hreplicate] at hus ⊢
        exact cut_openings hus

theorem insertsBraces_weave (hts : ∀ t ∈ ts, t.inserted = false) :
    InsertsBraces (weave starts ends n ts) := by
  induction ts generalizing n with
  | nil => exact fun t ht => absurd ht List.not_mem_nil
  | cons u ts ih =>
      obtain ⟨hu, hts⟩ := List.forall_mem_cons.mp hts
      intro t ht hinserted
      rw [weave] at ht
      rcases List.mem_append.mp ht with ht | ht
      · rw [(List.mem_replicate.mp ht).2]
        exact .inl rfl
      rcases List.mem_cons.mp ht with rfl | ht
      · exact absurd (hu.symm.trans hinserted) Bool.false_ne_true
      rcases List.mem_append.mp ht with ht | ht
      · rw [(List.mem_replicate.mp ht).2]
        exact .inr rfl
      · exact ih hts t ht hinserted

/-! ## Bodies inside a body -/

/-- From a token of a statement on, the statement ends at the same semicolon. -/
theorem statementEnd_from {k d : Nat} {behind : List Token}
    (h : statementEnd n d (tokens.drop n) = some (e, behind)) (hnk : n ≤ k) (hke : k ≤ e) :
    ∃ d', statementEnd k d' (tokens.drop k) = some (e, behind) := by
  induction hnk with
  | refl => exact ⟨d, h⟩
  | @step k hnk ih =>
      obtain ⟨d, hd⟩ := ih (Nat.le_of_succ_le hke)
      cases hts : tokens.drop k with
      | nil =>
          rw [hts] at hd
          cases hd
      | cons t ts =>
          have hrest := (drop_eq_cons hts).2
          rw [hts, statementEnd, ← hrest] at hd
          split at hd
          · cases hd
            exact absurd hke (Nat.not_succ_le_self _)
          split at hd
          · cases hd
          · exact ⟨_, hd⟩

theorem le_of_statementEnd {d : Nat} {behind : List Token}
    (h : statementEnd n d ts = some (e, behind)) : n ≤ e := by
  induction ts generalizing n d with
  | nil => cases h
  | cons t ts ih =>
      rw [statementEnd] at h
      split at h
      · cases h
        exact Nat.le_refl _
      split at h
      · cases h
      · exact Nat.le_of_succ_le (ih h)

theorem depthAfter_mono {d d' : Nat} (h : d ≤ d') (t : Token) :
    depthAfter d t ≤ depthAfter d' t := by
  unfold depthAfter
  split
  · omega
  split
  · omega
  · exact h

theorem statementEnd_le {d d' e' : Nat} {behind behind' : List Token} (hd : d ≤ d')
    (h : statementEnd n d ts = some (e, behind)) (h' : statementEnd n d' ts = some (e', behind')) :
    e ≤ e' := by
  induction ts generalizing n d d' with
  | nil => cases h
  | cons t ts ih =>
      have hle := le_of_statementEnd h'
      rw [statementEnd] at h h'
      split at h
      · cases h
        exact hle
      · next hopen =>
        have hopen' : ¬(d' == 0 && t.is ";") = true := by
          intro hend
          simp only [Bool.and_eq_true, beq_iff_eq] at hend hopen
          exact hopen ⟨by omega, hend.2⟩
        rw [if_neg hopen'] at h'
        split at h
        · cases h
        split at h'
        · cases h'
        · exact ih (depthAfter_mono hd t) h h'

theorem of_mem_bodies (hcode : ∀ t ∈ tokens, t.isTrivia = false) {b : Nat × Nat}
    (h : b ∈ bodies 0 tokens) :
    (tokens.drop b.1).head?.any standsAlone = false ∧
      ∃ behind, statementEnd b.1 0 (tokens.drop b.1) = some (b.2, behind) := by
  rw [bodies_eq] at h
  obtain ⟨i, -, hi⟩ := List.mem_filterMap.mp h
  obtain ⟨t, body, -, hstart, hend⟩ := of_bodyAt? hi
  obtain ⟨-, rfl, -⟩ := of_bodyStart? hstart
  exact statementEnd_of_bodyEnd? hcode rfl hend

theorem last_le_last (hcode : ∀ t ∈ tokens, t.isTrivia = false) {b c : Nat × Nat}
    (hb : b ∈ bodies 0 tokens) (hc : c ∈ bodies 0 tokens) (hle : b.1 ≤ c.1) (hle' : c.1 ≤ b.2) :
    c.2 ≤ b.2 := by
  obtain ⟨-, behind, hend⟩ := of_mem_bodies hcode hb
  obtain ⟨-, behind', hend'⟩ := of_mem_bodies hcode hc
  obtain ⟨d, hfrom⟩ := statementEnd_from hend hle hle'
  exact statementEnd_le (Nat.zero_le d) hend' hfrom

theorem start_ne_else (hcode : ∀ t ∈ tokens, t.isTrivia = false) {c : Nat × Nat}
    (hc : c ∈ bodies 0 tokens) : startsElse (tokens.drop c.1) = false := by
  have halone := (of_mem_bodies hcode hc).1
  cases hts : tokens.drop c.1 with
  | nil => rfl
  | cons t ts =>
      apply Bool.eq_false_iff.mpr
      intro helse
      rw [hts] at halone
      simp only [startsElse, List.head?_cons, Option.any_some, Token.isWord, Bool.and_eq_true,
        beq_iff_eq] at helse halone
      have hheader : Keyword.isHeader "else" = true := by decide
      simp [standsAlone, helse.1, helse.2, hheader] at halone

/-! ## The statement read again -/

theorem countP_lt_countP {found : List (Nat × Nat)} {p q : Nat × Nat → Bool} {b : Nat × Nat}
    (h : ∀ c ∈ found, p c = true → q c = true) (hb : b ∈ found) (hp : p b = false)
    (hq : q b = true) : found.countP p < found.countP q := by
  induction found with
  | nil => exact absurd hb List.not_mem_nil
  | cons c found ih =>
      obtain ⟨hc, hfound⟩ := List.forall_mem_cons.mp h
      rcases List.mem_cons.mp hb with rfl | hb
      · rw [List.countP_cons_of_neg (by rw [hp]; exact Bool.false_ne_true),
          List.countP_cons_of_pos hq]
        exact Nat.lt_succ_of_le (List.countP_mono_left hfound)
      · have htail := ih hfound hb
        rw [List.countP_cons, List.countP_cons]
        split
        · next hpc =>
          rw [if_pos (hc hpc)]
          omega
        · omega

/-- A body that strays ends between an `if` and its `else` and starts in front of both: more
bodies end there than start. -/
theorem not_balanced_of_strays (hcode : ∀ t ∈ tokens, t.isTrivia = false) {b : Nat × Nat}
    (hb : b ∈ bodies 0 tokens) (hstrays : Strays tokens b) {start : Nat} (hlt : b.1 < start)
    (hle : start ≤ b.2) :
    between ((bodies 0 tokens).map (·.1)) start (b.2 + 1 + 1)
      < between ((bodies 0 tokens).map (·.2)) start (b.2 + 1) := by
  have hstart : ∀ c ∈ bodies 0 tokens, start ≤ c.1 → c.1 < b.2 + 1 + 1 →
      start ≤ c.2 ∧ c.2 < b.2 + 1 := by
    intro c hc hsc hcb
    have hne : c.1 ≠ b.2 + 1 := by
      intro heq
      have helse := start_ne_else hcode hc
      rw [heq] at helse
      exact absurd (helse.symm.trans hstrays.1) Bool.false_ne_true
    have hlast := last_le_last hcode hb hc (by omega) (by omega)
    have := mem_bodies hc
    omega
  simp only [between, List.countP_map]
  refine countP_lt_countP (fun c hc h => ?_) hb ?_ ?_
  · simp only [Function.comp_apply, Bool.and_eq_true, decide_eq_true_eq] at h ⊢
    exact hstart c hc h.1 h.2
  · have hnot : ¬start ≤ b.1 := Nat.not_le_of_lt hlt
    simp [hnot]
  · simp only [Function.comp_apply, Bool.and_eq_true, decide_eq_true_eq]
    exact ⟨hle, Nat.lt_succ_self _⟩

/-- The tokens of a statement with braces put in are read as that statement, with the inserted
blocks replaced by the statements inside them, exactly if no body that is put in braces strays:
none that holds an `if` is followed by an `else`. -/
theorem parses_insertBraces_iff (hsource : ∀ t ∈ tokens, t.inserted = false)
    (h : Parses .statement tokens s []) :
    (∃ s', Parses .statement (insertBraces tokens) s' [] ∧ s'.dissolve = s) ↔
      ∀ b ∈ bodies 0 tokens, ¬Strays tokens b := by
  have hcode := h.not_isTrivia fun _ ht => absurd ht List.not_mem_nil
  have hreads := reads_tokens hsource h
  rw [insertBraces_eq_braced hsource h]
  constructor
  · rintro ⟨s', hs', rfl⟩ b hb hstrays
    obtain ⟨start, hmem, hlt, hle⟩ := hreads.placed.strays b hb hstrays
    rw [Tree.branches_dissolve] at hmem
    obtain ⟨used, hused, huses⟩ := hs'.uses (insertsBraces_weave hsource)
    rw [List.append_nil] at hused
    obtain ⟨before, branch, behind, hsplit, hbefore, hbranch, hbalanced, keyword, hkeyword,
      hinserted⟩ := huses.branches 0 start (b.2 + 1) hmem
    have hall := hused.trans hsplit
    have hcut := cut_weave hsource hall
    rw [List.append_assoc] at hall
    have hcut' := cut_weave hsource hall
    have hown := own_append before branch
    have hbefore : own before = start := by omega
    have hboth : own (before ++ branch) = b.2 + 1 := by omega
    have hmore := not_balanced_of_strays hcode hb hstrays hlt hle
    have hcloses := hcut.closes_eq keyword hkeyword hinserted
    have hopens := hcut.opens_le
    have hopens' := hcut'.opens_ge
    have hcloses' := hcut'.closes_le
    rw [hboth, Nat.zero_add, List.countP_append] at hcloses hopens
    rw [hbefore, Nat.zero_add] at hcloses' hopens'
    rw [between_add _ (Nat.zero_le start) (by omega)] at hcloses hopens
    rw [Grammar.Balanced] at hbalanced
    omega
  · intro hnot
    obtain ⟨s', hs', hdissolve⟩ := hreads.parses hnot [] (fun helse => helse)
    rw [List.append_nil] at hs'
    exact ⟨s', hs', hdissolve⟩

/-- A token of a source in the same line as the one before. -/
def onLine (kind : TokenKind) (text space : String) (column : Nat) : Token :=
  { kind, text, lineBreaks := 0, space, column, inserted := false }

theorem parses_insertBraces_plain :
    (∃ s', Parses .statement (insertBraces (tokenize .c 4 "if (a) b; else c;\n").tokens) s' [] ∧
        s'.dissolve = .ifElse "a" (.simple "b") (.simple "c")) ↔
      ∀ b ∈ bodies 0 (tokenize .c 4 "if (a) b; else c;\n").tokens,
        ¬Strays (tokenize .c 4 "if (a) b; else c;\n").tokens b := by
  have htokens : (tokenize .c 4 "if (a) b; else c;\n").tokens =
      [onLine .word "if" "" 0, onLine .punctuation "(" " " 3, onLine .word "a" "" 4,
        onLine .punctuation ")" "" 5, onLine .word "b" " " 7, onLine .punctuation ";" "" 8,
        onLine .word "else" " " 10, onLine .word "c" " " 15, onLine .punctuation ";" "" 16] := by
    decide +kernel
  refine parses_insertBraces_iff (partition_tokenize .c 4 _).not_inserted ?_
  rw [htokens]
  exact .ifElse (.mk rfl rfl ⟨rfl, by decide⟩ rfl) (.simple ⟨rfl, by decide⟩ rfl) rfl
    (.simple ⟨rfl, by decide⟩ rfl)

/-- A labelled `if` in the body of another one: the brace that closes the body stands in front of
the `else`, which belongs to the other `if` then. -/
theorem not_parses_insertBraces_label :
    Parses .statement (tokenize .c 4 "if (a) l: if (b) x; else y;\n").tokens
        (.ifThen "a" (.label "l" (.ifElse "b" (.simple "x") (.simple "y")))) [] ∧
      ¬∃ s', Parses .statement
          (insertBraces (tokenize .c 4 "if (a) l: if (b) x; else y;\n").tokens) s' [] ∧
        s'.dissolve = .ifThen "a" (.label "l" (.ifElse "b" (.simple "x") (.simple "y"))) := by
  have hends : ((bodies 0 (tokenize .c 4 "if (a) l: if (b) x; else y;\n").tokens).map (·.2)).Perm
      [11, 11, 14] := by decide +kernel
  have hbraced : insertBraces (tokenize .c 4 "if (a) l: if (b) x; else y;\n").tokens =
      [onLine .word "if" "" 0, onLine .punctuation "(" " " 3, onLine .word "a" "" 4,
        onLine .punctuation ")" "" 5, openingBrace, onLine .word "l" " " 7,
        onLine .punctuation ":" "" 8, onLine .word "if" " " 10, onLine .punctuation "(" " " 13,
        onLine .word "b" "" 14, onLine .punctuation ")" "" 15, openingBrace,
        onLine .word "x" " " 17, onLine .punctuation ";" "" 18, closingBrace, closingBrace,
        onLine .word "else" " " 20, openingBrace, onLine .word "y" " " 25,
        onLine .punctuation ";" "" 26, closingBrace] := by
    rw [insertBraces_eq_of_perm hends (by decide)]
    decide +kernel
  have htokens : (tokenize .c 4 "if (a) l: if (b) x; else y;\n").tokens =
      [onLine .word "if" "" 0, onLine .punctuation "(" " " 3, onLine .word "a" "" 4,
        onLine .punctuation ")" "" 5, onLine .word "l" " " 7, onLine .punctuation ":" "" 8,
        onLine .word "if" " " 10, onLine .punctuation "(" " " 13, onLine .word "b" "" 14,
        onLine .punctuation ")" "" 15, onLine .word "x" " " 17, onLine .punctuation ";" "" 18,
        onLine .word "else" " " 20, onLine .word "y" " " 25, onLine .punctuation ";" "" 26] := by
    decide +kernel
  have hmoved : Parses .statement
      (insertBraces (tokenize .c 4 "if (a) l: if (b) x; else y;\n").tokens)
      (.ifElse "a"
        (.block true (.next (.label "l" (.ifThen "b"
          (.block true (.next (.simple "x") .done)))) .done))
        (.block true (.next (.simple "y") .done))) [] := by
    rw [hbraced]
    exact .ifElse (.mk rfl rfl ⟨rfl, by decide⟩ rfl)
      (.block rfl (.next (.label ⟨rfl, by decide⟩ rfl
        (.ifThen (.mk rfl rfl ⟨rfl, by decide⟩ rfl)
          (.block rfl (.next (.simple ⟨rfl, by decide⟩ rfl) (.done rfl)) rfl rfl) rfl))
        (.done rfl)) rfl rfl) rfl
      (.block rfl (.next (.simple ⟨rfl, by decide⟩ rfl) (.done rfl)) rfl rfl)
  constructor
  · rw [htokens]
    exact .ifThen (.mk rfl rfl ⟨rfl, by decide⟩ rfl) (.label ⟨rfl, by decide⟩ rfl
      (.ifElse (.mk rfl rfl ⟨rfl, by decide⟩ rfl) (.simple ⟨rfl, by decide⟩ rfl) rfl
        (.simple ⟨rfl, by decide⟩ rfl))) rfl
  · rintro ⟨s', hs', hdissolve⟩
    obtain ⟨rfl, -⟩ := hs'.unique hmoved
    exact absurd hdissolve (by decide)

end Beautifier.BraceInsertion
