/-
Reading statements with braces around their bodies.

In the tokens of a statement the bodies of its headers are statements too.
Where none of them strays, the tokens with braces around the bodies are read
as the same statement, each body as a block that dissolves into it.  The
induction is on the reading of the tokens (`exists_reads`): a statement takes
its part of the list, and the bodies in it lie in that part.
-/
import Beautifier.Proofs.Insertion.Braced
import Beautifier.Proofs.Insertion.Whole

namespace Beautifier.BraceInsertion

open Grammar

variable {tokens ts rest : List Token} {n e : Nat} {s : Tree} {part : Part}

/-! ## The bodies of the headers of a statement -/

/-- The body that starts a list of tokens, if it is put in braces. -/
def firstBody (n : Nat) (ts : List Token) : List (Nat × Nat) :=
  ((bodyEnd? n ts).map fun last => (n, last)).toList

theorem bodyStart?_of_kind {t : Token} (h : t.kind ≠ .word) : bodyStart? n t ts = none := by
  rw [bodyStart?, if_pos]
  simpa using h

theorem kind_of_is {t : Token} {text : String} (h : t.is text = true) : t.kind = .punctuation := by
  simp only [Token.is, Bool.and_eq_true, beq_iff_eq] at h
  exact h.1

theorem bodyStart?_of_is {t : Token} {text : String} (h : t.is text = true) :
    bodyStart? n t ts = none :=
  bodyStart?_of_kind (kind_of_is h ▸ by decide)

theorem bodyStart?_of_isName {t u : Token} {text : String} (ht : IsName t) (hu : u.is text = true)
    (htext : text ≠ "(") : bodyStart? n t (u :: ts) = none := by
  have helse : t.text ≠ "else" := by
    intro heq
    apply ht.2
    rw [heq]
    decide
  have hparen : u.is "(" = false := Bool.eq_false_iff.mpr fun h => htext (is_unique hu h)
  simp [bodyStart?, seekCode, not_isTrivia_of_is hu, hparen, ht.1, helse]

theorem bodies_of_none {t : Token} (h : bodyStart? (n + 1) t ts = none) :
    bodies n (t :: ts) = bodies (n + 1) ts := by
  rw [bodies, h]
  rfl

theorem seekCode_of_head {t : Token} (hhead : ts.head? = some t) (ht : t.isTrivia = false) :
    seekCode n ts = some (n, ts) := by
  cases ts with
  | nil => cases hhead
  | cons u ts =>
      cases hhead
      rw [seekCode, ht]
      rfl

theorem bodies_of_bodyStart? {t : Token} {start : Nat} {body : List Token}
    (h : bodyStart? (n + 1) t ts = some (start, body)) :
    bodies n (t :: ts) = firstBody start body ++ bodies (n + 1) ts := by
  rw [bodies, h]
  rfl

theorem bodies_condition {keyword c : String} {body : List Token} {t : Token}
    (hhead : Condition keyword ts c body) (hkeyword : keyword ∈ bracedHeaders)
    (hbody : body.head? = some t) (ht : t.isTrivia = false) :
    bodies n ts = firstBody (n + 4) body ++ bodies (n + 4) body := by
  cases hhead with
  | @mk header opened name closed _ hheader hopened hname hclosed =>
      simp only [Token.isWord, Bool.and_eq_true, beq_iff_eq] at hheader
      have hname1 : name.is "(" = false := is_eq_false_of_kind (hname.1 ▸ by decide)
      have hname2 : name.is ")" = false := is_eq_false_of_kind (hname.1 ▸ by decide)
      have hclosed1 : closed.is "(" = false :=
        Bool.eq_false_iff.mpr fun h => absurd (is_unique hclosed h) (by decide)
      have hstart : bodyStart? (n + 1) header (opened :: name :: closed :: body)
          = some (n + 4, body) := by
        simp [bodyStart?, seekCode, behindParen, hheader.1, hheader.2, hkeyword, hopened,
          not_isTrivia_of_is hopened, hname1, hname2, hclosed, hclosed1, seekCode_of_head hbody ht]
      rw [bodies_of_bodyStart? hstart, bodies_of_none (bodyStart?_of_is hopened),
        bodies_of_none (bodyStart?_of_isName hname hclosed (by decide)),
        bodies_of_none (bodyStart?_of_is hclosed)]

theorem bodyEnd?_of_if {t : Token} (hhead : ts.head? = some t) (ht : t.isWord "if" = true) :
    bodyEnd? n ts = none := by
  simp only [Token.isWord, Bool.and_eq_true, beq_iff_eq] at ht
  have halone : standsAlone t = true := by
    simp only [standsAlone, ht.1, ht.2, Bool.or_eq_true, Bool.and_eq_true]
    exact .inr ⟨rfl, by decide⟩
  rw [bodyEnd?, hhead, if_pos (by simpa using halone)]

theorem bodies_else {keyword t : Token} (hkeyword : keyword.isWord "else" = true)
    (hhead : ts.head? = some t) (ht : t.isTrivia = false) :
    bodies n (keyword :: ts) = firstBody (n + 1) ts ++ bodies (n + 1) ts := by
  simp only [Token.isWord, Bool.and_eq_true, beq_iff_eq] at hkeyword
  have hnot : "else" ∉ bracedHeaders := by decide
  cases hif : t.isWord "if" with
  | true =>
      have hstart : bodyStart? (n + 1) keyword ts = none := by
        simp [bodyStart?, hkeyword.1, hkeyword.2, hnot, seekCode_of_head hhead ht, hhead, hif]
      rw [bodies_of_none hstart, firstBody, bodyEnd?_of_if hhead hif]
      rfl
  | false =>
      refine bodies_of_bodyStart? ?_
      simp [bodyStart?, hkeyword.1, hkeyword.2, hnot, seekCode_of_head hhead ht, hhead, hif]

theorem statementEnd_of_bodyEnd? (hcode : ∀ t ∈ tokens, t.isTrivia = false)
    (htokens : tokens.drop n = ts) (h : bodyEnd? n ts = some e) :
    ts.head?.any standsAlone = false ∧ ∃ behind, statementEnd n 0 ts = some (e, behind) := by
  rw [bodyEnd?] at h
  split at h
  · cases h
  next halone =>
  obtain ⟨⟨semicolon, behind⟩, hsemi, hlast⟩ := Option.map_eq_some_iff.mp h
  have hcomment : (behind.head?.any fun t => t.kind == .lineComment && t.lineBreaks == 0)
      = false := by
    have hbehind := (of_statementEnd htokens hsemi).2.2
    cases behind with
    | nil => rfl
    | cons t behind =>
        have ht := hcode t (List.mem_of_mem_drop (hbehind ▸ List.mem_cons_self))
        cases hkind : t.kind <;> simp [Token.isTrivia, hkind] at ht ⊢
  have he : semicolon = e := by simpa [hcomment] using hlast
  exact ⟨Bool.eq_false_iff.mpr halone, behind, he ▸ hsemi⟩

/-! ## Where the bodies lie -/

variable {branches branches' : List (Nat × Nat)} {found inner : List (Nat × Nat)}
  {first first' last last' : Nat}

/-- Bodies in the tokens from `first` up to `last`, in the order of their starts.  Where one of
them strays, the `else` behind it is one of `branches` and belongs to an `if` in the body. -/
structure Placed (tokens : List Token) (branches : List (Nat × Nat)) (first last : Nat)
    (found : List (Nat × Nat)) : Prop where
  within : Within found first last
  ascending : (found.map (·.1)).Pairwise (· ≤ ·)
  strays : ∀ b ∈ found, Strays tokens b →
    ∃ start, (start, b.2 + 1) ∈ branches ∧ b.1 < start ∧ start ≤ b.2

theorem Placed.nil : Placed tokens branches first last [] where
  within := fun _ hb => absurd hb List.not_mem_nil
  ascending := .nil
  strays := fun _ hb => absurd hb List.not_mem_nil

theorem Placed.mono (h : Placed tokens branches first last found) (hbranches : branches ⊆ branches')
    (hfirst : first' ≤ first) (hlast : last ≤ last') :
    Placed tokens branches' first' last' found where
  within := fun b hb => by
    have := h.within b hb
    omega
  ascending := h.ascending
  strays := fun b hb hstrays => by
    obtain ⟨start, hmem, hrest⟩ := h.strays b hb hstrays
    exact ⟨start, hbranches hmem, hrest⟩

theorem Placed.append (h : Placed tokens branches first last found)
    (h' : Placed tokens branches first' last' inner) (hfirst : first ≤ first')
    (hmid : last ≤ first') (hlast : last ≤ last') :
    Placed tokens branches first last' (found ++ inner) where
  within := fun b hb => by
    rcases List.mem_append.mp hb with hb | hb
    · have := h.within b hb
      omega
    · have := h'.within b hb
      omega
  ascending := by
    rw [List.map_append]
    refine List.pairwise_append.mpr ⟨h.ascending, h'.ascending, fun p hp q hq => ?_⟩
    obtain ⟨b, hb, rfl⟩ := List.mem_map.mp hp
    obtain ⟨c, hc, rfl⟩ := List.mem_map.mp hq
    have := h.within b hb
    have := h'.within c hc
    omega
  strays := fun b hb => by
    rcases List.mem_append.mp hb with hb | hb
    · exact h.strays b hb
    · exact h'.strays b hb

/-! ## The tokens read again -/

/-- What may follow other tokens in the place of `rest`. -/
def Continues : Part → List Token → List Token → Prop
  | .statement, rest, next => startsElse next = true → startsElse rest = true
  | .statements, _, next => ∃ closed others, next = closed :: others ∧ closed.is "\x7d" = true

/-- The tokens `seg`, the first of them at `n`, are read as `s` with `rest` behind them, also
with braces around the bodies `found` if none of these strays. -/
structure Reads (tokens : List Token) (part : Part) (s : Tree) (n : Nat) (seg rest : List Token)
    (first : Nat) (found : List (Nat × Nat)) : Prop where
  placed : Placed tokens (s.branches n) first (n + seg.length) found
  parses : (∀ b ∈ found, ¬Strays tokens b) → ∀ next, Continues part rest next →
    ∃ s', Parses part (braced found n seg ++ next) s' next ∧ s'.dissolve = s

/-- A body in braces is read as a block that dissolves into the body. -/
theorem parses_wrap {seg next : List Token} (he : e + 1 = n + seg.length) (hne : n ≤ e) {s' : Tree}
    (h : Parses .statement (braced found n seg ++ closingBrace :: next) s' (closingBrace :: next)) :
    Parses .statement (braced ((n, e) :: found) n seg ++ next) (.block true (.next s' .done))
      next := by
  rw [braced_wrap he hne, List.cons_append, List.cons_append, List.append_assoc]
  exact .block rfl (.next h (.done rfl)) rfl rfl

theorem drop_add {k : Nat} {body behind : List Token} (h : tokens.drop n = body ++ behind)
    (hk : n + body.length = k) : tokens.drop k = behind := by
  rw [← hk, ← List.drop_drop, h, List.drop_left]

theorem strays_iff {body behind : List Token} (h : tokens.drop n = body ++ behind)
    (hlength : n + body.length = e + 1) :
    Strays tokens (n, e) ↔
      startsElse behind = true ∧ ∃ t ∈ body, t.isWord "if" = true := by
  have htake : (tokens.drop n).take (e + 1 - n) = body := by
    rw [h, ← hlength, Nat.add_sub_cancel_left, List.take_left]
  rw [Strays, drop_add h hlength, htake]

/-- The body that a header puts in braces is the statement or strays from it. -/
theorem firstBody_cases {seg : List Token} (hsource : ∀ t ∈ tokens, t.inserted = false)
    (hcode : ∀ t ∈ tokens, t.isTrivia = false) (h : Parses .statement ts s rest)
    (htokens : tokens.drop n = ts) (hts : ts = seg ++ rest) :
    firstBody n ts = [] ∨ ∃ e, firstBody n ts = [(n, e)] ∧ n ≤ e ∧ e < n + seg.length ∧
      (e + 1 = n + seg.length ∧ ¬Strays tokens (n, e) ∨
        Strays tokens (n, e) ∧ ∃ start, (start, e + 1) ∈ s.branches n ∧ n < start ∧ start ≤ e) := by
  cases hend : bodyEnd? n ts with
  | none => exact .inl (by rw [firstBody, hend]; rfl)
  | some e =>
      refine .inr ⟨e, by rw [firstBody, hend]; rfl, ?_⟩
      have hinserted : ∀ t ∈ ts, t.inserted = false := fun t ht =>
        hsource t (List.mem_of_mem_drop (htokens ▸ ht))
      obtain ⟨-, behind, hsemi⟩ := statementEnd_of_bodyEnd? hcode htokens hend
      obtain ⟨body, hbody, hstop⟩ := statementEnd_cases h hinserted hsemi
      have hstrays := strays_iff (htokens.trans hbody) hstop.length
      refine ⟨hstop.le, ?_⟩
      rcases hstop.whole_or_part with ⟨rfl, hnone⟩ | ⟨helse, hif, start, hmem, hlt, hle⟩
      · have hseg : body = seg := List.append_cancel_right (hbody.symm.trans hts)
        have hlength := hstop.length
        rw [hseg] at hlength
        refine ⟨by omega, .inl ⟨hlength.symm, ?_⟩⟩
        rw [hstrays]
        rintro ⟨helse, t, ht, hif⟩
        exact absurd ((hnone helse t ht).symm.trans hif) Bool.false_ne_true
      · have hlast := Tree.lt_of_mem_branches hmem
        have hsize := h.length hinserted
        rw [hts, List.length_append] at hsize
        exact ⟨by omega, .inr ⟨hstrays.mpr ⟨helse, hif⟩, start, hmem, hlt, hle⟩⟩

theorem Reads.body {seg : List Token} (hsource : ∀ t ∈ tokens, t.inserted = false)
    (hcode : ∀ t ∈ tokens, t.isTrivia = false)
    (hreads : Reads tokens .statement s n seg rest (n + 1) found)
    (h : Parses .statement ts s rest) (htokens : tokens.drop n = ts) (hts : ts = seg ++ rest) :
    Reads tokens .statement s n seg rest n (firstBody n ts ++ found) := by
  have hplaced := hreads.placed
  rcases firstBody_cases hsource hcode h htokens hts with
    hnone | ⟨e, hsome, hle, hlt, hcases⟩
  · rw [hnone]
    exact ⟨hplaced.mono (List.Subset.refl _) (Nat.le_succ n) (Nat.le_refl _), hreads.parses⟩
  · rw [hsome]
    refine ⟨⟨?_, ?_, ?_⟩, ?_⟩
    · refine List.forall_mem_cons.mpr ⟨⟨Nat.le_refl n, hle, hlt⟩, fun b hb => ?_⟩
      have := hplaced.within b hb
      omega
    · refine List.pairwise_cons.mpr ⟨fun p hp => ?_, hplaced.ascending⟩
      obtain ⟨b, hb, rfl⟩ := List.mem_map.mp hp
      have := hplaced.within b hb
      show n ≤ b.1
      omega
    · refine List.forall_mem_cons.mpr ⟨fun hstrays => ?_, hplaced.strays⟩
      rcases hcases with ⟨-, hnot⟩ | ⟨-, hstart⟩
      · exact absurd hstrays hnot
      · exact hstart
    · intro hnot next hnext
      obtain ⟨hfirst, hothers⟩ := List.forall_mem_cons.mp hnot
      rcases hcases with ⟨he, -⟩ | ⟨hstrays, -⟩
      · obtain ⟨s', hs', hdissolve⟩ := hreads.parses hothers (closingBrace :: next) (by
          intro helse
          cases helse)
        refine ⟨_, parses_wrap he hle hs', ?_⟩
        show (Tree.next s'.dissolve .done).unwrap = s
        rw [Tree.unwrap, hdissolve]
      · exact absurd hstrays hfirst

theorem Reads.behind_front {s' : Tree} {front seg : List Token} {k : Nat}
    (hreads : Reads tokens .statement s (n + k) seg rest first found) (hk : front.length = k)
    (hfirst : n + 1 ≤ first ∧ n + k ≤ first) (hbranches : s.branches (n + k) ⊆ s'.branches n)
    (hparses : ∀ ts t next, Continues .statement rest next → Parses .statement ts t next →
      t.dissolve = s → ∃ t', Parses .statement (front ++ ts) t' next ∧ t'.dissolve = s') :
    Reads tokens .statement s' n (front ++ seg) rest (n + 1) found where
  placed := by
    refine hreads.placed.mono hbranches hfirst.1 ?_
    rw [List.length_append, hk, Nat.add_assoc]
  parses := by
    intro hnot next hnext
    obtain ⟨t, ht, hdissolve⟩ := hreads.parses hnot next hnext
    rw [braced_behind hk, List.append_assoc]
    · exact hparses _ t next hnext ht hdissolve
    · intro b hb
      have := hreads.placed.within b hb
      omega

theorem Reads.ifElse {c : String} {s₁ s₂ : Tree} {front seg₁ seg₂ other : List Token}
    {keyword : Token} {n₁ n₂ : Nat} {found₁ found₂ : List (Nat × Nat)}
    (h₁ : Reads tokens .statement s₁ n₁ seg₁ (keyword :: other) n₁ found₁)
    (h₂ : Reads tokens .statement s₂ n₂ seg₂ rest n₂ found₂)
    (hfront : front.length = 4) (hn₁ : n₁ = n + 4) (hn₂ : n₂ = n₁ + seg₁.length + 1)
    (hsize : seg₁.length = s₁.size) (helse : keyword.isWord "else" = true)
    (hhead : ∀ body, Condition "if" (front ++ body) c body) :
    Reads tokens .statement (.ifElse c s₁ s₂) n (front ++ (seg₁ ++ keyword :: seg₂)) rest (n + 1)
      (found₁ ++ found₂) where
  placed := by
    have hlast : n + (front ++ (seg₁ ++ keyword :: seg₂)).length = n₂ + seg₂.length := by
      simp only [List.length_append, List.length_cons]
      omega
    have hbranches₁ : s₁.branches n₁ ⊆ (Tree.ifElse c s₁ s₂).branches n := by
      rw [hn₁]
      exact fun p hp => List.mem_append_left _ (List.mem_cons_of_mem _ hp)
    have hbranches₂ : s₂.branches n₂ ⊆ (Tree.ifElse c s₁ s₂).branches n := by
      rw [hn₂, hn₁, hsize]
      exact fun p hp => List.mem_append_right _ hp
    have hplaced₁ := h₁.placed.mono hbranches₁ (show n + 1 ≤ n₁ by omega) (Nat.le_refl _)
    have hplaced₂ := h₂.placed.mono hbranches₂ (Nat.le_refl _) (Nat.le_refl _)
    rw [hlast]
    exact hplaced₁.append hplaced₂ (by omega) (by omega) (by omega)
  parses := by
    intro hnot next hnext
    obtain ⟨t₂, ht₂, hd₂⟩ := h₂.parses (fun b hb => hnot b (List.mem_append_right _ hb)) next hnext
    obtain ⟨t₁, ht₁, hd₁⟩ := h₁.parses (fun b hb => hnot b (List.mem_append_left _ hb))
      (keyword :: (braced found₂ n₂ seg₂ ++ next)) (fun _ => helse)
    refine ⟨.ifElse c t₁ t₂, ?_, by rw [Tree.dissolve, hd₁, hd₂]⟩
    have hfound : ∀ b ∈ found₁ ++ found₂, n + 4 ≤ b.1 ∧ b.1 ≤ b.2 := by
      refine List.forall_mem_append.mpr ⟨fun b hb => ?_, fun b hb => ?_⟩
      · have := h₁.placed.within b hb
        omega
      · have := h₂.placed.within b hb
        omega
    have hbehind : ∀ b ∈ found₂, n₁ + seg₁.length + 1 ≤ b.1 ∧ b.1 ≤ b.2 := by
      intro b hb
      have := h₂.placed.within b hb
      omega
    have hsecond : ∀ b ∈ found₂, n₁ + seg₁.length ≤ b.1 ∧ b.1 ≤ b.2 := fun b hb =>
      ⟨Nat.le_of_succ_le (hbehind b hb).1, (hbehind b hb).2⟩
    have hbraced : braced (found₁ ++ found₂) n (front ++ (seg₁ ++ keyword :: seg₂))
        = front ++ (braced found₁ n₁ seg₁ ++ keyword :: braced found₂ n₂ seg₂) := by
      rw [braced_behind hfront hfound, ← hn₁, braced_append h₁.placed.within hsecond,
        ← List.singleton_append, braced_behind List.length_singleton hbehind, ← hn₂]
      rfl
    rw [hbraced, List.append_assoc, List.append_assoc]
    exact .ifElse (hhead _) ht₁ helse ht₂

theorem Reads.block {opened closed : Token} {seg : List Token}
    (h : Reads tokens .statements s (n + 1) seg (closed :: rest) (n + 1 + 1) found)
    (hopened : opened.is "\x7b" = true) (hclosed : closed.is "\x7d" = true)
    (hinserted : opened.inserted = false) (hpair : closed.inserted = opened.inserted) :
    Reads tokens .statement (.block opened.inserted s) n (opened :: (seg ++ [closed])) rest (n + 1)
      found where
  placed := by
    refine h.placed.mono ?_ (Nat.le_succ _) ?_
    · rw [hinserted]
      exact List.Subset.refl _
    · simp only [List.length_cons, List.length_append]
      omega
  parses := by
    intro hnot next _
    obtain ⟨s', hs', hdissolve⟩ := h.parses hnot (closed :: next) ⟨closed, next, rfl, hclosed⟩
    refine ⟨.block opened.inserted s', ?_, ?_⟩
    · have hfound : ∀ b ∈ found, n + 1 ≤ b.1 ∧ b.1 ≤ b.2 := by
        intro b hb
        have := h.placed.within b hb
        omega
      have hwithin : Within found (n + 1) (n + 1 + seg.length) := by
        intro b hb
        have := h.placed.within b hb
        omega
      rw [← List.singleton_append, braced_behind rfl hfound]
      show Parses _ (opened :: (braced found (n + 1) (seg ++ [closed]) ++ next)) _ next
      rw [braced_before hwithin, List.append_assoc]
      exact .block hopened hs' hclosed hpair
    · rw [hinserted, Tree.dissolve, hdissolve]

theorem Reads.next {s₁ s₂ : Tree} {seg₁ seg₂ others : List Token} {found₁ found₂ : List (Nat × Nat)}
    (h₁ : Reads tokens .statement s₁ n seg₁ others (n + 1) found₁)
    (h₂ : Reads tokens .statements s₂ (n + seg₁.length) seg₂ rest (n + seg₁.length + 1) found₂)
    (hsize : seg₁.length = s₁.size) :
    Reads tokens .statements (.next s₁ s₂) n (seg₁ ++ seg₂) rest (n + 1) (found₁ ++ found₂) where
  placed := by
    have hbranches₁ : s₁.branches n ⊆ (Tree.next s₁ s₂).branches n :=
      List.subset_append_left _ _
    have hbranches₂ : s₂.branches (n + seg₁.length) ⊆ (Tree.next s₁ s₂).branches n := by
      rw [hsize]
      exact List.subset_append_right _ _
    have hplaced₁ := h₁.placed.mono hbranches₁ (Nat.le_refl _) (Nat.le_refl _)
    have hplaced₂ := h₂.placed.mono hbranches₂ (Nat.le_refl _) (Nat.le_refl _)
    rw [List.length_append, ← Nat.add_assoc]
    exact hplaced₁.append hplaced₂ (by omega) (by omega) (by omega)
  parses := by
    intro hnot next hnext
    obtain ⟨t₂, ht₂, hd₂⟩ := h₂.parses (fun b hb => hnot b (List.mem_append_right _ hb)) next hnext
    obtain ⟨t₁, ht₁, hd₁⟩ := h₁.parses (fun b hb => hnot b (List.mem_append_left _ hb))
      (braced found₂ (n + seg₁.length) seg₂ ++ next)
      (fun helse => absurd (ht₂.not_startsElse.symm.trans helse) Bool.false_ne_true)
    refine ⟨.next t₁ t₂, ?_, by rw [Tree.dissolve, hd₁, hd₂]⟩
    have hwithin : Within found₁ n (n + seg₁.length) := by
      intro b hb
      have := h₁.placed.within b hb
      omega
    have hbehind : ∀ b ∈ found₂, n + seg₁.length ≤ b.1 ∧ b.1 ≤ b.2 := by
      intro b hb
      have := h₂.placed.within b hb
      omega
    rw [braced_append hwithin hbehind, List.append_assoc]
    exact .next ht₁ ht₂

/-- The reading of a statement or a list of statements whose first token is at `n`. -/
def HasReads (tokens : List Token) (part : Part) (s : Tree) (n : Nat) (ts rest : List Token) :
    Prop :=
  ∃ seg found, ts = seg ++ rest ∧ bodies n ts = found ++ bodies (n + seg.length) rest ∧
    Reads tokens part s n seg rest (n + 1) found

section

variable (hsource : ∀ t ∈ tokens, t.inserted = false) (hcode : ∀ t ∈ tokens, t.isTrivia = false)

include hsource in
theorem length_of_parses {seg : List Token} (h : Parses part ts s rest)
    (htokens : tokens.drop n = ts) (hts : ts = seg ++ rest) : seg.length = s.size := by
  have hlength := h.length fun t ht => hsource t (List.mem_of_mem_drop (htokens ▸ ht))
  rw [hts, List.length_append] at hlength
  exact Nat.add_right_cancel hlength

include hcode in
theorem exists_code (h : Parses part ts s rest) (htokens : tokens.drop n = ts) :
    ∃ t, ts.head? = some t ∧ t.isTrivia = false := by
  obtain ⟨t, ht⟩ := h.exists_head
  exact ⟨t, ht, hcode t (List.mem_of_mem_drop (htokens ▸ List.mem_of_mem_head? ht))⟩

include hsource hcode in
theorem HasReads.body (hreads : HasReads tokens .statement s n ts rest)
    (h : Parses .statement ts s rest) (htokens : tokens.drop n = ts) :
    ∃ seg found, ts = seg ++ rest ∧
      firstBody n ts ++ bodies n ts = found ++ bodies (n + seg.length) rest ∧
      Reads tokens .statement s n seg rest n found := by
  obtain ⟨seg, found, hts, hbodies, hreads⟩ := hreads
  refine ⟨seg, firstBody n ts ++ found, hts, by rw [hbodies, List.append_assoc], ?_⟩
  exact hreads.body hsource hcode h htokens hts

include hsource hcode in
/-- The condition of a header, with the statement behind it as the body that it puts in braces. -/
theorem HasReads.condition {keyword c : String} {body : List Token}
    (hreads : tokens.drop (n + 4) = body → HasReads tokens .statement s (n + 4) body rest)
    (hhead : Condition keyword ts c body) (hkeyword : keyword ∈ bracedHeaders)
    (h : Parses .statement body s rest) (htokens : tokens.drop n = ts) :
    ∃ front seg found, ts = front ++ (seg ++ rest) ∧ body = seg ++ rest ∧ front.length = 4 ∧
      (∀ body', Condition keyword (front ++ body') c body') ∧ tokens.drop (n + 4) = body ∧
      bodies n ts = found ++ bodies (n + 4 + seg.length) rest ∧
      Reads tokens .statement s (n + 4) seg rest (n + 4) found := by
  obtain ⟨header, front, rfl, -, hlength, -, hhead'⟩ := hhead.exists_four
  have hfour : (header :: front).length = 4 := by rw [List.length_cons, hlength]
  have hdrop : tokens.drop (n + 4) = body := drop_add htokens (by rw [hfour])
  obtain ⟨t, ht, htcode⟩ := exists_code hcode h hdrop
  obtain ⟨seg, found, rfl, hbodies, hreads⟩ := (hreads hdrop).body hsource hcode h hdrop
  refine ⟨header :: front, seg, found, rfl, rfl, hfour, hhead', hdrop, ?_, hreads⟩
  rw [bodies_condition hhead hkeyword ht htcode, hbodies]

include hsource hcode in
theorem HasReads.header {s' : Tree} {keyword c : String} {body : List Token}
    (hreads : tokens.drop (n + 4) = body → HasReads tokens .statement s (n + 4) body rest)
    (hhead : Condition keyword ts c body) (hkeyword : keyword ∈ bracedHeaders)
    (h : Parses .statement body s rest) (htokens : tokens.drop n = ts)
    (hbranches : s.branches (n + 4) ⊆ s'.branches n)
    (hparses : ∀ {ts' body' : List Token} {t next}, Condition keyword ts' c body' →
      Continues .statement rest next → Parses .statement body' t next → t.dissolve = s →
        ∃ t', Parses .statement ts' t' next ∧ t'.dissolve = s') :
    HasReads tokens .statement s' n ts rest := by
  obtain ⟨front, seg, found, rfl, -, hfour, hhead', -, hbodies, hreads⟩ :=
    HasReads.condition hsource hcode hreads hhead hkeyword h htokens
  refine ⟨front ++ seg, found, (List.append_assoc ..).symm, ?_,
    hreads.behind_front hfour (by omega) hbranches fun ts t next => hparses (hhead' ts)⟩
  rw [hbodies, List.length_append, hfour, Nat.add_assoc]

theorem HasReads.simple {name semicolon : Token} (hname : IsName name)
    (hsemicolon : semicolon.is ";" = true) :
    HasReads tokens .statement (.simple name.text) n (name :: semicolon :: rest) rest := by
  refine ⟨[name, semicolon], [], rfl, ?_, .nil, fun _ next _ => ?_⟩
  · rw [bodies_of_none (bodyStart?_of_isName hname hsemicolon (by decide)),
      bodies_of_none (bodyStart?_of_is hsemicolon)]
    rfl
  · rw [braced_nil]
    exact ⟨_, .simple hname hsemicolon, rfl⟩

theorem HasReads.label {name colon : Token} (hname : IsName name) (hcolon : colon.is ":" = true)
    (hreads : HasReads tokens .statement s (n + 2) ts rest) :
    HasReads tokens .statement (.label name.text s) n (name :: colon :: ts) rest := by
  obtain ⟨seg, found, rfl, hbodies, hreads⟩ := hreads
  refine ⟨[name, colon] ++ seg, found, rfl, ?_, hreads.behind_front rfl (by omega)
    (List.Subset.refl _) fun ts t next _ ht hdissolve => ?_⟩
  · have hlength : n + ([name, colon] ++ seg).length = n + 2 + seg.length := by
      rw [List.length_append, Nat.add_assoc]
      rfl
    rw [bodies_of_none (bodyStart?_of_isName hname hcolon (by decide)),
      bodies_of_none (bodyStart?_of_is hcolon), hlength]
    exact hbodies
  · exact ⟨_, .label hname hcolon ht, by rw [Tree.dissolve, hdissolve]⟩

include hsource hcode in
theorem HasReads.ifElse {c : String} {s₁ s₂ : Tree} {keyword : Token} {body other : List Token}
    (hreads : tokens.drop (n + 4) = body →
      HasReads tokens .statement s₁ (n + 4) body (keyword :: other))
    (hhead : Condition "if" ts c body) (h : Parses .statement body s₁ (keyword :: other))
    (htokens : tokens.drop n = ts) (helse : keyword.isWord "else" = true)
    (hreads' : ∀ {k}, tokens.drop k = other → HasReads tokens .statement s₂ k other rest)
    (h' : Parses .statement other s₂ rest) :
    HasReads tokens .statement (.ifElse c s₁ s₂) n ts rest := by
  obtain ⟨front, seg, found, rfl, rfl, hfour, hhead', hdrop, hbodies, hreads⟩ :=
    HasReads.condition hsource hcode hreads hhead (by decide) h htokens
  have hsize := length_of_parses hsource h hdrop rfl
  have hdrop' : tokens.drop (n + 4 + seg.length + 1) = other := by
    rw [← List.drop_drop, drop_add hdrop rfl]
    rfl
  obtain ⟨t, ht, htcode⟩ := exists_code hcode h' hdrop'
  obtain ⟨seg', found', rfl, hbodies', hreads'⟩ := (hreads' hdrop').body hsource hcode h' hdrop'
  refine ⟨front ++ (seg ++ keyword :: seg'), found ++ found', by simp, ?_,
    hreads.ifElse hreads' hfour rfl rfl hsize helse hhead'⟩
  have hlast : n + (front ++ (seg ++ keyword :: seg')).length
      = n + 4 + seg.length + 1 + seg'.length := by
    simp only [List.length_append, List.length_cons, hfour]
    omega
  rw [hbodies, bodies_else helse ht htcode, hbodies', hlast, List.append_assoc]

theorem HasReads.block {opened closed : Token} (hopened : opened.is "\x7b" = true)
    (hclosed : closed.is "\x7d" = true) (hinserted : opened.inserted = false)
    (hpair : closed.inserted = opened.inserted)
    (hreads : HasReads tokens .statements s (n + 1) ts (closed :: rest)) :
    HasReads tokens .statement (.block opened.inserted s) n (opened :: ts) rest := by
  obtain ⟨seg, found, rfl, hbodies, hreads⟩ := hreads
  refine ⟨opened :: (seg ++ [closed]), found, by simp, ?_,
    hreads.block hopened hclosed hinserted hpair⟩
  have hlast : n + (opened :: (seg ++ [closed])).length = n + 1 + seg.length + 1 := by
    simp only [List.length_cons, List.length_append, List.length_nil]
    omega
  rw [bodies_of_none (bodyStart?_of_is hopened), hbodies,
    bodies_of_none (bodyStart?_of_is hclosed), hlast]

include hsource hcode in
theorem hasReads (h : Parses part ts s rest) (htokens : tokens.drop n = ts) :
    HasReads tokens part s n ts rest := by
  induction h generalizing n with
  | simple hname hsemicolon => exact .simple hname hsemicolon
  | label hname hcolon hbody ih =>
      refine .label hname hcolon (ih ?_)
      rw [← List.drop_drop, htokens]
      rfl
  | ifThen hhead hbody hrest ih =>
      refine .header hsource hcode ih hhead (by decide) hbody htokens (List.Subset.refl _)
        fun hhead' hnext ht hdissolve => ?_
      have hnot : startsElse _ = false := Bool.eq_false_iff.mpr fun helse =>
        absurd (hrest.symm.trans (hnext helse)) Bool.false_ne_true
      exact ⟨_, .ifThen hhead' ht hnot, by rw [Tree.dissolve, hdissolve]⟩
  | ifElse hhead hbody helse hother ih ih' =>
      exact .ifElse hsource hcode ih hhead hbody htokens helse ih' hother
  | whileDo hhead hbody ih =>
      exact .header hsource hcode ih hhead (by decide) hbody htokens (List.Subset.refl _)
        fun hhead' _ ht hdissolve => ⟨_, .whileDo hhead' ht, by rw [Tree.dissolve, hdissolve]⟩
  | @block opened closed ts rest ss hopened hinside hclosed hpair ih =>
      have hinserted : opened.inserted = false :=
        hsource opened (List.mem_of_mem_drop (htokens ▸ List.mem_cons_self))
      refine .block hopened hclosed hinserted hpair (ih ?_)
      rw [← List.drop_drop, htokens]
      rfl
  | @done closed rest hclosed =>
      refine ⟨[], [], rfl, rfl, .nil, fun _ next hnext => ?_⟩
      obtain ⟨closed', others, rfl, hclosed'⟩ := hnext
      exact ⟨_, .done hclosed', rfl⟩
  | next hfirst hothers ih ih' =>
      obtain ⟨seg, found, rfl, hbodies, hreads⟩ := ih htokens
      have hsize := length_of_parses hsource hfirst htokens rfl
      obtain ⟨seg', found', rfl, hbodies', hreads'⟩ := ih' (drop_add htokens rfl)
      refine ⟨seg ++ seg', found ++ found', (List.append_assoc ..).symm, ?_,
        hreads.next hreads' hsize⟩
      rw [hbodies, hbodies', List.length_append, Nat.add_assoc, List.append_assoc]

include hsource in
/-- The bodies in the tokens of a statement, and the tokens read again. -/
theorem reads_tokens (h : Parses .statement tokens s []) :
    Reads tokens .statement s 0 tokens [] 1 (bodies 0 tokens) := by
  have hcode := h.not_isTrivia fun _ ht => absurd ht List.not_mem_nil
  obtain ⟨seg, found, htokens, hbodies, hreads⟩ := hasReads hsource hcode h (List.drop_zero ..)
  rw [List.append_nil] at htokens
  subst htokens
  rw [bodies, List.append_nil] at hbodies
  rwa [hbodies]

include hsource in
theorem insertBraces_eq_braced (h : Parses .statement tokens s []) :
    insertBraces tokens = braced (bodies 0 tokens) 0 tokens := by
  have hascending := (reads_tokens hsource h).placed.ascending
  exact (insertBraces_eq_weave_iff hsource).mpr ((starts_ascend_iff tokens).mp hascending)

end

end Beautifier.BraceInsertion
