/-
Positions in a statement.

Inserted braces have no position: the positions are those of the tokens of the
source.  A statement tree tells where each `else` stands and where the
statement in front of it starts (`Tree.branches`), and taking inserted blocks
away does not change that.  In a list of tokens that is read as the tree, the
tokens of that statement stand there, and as many inserted braces are opened
among them as are closed (`Parses.uses`).
-/
import Beautifier.Proofs.Insertion.Statement

namespace Beautifier.Grammar

namespace Tree

/-- The number of tokens, inserted braces not counted. -/
def size : Tree → Nat
  | simple _ => 2
  | label _ s => 2 + s.size
  | ifThen _ s => 4 + s.size
  | ifElse _ s s' => 4 + s.size + 1 + s'.size
  | whileDo _ s => 4 + s.size
  | block inserted ss => ss.size + if inserted then 0 else 2
  | done => 0
  | next s ss => s.size + ss.size

/-- For each `else`, the positions of the statement in front of it and of itself, if the first
token stands at `n`.  Inserted braces have no position. -/
def branches (n : Nat) : Tree → List (Nat × Nat)
  | simple _ => []
  | label _ s => s.branches (n + 2)
  | ifThen _ s => s.branches (n + 4)
  | ifElse _ s s' =>
      (n + 4, n + 4 + s.size) :: s.branches (n + 4) ++ s'.branches (n + 4 + s.size + 1)
  | whileDo _ s => s.branches (n + 4)
  | block inserted ss => ss.branches (n + if inserted then 0 else 1)
  | done => []
  | next s ss => s.branches n ++ ss.branches (n + s.size)

theorem lt_of_mem_branches {s : Tree} {n start last : Nat} (h : (start, last) ∈ s.branches n) :
    last < n + s.size := by
  induction s generalizing n with
  | simple | done => cases h
  | label _ _ ih | ifThen _ _ ih | whileDo _ _ ih =>
      have := ih h
      simp only [size]
      omega
  | ifElse _ s s' ih ih' =>
      simp only [branches, List.cons_append, List.mem_cons, List.mem_append] at h
      simp only [size]
      rcases h with heq | h | h
      · cases heq
        omega
      · have := ih h
        omega
      · have := ih' h
        omega
  | block inserted ss ih =>
      have := ih h
      cases inserted <;> simp only [size] <;> simp at this ⊢ <;> omega
  | next s ss ih ih' =>
      simp only [branches, List.mem_append] at h
      simp only [size]
      rcases h with h | h
      · have := ih h
        omega
      · have := ih' h
        omega

theorem size_unwrap (ss : Tree) : ss.unwrap.size = ss.size := by
  unfold unwrap
  split <;> simp [size]

theorem branches_unwrap (ss : Tree) (n : Nat) : ss.unwrap.branches n = ss.branches n := by
  unfold unwrap
  split <;> simp [branches]

theorem size_dissolve (s : Tree) : s.dissolve.size = s.size := by
  induction s with
  | block inserted ss ih =>
      cases inserted with
      | true => exact (size_unwrap _).trans ih
      | false => simp only [dissolve, size, ih]
  | _ => simp only [dissolve, size, *]

theorem branches_dissolve (s : Tree) (n : Nat) : s.dissolve.branches n = s.branches n := by
  induction s generalizing n with
  | block inserted ss ih =>
      cases inserted with
      | true => exact (branches_unwrap _ n).trans (ih n)
      | false => simp only [dissolve, branches, ih]
  | _ => simp only [dissolve, branches, size_dissolve, *]

end Tree

variable {part : Part} {ts rest : List Token} {s s' : Tree}

/-! ## Inserted braces in a statement -/

def opens (t : Token) : Bool := t.inserted && t.is "\x7b"

def closes (t : Token) : Bool := t.inserted && t.is "\x7d"

/-- The number of tokens of the source in a list. -/
def own (ts : List Token) : Nat := ts.countP (!·.inserted)

/-- As many inserted braces open as close. -/
def Balanced (ts : List Token) : Prop := ts.countP opens = ts.countP closes

/-- The tokens from a position up to an `else` that the source holds, as they stand in `used`,
are balanced.  The first token of the source in `used` has the position `n`. -/
def Splits (used : List Token) (n start last : Nat) : Prop :=
  ∃ before branch behind, used = before ++ branch ++ behind ∧ n + own before = start ∧
    start + own branch = last ∧ Balanced branch ∧
    ∃ keyword, behind.head? = some keyword ∧ keyword.inserted = false

theorem own_append (ts us : List Token) : own (ts ++ us) = own ts + own us := List.countP_append

theorem own_cons {t : Token} (h : t.inserted = false) : own (t :: ts) = own ts + 1 :=
  List.countP_cons_of_pos (by rw [h]; rfl)

theorem Balanced.append {ts us : List Token} (h : Balanced ts) (h' : Balanced us) :
    Balanced (ts ++ us) := by
  rw [Balanced, List.countP_append, List.countP_append, h, h']

theorem own_eq_length (h : ∀ t ∈ ts, t.inserted = false) : own ts = ts.length :=
  List.countP_eq_length.mpr fun t ht => by rw [h t ht]; rfl

theorem balanced_of_own (h : ∀ t ∈ ts, t.inserted = false) : Balanced ts := by
  have hopens : ts.countP opens = 0 :=
    List.countP_eq_zero.mpr fun t ht => by rw [opens, h t ht]; exact Bool.false_ne_true
  have hcloses : ts.countP closes = 0 :=
    List.countP_eq_zero.mpr fun t ht => by rw [closes, h t ht]; exact Bool.false_ne_true
  rw [Balanced, hopens, hcloses]

variable {used : List Token} {n start last : Nat}

theorem Splits.append_left {front : List Token} (h : Splits used (n + own front) start last) :
    Splits (front ++ used) n start last := by
  obtain ⟨before, branch, behind, rfl, hstart, hrest⟩ := h
  refine ⟨front ++ before, branch, behind, ?_, ?_, hrest⟩
  · simp only [List.append_assoc]
  · rw [own_append, ← hstart, Nat.add_assoc]

theorem Splits.append_right (back : List Token) (h : Splits used n start last) :
    Splits (used ++ back) n start last := by
  obtain ⟨before, branch, behind, rfl, hstart, hlast, hbalanced, keyword, hhead, hkeyword⟩ := h
  refine ⟨before, branch, behind ++ back, ?_, hstart, hlast, hbalanced, keyword, ?_, hkeyword⟩
  · simp only [List.append_assoc]
  · rw [List.head?_append, hhead]
    rfl

/-- The tokens of a statement with the inserted braces in it. -/
structure Uses (s : Tree) (used : List Token) : Prop where
  own : own used = s.size
  balanced : Balanced used
  branches : ∀ n start last, (start, last) ∈ s.branches n → Splits used n start last

theorem Uses.around {front back : List Token} (h : Uses s used)
    (hsize : s'.size = Grammar.own front + s.size + Grammar.own back)
    (hbalanced : Balanced (front ++ back))
    (hbranches : ∀ n, s'.branches n = s.branches (n + Grammar.own front)) :
    Uses s' (front ++ used ++ back) where
  own := by rw [own_append, own_append, h.own, hsize]
  balanced := by
    have hused := h.balanced
    simp only [Balanced, List.countP_append] at hused hbalanced ⊢
    omega
  branches := by
    intro n start last hmem
    rw [hbranches] at hmem
    exact (h.branches _ start last hmem).append_left.append_right back

theorem Uses.next {s₁ s₂ : Tree} {used₁ used₂ : List Token} (h₁ : Uses s₁ used₁)
    (h₂ : Uses s₂ used₂) : Uses (.next s₁ s₂) (used₁ ++ used₂) where
  own := by rw [own_append, h₁.own, h₂.own, Tree.size]
  balanced := h₁.balanced.append h₂.balanced
  branches := by
    intro n start last hmem
    rcases List.mem_append.mp hmem with hmem | hmem
    · exact (h₁.branches n start last hmem).append_right used₂
    · rw [← h₁.own] at hmem
      exact (h₂.branches _ start last hmem).append_left

theorem Uses.ifElse {front : List Token} {keyword : Token} {c : String} {s₁ s₂ : Tree}
    {used₁ used₂ : List Token} (h₁ : Uses s₁ used₁) (h₂ : Uses s₂ used₂)
    (hlength : front.length = 4) (hfront : ∀ t ∈ front, t.inserted = false)
    (hkeyword : keyword.inserted = false) :
    Uses (.ifElse c s₁ s₂) (front ++ used₁ ++ keyword :: used₂) where
  own := by
    rw [own_append, own_append, own_eq_length hfront, hlength, h₁.own, Grammar.own,
      List.countP_cons_of_pos (by rw [hkeyword]; rfl), ← Grammar.own, h₂.own, Tree.size]
    omega
  balanced := by
    have hsingle : Balanced [keyword] := balanced_of_own (by simpa using hkeyword)
    have hfrontBalanced := balanced_of_own hfront
    exact (hfrontBalanced.append h₁.balanced).append (hsingle.append h₂.balanced)
  branches := by
    intro n start last hmem
    have hown : Grammar.own front = 4 := (own_eq_length hfront).trans hlength
    rw [Tree.branches, List.cons_append] at hmem
    rcases List.mem_cons.mp hmem with heq | hmem
    · cases heq
      exact ⟨front, used₁, keyword :: used₂, rfl, by rw [hown], by rw [h₁.own], h₁.balanced,
        keyword, rfl, hkeyword⟩
    rcases List.mem_append.mp hmem with hmem | hmem
    · rw [← hown] at hmem
      exact (h₁.branches _ start last hmem).append_left.append_right _
    · have hsum : n + 4 + s₁.size + 1 = n + Grammar.own (front ++ used₁ ++ [keyword]) := by
        rw [own_append, own_append, hown, h₁.own, own_eq_length (by simpa using hkeyword),
          List.length_singleton]
        omega
      rw [hsum] at hmem
      have hsplits := (h₂.branches _ start last hmem).append_left
      rwa [List.append_assoc _ [keyword]] at hsplits

/-- The only tokens that are inserted are braces. -/
def InsertsBraces (ts : List Token) : Prop :=
  ∀ t ∈ ts, t.inserted = true → t.is "\x7b" = true ∨ t.is "\x7d" = true

theorem insertsBraces_cons {t : Token} :
    InsertsBraces (t :: ts) ↔
      (t.inserted = true → t.is "\x7b" = true ∨ t.is "\x7d" = true) ∧ InsertsBraces ts :=
  List.forall_mem_cons

theorem InsertsBraces.right {us : List Token} (h : InsertsBraces (ts ++ us)) : InsertsBraces us :=
  fun t ht => h t (List.mem_append_right ts ht)

theorem not_inserted_of_terminal {t : Token} {text : String}
    (h : t.inserted = true → t.is "\x7b" = true ∨ t.is "\x7d" = true)
    (hterminal : terminal t = text) (htext : text ≠ "\x7b" ∧ text ≠ "\x7d") :
    t.inserted = false := by
  apply Bool.eq_false_iff.mpr
  intro hinserted
  rcases h hinserted with hopen | hclose
  · exact htext.1 (hterminal.symm.trans (terminal_is hopen))
  · exact htext.2 (hterminal.symm.trans (terminal_is hclose))

theorem Condition.exists_front {keyword c : String} {body : List Token}
    (h : Condition keyword ts c body) (hkeyword : keyword ∈ ["if", "else", "while"])
    (hts : InsertsBraces ts) :
    ∃ front, ts = front ++ body ∧ front.length = 4 ∧ ∀ t ∈ front, t.inserted = false := by
  cases h with
  | @mk header opened name closed _ hheader hopened hname hclosed =>
      simp only [insertsBraces_cons] at hts
      obtain ⟨h1, h2, h3, h4, -⟩ := hts
      refine ⟨[header, opened, name, closed], rfl, rfl, ?_⟩
      have hword : keyword ≠ "\x7b" ∧ keyword ≠ "\x7d" := by
        constructor <;> (rintro rfl; exact absurd hkeyword (by decide))
      simp only [List.forall_mem_cons]
      exact ⟨not_inserted_of_terminal h1 (terminal_isWord hheader hkeyword) hword,
        not_inserted_of_terminal h2 (terminal_is hopened) (by decide),
        not_inserted_of_terminal h3 hname.terminal (by decide),
        not_inserted_of_terminal h4 (terminal_is hclosed) (by decide), by simp⟩

theorem InsertsBraces.source_pair {name mark : Token} {text : String}
    (h : InsertsBraces (name :: mark :: ts)) (hname : IsName name) (hmark : mark.is text)
    (htext : text ≠ "\x7b" ∧ text ≠ "\x7d") : ∀ t ∈ [name, mark], t.inserted = false := by
  simp only [insertsBraces_cons] at h
  simp only [List.forall_mem_cons]
  exact ⟨not_inserted_of_terminal h.1 hname.terminal (by decide),
    not_inserted_of_terminal h.2.1 (terminal_is hmark) htext, by simp⟩

theorem Uses.source (hused : ∀ t ∈ used, t.inserted = false) (hsize : used.length = s.size)
    (hbranches : ∀ n, s.branches n = []) : Uses s used where
  own := (own_eq_length hused).trans hsize
  balanced := balanced_of_own hused
  branches := by
    intro n start last hmem
    rw [hbranches] at hmem
    cases hmem

theorem Uses.behind {front : List Token} {k : Nat} (h : Uses s used) (hk : front.length = k)
    (hfront : ∀ t ∈ front, t.inserted = false) (hsize : s'.size = k + s.size)
    (hbranches : ∀ n, s'.branches n = s.branches (n + k)) : Uses s' (front ++ used) := by
  rw [← hk, ← own_eq_length hfront] at hsize hbranches
  have hbalanced : Balanced (front ++ []) := (List.append_nil front).symm ▸ balanced_of_own hfront
  have haround : Uses s' (front ++ used ++ []) := h.around hsize hbalanced hbranches
  rwa [List.append_nil] at haround

theorem Uses.block {opened closed : Token} (h : Uses s used) (hopened : opened.is "\x7b")
    (hclosed : closed.is "\x7d") (hpair : closed.inserted = opened.inserted) :
    Uses (.block opened.inserted s) ([opened] ++ used ++ [closed]) := by
  have hopens : opened.is "\x7d" = false :=
    Bool.eq_false_iff.mpr fun h => absurd (is_unique hopened h) (by decide)
  have hcloses : closed.is "\x7b" = false :=
    Bool.eq_false_iff.mpr fun h => absurd (is_unique hclosed h) (by decide)
  refine h.around ?_ ?_ ?_
  · cases hinserted : opened.inserted <;> simp [Grammar.own, Tree.size, hpair, hinserted]
    omega
  · cases hinserted : opened.inserted <;>
      simp [Balanced, opens, closes, hpair, hinserted, hopened, hclosed, hopens, hcloses]
  · intro n
    cases hinserted : opened.inserted <;> simp [Grammar.own, Tree.branches, hinserted]

theorem Parses.uses (h : Parses part ts s rest) (hts : InsertsBraces ts) :
    ∃ used, ts = used ++ rest ∧ Uses s used := by
  induction h with
  | @simple name semicolon rest hname hsemicolon =>
      have hsource := hts.source_pair hname hsemicolon (by decide)
      exact ⟨[name, semicolon], rfl, .source hsource rfl fun _ => rfl⟩
  | @label name colon ts rest s hname hcolon body ih =>
      have hsource := hts.source_pair hname hcolon (by decide)
      simp only [insertsBraces_cons] at hts
      obtain ⟨used, rfl, hused⟩ := ih hts.2.2
      exact ⟨[name, colon] ++ used, rfl, hused.behind rfl hsource rfl fun _ => rfl⟩
  | ifThen hhead _ _ ih =>
      obtain ⟨front, rfl, hlength, hsource⟩ := hhead.exists_front (by decide) hts
      obtain ⟨used, rfl, hused⟩ := ih hts.right
      exact ⟨front ++ used, (List.append_assoc ..).symm,
        hused.behind hlength hsource rfl fun _ => rfl⟩
  | @ifElse ts body other rest keyword c s s' hhead _ helse _ ih ih' =>
      obtain ⟨front, rfl, hlength, hsource⟩ := hhead.exists_front (by decide) hts
      obtain ⟨used, rfl, hused⟩ := ih hts.right
      have hother := hts.right.right
      rw [insertsBraces_cons] at hother
      obtain ⟨used', rfl, hused'⟩ := ih' hother.2
      have hkeyword := not_inserted_of_terminal hother.1 (terminal_isWord helse (by decide))
        (by decide)
      refine ⟨front ++ used ++ keyword :: used', ?_, hused.ifElse hused' hlength hsource hkeyword⟩
      simp only [List.append_assoc, List.cons_append]
  | whileDo hhead _ ih =>
      obtain ⟨front, rfl, hlength, hsource⟩ := hhead.exists_front (by decide) hts
      obtain ⟨used, rfl, hused⟩ := ih hts.right
      exact ⟨front ++ used, (List.append_assoc ..).symm,
        hused.behind hlength hsource rfl fun _ => rfl⟩
  | @block opened closed ts rest ss hopened hinside hclosed hpair ih =>
      obtain ⟨used, rfl, hused⟩ := ih (insertsBraces_cons.mp hts).2
      exact ⟨[opened] ++ used ++ [closed], by simp, hused.block hopened hclosed hpair⟩
  | done hclosed => exact ⟨[], rfl, .source (by simp) rfl fun _ => rfl⟩
  | next hfirst hothers ih ih' =>
      obtain ⟨used, rfl, hused⟩ := ih hts
      obtain ⟨used', rfl, hused'⟩ := ih' hts.right
      exact ⟨used ++ used', (List.append_assoc ..).symm, hused.next hused'⟩

theorem Parses.length (h : Parses part ts s rest) (hts : ∀ t ∈ ts, t.inserted = false) :
    ts.length = s.size + rest.length := by
  have hbraces : InsertsBraces ts := fun t ht hinserted =>
    absurd ((hts t ht).symm.trans hinserted) Bool.false_ne_true
  obtain ⟨used, rfl, hused⟩ := h.uses hbraces
  rw [List.length_append, ← hused.own,
    own_eq_length fun t ht => hts t (List.mem_append_left rest ht)]

end Beautifier.Grammar
