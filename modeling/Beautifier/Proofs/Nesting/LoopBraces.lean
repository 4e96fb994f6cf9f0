/-
Braces around the bodies of statements with loops.

The bodies that are put in braces are found from left to right.  Those of a list
of tokens are those of its parts (`Embraces.append`), a header adds its own body
if that is a word and a semicolon on one line (`Embraces.header`), and the body
of a `do` is never one of them.  So the tokens with braces spell the statement
that the tokens of the source spell, some of its bodies in braces
(`laidAll_insertBraces`).
-/
import Beautifier.Proofs.Insertion.Reading
import Beautifier.Proofs.Nesting.Loops

namespace Beautifier.Nesting

open BraceInsertion

/-! ## Bodies in a part of the tokens -/

/-- The bodies `found` lie between two positions, in the order of their starts. -/
structure Spread (found : List (Nat × Nat)) (first behind : Nat) : Prop where
  within : Within found first behind
  ascending : (found.map (·.1)).Pairwise (· ≤ ·)

namespace Spread

variable {found inner : List (Nat × Nat)} {first middle behind : Nat}

theorem nil (first behind : Nat) : Spread [] first behind :=
  ⟨fun _ hb => absurd hb List.not_mem_nil, .nil⟩

theorem mono (h : Spread found first behind) {first' behind' : Nat} (hfirst : first' ≤ first)
    (hbehind : behind ≤ behind') : Spread found first' behind' where
  within := fun b hb => by
    have hb := h.within b hb
    omega
  ascending := h.ascending

theorem append (h : Spread found first middle) (h' : Spread inner middle behind)
    (hfirst : first ≤ middle) (hbehind : middle ≤ behind) :
    Spread (found ++ inner) first behind where
  within := List.forall_mem_append.mpr
    ⟨(h.mono (Nat.le_refl _) hbehind).within, (h'.mono hfirst (Nat.le_refl _)).within⟩
  ascending := by
    rw [List.map_append]
    refine List.pairwise_append.mpr ⟨h.ascending, h'.ascending, fun p hp q hq => ?_⟩
    obtain ⟨b, hb, rfl⟩ := List.mem_map.mp hp
    obtain ⟨c, hc, rfl⟩ := List.mem_map.mp hq
    have hb := h.within b hb
    have hc := h'.within c hc
    show b.1 ≤ c.1
    omega

end Spread

/-- With braces around the bodies that are found in them, tokens with the marks `marks` have the
property `P`, whatever code stands behind them. -/
def Embraces (marks : List Mark) (P : List Token → Prop) : Prop :=
  ∀ (n : Nat) (ts rest : List Token), Marked marks ts → (∀ t ∈ rest, t.isTrivia = false) →
    ∃ found, bodies n (ts ++ rest) = found ++ bodies (n + ts.length) rest ∧
      Spread found n (n + ts.length) ∧ P (braced found n ts)

section
variable {marks others : List Mark} {P Q : List Token → Prop} {ts rest : List Token} {t : Token}
  {n : Nat}

theorem Marked.not_isTrivia (h : Marked marks ts) (hplain : ∀ m ∈ marks, m.Plain) :
    ∀ t ∈ ts, t.isTrivia = false :=
  not_isTrivia_of_plain fun t ht => hplain (markOf t) (h.map_eq ▸ List.mem_map_of_mem ht)

namespace Embraces

theorem mono (h : Embraces marks P) (hPQ : ∀ ts, P ts → Q ts) : Embraces marks Q := by
  intro n ts rest hts hrest
  obtain ⟨found, hbodies, hspread, hP⟩ := h n ts rest hts hrest
  exact ⟨found, hbodies, hspread, hPQ _ hP⟩

theorem append (h : Embraces marks P) (h' : Embraces others Q)
    (hplain : ∀ m ∈ others, m.Plain) :
    Embraces (marks ++ others) fun ts => ∃ us vs, ts = us ++ vs ∧ P us ∧ Q vs := by
  intro n ts rest hts hrest
  obtain ⟨us, vs, rfl, hus, hvs⟩ := hts.exists_append
  obtain ⟨found, hbodies, hspread, hP⟩ := h n us (vs ++ rest) hus
    (List.forall_mem_append.mpr ⟨hvs.not_isTrivia hplain, hrest⟩)
  obtain ⟨inner, hbodies', hspread', hQ⟩ := h' (n + us.length) vs rest hvs hrest
  rw [List.length_append, ← Nat.add_assoc]
  refine ⟨found ++ inner, ?_, hspread.append hspread' (by omega) (by omega), _, _, ?_, hP, hQ⟩
  · rw [List.append_assoc, hbodies, hbodies', List.append_assoc]
  · exact braced_append hspread.within fun b hb =>
      ⟨(hspread'.within b hb).1, (hspread'.within b hb).2.1⟩

theorem none (h : ∀ n ts rest, Marked marks ts → (∀ t ∈ rest, t.isTrivia = false) →
    bodies n (ts ++ rest) = bodies (n + ts.length) rest) : Embraces marks (Marked marks) := by
  intro n ts rest hts hrest
  refine ⟨[], h n ts rest hts hrest, .nil _ _, ?_⟩
  rwa [braced_nil]

theorem single {m : Mark} (h : ∀ t, Marked [m] [t] → ∀ n ts, bodyStart? n t ts = Option.none) :
    Embraces [m] (Marked [m]) :=
  none fun n ts rest hts _ => by
    obtain ⟨t, rfl, ht⟩ := hts.exists_single
    exact bodies_of_none (h t ht _ _)

theorem punctuation (mark : String) :
    Embraces [(.punctuation, mark)] (Marked [(.punctuation, mark)]) :=
  single fun _ ht _ _ => bodyStart?_of_is ht.is

end Embraces

/-! ## Words and headers -/

theorem Word.isName {w : Word} (h : Marked [(.word, w.text)] [t]) : Grammar.IsName t := by
  refine ⟨h.kind, ?_⟩
  rw [h.text]
  simp [w.text_ne (show Keyword.isHeader "if" = true by decide),
    w.text_ne (show Keyword.isHeader "else" = true by decide),
    w.text_ne (show Keyword.isHeader "while" = true by decide)]

theorem embraces_do : Embraces [(.word, "do")] (Marked [(.word, "do")]) :=
  .single fun t ht n ts => by
    have hnot : "do" ∉ bracedHeaders := by decide
    simp [bodyStart?, ht.kind, ht.text, hnot]

theorem bodies_simple {w : Word} (h : Marked (Tree.simple w).marks ts) :
    bodies n (ts ++ rest) = bodies (n + ts.length) rest := by
  obtain ⟨t, us, rfl, ht, hus⟩ := h.exists_cons
  obtain ⟨u, rfl, hu⟩ := hus.exists_single
  have hname : bodyStart? (n + 1) t (u :: rest) = none :=
    bodyStart?_of_isName (Word.isName ht) hu.is (by decide)
  rw [List.cons_append, List.singleton_append, bodies_of_none hname,
    bodies_of_none (bodyStart?_of_is hu.is)]
  rfl

theorem condition_of_marked {keyword : String} {w : Word} {front : List Token}
    (h : Marked (conditionMarks keyword w) front) (rest : List Token) :
    Grammar.Condition keyword (front ++ rest) w.text rest := by
  obtain ⟨header, _, rfl, hheader, h⟩ := h.exists_cons
  obtain ⟨opened, _, rfl, hopened, h⟩ := h.exists_cons
  obtain ⟨name, _, rfl, hname, h⟩ := h.exists_cons
  obtain ⟨closed, rfl, hclosed⟩ := h.exists_single
  rw [← show name.text = w.text from hname.text]
  exact .mk hheader.isWord hopened.is (Word.isName hname) hclosed.is

/-- The `while` that closes a loop has no body. -/
theorem embraces_closing (w : Word) :
    Embraces (conditionMarks "while" w ++ [(.punctuation, ";")])
      (Marked (conditionMarks "while" w ++ [(.punctuation, ";")])) :=
  .none fun n ts rest hts _ => by
    obtain ⟨front, back, rfl, hfront, hback⟩ := hts.exists_append
    obtain ⟨semicolon, rfl, hsemicolon⟩ := hback.exists_single
    have halone : standsAlone semicolon = true := by
      simp [standsAlone, Token.isOneOf, hsemicolon.kind, hsemicolon.text]
    have hfirst : firstBody (n + 4) (semicolon :: rest) = [] := by
      rw [firstBody, bodyEnd?, List.head?_cons, Option.any_some, if_pos halone]
      rfl
    rw [List.append_assoc, bodies_condition (condition_of_marked hfront _) (by decide) rfl
      (not_isTrivia_of_is hsemicolon.is), List.singleton_append, hfirst,
      bodies_of_none (bodyStart?_of_is hsemicolon.is), List.length_append, hfront.length_eq]
    rfl

/-! ## Bodies -/

/-- Only a word and a semicolon are put in braces. -/
theorem standsAlone_first {tree : Tree} (h : Marked [tree.first] [t]) :
    standsAlone t = !tree.isSimple := by
  rw [standsAlone, Token.isOneOf, h.kind, h.text]
  cases tree with
  | simple w =>
      have hheader : Keyword.isHeader w.text = false := w.notHeader
      simp [Tree.first, Tree.isSimple, hheader]
  | block => simp [Tree.first, Tree.isSimple]
  | _ =>
      have hheaders : ∀ k ∈ ["if", "while", "do"], Keyword.isHeader k = true := by decide
      simp [Tree.first, Tree.isSimple, hheaders]

/-- The body of a header is found if it is a word and a semicolon on one line. -/
theorem firstBody_cases {body : Tree} (h : Marked body.marks ts)
    (hrest : ∀ t ∈ rest, t.isTrivia = false) : firstBody n (ts ++ rest) = [] ∨
      ∃ w, body = .simple w ∧ firstBody n (ts ++ rest) = [(n, n + 1)] := by
  obtain ⟨others, hmarks⟩ := body.exists_marks
  obtain ⟨t, us, rfl, ht, hus⟩ := (hmarks ▸ h).exists_cons
  have halone := standsAlone_first ht
  cases body with
  | simple w =>
      obtain rfl : [(.punctuation, ";")] = others := (List.cons.inj hmarks).2
      obtain ⟨u, rfl, hu⟩ := hus.exists_single
      have halone : standsAlone t = false := halone
      have hmark : ∀ marks, t.isOneOf marks = false := fun marks => by
        simp [Token.isOneOf, ht.kind, Tree.first]
      have hcomment : (rest.head?.any fun t => t.kind == .lineComment && t.lineBreaks == 0)
          = false := by
        cases rest with
        | nil => rfl
        | cons v rest =>
            have hv := hrest v List.mem_cons_self
            cases hkind : v.kind <;> simp [Token.isTrivia, hkind] at hv ⊢
      cases hline : startsLine (u :: rest) with
      | true =>
          refine .inl ?_
          simp [firstBody, bodyEnd?, halone, statementEnd, hline, ht.kind, Tree.first, Token.is]
      | false =>
          refine .inr ⟨w, rfl, ?_⟩
          have hdepth : depthAfter 0 t = 0 := by simp [depthAfter, hmark]
          simp [firstBody, bodyEnd?, halone, statementEnd, hline, hmark, hdepth, hu.is, hcomment,
            ht.kind, Tree.first, is_eq_false_of_kind]
  | _ =>
      have halone : standsAlone t = true := halone
      refine .inl ?_
      rw [firstBody, bodyEnd?, List.cons_append, List.head?_cons, Option.any_some, if_pos halone]
      rfl

theorem exists_body {body : Tree} (hbody : Embraces body.marks (Laid body))
    (h : Marked body.marks ts) (hrest : ∀ t ∈ rest, t.isTrivia = false) :
    ∃ found braces us, firstBody n (ts ++ rest) ++ bodies n (ts ++ rest)
        = found ++ bodies (n + ts.length) rest ∧ Spread found n (n + ts.length) ∧
      braced found n ts = wrapped braces us ∧ (braces = true → body.isSimple = true) ∧
      Laid body us := by
  rcases firstBody_cases h hrest with hnone | ⟨w, rfl, hsome⟩
  · obtain ⟨found, hbodies, hspread, hlaid⟩ := hbody n ts rest h hrest
    exact ⟨found, false, _, by rw [hnone, hbodies]; rfl, hspread, rfl,
      fun hfalse => absurd hfalse Bool.false_ne_true, hlaid⟩
  · have hlength : ts.length = 2 := h.length_eq
    refine ⟨[(n, n + 1)], true, ts, ?_, ⟨?_, List.pairwise_singleton _ _⟩, ?_, fun _ => rfl,
      .simple h⟩
    · rw [hsome, bodies_simple h]
    · refine List.forall_mem_singleton.mpr ?_
      show n ≤ n ∧ n ≤ n + 1 ∧ n + 1 < n + ts.length
      omega
    · rw [braced_wrap (by omega) (Nat.le_succ n), braced_nil]
      rfl

namespace Embraces

theorem header {keyword : String} (hkeyword : keyword ∈ bracedHeaders) (w : Word) {body : Tree}
    (hbody : Embraces body.marks (Laid body)) :
    Embraces (conditionMarks keyword w ++ body.marks) fun ts => ∃ front braces us,
      ts = front ++ wrapped braces us ∧ Marked (conditionMarks keyword w) front ∧
        (braces = true → body.isSimple = true) ∧ Laid body us := by
  intro n ts rest hts hrest
  obtain ⟨front, vs, rfl, hfront, hvs⟩ := hts.exists_append
  obtain ⟨found, braces, us, hbodies, hspread, hbraced, hbraces, hlaid⟩ :=
    exists_body (n := n + 4) hbody hvs hrest
  have hlength : front.length = 4 := hfront.length_eq
  obtain ⟨others, hmarks⟩ := body.exists_marks
  obtain ⟨t, us', rfl, ht, -⟩ := (hmarks ▸ hvs).exists_cons
  have hcode : t.isTrivia = false :=
    hvs.not_isTrivia body.plain t List.mem_cons_self
  rw [List.length_append, hlength, ← Nat.add_assoc]
  refine ⟨found, ?_, hspread.mono (Nat.le_add_right n 4) (Nat.le_refl _), front, braces, us, ?_,
    hfront, hbraces, hlaid⟩
  · rw [List.append_assoc,
      bodies_condition (condition_of_marked hfront _) hkeyword rfl hcode, hbodies]
  · rw [← hbraced]
    exact braced_behind hlength fun b hb =>
      ⟨(hspread.within b hb).1, (hspread.within b hb).2.1⟩

theorem branch {branch : Tree} (hbranch : Embraces branch.marks (Laid branch)) :
    Embraces ((.word, "else") :: branch.marks) fun ts => ∃ keyword braces us,
      ts = keyword :: wrapped braces us ∧ Marked [(.word, "else")] [keyword] ∧
        (braces = true → branch.isSimple = true) ∧ Laid branch us := by
  intro n ts rest hts hrest
  obtain ⟨keyword, vs, rfl, hkeyword, hvs⟩ := hts.exists_cons
  obtain ⟨found, braces, us, hbodies, hspread, hbraced, hbraces, hlaid⟩ :=
    exists_body (n := n + 1) hbranch hvs hrest
  obtain ⟨others, hmarks⟩ := branch.exists_marks
  obtain ⟨t, us', rfl, ht, -⟩ := (hmarks ▸ hvs).exists_cons
  have hcode : t.isTrivia = false :=
    hvs.not_isTrivia branch.plain t List.mem_cons_self
  have hend : n + (keyword :: t :: us').length = n + 1 + (t :: us').length := by
    rw [List.length_cons]
    omega
  rw [hend]
  refine ⟨found, ?_, hspread.mono (Nat.le_succ n) (Nat.le_refl _), keyword, braces, us, ?_,
    hkeyword, hbraces, hlaid⟩
  · rw [List.cons_append, bodies_else hkeyword.isWord rfl hcode, hbodies]
  · have hkept : braced found n ([keyword] ++ (t :: us'))
        = [keyword] ++ braced found (n + 1) (t :: us') :=
      braced_behind rfl fun b hb => ⟨(hspread.within b hb).1, (hspread.within b hb).2.1⟩
    rw [← hbraced]
    exact hkept

theorem ifElse (w : Word) {body branch : Tree} (hbody : Embraces body.marks (Laid body))
    (hbranch : Embraces branch.marks (Laid branch)) :
    Embraces (Tree.ifElse w body branch).marks (Laid (.ifElse w body branch)) := by
  have hheader : Embraces (conditionMarks "if" w ++ body.marks) _ := .header (by decide) w hbody
  have hparts := hheader.append hbranch.branch
    (List.forall_mem_cons.mpr ⟨plain_keyword (by simp), branch.plain⟩)
  rw [List.append_assoc] at hparts
  refine hparts.mono fun _ hts => ?_
  obtain ⟨_, _, rfl, ⟨front, braces, us, rfl, hfront, hbraces, hlaid⟩,
    keyword, braces', us', rfl, hkeyword, hbraces', hlaid'⟩ := hts
  rw [List.append_assoc]
  exact .ifElse hfront hbraces hlaid hkeyword hbraces' hlaid'

theorem doWhile {body : Tree} (w : Word) (hbody : Embraces body.marks (Laid body)) :
    Embraces (Tree.doWhile body w).marks (Laid (.doWhile body w)) := by
  have hclosing : ∀ m ∈ conditionMarks "while" w ++ [(.punctuation, ";")], m.Plain :=
    List.forall_mem_append.mpr ⟨plain_conditionMarks (by simp) w, by simp [plain_punctuation]⟩
  have hbehind := hbody.append (embraces_closing w) hclosing
  have hparts := embraces_do.append hbehind (List.forall_mem_append.mpr ⟨body.plain, hclosing⟩)
  refine hparts.mono fun _ hts => ?_
  obtain ⟨_, _, rfl, hkeyword, us, closing, rfl, hlaid, hclosing⟩ := hts
  obtain ⟨keyword, rfl, hkeyword⟩ := hkeyword.exists_single
  have hloop : Laid (.doWhile body w) (keyword :: (us ++ closing)) :=
    .doWhile hkeyword hlaid hclosing
  exact hloop

theorem block {body : Trees} (hbody : Embraces body.marks (LaidAll body)) :
    Embraces (Tree.block body).marks (Laid (.block body)) := by
  have hclosed : ∀ m ∈ [((.punctuation, "\x7d") : Mark)], Mark.Plain m := by
    simp [plain_punctuation]
  have hbehind := hbody.append (Embraces.punctuation "\x7d") hclosed
  have hparts := (Embraces.punctuation "\x7b").append hbehind
    (List.forall_mem_append.mpr ⟨body.plain, hclosed⟩)
  refine hparts.mono fun _ hts => ?_
  obtain ⟨_, _, rfl, hopened, us, _, rfl, hlaid, hclosed⟩ := hts
  obtain ⟨opened, rfl, hopened⟩ := hopened.exists_single
  obtain ⟨closed, rfl, hclosed⟩ := hclosed.exists_single
  have hblock : Laid (.block body) (opened :: (us ++ [closed])) :=
    .block hopened hlaid hclosed
  exact hblock

end Embraces

end

/-! ## All statements -/

mutual

/-- With braces around its bodies a statement is laid out. -/
theorem Tree.embraces : ∀ tree : Tree, Embraces tree.marks (Laid tree)
  | .simple w =>
      .mono (.none fun _ _ _ hts _ => bodies_simple hts) fun _ hts => .simple hts
  | .ifThen w body =>
      .mono (.header (by decide) w body.embraces) fun _ hts => by
        obtain ⟨front, braces, us, rfl, hfront, hbraces, hlaid⟩ := hts
        exact .ifThen hfront hbraces hlaid
  | .ifElse w body branch => .ifElse w body.embraces branch.embraces
  | .whileDo w body =>
      .mono (.header (by decide) w body.embraces) fun _ hts => by
        obtain ⟨front, braces, us, rfl, hfront, hbraces, hlaid⟩ := hts
        exact .whileDo hfront hbraces hlaid
  | .doWhile body w => .doWhile w body.embraces
  | .block body => .block body.embraces

theorem Trees.embraces : ∀ trees : Trees, Embraces trees.marks (LaidAll trees)
  | .nil =>
      .mono (.none fun n ts _ hts _ => by rw [Marked.nil_iff.mp hts]; rfl) fun ts hts => by
        rw [Marked.nil_iff.mp hts]
        exact .nil
  | .cons first others =>
      .mono (first.embraces.append others.embraces others.plain) fun _ hts => by
        obtain ⟨us, vs, rfl, hlaid, hothers⟩ := hts
        exact .cons hlaid hothers

end

/-- The tokens of statements with braces put in are laid out. -/
theorem laidAll_insertBraces {trees : Trees} {tokens : List Token}
    (h : Marked trees.marks tokens) : LaidAll trees (insertBraces tokens) := by
  obtain ⟨found, hbodies, hspread, hlaid⟩ :=
    trees.embraces 0 tokens [] h fun _ ht => absurd ht List.not_mem_nil
  rw [List.append_nil, bodies, List.append_nil] at hbodies
  have hbraced : insertBraces tokens = braced found 0 tokens := by
    have hascending := hspread.ascending
    rw [← hbodies, starts_ascend_iff, ← insertBraces_eq_weave_iff h.not_inserted] at hascending
    rw [hascending, hbodies, braced]
  rwa [hbraced]

end Beautifier.Nesting
