/-
Statements with `do` loops.

The statements are those of rows and `do` loops besides.  Nothing is said of the
lines they are written on: a list of tokens spells a statement if its words and
its punctuation are those of the statement.  Where braces are added, the tokens
that are laid out spell it with some of the bodies in braces (`Laid`), and every
other token of it is a token of the source.

Each loop has a place in the source (`Loop`): that of its `do` and that of the
`while` which closes it.
-/
import Beautifier.Proofs.Insertion.Braced
import Beautifier.Proofs.Insertion.Branches
import Beautifier.Proofs.Nesting.RowSteps

namespace Beautifier.Nesting

/-! ## Statements -/

mutual

inductive Tree where
  | simple (w : Word)
  | ifThen (w : Word) (body : Tree)
  | ifElse (w : Word) (body branch : Tree)
  | whileDo (w : Word) (body : Tree)
  | doWhile (body : Tree) (w : Word)
  | block (body : Trees)

inductive Trees where
  | nil
  | cons (first : Tree) (others : Trees)

end

/-- What a token is and its text. -/
abbrev Mark := TokenKind × String

def conditionMarks (keyword : String) (w : Word) : List Mark :=
  [(.word, keyword), (.punctuation, "("), (.word, w.text), (.punctuation, ")")]

mutual

def Tree.marks : Tree → List Mark
  | .simple w => [(.word, w.text), (.punctuation, ";")]
  | .ifThen w body => conditionMarks "if" w ++ body.marks
  | .ifElse w body branch =>
      conditionMarks "if" w ++ (body.marks ++ (.word, "else") :: branch.marks)
  | .whileDo w body => conditionMarks "while" w ++ body.marks
  | .doWhile body w =>
      (.word, "do") :: (body.marks ++ (conditionMarks "while" w ++ [(.punctuation, ";")]))
  | .block body => (.punctuation, "\x7b") :: (body.marks ++ [(.punctuation, "\x7d")])

def Trees.marks : Trees → List Mark
  | .nil => []
  | .cons first others => first.marks ++ others.marks

end

namespace Tree

def isBlock : Tree → Bool
  | block _ => true
  | _ => false

def isIf : Tree → Bool
  | ifThen _ _ | ifElse _ _ _ => true
  | _ => false

def isSimple : Tree → Bool
  | simple _ => true
  | _ => false

end Tree

/-! ## Loops -/

/-- A `do` loop in the tokens of a source. -/
structure Loop where
  /-- Position of its `do`. -/
  start : Nat
  /-- Position of the `while` that closes it. -/
  stop : Nat
  /-- It is the body of a header. -/
  isBody : Bool
  /-- Its own body is a block. -/
  hasBlock : Bool

mutual

/-- The loops of a statement whose first token is at position `n`; `isBody` says that it is the
body of a header. -/
def Tree.loops (n : Nat) (isBody : Bool) : Tree → List Loop
  | .simple _ => []
  | .ifThen _ body | .whileDo _ body => body.loops (n + 4) true
  | .ifElse _ body branch =>
      body.loops (n + 4) true ++ branch.loops (n + 4 + body.marks.length + 1) true
  | .doWhile body _ =>
      ⟨n, n + 1 + body.marks.length, isBody, body.isBlock⟩ :: body.loops (n + 1) true
  | .block body => body.loops (n + 1)

/-- The loops of statements, the first of which starts at position `n`. -/
def Trees.loops (n : Nat) : Trees → List Loop
  | .nil => []
  | .cons first others => first.loops n false ++ others.loops (n + first.marks.length)

end

/-! ## Tokens -/

def markOf (t : Token) : Mark := (t.kind, t.text)

/-- Tokens of the source with the marks `marks`. -/
structure Marked (marks : List Mark) (ts : List Token) : Prop where
  map_eq : ts.map markOf = marks
  not_inserted : ∀ t ∈ ts, t.inserted = false

/-- A body as it stands in the tokens, in added braces or not. -/
def wrapped (braces : Bool) (ts : List Token) : List Token :=
  if braces then BraceInsertion.openingBrace :: (ts ++ [BraceInsertion.closingBrace]) else ts

mutual

/-- The tokens of a statement.  The body of an `if`, `else` or `while` may stand in added braces if
it is a word and a semicolon. -/
inductive Laid : Tree → List Token → Prop
  | simple {w : Word} {ts : List Token} : Marked (Tree.simple w).marks ts → Laid (.simple w) ts
  | ifThen {w : Word} {body : Tree} {front ts : List Token} {braces : Bool} :
      Marked (conditionMarks "if" w) front → (braces = true → body.isSimple = true) →
      Laid body ts → Laid (.ifThen w body) (front ++ wrapped braces ts)
  | ifElse {w : Word} {body branch : Tree} {front ts us : List Token} {keyword : Token}
      {braces braces' : Bool} :
      Marked (conditionMarks "if" w) front → (braces = true → body.isSimple = true) →
      Laid body ts → Marked [(.word, "else")] [keyword] →
      (braces' = true → branch.isSimple = true) → Laid branch us →
      Laid (.ifElse w body branch)
        (front ++ (wrapped braces ts ++ keyword :: wrapped braces' us))
  | whileDo {w : Word} {body : Tree} {front ts : List Token} {braces : Bool} :
      Marked (conditionMarks "while" w) front → (braces = true → body.isSimple = true) →
      Laid body ts → Laid (.whileDo w body) (front ++ wrapped braces ts)
  | doWhile {w : Word} {body : Tree} {keyword : Token} {ts closing : List Token} :
      Marked [(.word, "do")] [keyword] → Laid body ts →
      Marked (conditionMarks "while" w ++ [(.punctuation, ";")]) closing →
      Laid (.doWhile body w) (keyword :: (ts ++ closing))
  | block {body : Trees} {opened closed : Token} {ts : List Token} :
      Marked [(.punctuation, "\x7b")] [opened] → LaidAll body ts →
      Marked [(.punctuation, "\x7d")] [closed] → Laid (.block body) (opened :: (ts ++ [closed]))

inductive LaidAll : Trees → List Token → Prop
  | nil : LaidAll .nil []
  | cons {first : Tree} {others : Trees} {ts us : List Token} :
      Laid first ts → LaidAll others us → LaidAll (.cons first others) (ts ++ us)

end

section
variable {t : Token} {ts us : List Token} {marks others : List Mark} {m : Mark}

namespace Marked

theorem nil_iff : Marked [] ts ↔ ts = [] :=
  ⟨fun h => List.map_eq_nil_iff.mp h.map_eq,
    fun h => h ▸ ⟨rfl, fun _ ht => absurd ht List.not_mem_nil⟩⟩

theorem cons_iff : Marked (m :: marks) (t :: ts) ↔ Marked [m] [t] ∧ Marked marks ts := by
  constructor
  · rintro ⟨hmap, hown⟩
    obtain ⟨hfirst, hothers⟩ := List.forall_mem_cons.mp hown
    exact ⟨⟨congrArg (· :: []) (List.cons.inj hmap).1, by simpa using hfirst⟩,
      (List.cons.inj hmap).2, hothers⟩
  · rintro ⟨⟨hmap, hfirst⟩, hmap', hothers⟩
    exact ⟨congrArg₂ _ (List.cons.inj hmap).1 hmap',
      List.forall_mem_cons.mpr ⟨hfirst t List.mem_cons_self, hothers⟩⟩

theorem exists_cons (h : Marked (m :: marks) ts) :
    ∃ t us, ts = t :: us ∧ Marked [m] [t] ∧ Marked marks us := by
  cases ts with
  | nil => cases h.map_eq
  | cons t us =>
      obtain ⟨hfirst, hothers⟩ := cons_iff.mp h
      exact ⟨t, us, rfl, hfirst, hothers⟩

theorem exists_append (h : Marked (marks ++ others) ts) :
    ∃ front back, ts = front ++ back ∧ Marked marks front ∧ Marked others back := by
  obtain ⟨front, back, rfl, hfront, hback⟩ := List.map_eq_append_iff.mp h.map_eq
  obtain ⟨hown, hown'⟩ := List.forall_mem_append.mp h.not_inserted
  exact ⟨front, back, rfl, ⟨hfront, hown⟩, hback, hown'⟩

theorem exists_single (h : Marked [m] ts) : ∃ t, ts = [t] ∧ Marked [m] [t] := by
  obtain ⟨t, us, rfl, hfirst, hothers⟩ := h.exists_cons
  obtain rfl := nil_iff.mp hothers
  exact ⟨t, rfl, hfirst⟩

theorem length_eq (h : Marked marks ts) : ts.length = marks.length := by
  rw [← h.map_eq, List.length_map]

theorem own_eq (h : Marked marks ts) : Grammar.own ts = marks.length := by
  rw [Grammar.own_eq_length h.not_inserted, h.length_eq]

theorem not_inserted_head (h : Marked [m] [t]) : t.inserted = false :=
  h.not_inserted t List.mem_cons_self

theorem kind (h : Marked [m] [t]) : t.kind = m.1 := congrArg Prod.fst (List.cons.inj h.map_eq).1

theorem text (h : Marked [m] [t]) : t.text = m.2 := congrArg Prod.snd (List.cons.inj h.map_eq).1

theorem is {mark : String} (h : Marked [(.punctuation, mark)] [t]) : t.is mark = true := by
  rw [Token.is, h.kind, h.text]
  simp

theorem isWord {word : String} (h : Marked [(.word, word)] [t]) : t.isWord word = true := by
  rw [Token.isWord, h.kind, h.text]
  simp

end Marked

end

/-! ## What is laid out -/

theorem own_wrapped (braces : Bool) (ts : List Token) :
    Grammar.own (wrapped braces ts) = Grammar.own ts := by
  cases braces with
  | false => rfl
  | true =>
      have hbraces : wrapped true ts = [BraceInsertion.openingBrace]
          ++ (ts ++ [BraceInsertion.closingBrace]) := rfl
      rw [hbraces, Grammar.own_append, Grammar.own_append]
      exact Nat.zero_add _

mutual

theorem Laid.own_eq {tree : Tree} {ts : List Token} :
    Laid tree ts → Grammar.own ts = tree.marks.length
  | .simple hts => hts.own_eq
  | .ifThen hfront _ hbody => by
      rw [Grammar.own_append, own_wrapped, hfront.own_eq, hbody.own_eq, Tree.marks,
        List.length_append]
  | .ifElse hfront _ hbody hkeyword _ hbranch => by
      rw [Grammar.own_append, Grammar.own_append, Grammar.own_cons hkeyword.not_inserted_head,
        own_wrapped, own_wrapped, hfront.own_eq, hbody.own_eq, hbranch.own_eq, Tree.marks,
        List.length_append, List.length_append, List.length_cons]
  | .whileDo hfront _ hbody => by
      rw [Grammar.own_append, own_wrapped, hfront.own_eq, hbody.own_eq, Tree.marks,
        List.length_append]
  | .doWhile hkeyword hbody hclosing => by
      rw [Grammar.own_cons hkeyword.not_inserted_head, Grammar.own_append, hbody.own_eq,
        hclosing.own_eq]
      simp [Tree.marks]
  | .block hopened hbody hclosed => by
      rw [Grammar.own_cons hopened.not_inserted_head, Grammar.own_append, hbody.own_eq,
        hclosed.own_eq]
      simp [Tree.marks]

theorem LaidAll.own_eq {trees : Trees} {ts : List Token} :
    LaidAll trees ts → Grammar.own ts = trees.marks.length
  | .nil => rfl
  | .cons hfirst hothers => by
      rw [Grammar.own_append, hfirst.own_eq, hothers.own_eq, Trees.marks, List.length_append]

end

mutual

/-- Without added braces a statement is laid out as it is. -/
theorem Tree.laid : ∀ (tree : Tree) {ts : List Token}, Marked tree.marks ts → Laid tree ts
  | .simple _, _, h => .simple h
  | .ifThen w body, _, h => by
      obtain ⟨front, ts, rfl, hfront, hts⟩ := h.exists_append
      exact @Laid.ifThen w body front ts false hfront (absurd · Bool.false_ne_true) (body.laid hts)
  | .ifElse w body branch, _, h => by
      obtain ⟨front, _, rfl, hfront, h⟩ := h.exists_append
      obtain ⟨ts, _, rfl, hts, h⟩ := h.exists_append
      obtain ⟨keyword, us, rfl, hkeyword, hus⟩ := h.exists_cons
      exact @Laid.ifElse w body branch front ts us keyword false false hfront
        (absurd · Bool.false_ne_true) (body.laid hts) hkeyword (absurd · Bool.false_ne_true)
        (branch.laid hus)
  | .whileDo w body, _, h => by
      obtain ⟨front, ts, rfl, hfront, hts⟩ := h.exists_append
      exact @Laid.whileDo w body front ts false hfront (absurd · Bool.false_ne_true)
        (body.laid hts)
  | .doWhile body _, _, h => by
      obtain ⟨keyword, _, rfl, hkeyword, h⟩ := h.exists_cons
      obtain ⟨ts, closing, rfl, hts, hclosing⟩ := h.exists_append
      exact .doWhile hkeyword (body.laid hts) hclosing
  | .block body, _, h => by
      obtain ⟨opened, _, rfl, hopened, h⟩ := h.exists_cons
      obtain ⟨ts, _, rfl, hts, h⟩ := h.exists_append
      obtain ⟨closed, rfl, hclosed⟩ := h.exists_single
      exact .block hopened (body.laid hts) hclosed

theorem Trees.laid : ∀ (trees : Trees) {ts : List Token}, Marked trees.marks ts → LaidAll trees ts
  | .nil, _, h => by
      rw [Marked.nil_iff.mp h]
      exact .nil
  | .cons first others, _, h => by
      obtain ⟨ts, us, rfl, hts, hus⟩ := h.exists_append
      exact .cons (first.laid hts) (others.laid hus)

end

/-! ## First tokens -/

def Tree.first : Tree → Mark
  | .simple w => (.word, w.text)
  | .ifThen _ _ | .ifElse _ _ _ => (.word, "if")
  | .whileDo _ _ => (.word, "while")
  | .doWhile _ _ => (.word, "do")
  | .block _ => (.punctuation, "\x7b")

variable {tree : Tree} {t : Token} {ts : List Token}

theorem Tree.exists_marks (tree : Tree) : ∃ others, tree.marks = tree.first :: others := by
  cases tree <;> exact ⟨_, rfl⟩

theorem Laid.exists_first (h : Laid tree ts) :
    ∃ t us, ts = t :: us ∧ Marked [tree.first] [t] := by
  have hfront : ∀ {m marks front} (back : List Token), Marked (m :: marks) front →
      ∃ t us, front ++ back = t :: us ∧ Marked [m] [t] := by
    intro m marks front back h
    obtain ⟨t, us, rfl, hfirst, -⟩ := h.exists_cons
    exact ⟨t, us ++ back, rfl, hfirst⟩
  cases h with
  | simple hts =>
      obtain ⟨t, us, rfl, hfirst, -⟩ := hts.exists_cons
      exact ⟨t, us, rfl, hfirst⟩
  | ifThen hmarks => exact hfront _ hmarks
  | ifElse hmarks => exact hfront _ hmarks
  | whileDo hmarks => exact hfront _ hmarks
  | doWhile hkeyword => exact ⟨_, _, rfl, hkeyword⟩
  | block hopened => exact ⟨_, _, rfl, hopened⟩

theorem Tree.isWord_first (h : Marked [tree.first] [t]) :
    t.isWord "else" = false ∧ t.isWord "if" = tree.isIf := by
  rw [Token.isWord, Token.isWord, h.kind, h.text]
  cases tree with
  | simple w =>
      have helse : (w.text == "else") = false := beq_eq_false_iff_ne.mpr (w.text_ne (by decide))
      have hif : (w.text == "if") = false := beq_eq_false_iff_ne.mpr (w.text_ne (by decide))
      simp [first, isIf, helse, hif]
  | _ => exact ⟨rfl, rfl⟩

/-! ## All tokens -/

/-- A mark of words and punctuation.  Of the headers that go on behind a block only `else` and
`while` are among them. -/
structure Mark.Plain (m : Mark) : Prop where
  kind : m.1 = .word ∨ m.1 = .punctuation
  not_catch : m.2 ≠ "catch"
  not_finally : m.2 ≠ "finally"

theorem Mark.Plain.not_isTrivia (h : Mark.Plain (markOf t)) : t.isTrivia = false := by
  rw [Token.isTrivia]
  rcases h.kind with hkind | hkind <;> rw [show t.kind = _ from hkind]

theorem not_isTrivia_of_plain (h : ∀ t ∈ ts, Mark.Plain (markOf t)) :
    ∀ t ∈ ts, t.isTrivia = false := fun t ht => (h t ht).not_isTrivia

theorem Word.plain (w : Word) : Mark.Plain (.word, w.text) :=
  ⟨.inl rfl, w.text_ne (by decide), w.text_ne (by decide)⟩

theorem plain_keyword {keyword : String} (h : keyword ∈ ["if", "else", "while", "do"]) :
    Mark.Plain (.word, keyword) := by
  have hall : ∀ k ∈ ["if", "else", "while", "do"], k ≠ "catch" ∧ k ≠ "finally" := by decide
  exact ⟨.inl rfl, (hall keyword h).1, (hall keyword h).2⟩

theorem plain_punctuation {mark : String} (h : mark ∈ ["(", ")", ";", "\x7b", "\x7d"]) :
    Mark.Plain (.punctuation, mark) := by
  have hall : ∀ m ∈ ["(", ")", ";", "\x7b", "\x7d"], m ≠ "catch" ∧ m ≠ "finally" := by decide
  exact ⟨.inr rfl, (hall mark h).1, (hall mark h).2⟩

theorem plain_conditionMarks {keyword : String} (h : keyword ∈ ["if", "else", "while", "do"])
    (w : Word) : ∀ m ∈ conditionMarks keyword w, m.Plain := by
  simp [conditionMarks, plain_keyword h, plain_punctuation, w.plain]

mutual

theorem Tree.plain : ∀ tree : Tree, ∀ m ∈ tree.marks, m.Plain
  | .simple w => by simp [Tree.marks, w.plain, plain_punctuation]
  | .ifThen w body =>
      List.forall_mem_append.mpr ⟨plain_conditionMarks (by simp) w, body.plain⟩
  | .ifElse w body branch =>
      List.forall_mem_append.mpr ⟨plain_conditionMarks (by simp) w, List.forall_mem_append.mpr
        ⟨body.plain, List.forall_mem_cons.mpr ⟨plain_keyword (by simp), branch.plain⟩⟩⟩
  | .whileDo w body =>
      List.forall_mem_append.mpr ⟨plain_conditionMarks (by simp) w, body.plain⟩
  | .doWhile body w =>
      List.forall_mem_cons.mpr ⟨plain_keyword (by simp), List.forall_mem_append.mpr
        ⟨body.plain, List.forall_mem_append.mpr
          ⟨plain_conditionMarks (by simp) w, by simp [plain_punctuation]⟩⟩⟩
  | .block body =>
      List.forall_mem_cons.mpr ⟨plain_punctuation (by simp), List.forall_mem_append.mpr
        ⟨body.plain, by simp [plain_punctuation]⟩⟩

theorem Trees.plain : ∀ trees : Trees, ∀ m ∈ trees.marks, m.Plain
  | .nil => fun _ h => absurd h List.not_mem_nil
  | .cons first others => List.forall_mem_append.mpr ⟨first.plain, others.plain⟩

end

end Beautifier.Nesting
