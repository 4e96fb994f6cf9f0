/-
A grammar of statements.

    S ::= word ;  |  word : S  |  if ( word ) S  |  if ( word ) S else S
        |  while ( word ) S  |  { S* }

`Parses` reads tokens by it.  An `else` belongs to the nearest `if` that can
take it: an `if` goes without only where no `else` follows.  So there is one
way to read a list of tokens (`Parses.unique`).

Braces that were inserted make blocks of their own kind, and `dissolve` takes
these away again.
-/
import Beautifier.Proofs.Insertion.Bodies

namespace Beautifier.Grammar

open BraceInsertion (not_isTrivia_of_is not_isTrivia_of_word)

/-- A statement, or a list of statements. -/
inductive Tree where
  | simple (word : String)
  | label (word : String) (body : Tree)
  | ifThen (condition : String) (body : Tree)
  | ifElse (condition : String) (body other : Tree)
  | whileDo (condition : String) (body : Tree)
  /-- A list of statements in braces, inserted or not. -/
  | block (inserted : Bool) (statements : Tree)
  | done
  | next (first others : Tree)
deriving DecidableEq, Repr

namespace Tree

/-- What an inserted pair of braces around a list of statements stands for: the statement, if the
list holds one. -/
def unwrap : Tree → Tree
  | next s done => s
  | ss => block true ss

/-- A statement with the inserted blocks replaced by the statements inside them. -/
def dissolve : Tree → Tree
  | simple w => simple w
  | label w s => label w s.dissolve
  | ifThen c s => ifThen c s.dissolve
  | ifElse c s s' => ifElse c s.dissolve s'.dissolve
  | whileDo c s => whileDo c s.dissolve
  | block true ss => ss.dissolve.unwrap
  | block false ss => block false ss.dissolve
  | done => done
  | next s ss => next s.dissolve ss.dissolve

end Tree

/-- A word that is none of the keywords of the grammar. -/
def IsName (t : Token) : Prop := t.kind = .word ∧ t.text ∉ ["if", "else", "while"]

def startsElse (ts : List Token) : Bool := ts.head?.any (·.isWord "else")

/-- A keyword and a condition in parentheses at the front of a list of tokens. -/
inductive Condition (keyword : String) : List Token → String → List Token → Prop
  | mk {header opened name closed : Token} {rest : List Token}
      (hheader : header.isWord keyword) (hopened : opened.is "(") (hname : IsName name)
      (hclosed : closed.is ")") :
      Condition keyword (header :: opened :: name :: closed :: rest) name.text rest

/-- What is read. -/
inductive Part where
  | statement
  /-- Statements up to a closing brace. -/
  | statements
deriving DecidableEq, Repr

/-- `Parses part ts s rest`: the tokens `ts` are those of `s` with `rest` behind them. -/
inductive Parses : Part → List Token → Tree → List Token → Prop
  | simple {name semicolon : Token} {rest : List Token} (hname : IsName name)
      (hsemicolon : semicolon.is ";") :
      Parses .statement (name :: semicolon :: rest) (.simple name.text) rest
  | label {name colon : Token} {ts rest : List Token} {s : Tree} (hname : IsName name)
      (hcolon : colon.is ":") (body : Parses .statement ts s rest) :
      Parses .statement (name :: colon :: ts) (.label name.text s) rest
  | ifThen {ts body rest : List Token} {c : String} {s : Tree} (hhead : Condition "if" ts c body)
      (hbody : Parses .statement body s rest) (hrest : startsElse rest = false) :
      Parses .statement ts (.ifThen c s) rest
  | ifElse {ts body other rest : List Token} {keyword : Token} {c : String} {s s' : Tree}
      (hhead : Condition "if" ts c body)
      (hbody : Parses .statement body s (keyword :: other)) (helse : keyword.isWord "else")
      (hother : Parses .statement other s' rest) :
      Parses .statement ts (.ifElse c s s') rest
  | whileDo {ts body rest : List Token} {c : String} {s : Tree}
      (hhead : Condition "while" ts c body) (hbody : Parses .statement body s rest) :
      Parses .statement ts (.whileDo c s) rest
  | block {opened closed : Token} {ts rest : List Token} {ss : Tree} (hopened : opened.is "\x7b")
      (hinside : Parses .statements ts ss (closed :: rest)) (hclosed : closed.is "\x7d")
      (hpair : closed.inserted = opened.inserted) :
      Parses .statement (opened :: ts) (.block opened.inserted ss) rest
  | done {closed : Token} {rest : List Token} (hclosed : closed.is "\x7d") :
      Parses .statements (closed :: rest) .done (closed :: rest)
  | next {ts others rest : List Token} {s ss : Tree} (hfirst : Parses .statement ts s others)
      (hothers : Parses .statements others ss rest) :
      Parses .statements ts (.next s ss) rest

/-! ## Unique reading -/

instance : DecidablePred IsName := fun t =>
  inferInstanceAs (Decidable (t.kind = .word ∧ t.text ∉ ["if", "else", "while"]))

/-- The terminal of the grammar that a token is, one for all names. -/
def terminal (t : Token) : String := if IsName t then "word" else t.text

/-- The terminal that a statement starts with, or a list of statements with what ends it. -/
def Tree.lead : Tree → String
  | simple _ | label _ _ => "word"
  | ifThen _ _ | ifElse _ _ _ => "if"
  | whileDo _ _ => "while"
  | block _ _ => "\x7b"
  | done => "\x7d"
  | next s _ => s.lead

theorem IsName.terminal {t : Token} (h : IsName t) : terminal t = "word" := if_pos h

theorem terminal_is {t : Token} {text : String} (h : t.is text) : terminal t = text := by
  simp only [Token.is, Bool.and_eq_true, beq_iff_eq] at h
  rw [terminal, if_neg, h.2]
  exact fun hname => absurd (h.1.symm.trans hname.1) (by decide)

theorem terminal_isWord {t : Token} {word : String} (h : t.isWord word)
    (hword : word ∈ ["if", "else", "while"]) : terminal t = word := by
  simp only [Token.isWord, Bool.and_eq_true, beq_iff_eq] at h
  rw [terminal, if_neg, h.2]
  exact fun hname => hname.2 (h.2.symm ▸ hword)

theorem Condition.lead {keyword : String} {ts body : List Token} {c : String}
    (h : Condition keyword ts c body) (hkeyword : keyword ∈ ["if", "else", "while"]) :
    ts.head?.map terminal = some keyword := by
  cases h with
  | mk hheader => exact congrArg some (terminal_isWord hheader hkeyword)

variable {part : Part} {ts rest rest' : List Token} {s s' : Tree}

theorem Parses.lead (h : Parses part ts s rest) : ts.head?.map terminal = some s.lead := by
  induction h with
  | simple hname => exact congrArg some hname.terminal
  | label hname => exact congrArg some hname.terminal
  | ifThen hhead => exact hhead.lead (by decide)
  | ifElse hhead => exact hhead.lead (by decide)
  | whileDo hhead => exact hhead.lead (by decide)
  | block hopened => exact congrArg some (terminal_is hopened)
  | done hclosed => exact congrArg some (terminal_is hclosed)
  | next _ _ ih => exact ih

theorem Tree.lead_ne_else (s : Tree) : s.lead ≠ "else" := by
  induction s with
  | next s ss ih => exact ih
  | _ => simp [lead]

theorem Parses.exists_head (h : Parses part ts s rest) : ∃ t, ts.head? = some t := by
  obtain ⟨t, ht, -⟩ := Option.map_eq_some_iff.mp h.lead
  exact ⟨t, ht⟩

theorem Parses.not_startsElse (h : Parses part ts s rest) : startsElse ts = false := by
  cases ts with
  | nil => rfl
  | cons t ts =>
      apply Bool.eq_false_iff.mpr
      intro helse
      have hlead := h.lead
      rw [List.head?_cons, Option.map_some, terminal_isWord helse (by decide)] at hlead
      exact s.lead_ne_else (Option.some.inj hlead).symm

theorem Condition.unique {keyword : String} {body body' : List Token} {c c' : String}
    (h : Condition keyword ts c body) (h' : Condition keyword ts c' body') :
    c = c' ∧ body = body' := by
  cases h
  cases h'
  exact ⟨rfl, rfl⟩

theorem Parses.lead_eq {part' : Part} (h : Parses part ts s rest)
    (h' : Parses part' ts s' rest') : s.lead = s'.lead :=
  Option.some.inj (h.lead.symm.trans h'.lead)

theorem is_unique {t : Token} {text text' : String} (h : t.is text) (h' : t.is text') :
    text = text' :=
  (terminal_is h).symm.trans (terminal_is h')

theorem Parses.lead_ne_closing (h : Parses .statement ts s rest) : s.lead ≠ "\x7d" := by
  cases h <;> simp [Tree.lead]

/-- There is one way to read a list of tokens. -/
theorem Parses.unique (h : Parses part ts s rest) (h' : Parses part ts s' rest') :
    s = s' ∧ rest = rest' := by
  induction h generalizing s' rest' with
  | simple hname hsemicolon =>
      have hlead := (Parses.simple hname hsemicolon).lead_eq h'
      cases h' with
      | simple => exact ⟨rfl, rfl⟩
      | label _ hcolon => exact absurd (is_unique hsemicolon hcolon) (by decide)
      | _ => simp [Tree.lead] at hlead
  | label hname hcolon body ih =>
      have hlead := (Parses.label hname hcolon body).lead_eq h'
      cases h' with
      | simple _ hsemicolon => exact absurd (is_unique hsemicolon hcolon) (by decide)
      | label _ _ body' =>
          obtain ⟨rfl, rfl⟩ := ih body'
          exact ⟨rfl, rfl⟩
      | _ => simp [Tree.lead] at hlead
  | ifThen hhead hbody hrest ih =>
      have hlead := (Parses.ifThen hhead hbody hrest).lead_eq h'
      cases h' with
      | ifThen hhead' hbody' =>
          obtain ⟨rfl, rfl⟩ := hhead.unique hhead'
          obtain ⟨rfl, rfl⟩ := ih hbody'
          exact ⟨rfl, rfl⟩
      | ifElse hhead' hbody' helse =>
          obtain ⟨rfl, rfl⟩ := hhead.unique hhead'
          obtain ⟨-, rfl⟩ := ih hbody'
          exact absurd (hrest.symm.trans helse) Bool.false_ne_true
      | _ => simp [Tree.lead] at hlead
  | ifElse hhead hbody helse hother ih ih' =>
      have hlead := (Parses.ifElse hhead hbody helse hother).lead_eq h'
      cases h' with
      | ifThen hhead' hbody' hrest =>
          obtain ⟨rfl, rfl⟩ := hhead.unique hhead'
          obtain ⟨-, rfl⟩ := ih hbody'
          exact absurd (hrest.symm.trans helse) Bool.false_ne_true
      | ifElse hhead' hbody' _ hother' =>
          obtain ⟨rfl, rfl⟩ := hhead.unique hhead'
          obtain ⟨rfl, heq⟩ := ih hbody'
          cases heq
          obtain ⟨rfl, rfl⟩ := ih' hother'
          exact ⟨rfl, rfl⟩
      | _ => simp [Tree.lead] at hlead
  | whileDo hhead hbody ih =>
      have hlead := (Parses.whileDo hhead hbody).lead_eq h'
      cases h' with
      | whileDo hhead' hbody' =>
          obtain ⟨rfl, rfl⟩ := hhead.unique hhead'
          obtain ⟨rfl, rfl⟩ := ih hbody'
          exact ⟨rfl, rfl⟩
      | _ => simp [Tree.lead] at hlead
  | block hopened hinside hclosed hpair ih =>
      have hlead := (Parses.block hopened hinside hclosed hpair).lead_eq h'
      cases h' with
      | block _ hinside' =>
          obtain ⟨rfl, heq⟩ := ih hinside'
          cases heq
          exact ⟨rfl, rfl⟩
      | _ => simp [Tree.lead] at hlead
  | done hclosed =>
      cases h' with
      | done => exact ⟨rfl, rfl⟩
      | next hfirst =>
          exact absurd ((Parses.done hclosed).lead_eq hfirst).symm hfirst.lead_ne_closing
  | next hfirst hothers ih ih' =>
      cases h' with
      | done hclosed => exact absurd (hfirst.lead_eq (.done hclosed)) hfirst.lead_ne_closing
      | next hfirst' hothers' =>
          obtain ⟨rfl, rfl⟩ := ih hfirst'
          obtain ⟨rfl, rfl⟩ := ih' hothers'
          exact ⟨rfl, rfl⟩

/-! ## The tokens of a statement -/

theorem IsName.not_isTrivia {t : Token} (h : IsName t) : t.isTrivia = false :=
  not_isTrivia_of_word h.1

theorem not_isTrivia_of_isWord {t : Token} {word : String} (h : t.isWord word) :
    t.isTrivia = false := by
  simp only [Token.isWord, Bool.and_eq_true, beq_iff_eq] at h
  exact not_isTrivia_of_word h.1

/-- A statement is made of code. -/
theorem Parses.not_isTrivia (h : Parses part ts s rest)
    (hrest : ∀ t ∈ rest, t.isTrivia = false) : ∀ t ∈ ts, t.isTrivia = false := by
  have hcondition {keyword c : String} {ts body : List Token} (h : Condition keyword ts c body)
      (hbody : ∀ t ∈ body, t.isTrivia = false) : ∀ t ∈ ts, t.isTrivia = false := by
    cases h with
    | mk hheader hopened hname hclosed =>
        simpa [not_isTrivia_of_isWord hheader, not_isTrivia_of_is hopened, hname.not_isTrivia,
          not_isTrivia_of_is hclosed] using hbody
  induction h with
  | simple hname hsemicolon =>
      simpa [hname.not_isTrivia, not_isTrivia_of_is hsemicolon] using hrest
  | label hname hcolon body ih =>
      simpa [hname.not_isTrivia, not_isTrivia_of_is hcolon] using ih hrest
  | ifThen hhead _ _ ih => exact hcondition hhead (ih hrest)
  | ifElse hhead _ helse _ ih ih' =>
      refine hcondition hhead (ih ?_)
      simpa [not_isTrivia_of_isWord helse] using ih' hrest
  | whileDo hhead _ ih => exact hcondition hhead (ih hrest)
  | block hopened _ hclosed _ ih =>
      have hinside := ih (by simpa [not_isTrivia_of_is hclosed] using hrest)
      simpa [not_isTrivia_of_is hopened] using hinside
  | done => exact hrest
  | next _ _ ih ih' => exact ih (ih' hrest)

theorem isWord_eq_false_of_is {t : Token} {text word : String} (h : t.is text) :
    t.isWord word = false := by
  simp only [Token.is, Bool.and_eq_true, beq_iff_eq] at h
  simp [Token.isWord, h.1]

theorem IsName.isWord_eq_false {t : Token} (h : IsName t) : t.isWord "if" = false :=
  Bool.eq_false_iff.mpr fun hif =>
    absurd (h.terminal.symm.trans (terminal_isWord hif (by decide))) (by decide)

theorem IsName.pair_isWord_eq_false {name mark : Token} {text : String} (hname : IsName name)
    (hmark : mark.is text) : ∀ t ∈ [name, mark], t.isWord "if" = false := by
  simp only [List.forall_mem_cons]
  exact ⟨hname.isWord_eq_false, isWord_eq_false_of_is hmark, by simp⟩

theorem Condition.exists_four {keyword c : String} {body : List Token}
    (h : Condition keyword ts c body) :
    ∃ header front, ts = header :: front ++ body ∧ header.isWord keyword = true ∧
      front.length = 3 ∧ (∀ t ∈ front, t.isWord "if" = false) ∧
      ∀ body', Condition keyword (header :: front ++ body') c body' := by
  cases h with
  | @mk header opened name closed _ hheader hopened hname hclosed =>
      refine ⟨header, [opened, name, closed], rfl, hheader, rfl, ?_, fun body' =>
        .mk hheader hopened hname hclosed⟩
      simp only [List.forall_mem_cons]
      exact ⟨isWord_eq_false_of_is hopened, hname.isWord_eq_false, isWord_eq_false_of_is hclosed,
        by simp⟩

end Beautifier.Grammar
