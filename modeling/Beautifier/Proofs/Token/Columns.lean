/-
The columns of tokens.

The width of a tab decides at which columns the tokens of a source stand, and
nothing else: but for their columns, the tokens that are read are the same for
every width (`columnless_tokenize`), and so are those with braces put in,
which goes by texts and line breaks (`columnless_tokensToLayOut`).
-/
import Beautifier.Format
import Beautifier.Proofs.Token.Spelling

namespace Beautifier

def Token.columnless (t : Token) : Token := { t with column := 0 }

/-! ## Reading -/

section Reading

variable {language : Language} {width width' : Nat} {p p' : Position}

theorem atLineStart_advance_congr (h : p'.atLineStart = p.atLineStart) (gs : List Glyph) :
    (p'.advance width' gs).atLineStart = (p.advance width gs).atLineStart := by
  induction gs generalizing p p' with
  | nil => exact h
  | cons g gs ih =>
      have hstep : (p'.step width' g).atLineStart = (p.step width g).atLineStart := by
        cases g with
        | char c => exact h
        | lineBreak e => rfl
      exact ih hstep

/-- From whatever column a source is read, and for whatever width of a tab, the tokens are the
same but for their columns. -/
theorem columnless_readTokens (h : p'.atLineStart = p.atLineStart) (source : List Glyph) :
    (readTokens language width' p' source).tokens.map Token.columnless
      = (readTokens language width p source).tokens.map Token.columnless := by
  fun_induction readTokens language width p source generalizing p' with
  | case1 p source gap start =>
      next hnext =>
      have hgap : gap = source := splitGap_none hnext
      have hisGap : ∀ g ∈ gap, g.isGap = true := isGap_of_mem_splitGap
      rw [readTokens_gap (hgap ▸ hisGap)]
  | case2 p source gap start first rest hnext scanned taken token behind others =>
      next ih =>
      obtain ⟨hsource, hfirst⟩ := splitGap_some hnext
      have hreads : Scanner.Reads language (p'.advance width' gap).atLineStart first rest scanned.1
          scanned.2 := by
        rw [atLineStart_advance_congr h]
        exact Scanner.reads_scan ..
      rw [← hsource, readTokens_cons isGap_of_mem_splitGap hfirst hreads]
      exact congrArg (_ :: ·) (ih rfl)

theorem columnless_tokenize (language : Language) (width width' : Nat) (source : String) :
    (tokenize language width' source).tokens.map Token.columnless
      = (tokenize language width source).tokens.map Token.columnless :=
  columnless_readTokens rfl _

end Reading

/-! ## Putting in braces -/

namespace BraceInsertion

/-- Where a reader of tokens stops, without columns. -/
def found (r : Nat × List Token) : Nat × List Token := (r.1, r.2.map Token.columnless)

theorem seekCode_columnless (position : Nat) (ts : List Token) :
    seekCode position (ts.map Token.columnless) = (seekCode position ts).map found := by
  induction ts generalizing position with
  | nil => rfl
  | cons t ts ih =>
      simp only [List.map_cons, seekCode, ih, apply_ite (Option.map found)]
      rfl

theorem behindParen_columnless (position depth : Nat) (ts : List Token) :
    behindParen position depth (ts.map Token.columnless)
      = (behindParen position depth ts).map found := by
  induction ts generalizing position depth with
  | nil => rfl
  | cons t ts ih =>
      simp only [List.map_cons, behindParen, ih, apply_ite (Option.map found)]
      rfl

theorem any_head?_columnless {p : Token → Bool} (hp : ∀ t : Token, p t.columnless = p t)
    (ts : List Token) : (ts.map Token.columnless).head?.any p = ts.head?.any p := by
  cases ts with
  | nil => rfl
  | cons t ts => exact hp t

theorem startsLine_columnless (ts : List Token) :
    startsLine (ts.map Token.columnless) = startsLine ts :=
  any_head?_columnless (fun _ => rfl) ts

theorem statementEnd_columnless (position depth : Nat) (ts : List Token) :
    statementEnd position depth (ts.map Token.columnless)
      = (statementEnd position depth ts).map found := by
  induction ts generalizing position depth with
  | nil => rfl
  | cons t ts ih =>
      simp only [List.map_cons, statementEnd, ih, startsLine_columnless,
        apply_ite (Option.map found)]
      rfl

theorem bodyEnd?_columnless (position : Nat) (ts : List Token) :
    bodyEnd? position (ts.map Token.columnless) = bodyEnd? position ts := by
  have hcomment := fun us => any_head?_columnless
    (p := fun t => t.kind == .lineComment && t.lineBreaks == 0) (fun _ => rfl) us
  rw [bodyEnd?, bodyEnd?, any_head?_columnless fun _ => rfl, statementEnd_columnless,
    Option.map_map]
  simp only [Function.comp_def, found, hcomment]

theorem bodyStart?_columnless (position : Nat) (t : Token) (ts : List Token) :
    bodyStart? position t.columnless (ts.map Token.columnless)
      = (bodyStart? position t ts).map found := by
  have hparen := fun us => any_head?_columnless (p := (·.is "(")) (fun _ => rfl) us
  have hif := fun us => any_head?_columnless (p := (·.isWord "if")) (fun _ => rfl) us
  simp only [bodyStart?, seekCode_columnless, apply_ite (Option.map found)]
  cases seekCode position ts with
  | none => rfl
  | some r =>
      obtain ⟨opened, inside⟩ := r
      have hbehind : ∀ body : Option (Nat × List Token),
          ((body.map found).bind fun r => seekCode r.1 r.2)
            = (body.bind fun r => seekCode r.1 r.2).map found := by
        intro body
        rw [Option.bind_map, Option.map_bind]
        congr 1
        funext r
        exact seekCode_columnless ..
      simp only [Option.map_some, Option.bind_some, found, hparen, behindParen_columnless,
        Option.filter_some, hif, apply_ite (Option.map found)]
      refine if_congr Iff.rfl rfl (if_congr Iff.rfl (if_congr Iff.rfl ?_ rfl) rfl)
      exact hbehind _

theorem bodies_columnless (position : Nat) (ts : List Token) :
    bodies position (ts.map Token.columnless) = bodies position ts := by
  induction ts generalizing position with
  | nil => rfl
  | cons t ts ih =>
      simp only [List.map_cons, bodies, ih, bodyStart?_columnless, Option.bind_map,
        Function.comp_def, found, bodyEnd?_columnless]

theorem insertAt_columnless (position : Nat) (opens closes : List Nat) (ts : List Token) :
    insertAt position opens closes (ts.map Token.columnless)
      = (insertAt position opens closes ts).map Token.columnless := by
  induction ts generalizing position opens closes with
  | nil => rfl
  | cons t ts ih =>
      simp only [List.map_cons, insertAt, ih, List.map_append, List.map_map]
      rfl

theorem insertBraces_columnless (ts : List Token) :
    insertBraces (ts.map Token.columnless) = (insertBraces ts).map Token.columnless := by
  rw [insertBraces, insertBraces, bodies_columnless, insertAt_columnless]

end BraceInsertion

/-- The tokens that are laid out differ in no more than their columns where options agree on the
language and on added braces. -/
theorem columnless_tokensToLayOut {o o' : Options} (hlanguage : o'.language = o.language)
    (hadd : o'.addBraces = o.addBraces) (source : String) :
    (tokensToLayOut o' (tokenize o'.language o'.indentWidth source)).map Token.columnless
      = (tokensToLayOut o (tokenize o.language o.indentWidth source)).map Token.columnless := by
  have hread := columnless_tokenize o.language o.indentWidth o'.indentWidth source
  rw [tokensToLayOut, tokensToLayOut, hlanguage, hadd]
  split
  · rw [← BraceInsertion.insertBraces_columnless, hread, BraceInsertion.insertBraces_columnless]
  · exact hread

end Beautifier
