/-
Formatting never fails.

The run over the tokens, the search for matching braces, the search for bodies
to be put in braces and the count of columns have checked twins as well, and
so has the whole program (`format?`).  Under options that have been accepted
the checked program gives what the program gives, for every source
(`format?_eq`).
-/
import Beautifier.Proofs.Options.Bounds
import Beautifier.Proofs.Safety.CheckedPlan

namespace Beautifier

/-! ## Reading -/

namespace Position

def step? (tabWidth : Nat) (p : Position) : Glyph → Option Position
  | .char c => (Column.step? tabWidth p.column c).map fun column => { p with column }
  | .lineBreak e => some ⟨0, true, p.lineEnd <|> some e⟩

def advance? (tabWidth : Nat) (p : Position) (gs : List Glyph) : Option Position :=
  gs.foldlM (step? tabWidth) p

theorem advance?_eq {tabWidth : Nat} (h : 0 < tabWidth) (p : Position) (gs : List Glyph) :
    p.advance? tabWidth gs = some (p.advance tabWidth gs) := by
  induction gs generalizing p with
  | nil => rfl
  | cons g rest ih =>
      have hstep : step? tabWidth p g = some (step tabWidth p g) := by
        cases g with
        | char c => rw [step?, Column.step?_eq h, Option.map_some, step]
        | lineBreak e => rfl
      rw [advance?, List.foldlM_cons, hstep]
      exact ih _

end Position

def readTokens? (language : Language) (tabWidth : Nat) (position : Position)
    (source : List Glyph) : Option TokenStream := do
  let gap := (splitGap source).1
  let start ← position.advance? tabWidth gap
  match _h : (splitGap source).2 with
  | none => return { tokens := [], trailingBreaks := gapBreaks gap, lineEnd := start.lineEnd }
  | some (first, rest) =>
      let scanned := Scanner.scan language start.atLineStart first rest
      let taken := .char first :: scanned.2.taken
      let token : Token :=
        { kind := scanned.1
          text := Glyph.textOf taken
          lineBreaks := gapBreaks gap
          space := String.ofList (gapSpace gap)
          column := start.column
          inserted := false }
      let behind ← start.advance? tabWidth taken
      let others ← readTokens? language tabWidth { behind with atLineStart := false } scanned.2.rest
      return { others with tokens := token :: others.tokens }
termination_by source.length
decreasing_by
  have := Scanner.scan_rest_le language start.atLineStart first rest
  have := splitGap_next_lt _h
  omega

def tokenize? (language : Language) (tabWidth : Nat) (source : String) : Option TokenStream :=
  readTokens? language (max tabWidth 1) .start (glyphs source.toList)

theorem readTokens?_eq (language : Language) {tabWidth : Nat} (h : 0 < tabWidth)
    (position : Position) (source : List Glyph) :
    readTokens? language tabWidth position source
      = some (readTokens language tabWidth position source) := by
  fun_induction readTokens language tabWidth position source with
  | case1 position source gap start hnext =>
      rw [readTokens?, Position.advance?_eq h]
      simp only [Option.bind_eq_bind, Option.bind_some]
      split
      · rfl
      · next heq => exact absurd (hnext.symm.trans heq) nofun
  | case2 position source gap start first rest hnext scanned taken token behind others ih =>
      rw [readTokens?, Position.advance?_eq h]
      simp only [Option.bind_eq_bind, Option.bind_some]
      split
      · next heq => exact absurd (hnext.symm.trans heq) nofun
      · next first' rest' heq =>
          cases hnext.symm.trans heq
          rw [Position.advance?_eq h, Option.bind_some]
          exact ih ▸ rfl

/-! ## Matching braces -/

namespace Matching

/-- The table has a place for every opening brace. -/
def closers? (tokens : List Token) : Option (Array (Option Nat)) :=
  (pairs 0 [] tokens).foldlM
    (fun a p => if p.1 < a.size then some (a.setIfInBounds p.1 (some p.2)) else none)
    (Array.replicate tokens.length none)

theorem closers?_eq (tokens : List Token) : closers? tokens = some (closers tokens) := by
  have hpairs : ∀ p ∈ pairs 0 [] tokens, p.1 < tokens.length := by
    intro p hp
    obtain ⟨k, u, hk, hu, -⟩ := is_of_mem_pairs hp
    have hlt : p.1 < p.2 := lt_of_mem_pairs (by simp) hp
    have hlength := lt_length hu
    omega
  have hfold : ∀ (ps : List (Nat × Nat)) (a : Array (Option Nat)), (∀ p ∈ ps, p.1 < a.size) →
      ps.foldlM
          (fun a p => if p.1 < a.size then some (a.setIfInBounds p.1 (some p.2)) else none) a
        = some (ps.foldl (fun a p => a.setIfInBounds p.1 (some p.2)) a) := by
    intro ps
    induction ps with
    | nil => exact fun _ _ => rfl
    | cons p ps ih =>
        intro a ha
        obtain ⟨hp, hps⟩ := List.forall_mem_cons.mp ha
        rw [List.foldlM_cons, if_pos hp]
        exact ih _ fun q hq => by simpa using hps q hq
  exact hfold _ _ (by simpa using hpairs)

end Matching

/-! ## Laying out -/

namespace Progress

def step? (o : Options) (tokens : List Token) (r : Progress) (c : Cursor) : Option Progress := do
  let plan ← c.plan? tokens o r.state r.conditionals r.page
  let ready ← r.page.ready? o c.token plan.layout
  let column ← (if plan.state.awaitsAlign then ready.column? o.indentWidth else some 0)
  let placed := plan.state.placed c plan.layout column
  let page ← ready.write? o c.token
  let state ← placed.settle? tokens c o plan page.currentIndent
  return { state, conditionals := plan.conditionals, page }

/-- The token at a position is looked up, what stands before and behind it is cut out, and its
closing brace is looked up in the table. -/
def stepAt? (o : Options) (tokens : List Token) (closers : Array (Option Nat)) (r : Progress)
    (n : Nat) : Option Progress := do
  let token ← tokens[n]?
  let closer ← closers[n]?
  let before ← slice? tokens 0 n
  let after ← slice? tokens (n + 1) tokens.length
  r.step? o tokens { before := before.reverse, token, after, position := n, closer }

end Progress

def layOut? (o : Options) (tokens : List Token) : Option Page := do
  let closers ← Matching.closers? tokens
  let r ← (List.range tokens.length).foldlM (Progress.stepAt? o tokens closers) .start
  return r.page

section

variable {o : Options} {tokens : List Token} {n : Nat} {t : Token}

/-- All goes well with a token if the positions that are kept lie before it. -/
theorem Progress.step?_eq (hwidth : 0 < o.indentWidth) (hget : tokens[n]? = some t)
    {r : Progress} (hr : r.Within n) :
    r.step? o tokens (cursorAt tokens n t) = some (r.step o (cursorAt tokens n t)) := by
  simp only [step?, Cursor.plan?_eq hget hr.state, Page.ready?_eq hwidth, Page.column?_eq hwidth,
    Page.write?_eq hwidth, State.settle?_eq hget, ← apply_ite some, Option.bind_eq_bind,
    Option.bind_some, Option.pure_def]
  rfl

theorem Progress.stepAt?_eq (hwidth : 0 < o.indentWidth) (hget : tokens[n]? = some t)
    {r : Progress} (hr : r.Within n) :
    r.stepAt? o tokens (Matching.closers tokens) n
      = some (r.step o (cursorAt tokens n t)) := by
  have hn : n < tokens.length := lt_length hget
  obtain ⟨closer, hcloser⟩ : ∃ closer, (Matching.closers tokens)[n]? = some closer :=
    ⟨_, Array.getElem?_eq_getElem (Matching.size_closers tokens ▸ hn)⟩
  have hcursor : cursorAt tokens n t
      = ⟨(tokens.take n).reverse, t, tokens.drop (n + 1), n, closer⟩ := by
    rw [cursorAt, hcloser]
    rfl
  rw [← Progress.step?_eq hwidth hget hr, hcursor]
  simp only [stepAt?, hget, hcloser, slice?_eq (Nat.zero_le n) (Nat.le_of_lt hn),
    slice?_eq hn (Nat.le_refl _), List.take_length, List.drop_zero, Option.bind_eq_bind,
    Option.bind_some]

theorem foldlM_stepAt? (hwidth : 0 < o.indentWidth) :
    ∀ n ≤ tokens.length, (List.range n).foldlM
        (Progress.stepAt? o tokens (Matching.closers tokens)) .start
      = some (stage o tokens n) := by
  intro n
  induction n with
  | zero => exact fun _ => rfl
  | succ n ih =>
      intro hn
      obtain ⟨t, hget⟩ : ∃ t, tokens[n]? = some t := ⟨_, List.getElem?_eq_getElem hn⟩
      rw [List.range_succ, List.foldlM_append, ih (Nat.le_of_succ_le hn), stage_succ hget]
      simp only [Option.bind_eq_bind, Option.bind_some, List.foldlM_cons, List.foldlM_nil,
        Progress.stepAt?_eq hwidth hget (within_stage o tokens n (Nat.le_of_succ_le hn)),
        Option.pure_def]

theorem layOut?_eq (hwidth : 0 < o.indentWidth) (tokens : List Token) :
    layOut? o tokens = some (layOut o tokens) := by
  rw [layOut?, Matching.closers?_eq, layOut_eq_stage]
  simp only [Option.bind_eq_bind, Option.bind_some, foldlM_stepAt? hwidth _ (Nat.le_refl _),
    Option.pure_def]

end

/-! ## Braces around bodies -/

namespace BraceInsertion

/-- The count of open parentheses is never below one where one is closed. -/
def behindParen? (position depth : Nat) : List Token → Option (Option (Nat × List Token))
  | [] => some none
  | t :: rest =>
      if t.is "(" then behindParen? (position + 1) (depth + 1) rest
      else if t.is ")" then do
        let outer ← difference? depth 1
        if outer = 0 then return some (position + 1, rest)
        else behindParen? (position + 1) outer rest
      else behindParen? (position + 1) depth rest

/-- The tokens that are sought are looked at, so they must be there. -/
def checkedBodyStart (position : Nat) (t : Token) (rest : List Token) :
    Option (Option (Nat × List Token)) :=
  if t.kind == .word && bracedHeaders.contains t.text then
    match seekCode position rest with
    | none => some none
    | some (opened, inside) => do
        let first ← inside.head?
        if first.is "(" then
          return (← behindParen? opened 0 inside).bind fun (behind, body) => seekCode behind body
        else return none
  else some (bodyStart? position t rest)

def checkedBody (position : Nat) (t : Token) (rest : List Token) : Option (Option (Nat × Nat)) := do
  match ← checkedBodyStart position t rest with
  | none => return none
  | some (start, body) =>
      let first ← body.head?
      if standsAlone first then return none
      else return (bodyEnd? start body).map fun last => (start, last)

def bodies? (position : Nat) : List Token → Option (List (Nat × Nat))
  | [] => some []
  | t :: rest => do
      let body? ← checkedBody (position + 1) t rest
      return body?.toList ++ (← bodies? (position + 1) rest)

def insertBraces? (tokens : List Token) : Option (List Token) := do
  let found ← bodies? 0 tokens
  return insertAt 0 (found.map (·.1)) ((found.map (·.2)).mergeSort (· ≤ ·)) tokens

theorem behindParen?_eq (position : Nat) {depth : Nat} {ts : List Token}
    (h : 0 < depth ∨ ts.head?.any (·.is "(") = true) :
    behindParen? position depth ts = some (behindParen position depth ts) := by
  induction ts generalizing position depth with
  | nil => rfl
  | cons t rest ih =>
      rw [behindParen?, behindParen]
      split
      · exact ih (position + 1) (.inl (Nat.succ_pos depth))
      · next hopen =>
          have hdepth : 0 < depth := by
            rcases h with h | h
            · exact h
            · exact absurd h hopen
          split
          · rw [difference?_eq hdepth]
            simp only [Option.bind_eq_bind, Option.bind_some]
            by_cases hlast : depth ≤ 1
            · rw [if_pos (Nat.sub_eq_zero_of_le hlast), if_pos hlast]
              rfl
            · rw [if_neg (Nat.sub_ne_zero_of_lt (Nat.lt_of_not_le hlast)), if_neg hlast]
              exact ih (position + 1) (.inl (Nat.sub_pos_of_lt (Nat.lt_of_not_le hlast)))
          · exact ih (position + 1) (.inl hdepth)

theorem head?_of_seekCode {p start : Nat} {ts body : List Token}
    (h : seekCode p ts = some (start, body)) : ∃ t, body.head? = some t := by
  fun_induction seekCode p ts with
  | case1 => cases h
  | case2 p t rest _ ih => exact ih h
  | case3 p t rest _ =>
      cases h
      exact ⟨t, rfl⟩

theorem checkedBodyStart_eq (position : Nat) (t : Token) (rest : List Token) :
    checkedBodyStart position t rest = some (bodyStart? position t rest) := by
  rw [checkedBodyStart]
  split
  · next hheader =>
      rw [Bool.and_eq_true, beq_iff_eq] at hheader
      rw [bodyStart?, if_neg (by simp [hheader.1]), if_pos hheader.2]
      cases hseek : seekCode position rest with
      | none => rfl
      | some sought =>
          obtain ⟨opened, inside⟩ := sought
          obtain ⟨first, hfirst⟩ := head?_of_seekCode hseek
          simp only [hfirst, Option.bind_eq_bind, Option.bind_some, Option.any_some]
          split
          · next hparen =>
              have hany : inside.head?.any (·.is "(") = true := by
                rw [hfirst]
                exact hparen
              rw [behindParen?_eq opened (.inr hany)]
              rfl
          · rfl
  · rfl

theorem head?_of_bodyStart? {position start : Nat} {t : Token} {rest body : List Token}
    (h : bodyStart? position t rest = some (start, body)) : ∃ first, body.head? = some first := by
  rw [bodyStart?] at h
  split at h
  · cases h
  · split at h
    · obtain ⟨⟨opened, inside⟩, -, h⟩ := Option.bind_eq_some_iff.mp h
      dsimp only at h
      split at h
      · obtain ⟨⟨behind, rest'⟩, -, h⟩ := Option.bind_eq_some_iff.mp h
        exact head?_of_seekCode h
      · cases h
    · split at h
      · exact head?_of_seekCode (Option.filter_eq_some_iff.mp h).1
      · cases h

theorem checkedBody_eq (position : Nat) (t : Token) (rest : List Token) :
    checkedBody position t rest = some ((bodyStart? position t rest).bind fun (start, body) =>
      (bodyEnd? start body).map fun last => (start, last)) := by
  rw [checkedBody, checkedBodyStart_eq]
  simp only [Option.bind_eq_bind, Option.bind_some]
  cases hstart : bodyStart? position t rest with
  | none => rfl
  | some found =>
      obtain ⟨start, body⟩ := found
      obtain ⟨first, hfirst⟩ := head?_of_bodyStart? hstart
      simp only [hfirst, Option.bind_some]
      split
      · next halone =>
          have hany : body.head?.any standsAlone = true := by
            rw [hfirst]
            exact halone
          rw [bodyEnd?, if_pos hany]
          rfl
      · rfl

theorem bodies?_eq (position : Nat) (ts : List Token) :
    bodies? position ts = some (bodies position ts) := by
  induction ts generalizing position with
  | nil => rfl
  | cons t rest ih =>
      rw [bodies?, bodies, checkedBody_eq, ih]
      rfl

theorem insertBraces?_eq (tokens : List Token) :
    insertBraces? tokens = some (insertBraces tokens) := by
  rw [insertBraces?, bodies?_eq]
  rfl

end BraceInsertion

/-! ## The whole program -/

/-- Formatting with every access checked. -/
def format? (o : Options) (source : String) : Option String := do
  let stream ← tokenize? o.language o.indentWidth source
  let tokens ← (
    if o.addBraces then BraceInsertion.insertBraces? stream.tokens else some stream.tokens)
  let page ← layOut? o tokens
  let lineEnd := (o.lineEnd <|> stream.lineEnd).getD .linux
  page.render? o.indentKind o.indentWidth lineEnd stream.trailingBreaks

/-- Formatting never fails: under options that have been accepted, every position that is looked
up lies among the tokens, every stretch that is cut out is in range and in order, no count falls
below zero and no divisor is zero, for every source, however malformed.  For all positions that
are kept in front of a token lie before it: those of the state, those of the statements around the
open blocks, and those of the states that open conditionals go back to. -/
theorem format?_eq {text : String} {o : Options} (h : parseOptions text = .ok o) (source : String) :
    format? o source = some (format o source) ∧
      let tokens := tokensToLayOut o (tokenize o.language o.indentWidth source)
      ∀ n ≤ tokens.length, (stage o tokens n).Within n := by
  have hwidth : 0 < o.indentWidth :=
    Nat.lt_of_lt_of_le (by decide) (indentWidth_parseOptions h).1
  refine ⟨?_, within_stage o _⟩
  have hstream : tokenize? o.language o.indentWidth source
      = some (tokenize o.language o.indentWidth source) :=
    readTokens?_eq o.language (Nat.lt_of_lt_of_le Nat.zero_lt_one (Nat.le_max_right _ _)) _ _
  have htokens : (if o.addBraces then
        BraceInsertion.insertBraces? (tokenize o.language o.indentWidth source).tokens
        else some (tokenize o.language o.indentWidth source).tokens)
      = some (tokensToLayOut o (tokenize o.language o.indentWidth source)) := by
    rw [BraceInsertion.insertBraces?_eq, ← apply_ite some]
    rfl
  simp only [format?, hstream, htokens, layOut?_eq hwidth, Page.render?_eq hwidth,
    Option.bind_eq_bind, Option.bind_some]
  rfl

/-- Braces and parentheses that match nothing, a branch of no conditional and a conditional that
is not closed are laid out like everything else. -/
theorem format?_eq_unbalanced :
    let o := { Options.default with indentKind := .forceTab, indentWidth := 3, addBraces := true }
    let source := "\x7d #else\n) if (a < b\n#if c\n\x7b ? : :\n#else\n* ( )"
    parseOptions "indent=force-tab=3 add-braces" = .ok o ∧
      format? o source = some (format o source) := by
  intro o source
  have h : parseOptions "indent=force-tab=3 add-braces" = .ok o := by decide +kernel
  exact ⟨h, (format?_eq h source).1⟩

end Beautifier
