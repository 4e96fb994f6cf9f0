/-
One token in two lists that go on alike.

In front of a token behind the common start of its statement (`Rooted`), with
the same newest line on both pages, the plan for the token is the same in both
lists, and so is what the token does to the page and the state
(`Cursor.plan_moved`, `State.settle_moved`).
-/
import Beautifier.Proofs.Layout.Closers
import Beautifier.Proofs.Layout.Rooted

namespace Beautifier

/-! ## Matching braces -/

namespace Matching

section

variable {tokens tokens' : List Token} {i k k' n : Nat}

theorem pairs_shifted {position : Nat} (hposition : k ≤ position) (opened : List Nat)
    (ts : List Token) : pairs (shifted k k' position) (opened.map (shifted k k')) ts
      = (pairs position opened ts).map (Prod.map (shifted k k') (shifted k k')) := by
  induction ts generalizing position opened with
  | nil => rfl
  | cons t rest ih =>
      have hnext := fun opened => ih (Nat.le_succ_of_le hposition) opened
      simp only [shifted_succ hposition] at hnext
      rw [pairs.eq_def, pairs.eq_def position opened (t :: rest)]
      dsimp only
      split
      · exact hnext (position :: opened)
      · split
        · cases opened with
          | nil => exact hnext []
          | cons start outer =>
              simp only [List.map_cons, hnext]
              rfl
        · exact hnext opened

theorem find_pairs_take (hn : k ≤ n) :
    (pairs 0 [] (tokens.take k)).reverse.find? (·.1 == n) = none := by
  rw [List.find?_eq_none]
  intro p hp
  obtain ⟨j, u, hj, hu, -⟩ := is_of_mem_pairs (List.mem_reverse.mp hp)
  have hlt := lt_of_mem_pairs (by simp) (List.mem_reverse.mp hp)
  have hlength := lt_length hu
  rw [List.length_take] at hlength
  rw [beq_iff_eq]
  omega

theorem openBehind_take {m : Nat} (hmk : m ≤ k)
    (hfree : ∀ t ∈ (tokens.take k).drop m, t.is "\x7b" = false ∧ t.is "\x7d" = false) :
    openBehind 0 [] (tokens.take k) = openBehind 0 [] (tokens.take m) := by
  have hsplit : tokens.take k = tokens.take m ++ (tokens.take k).drop m := by
    conv => lhs; rw [← List.take_append_drop m (tokens.take k), List.take_take, Nat.min_eq_left hmk]
  rw [hsplit, openBehind_append, openBehind_of_braceless _ _ hfree]

theorem pairs_take_drop (hk : k ≤ tokens.length) :
    pairs 0 [] tokens = pairs 0 [] (tokens.take k)
      ++ pairs k (openBehind 0 [] (tokens.take k)) (tokens.drop k) := by
  conv => lhs; rw [← List.take_append_drop k tokens, pairs_append, List.length_take_of_le hk,
    Nat.zero_add]

theorem find?_map_pairs {f : Nat → Nat} {ps : List (Nat × Nat)}
    (hps : ∀ p ∈ ps, (f p.1 == f n) = (p.1 == n)) :
    ((ps.map (Prod.map f f)).find? (·.1 == f n)).map (·.2)
      = ((ps.find? (·.1 == n)).map (·.2)).map f := by
  induction ps with
  | nil => rfl
  | cons p ps ih =>
      obtain ⟨hp, hrest⟩ := List.forall_mem_cons.mp hps
      rw [List.map_cons, List.find?_cons, List.find?_cons, Prod.map_fst, hp]
      cases p.1 == n with
      | true => rfl
      | false => exact ih hrest

/-- Where the stretch in which two lists differ holds no brace in either, braces behind it are
closed alike. -/
theorem closers_shifted (h : Rejoins i k k' tokens tokens')
    (hfree : ∀ t ∈ (tokens.take k).drop (i + 1), t.is "\x7b" = false ∧ t.is "\x7d" = false)
    (hfree' : ∀ t ∈ (tokens'.take k').drop (i + 1), t.is "\x7b" = false ∧ t.is "\x7d" = false)
    (hn : k ≤ n) {t : Token} (hget : tokens[n]? = some t) :
    (closers tokens')[shifted k k' n]?.join = ((closers tokens)[n]?.join).map (shifted k k') := by
  have hlength := lt_length hget
  have hlength' := lt_length (h.getElem?_shifted_eq hget hn)
  have hkept : ∀ p ∈ openBehind 0 [] (tokens.take (i + 1)), p ≤ i := by
    intro p hp
    have hlt := openBehind_lt (by simp) p hp
    rw [List.length_take] at hlt
    omega
  have hsame : (openBehind 0 [] (tokens.take (i + 1))).map (shifted k k')
      = openBehind 0 [] (tokens.take (i + 1)) := by
    conv => rhs; rw [← List.map_id (openBehind 0 [] (tokens.take (i + 1)))]
    exact List.map_congr_left fun p hp => shifted_of_lt
      (Nat.lt_of_le_of_lt (Nat.succ_le_succ (hkept p hp)) h.lt)
  have hpairs : pairs 0 [] tokens = pairs 0 [] (tokens.take k)
      ++ pairs k (openBehind 0 [] (tokens.take (i + 1))) (tokens.drop k) := by
    rw [pairs_take_drop (Nat.le_of_lt (Nat.lt_of_le_of_lt hn hlength)),
      openBehind_take (Nat.le_of_lt h.lt) hfree]
  -- behind the stretch both lists find the same pairs, with their positions moved
  have hpairs' : pairs 0 [] tokens' = pairs 0 [] (tokens'.take k')
      ++ (pairs k (openBehind 0 [] (tokens.take (i + 1))) (tokens.drop k)).map
        (Prod.map (shifted k k') (shifted k k')) := by
    have hshifted : pairs (shifted k k' k)
        ((openBehind 0 [] (tokens.take (i + 1))).map (shifted k k')) (tokens.drop k) = _ :=
      pairs_shifted (Nat.le_refl k) _ _
    rw [hsame, shifted_of_le (Nat.le_refl k), Nat.sub_self, Nat.zero_add] at hshifted
    rw [pairs_take_drop (Nat.le_of_lt (Nat.lt_of_le_of_lt (le_shifted hn) hlength')),
      openBehind_take (Nat.le_of_lt h.lt') hfree', h.front, h.tail, hshifted]
  have hopened : ∀ p ∈ pairs k (openBehind 0 [] (tokens.take (i + 1))) (tokens.drop k),
      (shifted k k' p.1 == shifted k k' n) = (p.1 == n) := by
    intro p hp
    have hp1 : Kept i k p.1 := (fst_of_mem_pairs hp).imp_left (hkept p.1)
    rw [Bool.eq_iff_iff, beq_iff_eq, beq_iff_eq]
    exact h.kept_shifted_eq_iff hp1 hn
  rw [closers_eq_find hlength, closers_eq_find hlength', hpairs, hpairs', List.reverse_append,
    List.reverse_append, List.find?_append, List.find?_append, find_pairs_take hn,
    find_pairs_take (le_shifted hn), Option.or_none, Option.or_none, ← List.map_reverse]
  exact find?_map_pairs fun p hp => hopened p (List.mem_reverse.mp hp)

end

end Matching

/-! ## Pages with the same newest lines -/

/-- Two pages with the same lines above what stands below. -/
def Page.SameAbove (below below' : List Line) (p p' : Page) : Prop :=
  ∃ top, top ≠ [] ∧ p.lines = top ++ below ∧ p'.lines = top ++ below'

namespace Page.SameAbove

variable {below below' : List Line} {p p' : Page} {o : Options}

theorem newLine_start (p p' : Page) (indent : Indent) (blankLines blankLines' : Nat) :
    SameAbove (List.replicate blankLines (.empty .zero) ++ p.lines)
      (List.replicate blankLines' (.empty .zero) ++ p'.lines)
      (p.newLine indent blankLines) (p'.newLine indent blankLines') :=
  ⟨[.empty indent], List.cons_ne_nil _ _, rfl, rfl⟩

variable (h : SameAbove below below' p p')
include h

theorem newest : ∃ l rest rest', p.lines = l :: rest ∧ p'.lines = l :: rest' := by
  obtain ⟨top, hne, hp, hp'⟩ := h
  cases top with
  | nil => exact absurd rfl hne
  | cons l rest => exact ⟨l, _, _, hp, hp'⟩

theorem isEmpty : p'.isEmpty = p.isEmpty := by
  obtain ⟨l, rest, rest', hp, hp'⟩ := h.newest
  rw [Page.isEmpty, Page.isEmpty, hp, hp']
  rfl

theorem canJoin : p'.canJoin = p.canJoin := by
  obtain ⟨l, rest, rest', hp, hp'⟩ := h.newest
  rw [Page.canJoin, Page.canJoin, hp, hp']

theorem onlyComments : p'.onlyComments = p.onlyComments := by
  obtain ⟨l, rest, rest', hp, hp'⟩ := h.newest
  rw [Page.onlyComments, Page.onlyComments, hp, hp']

theorem currentIndent : p'.currentIndent = p.currentIndent := by
  obtain ⟨l, rest, rest', hp, hp'⟩ := h.newest
  rw [Page.currentIndent, Page.currentIndent, hp, hp']

theorem column (width : Nat) : p'.column width = p.column width := by
  obtain ⟨l, rest, rest', hp, hp'⟩ := h.newest
  rw [Page.column, Page.column, hp, hp']

theorem newLine (indent : Indent) (blankLines : Nat) :
    SameAbove below below' (p.newLine indent blankLines) (p'.newLine indent blankLines) := by
  obtain ⟨top, -, hp, hp'⟩ := h
  refine ⟨.empty indent :: (List.replicate blankLines (.empty .zero) ++ top),
    List.cons_ne_nil _ _, ?_, ?_⟩
  · rw [Page.newLine, hp, List.cons_append, List.append_assoc]
  · rw [Page.newLine, hp', List.cons_append, List.append_assoc]

theorem amend (f : Line → Line) : SameAbove below below' (p.amend f) (p'.amend f) := by
  obtain ⟨top, hne, hp, hp'⟩ := h
  cases top with
  | nil => exact absurd rfl hne
  | cons l rest =>
      refine ⟨f l :: rest, List.cons_ne_nil _ _, ?_, ?_⟩
      · rw [Page.amend, hp]
        rfl
      · rw [Page.amend, hp']
        rfl

theorem push (width : Nat) (kind : TokenKind) (shift : Int) (text : String) :
    SameAbove below below' (p.push width kind shift text) (p'.push width kind shift text) := by
  rw [Page.push, Page.push]
  refine amend ?_ _
  obtain ⟨top, hne, hp, hp'⟩ := h.amend fun l =>
    if Line.keepsBlanks kind && !(linesOf (glyphs text.toList)).2.isEmpty then
      { l.append (String.ofList (linesOf (glyphs text.toList)).1) with trimmed := false }
    else l.append (String.ofList (linesOf (glyphs text.toList)).1)
  exact ⟨_ ++ top, List.append_ne_nil_of_right_ne_nil _ hne, by rw [hp, List.append_assoc],
    by rw [hp', List.append_assoc]⟩

theorem ready (t : Token) (layout : Layout) :
    SameAbove below below' (p.ready o t layout) (p'.ready o t layout) := by
  cases layout with
  | newLine indent blankLines => exact h.newLine indent blankLines
  | sameLine spacing =>
      have hgap : p'.gap o t spacing = p.gap o t spacing := by
        cases spacing <;> simp only [Page.gap, Page.sourceGap, h.column]
      rw [Page.ready, Page.ready, hgap]
      exact h.amend _

theorem write (t : Token) : SameAbove below below' (p.write o t) (p'.write o t) := by
  have hshift : p'.shift o t = p.shift o t := by
    rw [Page.shift, Page.shift, h.column]
  rw [Page.write, Page.write, hshift]
  exact h.push _ _ _ _

end Page.SameAbove

variable {tokens tokens' : List Token} {i k k' n : Nat} {t : Token} {s : State} {o : Options}
  {below below' : List Line} {page page' : Page}

/-! ## Plans -/

/-- A plan for the same token with its positions moved. -/
structure Plan.Moved (f : Nat → Nat) (p p' : Plan) : Prop where
  action : p'.action = p.action.moved f
  state : p'.state = p.state.moved f
  layout : p'.layout = p.layout

theorem Plan.labelledSwitch?_moved (f : Nat → Nat) (s : State) (owned : Bool) (kind : BlockKind) :
    labelledSwitch? (s.moved f) owned kind
      = (labelledSwitch? s owned kind).map (OpenBrace.moved f) := by
  have hinnermost : (s.moved f).braces.head?.filter (·.kind == .switch)
      = (s.braces.head?.filter (·.kind == .switch)).map (OpenBrace.moved f) := by
    rw [State.moved]
    cases s.braces with
    | nil => rfl
    | cons b outer =>
        simp only [List.map_cons, List.head?_cons, Option.filter_some,
          apply_ite (Option.map (OpenBrace.moved f))]
        rfl
  rw [labelledSwitch?, labelledSwitch?, hinnermost, apply_ite (Option.map (OpenBrace.moved f))]
  rfl

section

variable (h : Rejoins i k k' tokens tokens') (hget : tokens[n]? = some t) (hn : k ≤ n)
include h hget hn

section

variable (hcloser : (cursorAt tokens' (shifted k k' n) t).closer
  = (cursorAt tokens n t).closer.map (shifted k k'))
include hcloser

omit hget in
theorem Cursor.endsBehindBlock_moved :
    (cursorAt tokens' (shifted k k' n) t).endsBehindBlock
      = (cursorAt tokens n t).endsBehindBlock := by
  have hafter := Cursor.after_eq_of_ahead (h.ahead_cursorAt hn t)
  rw [endsBehindBlock, endsBehindBlock, hcloser]
  cases hclose : (cursorAt tokens n t).closer with
  | none => rfl
  | some close =>
      have hlt : n < close := Matching.lt_of_closers hclose
      have hdistance : shifted k k' close - shifted k k' n = close - n := by
        rw [shifted_of_le hn, shifted_of_le (Nat.le_trans hn (Nat.le_of_lt hlt))]
        omega
      simp only [Option.map_some, afterPosition, hafter]
      simp only [cursorAt, hdistance]

omit hget in
theorem Plan.onOneLine_moved :
    Plan.onOneLine (cursorAt tokens' (shifted k k' n) t)
      = Plan.onOneLine (cursorAt tokens n t) := by
  have hafter := Cursor.after_eq_of_ahead (h.ahead_cursorAt hn t)
  rw [onOneLine, onOneLine, hcloser]
  cases hclose : (cursorAt tokens n t).closer with
  | none => rfl
  | some close =>
      have hlt : n < close := Matching.lt_of_closers hclose
      have hdistance : shifted k k' close - shifted k k' n = close - n := by
        rw [shifted_of_le hn, shifted_of_le (Nat.le_trans hn (Nat.le_of_lt hlt))]
        omega
      simp only [Option.map_some, Cursor.upTo, hafter]
      simp only [cursorAt, hdistance]

omit hget in
theorem Plan.closesAtOnce_moved :
    ((cursorAt tokens' (shifted k k' n) t).closer
        == some ((cursorAt tokens' (shifted k k' n) t).position + 1))
      = ((cursorAt tokens n t).closer == some ((cursorAt tokens n t).position + 1)) := by
  have hposition : (cursorAt tokens n t).position = n := rfl
  have hposition' : (cursorAt tokens' (shifted k k' n) t).position = shifted k k' n := rfl
  rw [hcloser, hposition, hposition', ← shifted_succ hn]
  cases hclose : (cursorAt tokens n t).closer with
  | none => rfl
  | some close =>
      have hlt : n < close := Matching.lt_of_closers hclose
      have hiff := h.kept_shifted_eq_iff (.inr (Nat.le_trans hn (Nat.le_of_lt hlt)))
        (Nat.le_succ_of_le hn)
      rw [Option.map_some, Option.some_beq_some, Option.some_beq_some, Bool.eq_iff_iff, beq_iff_eq,
        beq_iff_eq]
      exact hiff

theorem Plan.opening_moved (hs : s.stmt.Rooted tokens i k n) :
    opening (cursorAt tokens' (shifted k k' n) t) o (s.moved (shifted k k'))
      = opening (cursorAt tokens n t) o s := by
  have hclassify := Cursor.classify_moved h hget hn hs (Cursor.endsBehindBlock_moved h hn hcloser)
  have hdo := Cursor.isWordAt_moved h hget hn hs.kept "do"
  have hindent := Cursor.statementIndent_moved (f := shifted k k') (h.ahead_cursorAt hn t) s
  have howns : ownsBlock (s.moved (shifted k k')).stmt = ownsBlock s.stmt := rfl
  simp only [opening, hclassify, hdo, hindent, howns, onOneLine_moved h hn hcloser,
    closesAtOnce_moved h hn hcloser, State.inKeptLine_moved, labelledSwitch?_moved]
  cases labelledSwitch? s (ownsBlock s.stmt) ((cursorAt tokens n t).classify s).1 <;> rfl

theorem Plan.openBrace_moved (hs : s.stmt.Rooted tokens i k n)
    (hpage : Page.SameAbove below below' page page') (cs cs' : List Conditional) :
    Plan.Moved (shifted k k') (openBrace (cursorAt tokens n t) o s cs page)
      (openBrace (cursorAt tokens' (shifted k k' n) t) o (s.moved (shifted k k')) cs' page') := by
  have hopening := opening_moved (o := o) h hget hn hcloser hs
  have hline := Cursor.lineIndent_moved (f := shifted k k') (o := o) (h.ahead_cursorAt hn t) s
  have hblank := Cursor.blankLines_moved (f := shifted k k') (o := o) (h.ahead_cursorAt hn t)
    hpage.isEmpty hpage.onlyComments s false false
  have hplacement : ∀ b, placement o (s.moved (shifted k k')) b = placement o s b := by
    intro b
    simp only [placement, labelledSwitch?_moved, Option.isSome_map]
    rfl
  have hindent : ∀ b, openIndent (cursorAt tokens' (shifted k k' n) t) o (s.moved (shifted k k')) b
      = openIndent (cursorAt tokens n t) o s b := by
    intro b
    simp only [openIndent, expressionIndent, hline, State.isEmpty_parens_moved,
      State.inListBlock_moved]
    rfl
  have hopens : ∀ b,
      opensLine (cursorAt tokens' (shifted k k' n) t) (s.moved (shifted k k')) page' b
      = opensLine (cursorAt tokens n t) s page b := by
    intro b
    simp only [opensLine, hpage.isEmpty, hpage.canJoin]
    rfl
  refine ⟨?_, rfl, ?_⟩
  · simp only [openBrace, hopening, Action.moved]
  · simp only [openBrace, hopening, hplacement, hindent, hopens, hblank]
    rfl

end

theorem Plan.code_moved (hs : s.stmt.Rooted tokens i k n)
    (hlast : ∀ p ∈ s.lastOnLine, p ≤ i ∨ k ≤ p + 1)
    (hpage : Page.SameAbove below below' page page') (cs cs' : List Conditional) :
    Plan.Moved (shifted k k') (code (cursorAt tokens n t) o s cs page)
      (code (cursorAt tokens' (shifted k k' n) t) o (s.moved (shifted k k')) cs' page') := by
  have hahead := h.ahead_cursorAt hn t
  have hbody : ∀ starts semicolon, { s.moved (shifted k k') with
      stmt := startBody (s.moved (shifted k k')).stmt starts semicolon, afterClose := none }
      = { s with stmt := startBody s.stmt starts semicolon, afterClose := none }.moved
        (shifted k k') := by
    intro starts semicolon
    have hstart := apply_ite (Statement.moved (shifted k k'))
      ((s.stmt.headerBodyPending && (starts || semicolon)) = true) { s.stmt with
        headerBodyPending := false
        headerExtra := if starts then s.stmt.headerExtra + 1 else s.stmt.headerExtra } s.stmt
    simp only [State.moved, startBody, hstart]
    rfl
  have hrole := fun starts semicolon => Cursor.role_moved h hget hn
    (s := { s with stmt := startBody s.stmt starts semicolon, afterClose := none })
    (hs.startBody starts semicolon) o.language.hasPointers
  have hspacing := fun starts semicolon => Cursor.spacing_moved h hget hn
    (s := { s with stmt := startBody s.stmt starts semicolon, afterClose := none }) hlast o
  have hbreaks : ∀ closed,
      breaksAfterClose o page' closed t = breaksAfterClose o page closed t := by
    intro closed
    rw [breaksAfterClose, breaksAfterClose, hpage.canJoin]
  have hactive : (s.moved (shifted k k')).stmt.active = s.stmt.active := rfl
  have htoken : (cursorAt tokens n t).token = t := rfl
  have htoken' : (cursorAt tokens' (shifted k k' n) t).token = t := rfl
  refine ⟨?_, ?_, ?_⟩
  · simp only [code, hbody, hactive, htoken, htoken', hrole, Action.moved]
  · simp only [code, hbody, hactive, htoken, htoken']
  · simp only [code, hbody, hactive, htoken, htoken', hrole, hspacing, hbreaks, hpage.isEmpty,
      Cursor.lineIndent_moved hahead,
      Cursor.blankLines_moved hahead hpage.isEmpty hpage.onlyComments]
    rfl

omit hget in
theorem Plan.comment_moved (hpage : Page.SameAbove below below' page page')
    (cs cs' : List Conditional) :
    Plan.Moved (shifted k k') (comment (cursorAt tokens n t) o s cs page)
      (comment (cursorAt tokens' (shifted k k' n) t) o (s.moved (shifted k k')) cs' page') := by
  have hahead := h.ahead_cursorAt hn t
  have hindent : commentIndent (cursorAt tokens' (shifted k k' n) t) o (s.moved (shifted k k'))
      = commentIndent (cursorAt tokens n t) o s := by
    simp only [commentIndent, Cursor.lineIndent_moved hahead]
    rfl
  refine ⟨rfl, rfl, ?_⟩
  simp only [comment, hindent, hpage.isEmpty,
    Cursor.blankLines_moved hahead hpage.isEmpty hpage.onlyComments]
  rfl

omit hget in
theorem Plan.strayBrace_moved (hpage : Page.SameAbove below below' page page') (s : State)
    (cs cs' : List Conditional) :
    Plan.Moved (shifted k k') (strayBrace (cursorAt tokens n t) o s cs page)
      (strayBrace (cursorAt tokens' (shifted k k' n) t) o (s.moved (shifted k k')) cs' page') := by
  have hahead := h.ahead_cursorAt hn t
  refine ⟨rfl, rfl, ?_⟩
  simp only [strayBrace, hpage.isEmpty,
    Cursor.blankLines_moved hahead hpage.isEmpty hpage.onlyComments]
  rfl

omit hget in
theorem Plan.closeBrace_moved (hpage : Page.SameAbove below below' page page')
    (cs cs' : List Conditional) :
    Plan.Moved (shifted k k') (closeBrace (cursorAt tokens n t) o s cs page)
      (closeBrace (cursorAt tokens' (shifted k k' n) t) o (s.moved (shifted k k')) cs' page') := by
  cases hbraces : s.braces with
  | nil =>
      have hmoved : (s.moved (shifted k k')).braces = [] :=
        congrArg (List.map (OpenBrace.moved (shifted k k'))) hbraces
      rw [closeBrace, closeBrace, hbraces, hmoved]
      exact strayBrace_moved h hn hpage { s with braces := [], afterClose := none } cs cs'
  | cons b outer =>
      have hmoved : (s.moved (shifted k k')).braces
          = b.moved (shifted k k') :: outer.map (OpenBrace.moved (shifted k k')) :=
        congrArg (List.map (OpenBrace.moved (shifted k k'))) hbraces
      have hstate : { s.moved (shifted k k') with
            afterClose := none
            braces := outer.map (OpenBrace.moved (shifted k k')) : State }
          = { s with afterClose := none, braces := outer : State }.moved (shifted k k') := rfl
      have hline : ∀ s : State,
          closesLine (cursorAt tokens' (shifted k k' n) t) (s.moved (shifted k k')) page'
              (b.moved (shifted k k'))
            = closesLine (cursorAt tokens n t) s page b := by
        intro s
        rw [closesLine, closesLine, hpage.isEmpty, State.inKeptLine_moved]
        rfl
      rw [closeBrace, closeBrace, hbraces, hmoved]
      refine ⟨rfl, hstate, ?_⟩
      simp only [hstate, hline, Cursor.blankLines_moved (h.ahead_cursorAt hn t) hpage.isEmpty
        hpage.onlyComments]
      rfl

/-- A token that is no directive is planned alike in both lists. -/
theorem Cursor.plan_moved (hkind : t.kind ≠ .directive) (hs : s.stmt.Rooted tokens i k n)
    (hlast : ∀ p ∈ s.lastOnLine, p ≤ i ∨ k ≤ p + 1)
    (hcloser : (cursorAt tokens' (shifted k k' n) t).closer
      = (cursorAt tokens n t).closer.map (shifted k k'))
    (hpage : Page.SameAbove below below' page page') (cs cs' : List Conditional) :
    Plan.Moved (shifted k k') ((cursorAt tokens n t).plan o s cs page)
      ((cursorAt tokens' (shifted k k' n) t).plan o (s.moved (shifted k k')) cs' page') := by
  have htoken : (cursorAt tokens n t).token = t := rfl
  have htoken' : (cursorAt tokens' (shifted k k' n) t).token = t := rfl
  have hbrace : Plan.Moved (shifted k k')
      (if t.is "\x7b" then .openBrace (cursorAt tokens n t) o s cs page
        else if t.is "\x7d" then .closeBrace (cursorAt tokens n t) o s cs page
        else .code (cursorAt tokens n t) o s cs page)
      (if t.is "\x7b" then
          .openBrace (cursorAt tokens' (shifted k k' n) t) o (s.moved (shifted k k')) cs' page'
        else if t.is "\x7d" then
          .closeBrace (cursorAt tokens' (shifted k k' n) t) o (s.moved (shifted k k')) cs' page'
        else .code (cursorAt tokens' (shifted k k' n) t) o (s.moved (shifted k k')) cs' page') := by
    split
    · exact Plan.openBrace_moved h hget hn hcloser hs hpage cs cs'
    · split
      · exact Plan.closeBrace_moved h hn hpage cs cs'
      · exact Plan.code_moved h hget hn hs hlast hpage cs cs'
  rw [plan, plan, htoken, htoken']
  cases hcases : t.kind with
  | directive => exact absurd hcases hkind
  | lineComment => exact Plan.comment_moved h hn hpage cs cs'
  | blockComment => exact Plan.comment_moved h hn hpage cs cs'
  | _ => exact hbrace

/-! ## What a token does to the state -/

theorem State.endsLabel_moved (hs : k ≤ s.stmt.start) :
    (s.moved (shifted k k')).endsLabel (cursorAt tokens' (shifted k k' n) t)
      = s.endsLabel (cursorAt tokens n t) := by
  rw [endsLabel, endsLabel, Cursor.statementCode_moved h hget hn hs, moved]
  cases s.braces with
  | nil => rfl
  | cons brace outer => cases (cursorAt tokens n t).statementCode s <;> rfl

omit hget in
theorem State.headerKeyword_lookBack (hs : Kept i k s.stmt.start)
    (hbegun : s.stmt.start = n ∨ CodeBetween tokens k n) :
    ((s.moved (shifted k k')).stmt.start == (cursorAt tokens' (shifted k k' n) t).position
        || (cursorAt tokens' (shifted k k' n) t).prevCode.any (·.isWord "else"))
      = (s.stmt.start == (cursorAt tokens n t).position
        || (cursorAt tokens n t).prevCode.any (·.isWord "else")) := by
  have hstart : ((s.moved (shifted k k')).stmt.start
        == (cursorAt tokens' (shifted k k' n) t).position)
      = (s.stmt.start == (cursorAt tokens n t).position) := by
    rw [Bool.eq_iff_iff, beq_iff_eq, beq_iff_eq]
    exact h.kept_shifted_eq_iff hs hn
  rw [hstart]
  rcases hbegun with hbegun | hcode
  · have hhere : (s.stmt.start == (cursorAt tokens n t).position) = true := beq_iff_eq.mpr hbegun
    rw [hhere, Bool.true_or, Bool.true_or]
  · rw [h.prevCode_cursorAt hn hcode]

theorem State.afterCode_moved (hs : Kept i k s.stmt.start)
    (hbegun : t.is ";" = false → s.stmt.start = n ∨ k ≤ s.stmt.start ∧ CodeBetween tokens k n)
    (hname : t.isOneOf ["(", "["] = true → s.inCodeScope = true ∨
      (cursorAt tokens' (shifted k k' n) t).behindName = (cursorAt tokens n t).behindName)
    (lineIndent : Indent) :
    (s.moved (shifted k k')).afterCode (cursorAt tokens' (shifted k k' n) t) o lineIndent
      = (s.afterCode (cursorAt tokens n t) o lineIndent).moved (shifted k k') := by
  have hahead := h.ahead_cursorAt hn t
  have htoken : (cursorAt tokens n t).token = t := rfl
  have htoken' : (cursorAt tokens' (shifted k k' n) t).token = t := rfl
  have hinitializer : (s.moved (shifted k k')).innermostIs (·.kind == .initializer)
      = s.innermostIs (·.kind == .initializer) := s.innermostIs_moved _ fun _ => rfl
  rw [afterCode, afterCode, htoken, htoken']
  cases hkind : t.kind with
  | word =>
      have hword : t.is ";" = false := by rw [Token.is, hkind]; rfl
      refine headerKeyword_moved hahead s (headerKeyword_lookBack h hn hs ?_)
      rcases hbegun hword with hstart | ⟨-, hcode⟩
      · exact .inl hstart
      · exact .inr hcode
  | punctuation =>
      dsimp only
      rw [hinitializer, isEmpty_parens_moved]
      have hopen : ∀ text, t.text = text → ["(", "["].contains text = true →
          t.isOneOf ["(", "["] = true := by
        rintro text rfl hmem
        rw [Token.isOneOf, hkind, hmem]
        rfl
      split
      · next htext => exact openParen_moved hahead rfl s (hname (hopen _ htext rfl)) lineIndent
      · next htext => exact openParen_moved hahead rfl s (hname (hopen _ htext rfl)) lineIndent
      · exact closeParen_moved s
      · exact closeParen_moved s
      · split
        · exact endStatement_moved hahead s
        · rfl
      · rfl
      · next htext =>
          have hcolon : t.is ";" = false := by rw [Token.is, hkind, htext]; rfl
          have hstart : k ≤ s.stmt.start := by
            rcases hbegun hcolon with hstart | ⟨hstart, -⟩
            · exact hstart ▸ hn
            · exact hstart
          exact colon_moved s (endsLabel_moved h hget hn hstart)
      · rfl
  | _ => rfl

theorem State.settleCode_moved (hs : s.stmt.Rooted tokens i k n) {starts : Bool}
    (hstarts : starts = (!s.stmt.active && !t.is ";"))
    (hname : t.isOneOf ["(", "["] = true → s.inCodeScope = true ∨
      (cursorAt tokens' (shifted k k' n) t).behindName = (cursorAt tokens n t).behindName)
    (layout : Layout) (lineIndent : Indent) (role : Role) :
    (s.moved (shifted k k')).settleCode (cursorAt tokens' (shifted k k' n) t) o layout lineIndent
        starts role
      = (s.settleCode (cursorAt tokens n t) o layout lineIndent starts role).moved
        (shifted k k') := by
  have hahead := h.ahead_cursorAt hn t
  rw [settleCode, settleCode]
  cases hcases : starts with
  | true =>
      have hbegin := beginStatement_moved (f := shifted k k') hahead rfl s layout lineIndent
      simp only [if_true, hbegin, owesSpacing_moved hahead]
      exact afterCode_moved h hget hn
        (s := (s.beginStatement (cursorAt tokens n t) layout lineIndent).owesSpacing
          (cursorAt tokens n t) o role)
        (.inr hn) (fun _ => .inl rfl) hname lineIndent
  | false =>
      simp only [Bool.false_eq_true, if_false, owesSpacing_moved hahead]
      refine afterCode_moved h hget hn (s := s.owesSpacing (cursorAt tokens n t) o role) hs.kept
        (fun hsemicolon => .inr ?_) hname lineIndent
      have hactive : s.stmt.active = true := by
        rw [hcases, hsemicolon, Bool.not_false, Bool.and_true] at hstarts
        simpa using hstarts.symm
      exact ⟨(hs.start hactive).le, _, hs.start hactive⟩

theorem State.settle_moved (hs : s.stmt.Rooted tokens i k n) {p p' : Plan}
    (hp : Plan.Moved (shifted k k') p p')
    (hstarts : ∀ starts role, p.action = .code starts role →
      starts = (!s.stmt.active && !t.is ";"))
    (hname : t.isOneOf ["(", "["] = true → s.inCodeScope = true ∨
      (cursorAt tokens' (shifted k k' n) t).behindName = (cursorAt tokens n t).behindName)
    (lineIndent : Indent) :
    (s.moved (shifted k k')).settle (cursorAt tokens' (shifted k k' n) t) o p' lineIndent
      = (s.settle (cursorAt tokens n t) o p lineIndent).moved (shifted k k') := by
  have hahead := h.ahead_cursorAt hn t
  have hzero : shifted k k' 0 = 0 := shifted_of_lt
    (Nat.lt_of_le_of_lt (Nat.succ_le_succ (Nat.zero_le i)) h.lt)
  rw [settle, settle, hp.action, hp.layout]
  cases haction : p.action with
  | directive => rfl
  | comment => rfl
  | code starts role =>
      exact settleCode_moved h hget hn hs (hstarts starts role haction) hname p.layout lineIndent
        role
  | openBrace b => exact settleOpen_moved hzero s b lineIndent
  | closeBrace closed =>
      cases closed with
      | none => rfl
      | some b => exact settleClose_moved hahead s b

end

end Beautifier
