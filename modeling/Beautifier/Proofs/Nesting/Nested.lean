/-
The layout of nested statements.

Whatever the blanks at the starts of its lines, a list of statements that is
written in rows is laid out in the same rows, each at its level
(`format_nested`).  The levels owed to headers are followed through the grammar:
a statement that begins with some levels owed ends with those of the `if` whose
`else` comes next, or with none (`Stmt.LaidOut`).  There is one lemma for each
form of statement, and the induction puts them together.
-/
import Beautifier.Proofs.Nesting.RowSteps

namespace Beautifier.Nesting

/-- The signs of rows at levels. -/
def rowSigns (rows : List (Nat × Row)) : List Sign := rows.flatMap fun r => r.2.signs

/-- The lines that rows at levels are laid out on, the last one first. -/
def linesBack (rows : List (Nat × Row)) : List Line :=
  (rows.map fun r => rowLine r.1 r.2.text).reverse

section
variable (r : Nat × Row) (rows others : List (Nat × Row)) (lines : List Line)

@[simp] theorem rowSigns_nil : rowSigns [] = [] := rfl

@[simp] theorem rowSigns_cons : rowSigns (r :: rows) = r.2.signs ++ rowSigns rows := by
  simp [rowSigns]

@[simp] theorem rowSigns_append : rowSigns (rows ++ others) = rowSigns rows ++ rowSigns others := by
  simp [rowSigns]

@[simp] theorem linesBack_nil : linesBack [] = [] := rfl

@[simp] theorem linesBack_cons :
    linesBack (r :: rows) = linesBack rows ++ [rowLine r.1 r.2.text] := by
  simp [linesBack]

@[simp] theorem linesBack_append :
    linesBack (rows ++ others) = linesBack others ++ linesBack rows := by
  simp [linesBack]

end

variable {signs : List Sign} {tokens : List Token} {n level : Nat} {dangling : Bool}

/-! ## What a statement does -/

/-- A statement is laid out in its rows.  An `else` behind it belongs to an `if` around it, and
the levels owed behind it are those of that `if`. -/
def Stmt.LaidOut (signs : List Sign) (tokens : List Token) (stmt : Stmt dangling) : Prop :=
  ∀ (behindElse : Bool) (level n : Nat) (s : Nest) (lines : List Line),
    level = (if s.pending then stmt.bodyLevel (baseLevel s.braces + s.extra)
      else baseLevel s.braces + s.extra) →
    At signs n (rowSigns (stmt.rows behindElse level)) →
    let rows := stmt.rows behindElse level
    let beforeElse := wordAt signs (n + (rowSigns rows).length) "else"
    (beforeElse = true → dangling = false ∧ s.ifs ≠ []) → Between tokens n s lines →
      Between tokens (n + (rowSigns rows).length) (s.ended beforeElse) (linesBack rows ++ lines)

/-- Statements of a block are laid out in their rows; between them no levels are owed. -/
def Stmts.LaidOut (signs : List Sign) (tokens : List Token) (stmts : Stmts) : Prop :=
  ∀ (n : Nat) (braces : List OpenBrace) (lines : List Line),
    At signs n (rowSigns (stmts.rows (baseLevel braces))) →
    let rows := stmts.rows (baseLevel braces)
    wordAt signs (n + (rowSigns rows).length) "else" = false →
    Between tokens n ⟨braces, 0, [], false⟩ lines →
      Between tokens (n + (rowSigns rows).length) ⟨braces, 0, [], false⟩ (linesBack rows ++ lines)

/-- The rows of a statement start with the first sign of a row, which is no `else`, and no `if`
unless the statement is one. -/
theorem Stmt.exists_first (stmt : Stmt dangling) (level : Nat) :
    ∃ kind text more, rowSigns (stmt.rows false level) = ⟨none, kind, text⟩ :: more ∧
      text ≠ "else" ∧ (stmt.isIf = false → text ≠ "if") := by
  cases stmt with
  | simple w =>
      exact ⟨_, _, _, rfl, w.text_ne (by decide), fun _ => w.text_ne (by decide)⟩
  | ifThen w body => exact ⟨_, _, _, rfl, by decide, nofun⟩
  | ifElse w body branch => exact ⟨_, _, _, rfl, by decide, nofun⟩
  | loop w body => exact ⟨_, _, _, rfl, by decide, fun _ => by decide⟩
  | block body => exact ⟨_, _, _, rfl, by decide, fun _ => by decide⟩

theorem wordAt_of_head {x : Sign} {more : List Sign} {text : String} (h : At signs n (x :: more))
    (hx : x.text ≠ text) : wordAt signs n text = false := by
  rw [wordAt, h.head, Option.any_some, beq_eq_false_iff_ne.mpr hx, Bool.and_false]

theorem wordAt_of_rows {stmt : Stmt dangling} (h : At signs n (rowSigns (stmt.rows false level))) :
    wordAt signs n "else" = false ∧ (stmt.isIf = false → wordAt signs n "if" = false) := by
  obtain ⟨kind, text, more, heq, helse, hif⟩ := stmt.exists_first level
  rw [heq] at h
  exact ⟨wordAt_of_head h helse, fun hstmt => wordAt_of_head h (hif hstmt)⟩

/-! ## One lemma for each form -/

/-- A statement that is no block stands at the level of a header. -/
theorem level_eq {stmt : Stmt dangling} {s : Nest} (hblock : stmt.isBlock = false)
    (h : level = if s.pending then stmt.bodyLevel (baseLevel s.braces + s.extra)
      else baseLevel s.braces + s.extra) : level = s.level := by
  rw [h, Nest.level, Nest.deeper, Stmt.bodyLevel, hblock]
  cases s.pending <;> rfl

section
variable (hsource : Source signs tokens)
include hsource

theorem laidOut_simple (w : Word) : (Stmt.simple w).LaidOut signs tokens := by
  intro behindElse level n s lines hlevel hat rows beforeElse _ hbetween
  obtain rfl := level_eq rfl hlevel
  have hat : At signs n (Row.simple w).signs := by simpa [Stmt.rows] using hat
  exact hsource.simple hbetween hat

theorem laidOut_loop (w : Word) {body : Stmt dangling} (hbody : body.LaidOut signs tokens) :
    (Stmt.loop w body).LaidOut signs tokens := by
  intro behindElse level n s lines hlevel hat rows beforeElse helse hbetween
  obtain rfl := level_eq rfl hlevel
  simp only [rows, beforeElse, Stmt.rows, rowSigns_cons, linesBack_cons, List.length_append,
    List.append_assoc, List.singleton_append, ← Nat.add_assoc] at hat helse ⊢
  have hheader := hsource.loopHeader hbetween hat.left
  exact hbody false _ _ s.behindHeader _ rfl hat.right helse hheader

theorem laidOut_ifThen (w : Word) {body : Stmt dangling} (hbody : body.LaidOut signs tokens) :
    (Stmt.ifThen w body).LaidOut signs tokens := by
  intro behindElse level n s lines hlevel hat rows beforeElse helse hbetween
  obtain rfl := level_eq rfl hlevel
  -- the `if` has no `else`, so none comes next
  have hnone : beforeElse = false := Bool.eq_false_iff.mpr fun h => by cases (helse h).1
  simp only [rows, beforeElse, Stmt.rows, rowSigns_cons, linesBack_cons, List.length_append,
    List.append_assoc, List.singleton_append, ← Nat.add_assoc] at hat hnone ⊢
  have hheader := hsource.ifHeader hbetween hat.left
  have hlaid := hbody false (body.bodyLevel s.level) _ s.behindIf _ rfl hat.right
    (fun h => absurd (h.symm.trans hnone) nofun) hheader
  rw [hnone] at hlaid ⊢
  exact hlaid

/-- The rows of an `else` and its branch. -/
def Stmt.elseRows (level : Nat) (branch : Stmt dangling) : List (Nat × Row) :=
  if branch.isIf then branch.rows true level
  else (level, .elseHeader) :: branch.rows false (branch.bodyLevel level)

omit hsource in
theorem wordAt_elseRows {branch : Stmt dangling}
    (hat : At signs n (rowSigns (branch.elseRows level))) : wordAt signs n "else" = true := by
  have helse : ∃ more, rowSigns (branch.elseRows level) = ⟨none, .word, "else"⟩ :: more := by
    cases branch <;> exact ⟨_, rfl⟩
  obtain ⟨more, hmore⟩ := helse
  rw [hmore] at hat
  rw [wordAt, hat.head]
  rfl

/-- An `else` stands at the level of its `if`, and so does an `if` that goes on with its row. -/
theorem laidOut_else {branch : Stmt dangling} (hbranch : branch.LaidOut signs tokens) {s : Nest}
    {lines : List Line} (hpending : s.pending = false)
    (hat : At signs n (rowSigns (branch.elseRows s.level))) :
    let rows := branch.elseRows s.level
    let beforeElse := wordAt signs (n + (rowSigns rows).length) "else"
    (beforeElse = true → dangling = false ∧ s.ifs ≠ []) → Between tokens n s lines →
      Between tokens (n + (rowSigns rows).length) (s.ended beforeElse)
        (linesBack rows ++ lines) := by
  intro rows beforeElse helse hbetween
  have hlevel : s.level = baseLevel s.braces + s.extra := by
    rw [Nest.level, Nest.deeper, hpending]
    rfl
  cases hif : branch.isIf with
  | true =>
      have hrows : branch.elseRows s.level = branch.rows true s.level := if_pos hif
      simp only [rows, beforeElse, hrows] at hat helse ⊢
      exact hbranch true _ _ s _ (by rw [hpending, hlevel]; rfl) hat helse hbetween
  | false =>
      have hrows : branch.elseRows s.level
          = (s.level, .elseHeader) :: branch.rows false (branch.bodyLevel s.level) :=
        if_neg (Bool.eq_false_iff.mp hif)
      simp only [rows, beforeElse, hrows, rowSigns_cons, linesBack_cons, List.length_append,
        List.append_assoc, List.singleton_append, ← Nat.add_assoc] at hat helse ⊢
      have hnext : wordAt signs (n + 1) "if" = false := (wordAt_of_rows hat.right).2 hif
      have hheader := hsource.elseHeader hbetween hat.left hnext
      exact hbranch false _ _ s.behindHeader _ rfl hat.right helse hheader

theorem laidOut_ifElse (w : Word) {body : Stmt false} {branch : Stmt dangling}
    (hbody : body.LaidOut signs tokens) (hbranch : branch.LaidOut signs tokens) :
    (Stmt.ifElse w body branch).LaidOut signs tokens := by
  intro behindElse level n s lines hlevel hat rows beforeElse helse hbetween
  obtain rfl := level_eq rfl hlevel
  have hrows : rows = (s.level, .ifHeader behindElse w)
      :: (body.rows false (body.bodyLevel s.level) ++ branch.elseRows s.level) := rfl
  rw [show (Stmt.ifElse w body branch).rows behindElse s.level = rows from rfl] at hat
  simp only [beforeElse, hrows, rowSigns_cons, rowSigns_append, linesBack_cons, linesBack_append,
    List.length_append, List.append_assoc, List.singleton_append, ← Nat.add_assoc]
    at hat helse ⊢
  have hheader := hsource.ifHeader hbetween hat.left
  have helseNext := wordAt_elseRows hat.right.right
  have hlaid := hbody false (body.bodyLevel s.level) _ s.behindIf _ rfl hat.right.left
    (fun _ => ⟨rfl, List.cons_ne_nil _ _⟩) hheader
  rw [helseNext] at hlaid
  exact laidOut_else hsource hbranch (s := s.behindIf.ended true) rfl hat.right.right helse hlaid

/-- A block stands at the level of its header, if it is the body of one. -/
theorem laidOut_block {body : Stmts} (hbody : body.LaidOut signs tokens) :
    (Stmt.block body).LaidOut signs tokens := by
  intro behindElse level n s lines hlevel hat rows beforeElse helse hbetween
  obtain rfl : level = baseLevel s.braces + s.extra := by
    rw [hlevel, Stmt.bodyLevel]
    exact ite_self _
  simp only [rows, beforeElse, Stmt.rows, List.cons_append, rowSigns_cons, rowSigns_append,
    rowSigns_nil, linesBack_cons, linesBack_append, linesBack_nil, List.length_append,
    List.append_assoc, List.append_nil, List.nil_append, ← Nat.add_assoc] at hat helse ⊢
  obtain ⟨kind, mark, hnext⟩ : ∃ kind mark, signs[n + 1]? = some ⟨none, kind, mark⟩ := by
    have hinside := hat.right
    cases body with
    | nil => exact ⟨_, _, hinside.head⟩
    | cons stmt rest =>
        obtain ⟨kind, text, more, heq, -⟩ := stmt.exists_first (baseLevel s.braces + s.extra + 1)
        rw [Stmts.rows, rowSigns_append, heq] at hinside
        exact ⟨kind, text, hinside.head⟩
  obtain ⟨b, hb, houter, hopened⟩ := hsource.opening hbetween hat.left hnext
  have hbase : baseLevel (b :: s.braces) = baseLevel s.braces + s.extra + 1 := by
    rw [baseLevel, hb.body]
  have hlaid := hbody (n + 1) (b :: s.braces)
  rw [hbase] at hlaid
  have hinside := hlaid _ hat.right.left (wordAt_of_head hat.right.right (by decide)) hopened
  exact hsource.closing hbetween.blocks hb houter hinside hat.right.right fun h => (helse h).2

end

theorem laidOut_nil : Stmts.nil.LaidOut signs tokens :=
  fun _ _ _ _ _ hbetween => hbetween

theorem laidOut_cons {stmt : Stmt dangling} {rest : Stmts} (hstmt : stmt.LaidOut signs tokens)
    (hrest : rest.LaidOut signs tokens) : (Stmts.cons stmt rest).LaidOut signs tokens := by
  intro n braces lines hat rows helse hbetween
  simp only [rows, Stmts.rows, rowSigns_append, linesBack_append, List.length_append,
    List.append_assoc, ← Nat.add_assoc] at hat helse ⊢
  -- what comes next is the next statement or what stands behind them all
  have hnext : wordAt signs
      (n + (rowSigns (stmt.rows false (baseLevel braces))).length) "else" = false := by
    cases rest with
    | nil => exact helse
    | cons next more =>
        have hat := hat.right
        rw [Stmts.rows, rowSigns_append] at hat
        exact (wordAt_of_rows hat.left).1
  have hlaid := hstmt false (baseLevel braces) n ⟨braces, 0, [], false⟩ lines rfl hat.left
    (fun h => absurd (h.symm.trans hnext) nofun) hbetween
  rw [hnext] at hlaid
  exact hrest _ braces _ hat.right helse hlaid

/-! ## All statements -/

mutual

theorem Stmt.laidOut (hsource : Source signs tokens) {dangling : Bool} :
    ∀ stmt : Stmt dangling, stmt.LaidOut signs tokens
  | .simple w => laidOut_simple hsource w
  | .ifThen w body => laidOut_ifThen hsource w (body.laidOut hsource)
  | .ifElse w body branch =>
      laidOut_ifElse hsource w (body.laidOut hsource) (branch.laidOut hsource)
  | .loop w body => laidOut_loop hsource w (body.laidOut hsource)
  | .block body => laidOut_block hsource (body.laidOut hsource)

theorem Stmts.laidOut (hsource : Source signs tokens) :
    ∀ stmts : Stmts, stmts.LaidOut signs tokens
  | .nil => laidOut_nil
  | .cons stmt rest => laidOut_cons (stmt.laidOut hsource) (rest.laidOut hsource)

end

/-! ## The text -/

theorem Row.exists_last (row : Row) : ∃ front last, row.chars = front ++ [last] ∧
    isBlank last = false := by
  cases row with
  | simple w => exact ⟨_, ';', rfl, rfl⟩
  | ifHeader behindElse w =>
      exact ⟨_, ')', (List.append_assoc _ ('(' :: w.chars) [')']).symm, rfl⟩
  | elseHeader => exact ⟨['e', 'l', 's'], 'e', rfl, rfl⟩
  | loopHeader w => exact ⟨_, ')', (List.append_assoc _ ('(' :: w.chars) [')']).symm, rfl⟩
  | opening => exact ⟨[], '\x7b', rfl, rfl⟩
  | closing => exact ⟨[], '\x7d', rfl, rfl⟩

theorem chars_rowLine (level : Nat) (row : Row) :
    (rowLine level row.text).chars .spaces defaultIndentWidth
      = List.replicate (level * defaultIndentWidth) ' ' ++ row.chars := by
  obtain ⟨front, last, hchars, hlast⟩ := row.exists_last
  have htext : (rowLine level row.text).text.toList = front ++ [last] := by
    rw [← hchars]
    exact String.toList_ofList
  have htrim : trimRight isBlank (front ++ [last]) = front ++ [last] := trimRight_concat hlast front
  rw [Line.chars, htext, show (rowLine level row.text).trimmed = true from rfl, if_pos rfl, htrim,
    hchars]
  simp [rowLine, Line.empty, Indent.chars, Indent.columns]

theorem chars_linesBack (rows : List (Nat × Row)) :
    (linesBack rows).reverse.map (Line.chars .spaces defaultIndentWidth)
      = rows.map fun row => List.replicate (row.1 * defaultIndentWidth) ' ' ++ row.2.chars := by
  rw [linesBack, List.reverse_reverse, List.map_map]
  exact List.map_congr_left fun row _ => chars_rowLine row.1 row.2

/-- Before the first row nothing is open and nothing is owed. -/
theorem between_zero (tokens : List Token) : Between tokens 0 ⟨[], 0, [], false⟩ [] where
  blocks := List.forall_mem_nil _
  braces := by
    rw [stage_zero]
    rfl
  stmt := by
    rw [stage_zero]
    exact ⟨0, .zero, rfl, nofun⟩
  page := by
    rw [stage_zero]
    rfl
  empty := iff_of_true rfl rfl

/-- The tokens of statements are laid out on the lines of their rows. -/
theorem layOut_rows {program : Stmts} (hsource : Source (rowSigns (program.rows 0)) tokens) :
    (layOut .default tokens).lines = linesBack (program.rows 0) := by
  have hend : wordAt (rowSigns (program.rows 0)) (0 + (rowSigns (program.rows 0)).length) "else"
      = false := by
    rw [wordAt, Nat.zero_add, List.getElem?_length]
    rfl
  have hlaid := program.laidOut hsource 0 [] [] (List.prefix_refl _) hend (between_zero tokens)
  have hpage : (stage .default tokens (0 + (rowSigns (program.rows 0)).length)).page.lines
      = linesBack (program.rows 0) ++ [] := hlaid.page
  rw [Nat.zero_add, List.append_nil] at hpage
  rw [layOut_eq_stage, hsource.tells.length_eq, hpage]

theorem forall₂_on (rows : List (Nat × Row)) (lead : Nat → Blanks) :
    List.Forall₂ Row.On (rows.map Prod.snd)
      (rows.mapIdx fun n row => (lead n).chars ++ row.2.chars) := by
  induction rows generalizing lead with
  | nil => exact .nil
  | cons row rows ih =>
      rw [List.map_cons, List.mapIdx_cons]
      exact .cons ⟨_, (lead 0).isGap, rfl⟩ (ih fun n => lead (n + 1))

/-- Lists of nested statements are laid out in their rows: whatever the blanks at the starts of
the lines, each line is indented by the level of its row and otherwise stays as it is. -/
theorem format_nested (program : Stmts) (lead : Nat → Blanks) (e : LineEnd) (trailing : Nat) :
    format .default (writeLines e trailing
        ((program.rows 0).mapIdx fun n row => (lead n).chars ++ row.2.chars))
      = writeLines e trailing ((program.rows 0).map fun row =>
          List.replicate (row.1 * defaultIndentWidth) ' ' ++ row.2.chars) := by
  have hon := forall₂_on (program.rows 0) lead
  obtain ⟨htells, htrailing, hlineEnd⟩ := tokenize_rows hon e trailing defaultIndentWidth
  have hsigns : ((program.rows 0).map Prod.snd).flatMap Row.signs = rowSigns (program.rows 0) :=
    List.flatMap_map ..
  have hordinary : ∀ x ∈ rowSigns (program.rows 0), x.Ordinary := by
    intro x hx
    obtain ⟨row, -, hx⟩ := List.mem_flatMap.mp hx
    exact row.2.ordinary x hx
  rw [hsigns] at htells
  have hlines := layOut_rows ⟨htells, hordinary⟩
  let source := writeLines e trailing
    ((program.rows 0).mapIdx fun n row => (lead n).chars ++ row.2.chars)
  let stream := tokenize .c defaultIndentWidth source
  calc format .default source
      = (layOut .default stream.tokens).render .spaces defaultIndentWidth
          (stream.lineEnd.getD .linux) stream.trailingBreaks := rfl
    _ = writeLines (stream.lineEnd.getD .linux) stream.trailingBreaks
          ((linesBack (program.rows 0)).reverse.map (Line.chars .spaces defaultIndentWidth)) :=
        congrArg (fun lines : List Line => writeLines _ _
          (lines.reverse.map (Line.chars .spaces defaultIndentWidth))) hlines
    _ = writeLines e trailing _ := by
        rw [hlineEnd, htrailing, writeLines_firstEnd (breakless_of_on hon) (by simp [linesBack]),
          chars_linesBack]

/-- The body of a loop is a block, and the `else` of the `if` around it goes on with an `if`. -/
example :
    let x : Word := ⟨'x', [], rfl, by simp, rfl⟩
    let program : Stmts := .cons
      (.ifElse x (.loop x (.block (.cons (.simple x) .nil))) (.ifElse x (.simple x) (.simple x)))
      .nil
    (program.rows 0).map (fun row => (row.1, String.ofList row.2.chars))
      = [(0, "if (x)"), (1, "while (x)"), (1, "\x7b"), (2, "x;"), (1, "\x7d"),
         (0, "else if (x)"), (1, "x;"), (0, "else"), (1, "x;")] := by
  decide

end Beautifier.Nesting
