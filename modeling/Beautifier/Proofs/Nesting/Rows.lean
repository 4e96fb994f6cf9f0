/-
Statements under headers, and the rows they are written in.

A statement is a word and a semicolon, a block, or a header with its body; an
`if` may have an `else`.  It is written in rows, each at a level: a statement in
a block is one level deeper than the braces, the body of a header one level
deeper than the header unless it is a block, and every `else` is at the level of
the row that its `if` stands on.  An `if` behind `else` goes on with the row of
the `else`.

The grammar says which `if` an `else` belongs to: what stands between the two
does not end in an `if` without `else`, which the index of `Stmt` keeps track of.
-/
import Beautifier.Token.Keyword
import Beautifier.Token.Scanner

namespace Beautifier.Nesting

/-- A word that is no header. -/
structure Word where
  first : Char
  others : List Char
  starts : Scanner.isWordStart first = true
  goesOn : ∀ c ∈ others, Scanner.isWordChar c = true
  notHeader : Keyword.isHeader (String.ofList (first :: others)) = false

namespace Word

def chars (w : Word) : List Char := w.first :: w.others

def text (w : Word) : String := String.ofList w.chars

end Word

/-! ## Statements -/

mutual

/-- A statement; the index says whether it ends in an `if` without `else`. -/
inductive Stmt : Bool → Type where
  | simple (w : Word) : Stmt false
  | ifThen {dangling : Bool} (w : Word) (body : Stmt dangling) : Stmt true
  | ifElse {dangling : Bool} (w : Word) (body : Stmt false) (branch : Stmt dangling) :
      Stmt dangling
  | loop {dangling : Bool} (w : Word) (body : Stmt dangling) : Stmt dangling
  | block (body : Stmts) : Stmt false

inductive Stmts : Type where
  | nil : Stmts
  | cons {dangling : Bool} (s : Stmt dangling) (rest : Stmts) : Stmts

end

/-! ## Rows -/

/-- What stands on one line. -/
inductive Row where
  | simple (w : Word)
  /-- The header of an `if`, perhaps behind an `else`. -/
  | ifHeader (behindElse : Bool) (w : Word)
  | elseHeader
  | loopHeader (w : Word)
  | opening
  | closing

/-- Blanks at the start of a line. -/
structure Blanks where
  chars : List Char
  isGap : ∀ c ∈ chars, isGapChar c = true

namespace Row

def condition (w : Word) : List Char := '(' :: w.chars ++ [')']

def chars : Row → List Char
  | simple w => w.chars ++ [';']
  | ifHeader behindElse w =>
      (if behindElse then "else if ".toList else "if ".toList) ++ condition w
  | elseHeader => "else".toList
  | loopHeader w => "while ".toList ++ condition w
  | opening => ['\x7b']
  | closing => ['\x7d']

def text (row : Row) : String := String.ofList row.chars

end Row

namespace Stmt

variable {dangling : Bool}

def isBlock : Stmt dangling → Bool
  | block _ => true
  | _ => false

def isIf : Stmt dangling → Bool
  | ifThen _ _ | ifElse _ _ _ => true
  | _ => false

def bodyLevel (s : Stmt dangling) (level : Nat) : Nat := if s.isBlock then level else level + 1

end Stmt

mutual

/-- The rows of a statement at a level.  Only an `if` may stand behind an `else` on its row. -/
def Stmt.rows {dangling : Bool} (behindElse : Bool) (level : Nat) :
    Stmt dangling → List (Nat × Row)
  | .simple w => [(level, .simple w)]
  | .ifThen w body => (level, .ifHeader behindElse w) :: body.rows false (body.bodyLevel level)
  | .ifElse w body branch =>
      (level, .ifHeader behindElse w) :: body.rows false (body.bodyLevel level) ++
        if branch.isIf then branch.rows true level
        else (level, .elseHeader) :: branch.rows false (branch.bodyLevel level)
  | .loop w body => (level, .loopHeader w) :: body.rows false (body.bodyLevel level)
  | .block body => (level, .opening) :: body.rows (level + 1) ++ [(level, .closing)]

def Stmts.rows (level : Nat) : Stmts → List (Nat × Row)
  | .nil => []
  | .cons s rest => s.rows false level ++ rest.rows level

end

end Beautifier.Nesting
