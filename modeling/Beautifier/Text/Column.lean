/-
Visual columns.

A tab advances to the next multiple of the tab width, every other character
by one column.
-/

namespace Beautifier.Column

/-- The column behind a character written at `column`. -/
def step (tabWidth column : Nat) (c : Char) : Nat :=
  if c = '\t' then (column / tabWidth + 1) * tabWidth else column + 1

/-- The column behind a text written at `column`. -/
def advance (tabWidth column : Nat) (text : List Char) : Nat :=
  text.foldl (step tabWidth) column

/-- The width of a text that starts a line. -/
def width (tabWidth : Nat) (text : List Char) : Nat := advance tabWidth 0 text

/-- A text written at `column` with each tab replaced by the spaces it stands for. -/
def expandTabs (tabWidth : Nat) : Nat → List Char → List Char
  | _, [] => []
  | column, c :: rest =>
      let next := step tabWidth column c
      if c = '\t' then List.replicate (next - column) ' ' ++ expandTabs tabWidth next rest
      else c :: expandTabs tabWidth next rest

theorem advance_nil (w column : Nat) : advance w column [] = column := rfl

@[simp] theorem advance_cons (w column : Nat) (c : Char) (text : List Char) :
    advance w column (c :: text) = advance w (step w column c) text := rfl

theorem advance_append (w column : Nat) (s t : List Char) :
    advance w column (s ++ t) = advance w (advance w column s) t := by
  simp [advance]

end Beautifier.Column
