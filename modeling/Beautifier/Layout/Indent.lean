/-
Indentation: whole levels and spaces for alignment.
-/
import Beautifier.Options.Basic

namespace Beautifier

structure Indent where
  levels : Nat
  spaces : Nat
deriving DecidableEq, Repr

namespace Indent

def zero : Indent := ⟨0, 0⟩

def ofSpaces (n : Nat) : Indent := ⟨0, n⟩

def deeper (i : Indent) (n : Nat) : Indent := { i with levels := i.levels + n }

def plusSpaces (i : Indent) (n : Nat) : Indent := { i with spaces := i.spaces + n }

/-- The columns an indentation takes up when a level is `width` columns. -/
def columns (width : Nat) (i : Indent) : Nat := i.levels * width + i.spaces

/-- An indentation of `column` columns, with the levels of `i` where they fit. -/
def alignedTo (width : Nat) (i : Indent) (column : Nat) : Indent :=
  if i.levels * width ≤ column then { i with spaces := column - i.levels * width }
  else ofSpaces column

def chars (kind : IndentKind) (width : Nat) (i : Indent) : List Char :=
  let (tabs, spaces) := match kind with
    | .spaces => (0, i.columns width)
    | .tab => (i.levels, i.spaces)
    | .forceTab => (i.columns width / width, i.columns width % width)
  List.replicate tabs '\t' ++ List.replicate spaces ' '

@[simp] theorem columns_alignedTo (width : Nat) (i : Indent) (column : Nat) :
    (i.alignedTo width column).columns width = column := by
  unfold alignedTo
  split
  · simp only [columns]
    omega
  · simp [columns, ofSpaces]

end Indent

end Beautifier
