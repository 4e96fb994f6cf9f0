/-
Paths as patterns see them.

A path is cut at slashes; empty parts and `.` vanish, and `..` takes the
part before it away.  What is left is written behind one slash, and behind
two if the path is absolute.
-/
import Beautifier.Text.Blank

namespace Beautifier.Path

def isRooted (path : String) : Bool := path.toList.head? == some '/'

/-- The parts of a path between its slashes, without those that mean nothing. -/
def components (path : String) : List String :=
  ((pieces (· == '/') path.toList).map String.ofList).filter fun part => part != "" && part != "."

/-- The parts `kept`, the last first, with one more part behind them.  At the root `..` means
nothing; where nothing is left to take away it stays. -/
def descend (rooted : Bool) (kept : List String) (part : String) : List String :=
  if part == ".." then
    match kept with
    | [] => if rooted then [] else [".."]
    | last :: outer =>
        if last != ".." then outer else if rooted then kept else ".." :: kept
  else part :: kept

/-- The parts of a path once `..` has taken away what it can. -/
def normalParts (path : String) : List String :=
  ((components path).foldl (descend (isRooted path)) []).reverse

/-- A path as patterns see it. -/
def normal (path : String) : String :=
  (if isRooted path then "//" else "/") ++ "/".intercalate (normalParts path)

end Beautifier.Path
