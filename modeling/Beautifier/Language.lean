/-
The languages of the C family that the beautifier tells apart.
-/

namespace Beautifier

inductive Language where
  /-- C and C++. -/
  | c
  | java
  | cSharp
deriving DecidableEq, Repr

namespace Language

/-- Lines that start with `#` are directives. -/
def hasDirectives (l : Language) : Bool := l != java

/-- `*` and `&` may belong to a declarator. -/
def hasPointers (l : Language) : Bool := l == c

/-- String literals of the form `R"x(...)x"`. -/
def hasRawStrings (l : Language) : Bool := l == c

/-- String literals of the form `@"..."`. -/
def hasVerbatimStrings (l : Language) : Bool := l == cSharp

end Language

end Beautifier
