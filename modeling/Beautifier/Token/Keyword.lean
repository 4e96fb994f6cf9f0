/-
Classes of words that steer the layout.
-/

namespace Beautifier.Keyword

/-- Headers followed by a condition in parentheses. -/
def conditionHeaders : List String :=
  ["if", "for", "while", "switch", "catch", "foreach", "lock", "synchronized", "fixed", "using"]

/-- Headers whose body follows directly. -/
def plainHeaders : List String := ["else", "do", "try", "finally"]

def isHeader (word : String) : Bool :=
  conditionHeaders.contains word || plainHeaders.contains word

/-- Headers of the blocks that may be set apart by empty lines. -/
def blockHeaders : List String :=
  ["if", "for", "while", "do", "switch", "try", "foreach", "lock", "synchronized"]

/-- Words that end no operand, so that no operator behind them is binary. -/
def nonOperands : List String :=
  ["return", "case", "throw", "new", "delete", "sizeof", "alignof", "typeof", "goto", "else",
   "do", "operator", "co_return", "co_yield", "co_await", "await", "yield", "in", "is", "as",
   "and", "or", "not", "if", "while", "for", "switch", "catch"]

/-- Words that stand in declarations only. -/
def typeWords : List String :=
  ["void", "char", "short", "int", "long", "float", "double", "signed", "unsigned", "bool",
   "const", "volatile", "struct", "enum", "union", "class", "typename", "auto", "size_t",
   "wchar_t", "char8_t", "char16_t", "char32_t"]

/-- Words behind a parameter list that still belong to the declarator. -/
def declaratorSuffixes : List String :=
  ["const", "override", "final", "noexcept", "volatile", "mutable"]

/-- Words that introduce a class body. -/
def classWords : List String := ["class", "struct", "union", "interface"]

def accessModifiers : List String := ["public", "protected", "private"]

/-- Section names that may stand alone or behind an access modifier. -/
def sections : List String := ["slots", "signals", "Q_SLOTS", "Q_SIGNALS"]

/-- Whether a word may start an access label such as `public:` or `private slots:`. -/
def startsAccess (word : String) : Bool :=
  accessModifiers.contains word || sections.contains word

end Beautifier.Keyword
