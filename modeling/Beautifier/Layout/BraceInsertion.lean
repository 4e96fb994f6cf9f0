/-
Braces around the bodies of headers.

A body that is a single statement on one line is put in braces: an opening
brace stands before its first token, and a closing brace, on a line of its
own, behind its last.  A line comment behind the statement belongs to it.
-/
import Beautifier.Token.Keyword
import Beautifier.Token.Basic

namespace Beautifier.BraceInsertion

/-- The first code token of a list at `position`: its position and the list that it starts. -/
def seekCode (position : Nat) : List Token → Option (Nat × List Token)
  | [] => none
  | t :: rest => if t.isTrivia then seekCode (position + 1) rest else some (position, t :: rest)

/-- What stands behind the parenthesis that closes a list of tokens with `depth` open ones. -/
def behindParen (position depth : Nat) : List Token → Option (Nat × List Token)
  | [] => none
  | t :: rest =>
      if t.is "(" then behindParen (position + 1) (depth + 1) rest
      else if t.is ")" then
        if depth ≤ 1 then some (position + 1, rest)
        else behindParen (position + 1) (depth - 1) rest
      else behindParen (position + 1) depth rest

/-- The number of open brackets behind a token. -/
def depthAfter (depth : Nat) (t : Token) : Nat :=
  if t.isOneOf ["(", "["] then depth + 1
  else if t.isOneOf [")", "]"] then depth - 1
  else depth

def startsLine (ts : List Token) : Bool := ts.head?.any (0 < ·.lineBreaks)

/-- The semicolon that ends a statement on one line: its position and what stands behind it.
None if the statement goes on in another line, holds a directive, or holds a brace outside its
brackets. -/
def statementEnd (position depth : Nat) : List Token → Option (Nat × List Token)
  | [] => none
  | t :: rest =>
      if depth == 0 && t.is ";" then some (position, rest)
      else if t.kind == .directive || (depth == 0 && t.isOneOf ["\x7b", "\x7d"])
          || startsLine rest then none
      else statementEnd (position + 1) (depthAfter depth t) rest

/-- Whether a body that starts with a token is never put in braces. -/
def standsAlone (t : Token) : Bool :=
  t.isOneOf ["\x7b", ";"] || (t.kind == .word && Keyword.isHeader t.text)

/-- The position of the last token of the body that starts a list, if it is a single statement
on one line. -/
def bodyEnd? (position : Nat) (ts : List Token) : Option Nat :=
  if ts.head?.any standsAlone then none
  else (statementEnd position 0 ts).map fun (semicolon, rest) =>
    if rest.head?.any fun t => t.kind == .lineComment && t.lineBreaks == 0 then semicolon + 1
    else semicolon

/-- Headers of bodies that may be put in braces. -/
def bracedHeaders : List String := ["if", "for", "while", "foreach"]

/-- The body of the header `t`: its position and the list that it starts.  `rest` stands behind
the header, the first of it at `position`. -/
def bodyStart? (position : Nat) (t : Token) (rest : List Token) : Option (Nat × List Token) :=
  if t.kind != .word then none
  else if bracedHeaders.contains t.text then
    (seekCode position rest).bind fun (opened, inside) =>
      if inside.head?.any (·.is "(") then
        (behindParen opened 0 inside).bind fun (behind, body) => seekCode behind body
      else none
  else if t.text == "else" then
    (seekCode position rest).filter fun (_, body) => !body.head?.any (·.isWord "if")
  else none

/-- The bodies to be put in braces, as the positions of their first and last tokens, in the
order of their headers. -/
def bodies (position : Nat) : List Token → List (Nat × Nat)
  | [] => []
  | t :: rest =>
      let body? := (bodyStart? (position + 1) t rest).bind fun (start, body) =>
        (bodyEnd? start body).map fun last => (start, last)
      body?.toList ++ bodies (position + 1) rest

def openingBrace : Token := .insertedPunctuation "\x7b" 0

/-- A closing brace on the line behind a body. -/
def closingBrace : Token := .insertedPunctuation "\x7d" 1

/-- Puts in braces.  `opens` and `closes` are queues of positions: at each token, the positions
at the front of `opens` that are its own each put an opening brace before it, and those of
`closes` a closing brace behind it. -/
def insertAt (position : Nat) (opens closes : List Nat) : List Token → List Token
  | [] => []
  | t :: rest =>
      let here := (· == position)
      (opens.takeWhile here).map (fun _ => openingBrace)
        ++ t :: (closes.takeWhile here).map (fun _ => closingBrace)
        ++ insertAt (position + 1) (opens.dropWhile here) (closes.dropWhile here) rest

/-- The tokens with braces around the one-line bodies of headers.  The opening braces are put in
in the order of their headers, the closing braces in the order of their positions. -/
def insertBraces (tokens : List Token) : List Token :=
  let found := bodies 0 tokens
  insertAt 0 (found.map (·.1)) ((found.map (·.2)).mergeSort (· ≤ ·)) tokens

end Beautifier.BraceInsertion
