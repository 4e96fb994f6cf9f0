/-
Which closing brace belongs to which opening brace.
-/
import Beautifier.Token.Basic

namespace Beautifier.Matching

/-- The pairs of an opening brace and its closing brace, by position: a closing brace ends the
innermost block that is open, and one that ends no block is passed over.  `opened` holds the
positions of the open braces, the innermost first. -/
def pairs (position : Nat) (opened : List Nat) : List Token → List (Nat × Nat)
  | [] => []
  | t :: rest =>
      if t.is "\x7b" then pairs (position + 1) (position :: opened) rest
      else if t.is "\x7d" then
        match opened with
        | [] => pairs (position + 1) [] rest
        | start :: outer => (start, position) :: pairs (position + 1) outer rest
      else pairs (position + 1) opened rest

/-- For each token, the position of the closing brace if the token is an opening brace that has
one. -/
def closers (tokens : List Token) : Array (Option Nat) :=
  (pairs 0 [] tokens).foldl (fun a p => a.setIfInBounds p.1 (some p.2))
    (Array.replicate tokens.length none)

end Beautifier.Matching
