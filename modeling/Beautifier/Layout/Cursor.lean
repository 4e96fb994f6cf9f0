/-
A token in its place among the others.
-/
import Beautifier.Token.Basic

namespace Beautifier

/-- A token with what stands before and behind it. -/
structure Cursor where
  /-- The tokens before, the nearest first. -/
  before : List Token
  token : Token
  /-- The tokens behind, the nearest first. -/
  after : List Token
  /-- The number of tokens before. -/
  position : Nat
  /-- The position of the closing brace that matches this opening brace. -/
  closer : Option Nat

namespace Cursor

def prevCode (c : Cursor) : Option Token := firstCode c.before

def nextCode (c : Cursor) : Option Token := firstCode c.after

def nextCodeIs (c : Cursor) (p : Token → Bool) : Bool := c.nextCode.any p

/-- The tokens from a position up to this one, the nearest first. -/
def since (c : Cursor) (start : Nat) : List Token := c.before.take (c.position - start)

/-- The tokens before a position, the nearest first. -/
def beforePosition (c : Cursor) (start : Nat) : List Token := c.before.drop (c.position - start)

def tokenAt? (c : Cursor) (start : Nat) : Option Token :=
  if start < c.position then c.before[c.position - start - 1]? else none

def isWordAt (c : Cursor) (start : Nat) (text : String) : Bool :=
  (c.tokenAt? start).any (·.isWord text)

/-- The tokens behind a position that is not before this one. -/
def afterPosition (c : Cursor) (position : Nat) : List Token :=
  c.after.drop (position - c.position)

/-- The tokens behind this one up to a position and with it. -/
def upTo (c : Cursor) (position : Nat) : List Token := c.after.take (position - c.position)

end Cursor

end Beautifier
