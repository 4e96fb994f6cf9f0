/-
Formatting many sources under one options text.

A session reads its options text once, when it is set.  A desk holds a
session and one copy put aside.
-/
import Beautifier.Transform.Entry

namespace Beautifier

/-- An options text and what came of reading it. -/
structure Session where
  optionsText : String
  parsed : Except OptionsError Options

namespace Session

def new : Session := ⟨"", .ok .default⟩

def setOptions (_ : Session) (text : String) : Session := ⟨text, parseOptions text⟩

def withOptions (text : String) : Session := new.setOptions text

def format (s : Session) (source : String) : Except Failure String :=
  match s.parsed with
  | .ok o => .ok (Beautifier.format o source)
  | .error e => .error (.options e)

inductive Request where
  | new
  | withOptions (text : String)
  | setOptions (text : String)
  /-- Put a copy of the session aside. -/
  | save
  /-- Take the copy back. -/
  | restore
  | version
  | format (source : String)

inductive Reply where
  | done
  | version (text : String)
  | formatted (text : String)
  | failed (f : Failure)

/-- A session in use and a copy put aside. -/
structure Desk where
  current : Session
  saved : Session

/-- A desk at the start: nothing set, nothing put aside. -/
def Desk.start : Desk := ⟨.new, .new⟩

def Desk.serve (d : Desk) : Request → Desk × Reply
  | .new => ({ d with current := .new }, .done)
  | .withOptions text => ({ d with current := .withOptions text }, .done)
  | .setOptions text => ({ d with current := d.current.setOptions text }, .done)
  | .save => ({ d with saved := d.current }, .done)
  | .restore => ({ d with current := d.saved }, .done)
  | .version => (d, .version engineVersion)
  | .format source =>
      match d.current.format source with
      | .ok text => (d, .formatted text)
      | .error f => (d, .failed f)

/-- Does what is asked for in turn: each reply with the desk behind it. -/
def Desk.serveAll : Desk → List Request → List (Desk × Reply)
  | _, [] => []
  | d, r :: rest =>
      let (d, reply) := d.serve r
      (d, reply) :: serveAll d rest

end Session

end Beautifier
