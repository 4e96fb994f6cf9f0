/-
The ways to have a source formatted.

All of them come down to `formatBytes`.  A transform puts the text into
memory of the caller's choice and reports at most one failure; a call is a
transform by one who may hand over nothing in any place.
-/
import Beautifier.Text.Utf8
import Beautifier.Transform.Buffer
import Beautifier.Transform.Failure
import Beautifier.Format

namespace Beautifier

def engineVersion : String := "3.1"

/-- The text of a source given as bytes, formatted under options given as bytes.  The source
must be UTF-8; what is not UTF-8 in the options is read as U+FFFD. -/
def formatBytes (source options : List UInt8) : Except Failure String :=
  match Utf8.decode source with
  | .error offset => .error (.input offset)
  | .ok text =>
      match parseOptions (Utf8.decodeLossy options) with
      | .error e => .error (.options e)
      | .ok o => .ok (format o text)

/-- What has come of a transform: the output, the reports, and the requests for memory. -/
structure Outcome where
  output : Option Buffer
  events : List Event
  requests : List Nat
deriving DecidableEq, Repr

namespace Outcome

/-- A failure, after some requests for memory. -/
def failed (f : Failure) (requests : List Nat) : Outcome := ⟨none, [f.event], requests⟩

end Outcome

/-- Puts a text into memory, asking once for its bytes and a NUL. -/
def handOver (allocator : Allocator) (text : String) : Outcome :=
  let bytes := Utf8.encode text
  let request := bytes.length + 1
  match (allocator request).bind (Buffer.store? bytes) with
  | some buffer => ⟨some buffer, [], [request]⟩
  | none => .failed .allocation [request]

/-- Formats a source into memory that an allocator gives. -/
def transform (source options : List UInt8) (allocator : Allocator) : Outcome :=
  match formatBytes source options with
  | .error f => .failed f []
  | .ok text => handOver allocator text

/-- Formats a source and drops the report of a failure. -/
def wrap (source options : String) : Option Buffer :=
  (transform (Utf8.encode source) (Utf8.encode options) .exact).output

/-! ## Calls -/

/-- Who hears of failures. -/
inductive Handler where
  /-- The caller. -/
  | caller
  /-- Nobody but the reader of the standard error stream. -/
  | standard
deriving DecidableEq, Repr

/-- An event as it is heard of where texts end at their first NUL: a message with a NUL in it is
left empty. -/
def Event.heard (e : Event) : Event :=
  if e.message.toList.contains '\x00' then { e with message := "" } else e

/-- The events that reach the caller. -/
def Handler.received : Handler → List Event → List Event
  | caller, es => es.map Event.heard
  | standard, _ => []

/-- A transform by one who may leave out the source, the options or the allocator.  The source
and the options end at their first NUL. -/
def call (source options : Option (List UInt8)) (handler : Handler)
    (allocator : Option Allocator) : Outcome :=
  let outcome := match source, options, allocator with
    | none, _, _ => Outcome.failed .noSource []
    | some _, none, _ => .failed .noOptions []
    | some _, some _, none => .failed .noAllocator []
    | some source, some options, some allocator =>
        transform (untilNul source) (untilNul options) allocator
  { outcome with events := handler.received outcome.events }

/-- A call with the standard handler and managed memory: what the caller reads of the output. -/
def callManaged (source options : Option (List UInt8)) : Option (List UInt8) :=
  (call source options .standard (some .managed)).output.map Buffer.cString

end Beautifier
