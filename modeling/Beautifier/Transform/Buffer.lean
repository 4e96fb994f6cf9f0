/-
Output buffers.

An output text is handed over in memory that an allocator gives: the bytes
of the text, a NUL behind them, and whatever the memory held after that.
-/
import Beautifier.Text.Utf8

namespace Beautifier

/-- What an allocator answers to a request for so many bytes: nothing, or a block of memory of
some size. -/
abbrev Allocator := Nat → Option (List UInt8)

namespace Allocator

/-- Gives what is asked for. -/
def exact : Allocator := fun n => some (List.replicate n 0)

/-- Gives nothing. -/
def refusing : Allocator := fun _ => none

/-- Gives one byte less than asked for, but at least one. -/
def short : Allocator := fun n => some (List.replicate (max (n - 1) 1) 0)

/-- Gives seven bytes more than asked for. -/
def generous : Allocator := fun n => some (List.replicate (n + 7) 0)

/-- The bytes that a managed block needs in front, to hold its size. -/
def headerSize : Nat := 8

/-- The largest block of memory, header included, that can be aligned for its header: `2^63 - 8`. -/
def largestBlock : Nat := 0x7FFFFFFFFFFFFFF8

/-- The bytes of memory that a program can have an address for: `2^47`. -/
def addressSpace : Nat := 0x800000000000

/-- Whether a managed block of a size can be given. -/
def manages (size : Nat) : Bool :=
  size != 0 && size + headerSize ≤ largestBlock && size + headerSize ≤ addressSpace

/-- Gives managed blocks. -/
def managed : Allocator := fun n => if manages n then some (List.replicate n 0) else none

end Allocator

/-- The bytes before the first NUL. -/
def untilNul (bytes : List UInt8) : List UInt8 := bytes.takeWhile (· != 0)

/-- A text in a block of memory. -/
structure Buffer where
  /-- The bytes of the whole block. -/
  block : List UInt8
  /-- The number of bytes of the text. -/
  length : Nat
deriving DecidableEq, Repr

namespace Buffer

/-- A block of memory with a text and a NUL written at its start; none if they do not fit. -/
def store? (text : List UInt8) (block : List UInt8) : Option Buffer :=
  if block.length < text.length + 1 then none
  else some ⟨text ++ 0 :: block.drop (text.length + 1), text.length⟩

def bytes (b : Buffer) : List UInt8 := b.block.take b.length

/-- The bytes of the text and the NUL behind it. -/
def bytesWithNul (b : Buffer) : List UInt8 := b.block.take (b.length + 1)

/-- The text as one who stops at the first NUL reads it. -/
def cString (b : Buffer) : List UInt8 := untilNul b.bytesWithNul

theorem bytes_of_store? {text block : List UInt8} {b : Buffer} (h : store? text block = some b) :
    b.bytes = text := by
  unfold store? at h
  split at h
  · cases h
  · cases h
    simp [bytes]

theorem bytesWithNul_of_store? {text block : List UInt8} {b : Buffer}
    (h : store? text block = some b) : b.bytesWithNul = text ++ [0] := by
  unfold store? at h
  split at h
  · cases h
  · cases h
    simp [bytesWithNul, List.take_append, List.take_of_length_le]

end Buffer

end Beautifier
