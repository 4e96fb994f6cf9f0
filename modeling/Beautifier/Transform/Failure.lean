/-
Why a source could not be formatted, with the codes and texts reported for it.
-/
import Beautifier.Options.Directive

namespace Beautifier

/-- The codes of failures, stable for callers. -/
inductive ErrorCode where
  | noSource
  | noOptions
  | noAllocator
  | allocation
  | options
  | input
  | internal
deriving DecidableEq, Repr

namespace ErrorCode

def all : List ErrorCode :=
  [noSource, noOptions, noAllocator, allocation, options, input, internal]

def value : ErrorCode → Int
  | noSource => 101
  | noOptions => 102
  | noAllocator => 103
  | allocation => 120
  | options => 130
  | input => 140
  | internal => 199

def ofValue? (n : Int) : Option ErrorCode := all.find? (·.value == n)

def description : ErrorCode → String
  | noSource => "No pointer to source input."
  | noOptions => "No pointer to AStyle options."
  | noAllocator => "No pointer to memory allocation function."
  | allocation => "Allocation failure on output."
  | options => "Invalid Artistic Style options."
  | input => "Source input is not valid UTF-8."
  | internal => "Internal error while formatting."

/-- What a number stands for, whether it is a code or not. -/
def describe (n : Int) : String :=
  match ofValue? n with
  | some code => code.description
  | none => "Unknown error code."

theorem ofValue?_value (c : ErrorCode) : ofValue? c.value = some c := by
  cases c <;> rfl

end ErrorCode

/-- Why a source could not be formatted. -/
inductive Failure where
  /-- No source was handed over. -/
  | noSource
  /-- No options were handed over. -/
  | noOptions
  /-- No allocator was handed over. -/
  | noAllocator
  /-- The allocator gave no memory, or too little. -/
  | allocation
  /-- The options text is refused. -/
  | options (e : OptionsError)
  /-- The source is not UTF-8 from the byte at `offset` on. -/
  | input (offset : Nat)
deriving DecidableEq, Repr

namespace Failure

def code : Failure → ErrorCode
  | noSource => .noSource
  | noOptions => .noOptions
  | noAllocator => .noAllocator
  | allocation => .allocation
  | options _ => .options
  | input _ => .input

/-- The text of a failure: that of its code, with the rejected options or the offset in it. -/
def message : Failure → String
  | options e => e.message
  | input offset => "Source input is not valid UTF-8 (byte offset " ++ toString offset ++ ")."
  | f => f.code.description

end Failure

/-- A failure as it is reported. -/
structure Event where
  code : Int
  message : String
deriving DecidableEq, Repr

def Failure.event (f : Failure) : Event := ⟨f.code.value, f.message⟩

end Beautifier
