/-
Numbers in a configuration text.

A word is an integer in one of four bases, or a decimal.  Integers are held in
64 bits and decimals are rounded to binary numbers of 64 bits; a word whose
value is held by neither is no number.
-/

namespace Beautifier

inductive Number where
  | integer (n : Int)
  /-- A decimal, rounded to the nearest binary number. -/
  | decimal (x : Float)

namespace Number

def same : Number → Number → Bool
  | integer m, integer n => m == n
  | decimal x, decimal y => x == y || (x.isNaN && y.isNaN)
  | _, _ => false

/-! ## Digits -/

/-- The value of a digit in a base up to sixteen. -/
def digitValue? (c : Char) : Option Nat :=
  if c.isDigit then some (c.toNat - '0'.toNat)
  else if 'a' ≤ c && c ≤ 'f' then some (c.toNat - 'a'.toNat + 10)
  else if 'A' ≤ c && c ≤ 'F' then some (c.toNat - 'A'.toNat + 10)
  else none

/-- The value of digits in a base behind others of the value `value`. -/
def digitsFrom? (base value : Nat) : List Char → Option Nat
  | [] => some value
  | c :: rest =>
      match digitValue? c with
      | some d => if d < base then digitsFrom? base (value * base + d) rest else none
      | none => none

/-- The value of digits in a base; there is at least one. -/
def digits? (base : Nat) (cs : List Char) : Option Nat :=
  if cs.isEmpty then none else digitsFrom? base 0 cs

/-- Whether a word is digits behind a zero, which is no number. -/
def isZeroLed : List Char → Bool
  | '0' :: rest => !rest.isEmpty && rest.all Char.isDigit
  | _ => false

/-! ## Integers -/

/-- The value of an integer without a sign. -/
def magnitude? : List Char → Option Nat
  | '0' :: 'x' :: digits => digits? 16 digits
  | '0' :: 'o' :: digits => digits? 8 digits
  | '0' :: 'b' :: digits => digits? 2 digits
  | word => if isZeroLed word then none else digits? 10 word

/-- The value of an integer of any size. -/
def integer? : List Char → Option Int
  | '-' :: word => (magnitude? word).map fun n => -(n : Int)
  | '+' :: word => (magnitude? word).map fun n => (n : Int)
  | word => (magnitude? word).map fun n => (n : Int)

/-- Whether an integer fits 64 bits, with a sign or without. -/
def isSingle (n : Int) : Bool := -0x8000000000000000 ≤ n && n ≤ 0xffffffffffffffff

/-- Whether an integer fits 128 bits, with a sign or without. -/
def isDouble (n : Int) : Bool :=
  -0x80000000000000000000000000000000 ≤ n && n ≤ 0xffffffffffffffffffffffffffffffff

/-- Whether a word is an integer that fits 128 bits and not 64.  Such a word has no value at all;
one that is larger still is no integer. -/
def isUnheld (word : List Char) : Bool :=
  match integer? word with
  | some n => isDouble n && !isSingle n
  | none => false

def ofInteger? (word : List Char) : Option Number :=
  match integer? word with
  | some n => if isSingle n then some (integer n) else none
  | none => none

/-! ## Decimals -/

/-- The binary number nearest to `n * 10 ^ e`, if it is finite.  It is not when `n * 10 ^ e` has
more than 400 digits, and it is zero when there are more than 400 zeros behind its point. -/
def nearest? (n : Nat) (e : Int) : Option Float :=
  let top := (Nat.toDigits 10 n).length + e
  if n == 0 || top < -400 then some 0
  else if 400 < top then none
  else
    let x := Float.ofScientific n (e < 0) e.natAbs
    if x.isFinite then some x else none

/-- The power of ten that a text behind the digits of a decimal stands for. -/
def exponent? : List Char → Option Int
  | [] => some 0
  | e :: rest =>
      if e == 'e' || e == 'E' then
        match rest with
        | '-' :: digits => (digits? 10 digits).map fun n => -(n : Int)
        | '+' :: digits => (digits? 10 digits).map fun n => (n : Int)
        | digits => (digits? 10 digits).map fun n => (n : Int)
      else none

/-- The value of a decimal without a sign: digits with at most one point among or around them,
and perhaps an exponent. -/
def unsignedDecimal? (word : List Char) : Option Float :=
  let whole := word.takeWhile Char.isDigit
  let (fraction, rest) :=
    match word.dropWhile Char.isDigit with
    | '.' :: rest => (rest.takeWhile Char.isDigit, rest.dropWhile Char.isDigit)
    | rest => ([], rest)
  match digits? 10 (whole ++ fraction), exponent? rest with
  | some n, some e => nearest? n (e - fraction.length)
  | _, _ => none

def infinity : Float := Float.ofBits 0x7FF0000000000000

def infinityWords : List String := [".inf", ".Inf", ".INF"]

def nanWords : List String := [".nan", ".NaN", ".NAN"]

/-- The value of a decimal without a sign, or of the word for infinity. -/
def unsigned? (word : List Char) : Option Float :=
  if infinityWords.contains (String.ofList word) then some infinity else unsignedDecimal? word

def ofDecimal? (word : List Char) : Option Number :=
  let value :=
    match word with
    | '-' :: word => (unsigned? word).map fun x => -x
    | '+' :: word => unsigned? word
    | word =>
        if nanWords.contains (String.ofList word) then some (Float.ofBits 0x7FF8000000000000)
        else unsigned? word
  value.map decimal

def dropSign : List Char → List Char
  | '-' :: word => word
  | '+' :: word => word
  | word => word

def ofWord? (word : List Char) : Option Number :=
  match ofInteger? word with
  | some n => some n
  | none => if isZeroLed (dropSign word) then none else ofDecimal? word

end Number

end Beautifier
